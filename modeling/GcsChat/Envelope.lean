import GcsChat.Aead
import GcsChat.ByteString

/-!
# The envelope

`EncryptPayload` and `DecryptPayload` of `gcs_crypto.cpp`. The buffers they fill are as long as the
strings they are given, while OpenSSL is given their lengths as an `int`: of a string that is longer
than an `int` can say, only the first bytes are encrypted or decrypted, or none and the call fails.
-/

namespace GcsChat

open ByteString

namespace Crypto

def kGcmNonceLength : ℕ := 12
def kGcmTagLength : ℕ := 16
def kRoomKeyLengthBytes : ℕ := 32
def kMessagesHkdfSalt : Bytes := ofString "gcs-messages-hkdf-v1"
def kMessagesHkdfInfo : Bytes := ofString "gcs-messages-v1"

/-- What is used of OpenSSL: HKDF-SHA256 with a salt, a key and an info, and AES-256-GCM. -/
structure OpenSsl where
  hkdf : Bytes → Bytes → Bytes → Option Bytes
  gcm : Aead Bytes kGcmTagLength

structure Contexts where
  pkey : Bool
  cipher : Bool

def Contexts.available : Contexts := ⟨true, true⟩

structure Nonce where
  bytes : Bytes
  length_eq : bytes.length = kGcmNonceLength

inductive DecryptResult
  | plaintext (bytes : Bytes)
  | gcsDbError
  | underflow
  deriving DecidableEq

/-- `static_cast<int>` of a length. -/
def castInt (n : ℕ) : ℤ := (BitVec.ofNat 32 n).toInt

/-- The number of bytes OpenSSL works on when it is given the length `n`; a negative one makes it
fail. -/
def byteCount (n : ℕ) : Option ℕ := if castInt n < 0 then none else some (castInt n).toNat

/-- A subtraction of sizes, which must not wrap around. -/
def checkedSub (a b : ℕ) : Option ℕ := if b ≤ a then some (a - b) else none

/-- A buffer of `size` zeros after OpenSSL has written to it. -/
def written (size : ℕ) (bytes : Bytes) : Bytes := bytes ++ List.replicate (size - bytes.length) 0

variable (S : OpenSsl)

def deriveRoomKey (contexts : Contexts) (roomTopic : Bytes) : Option Bytes :=
  if contexts.pkey then do
    let count ← byteCount roomTopic.length
    let key ← S.hkdf kMessagesHkdfSalt (roomTopic.take count) kMessagesHkdfInfo
    if key.length = kRoomKeyLengthBytes then some key else none
  else none

/-- The `EVP_Encrypt` calls: the ciphertext buffer and the tag. -/
def evpEncrypt (key nonce plaintext : Bytes) : Option (Bytes × Bytes) :=
  (byteCount plaintext.length).map fun count =>
    let (ciphertext, tag) := S.gcm.encrypt key nonce (plaintext.take count)
    (written plaintext.length ciphertext, tag)

/-- The `EVP_Decrypt` calls: the plaintext buffer. -/
def evpDecrypt (key nonce ciphertext tag : Bytes) : Option Bytes :=
  (byteCount ciphertext.length).bind fun count =>
    (S.gcm.decrypt key nonce (ciphertext.take count) tag).map (written ciphertext.length)

/-- A `random` of `none` is a failure of `RAND_bytes`. -/
def encryptPayload (contexts : Contexts) (random : Option Nonce) (roomTopic plaintext : Bytes) :
    Option Bytes := do
  let key ← deriveRoomKey S contexts roomTopic
  let nonce ← random
  if contexts.cipher then do
    let (ciphertext, tag) ← evpEncrypt S key nonce.bytes plaintext
    return nonce.bytes ++ ciphertext ++ tag
  else none

def decryptPayload (contexts : Contexts) (roomTopic envelope : Bytes) : DecryptResult :=
  if envelope.length < kGcmNonceLength + kGcmTagLength then .gcsDbError
  else
    match deriveRoomKey S contexts roomTopic with
    | none => .gcsDbError
    | some key =>
        match (checkedSub envelope.length kGcmNonceLength).bind (checkedSub · kGcmTagLength) with
        | none => .underflow
        | some cipherLen =>
            let nonce := envelope.take kGcmNonceLength
            let ciphertext := (envelope.drop kGcmNonceLength).take cipherLen
            let tag := (envelope.drop (kGcmNonceLength + cipherLen)).take kGcmTagLength
            if contexts.cipher then
              match evpDecrypt S key nonce ciphertext tag with
              | none => .gcsDbError
              | some plaintext => .plaintext plaintext
            else .gcsDbError

/-- Past the count of its length that OpenSSL is given, a buffer has zeros only. -/
def CountCovers (buffer : Bytes) : Prop :=
  ∀ count, byteCount buffer.length = some count → ∀ b ∈ buffer.drop count, b = 0

/-- Every envelope of the plaintext has the length of its three parts, and decrypts to it. -/
def RoundTrips (roomTopic plaintext : Bytes) : Prop :=
  ∀ contexts random envelope, encryptPayload S contexts random roomTopic plaintext = some envelope →
    envelope.length = kGcmNonceLength + plaintext.length + kGcmTagLength ∧
      decryptPayload S .available roomTopic envelope = .plaintext plaintext

/-- What the envelope decrypts to is shorter by nonce and tag, and gives back the envelope when it is
encrypted with the nonce of the envelope. -/
def Reseals (roomTopic envelope : Bytes) : Prop :=
  ∀ contexts plaintext, decryptPayload S contexts roomTopic envelope = .plaintext plaintext →
    envelope.length = plaintext.length + 28 ∧
      ∀ nonce : Nonce, nonce.bytes = envelope.take kGcmNonceLength →
        encryptPayload S .available (some nonce) roomTopic plaintext = some envelope

def envelopeCiphertext (envelope : Bytes) : Bytes :=
  (envelope.drop kGcmNonceLength).take (envelope.length - kGcmNonceLength - kGcmTagLength)

def envelopeTag (envelope : Bytes) : Bytes :=
  (envelope.drop (kGcmNonceLength + (envelope.length - kGcmNonceLength - kGcmTagLength))).take
    kGcmTagLength

/-- The envelope is long enough, and its tag is right for the bytes that OpenSSL is given. -/
def Authenticates (roomTopic envelope : Bytes) : Prop :=
  kGcmNonceLength + kGcmTagLength ≤ envelope.length ∧
    ∃ key count, deriveRoomKey S .available roomTopic = some key ∧
      byteCount (envelopeCiphertext envelope).length = some count ∧
      (S.gcm.decrypt key (envelope.take kGcmNonceLength) ((envelopeCiphertext envelope).take count)
        (envelopeTag envelope)).isSome

theorem byteCount_eq_some_iff {n count : ℕ} :
    byteCount n = some count ↔ count = n % 2 ^ 32 ∧ n % 2 ^ 32 < 2 ^ 31 := by
  have hnat : (BitVec.ofNat 32 n).toNat = n % 2 ^ 32 := BitVec.toNat_ofNat n 32
  rw [byteCount, castInt]
  by_cases hsmall : n % 2 ^ 32 < 2 ^ 31
  · have hint : (BitVec.ofNat 32 n).toInt = (n % 2 ^ 32 : ℕ) := by
      rw [BitVec.toInt_eq_toNat_of_lt (by omega), hnat]
    rw [hint, if_neg (Int.not_lt.2 (Int.natCast_nonneg _)), Int.toNat_natCast, Option.some_inj,
      eq_comm]
    exact (and_iff_left hsmall).symm
  · have hneg : (BitVec.ofNat 32 n).toInt < 0 := by
      rw [BitVec.toInt_neg_iff]
      omega
    rw [if_pos hneg]
    exact iff_of_false nofun fun h => hsmall h.2

theorem byteCount_le {n count : ℕ} (h : byteCount n = some count) : count ≤ n := by
  rw [(byteCount_eq_some_iff.1 h).1]
  exact Nat.mod_le _ _

theorem countCovers_of_lt {buffer : Bytes} (h : buffer.length < 2 ^ 31) : CountCovers buffer := by
  intro count hcount b hb
  have hall : count = buffer.length := by
    rw [(byteCount_eq_some_iff.1 hcount).1]
    exact Nat.mod_eq_of_lt (h.trans (by decide))
  rw [hall, List.drop_length] at hb
  exact absurd hb List.not_mem_nil

theorem length_written {size : ℕ} {bytes : Bytes} (h : bytes.length ≤ size) :
    (written size bytes).length = size := by
  rw [written, List.length_append, List.length_replicate]
  omega

theorem take_written {size count : ℕ} {bytes : Bytes} (h : bytes.length = count) :
    (written size bytes).take count = bytes := by
  rw [written, List.take_left' h]

theorem written_take_iff {buffer : Bytes} {count : ℕ} (h : count ≤ buffer.length) :
    written buffer.length (buffer.take count) = buffer ↔ ∀ b ∈ buffer.drop count, b = 0 := by
  have hlength : (buffer.take count).length = count := List.length_take_of_le h
  calc written buffer.length (buffer.take count) = buffer
      ↔ buffer.take count ++ List.replicate (buffer.length - count) 0 =
          buffer.take count ++ buffer.drop count := by
        rw [written, hlength, List.take_append_drop]
    _ ↔ buffer.drop count = List.replicate (buffer.length - count) 0 := by
        rw [List.append_cancel_left_eq, eq_comm]
    _ ↔ ∀ b ∈ buffer.drop count, b = 0 := by
        rw [List.eq_replicate_iff, List.length_drop]
        exact and_iff_right rfl

section Evp

variable {S} {key nonce plaintext ciphertext tag : Bytes} {count : ℕ}

theorem evpEncrypt_eq (hcount : byteCount plaintext.length = some count) :
    evpEncrypt S key nonce plaintext =
      some (written plaintext.length (S.gcm.encrypt key nonce (plaintext.take count)).1,
        (S.gcm.encrypt key nonce (plaintext.take count)).2) := by
  rw [evpEncrypt, hcount]
  rfl

theorem evpDecrypt_eq (hcount : byteCount ciphertext.length = some count) :
    evpDecrypt S key nonce ciphertext tag =
      (S.gcm.decrypt key nonce (ciphertext.take count) tag).map (written ciphertext.length) := by
  rw [evpDecrypt, hcount]
  rfl

theorem length_encrypt_take (hcount : byteCount plaintext.length = some count) :
    (S.gcm.encrypt key nonce (plaintext.take count)).1.length = count := by
  rw [S.gcm.length_ciphertext, List.length_take_of_le (byteCount_le hcount)]

theorem length_of_evpEncrypt (h : evpEncrypt S key nonce plaintext = some (ciphertext, tag)) :
    ciphertext.length = plaintext.length ∧ tag.length = kGcmTagLength := by
  obtain ⟨count, hcount, hparts⟩ := Option.map_eq_some_iff.1 h
  obtain ⟨rfl, rfl⟩ := Prod.mk.inj hparts
  refine ⟨length_written ?_, S.gcm.length_tag _ _ _⟩
  rw [length_encrypt_take hcount]
  exact byteCount_le hcount

/-- Decrypting what was encrypted gives the bytes that OpenSSL was given, and zeros. -/
theorem evpDecrypt_of_evpEncrypt (hcount : byteCount plaintext.length = some count)
    (h : evpEncrypt S key nonce plaintext = some (ciphertext, tag)) :
    evpDecrypt S key nonce ciphertext tag =
      some (written plaintext.length (plaintext.take count)) := by
  have hlength := (length_of_evpEncrypt h).1
  rw [evpEncrypt_eq hcount] at h
  obtain ⟨hciphertext, htag⟩ := Prod.mk.inj (Option.some.inj h)
  have htake : ciphertext.take count = (S.gcm.encrypt key nonce (plaintext.take count)).1 := by
    rw [← hciphertext, take_written (length_encrypt_take hcount)]
  rw [evpDecrypt_eq (hlength ▸ hcount), htake, ← htag, S.gcm.decrypt_encrypt, Option.map_some,
    hlength]

theorem evpEncrypt_of_evpDecrypt (hcount : byteCount ciphertext.length = some count)
    (h : evpDecrypt S key nonce ciphertext tag = some plaintext) :
    plaintext.length = ciphertext.length ∧ evpEncrypt S key nonce plaintext =
      some (written ciphertext.length (ciphertext.take count), tag) := by
  rw [evpDecrypt_eq hcount] at h
  obtain ⟨opened, hopened, rfl⟩ := Option.map_eq_some_iff.1 h
  have hopenedLength : opened.length = count := by
    rw [S.gcm.length_of_decrypt hopened, List.length_take_of_le (byteCount_le hcount)]
  have hlength : (written ciphertext.length opened).length = ciphertext.length := by
    apply length_written
    rw [hopenedLength]
    exact byteCount_le hcount
  have hencrypt := S.gcm.encrypt_of_decrypt hopened
  refine ⟨hlength, ?_⟩
  rw [evpEncrypt_eq (hlength ▸ hcount), take_written hopenedLength, hencrypt, hlength]

end Evp

section Parts

variable {S} {contexts : Contexts} {roomTopic envelope nonce ciphertext tag plaintext key : Bytes}

theorem length_parts (hnonce : nonce.length = kGcmNonceLength) (htag : tag.length = kGcmTagLength) :
    (nonce ++ ciphertext ++ tag).length = kGcmNonceLength + ciphertext.length + kGcmTagLength := by
  rw [List.length_append, List.length_append, hnonce, htag]

theorem cipherLen_parts (hnonce : nonce.length = kGcmNonceLength)
    (htag : tag.length = kGcmTagLength) :
    (nonce ++ ciphertext ++ tag).length - kGcmNonceLength - kGcmTagLength = ciphertext.length := by
  rw [length_parts hnonce htag]
  omega

theorem take_parts (hnonce : nonce.length = kGcmNonceLength) :
    (nonce ++ ciphertext ++ tag).take kGcmNonceLength = nonce := by
  rw [List.append_assoc, List.take_left' hnonce]

theorem envelopeCiphertext_parts (hnonce : nonce.length = kGcmNonceLength)
    (htag : tag.length = kGcmTagLength) :
    envelopeCiphertext (nonce ++ ciphertext ++ tag) = ciphertext := by
  rw [envelopeCiphertext, cipherLen_parts hnonce htag, List.append_assoc, List.drop_left' hnonce,
    List.take_left]

theorem envelopeTag_parts (hnonce : nonce.length = kGcmNonceLength)
    (htag : tag.length = kGcmTagLength) :
    envelopeTag (nonce ++ ciphertext ++ tag) = tag := by
  have hlength : (nonce ++ ciphertext).length = kGcmNonceLength + ciphertext.length := by
    rw [List.length_append, hnonce]
  rw [envelopeTag, cipherLen_parts hnonce htag, List.drop_left' hlength, ← htag, List.take_length]

theorem parts_eq (h : kGcmNonceLength + kGcmTagLength ≤ envelope.length) :
    envelope.take kGcmNonceLength ++ envelopeCiphertext envelope ++ envelopeTag envelope =
      envelope := by
  have htail : (envelope.drop (kGcmNonceLength +
      (envelope.length - kGcmNonceLength - kGcmTagLength))).length ≤ kGcmTagLength := by
    rw [List.length_drop]
    omega
  rw [envelopeTag, List.take_of_length_le htail, envelopeCiphertext, List.append_assoc,
    ← List.drop_drop, List.take_append_drop, List.take_append_drop]

theorem length_envelopeCiphertext (envelope : Bytes) :
    (envelopeCiphertext envelope).length = envelope.length - kGcmNonceLength - kGcmTagLength := by
  rw [envelopeCiphertext, List.length_take_of_le]
  rw [List.length_drop]
  exact Nat.sub_le _ _

end Parts

section Payloads

variable {S} {contexts : Contexts} {random : Option Nonce}
  {roomTopic envelope plaintext key : Bytes} {count : ℕ}

theorem deriveRoomKey_available (h : deriveRoomKey S contexts roomTopic = some key) :
    deriveRoomKey S .available roomTopic = some key := by
  rw [deriveRoomKey] at h ⊢
  split_ifs at h with hpkey
  exact h

theorem checkedSub_of_le {a b : ℕ} (h : b ≤ a) : checkedSub a b = some (a - b) := if_pos h

/-- The size check comes before the subtractions. -/
theorem checkedSub_envelope (h : kGcmNonceLength + kGcmTagLength ≤ envelope.length) :
    (checkedSub envelope.length kGcmNonceLength).bind (checkedSub · kGcmTagLength) =
      some (envelope.length - kGcmNonceLength - kGcmTagLength) := by
  rw [checkedSub_of_le ((Nat.le_add_right _ _).trans h), Option.bind_some,
    checkedSub_of_le (Nat.le_sub_of_add_le' h)]

theorem encryptPayload_eq_some_iff :
    encryptPayload S contexts random roomTopic plaintext = some envelope ↔
      ∃ key nonce ciphertext tag, deriveRoomKey S contexts roomTopic = some key ∧
        random = some nonce ∧ contexts.cipher = true ∧
        evpEncrypt S key nonce.bytes plaintext = some (ciphertext, tag) ∧
        nonce.bytes ++ ciphertext ++ tag = envelope := by
  rw [encryptPayload]
  constructor
  · intro h
    obtain ⟨key, hkey, h⟩ := Option.bind_eq_some_iff.1 h
    obtain ⟨nonce, hnonce, h⟩ := Option.bind_eq_some_iff.1 h
    split_ifs at h with hcipher
    obtain ⟨⟨ciphertext, tag⟩, hencrypt, h⟩ := Option.bind_eq_some_iff.1 h
    exact ⟨key, nonce, ciphertext, tag, hkey, hnonce, hcipher, hencrypt, Option.some.inj h⟩
  · rintro ⟨key, nonce, ciphertext, tag, hkey, rfl, hcipher, hencrypt, rfl⟩
    simp only [hkey, hcipher, hencrypt, Option.bind_eq_bind, Option.bind_some, if_true]
    rfl

theorem decryptPayload_eq_plaintext_iff :
    decryptPayload S contexts roomTopic envelope = .plaintext plaintext ↔
      kGcmNonceLength + kGcmTagLength ≤ envelope.length ∧ contexts.cipher = true ∧
        ∃ key, deriveRoomKey S contexts roomTopic = some key ∧
          evpDecrypt S key (envelope.take kGcmNonceLength) (envelopeCiphertext envelope)
            (envelopeTag envelope) = some plaintext := by
  rw [decryptPayload]
  by_cases hshort : envelope.length < kGcmNonceLength + kGcmTagLength
  · rw [if_pos hshort]
    exact iff_of_false nofun fun h => absurd h.1 (Nat.not_le.2 hshort)
  · rw [if_neg hshort, and_iff_right (Nat.not_lt.1 hshort),
      checkedSub_envelope (Nat.not_lt.1 hshort)]
    cases hkey : deriveRoomKey S contexts roomTopic with
    | none => exact iff_of_false nofun fun h => nomatch h.2
    | some key =>
        cases hcipher : contexts.cipher with
        | false => exact iff_of_false nofun fun h => nomatch h.1
        | true =>
            simp only [Option.some.injEq, exists_eq_left', if_true, true_and]
            rw [← envelopeCiphertext, ← envelopeTag]
            cases evpDecrypt S key (envelope.take kGcmNonceLength) (envelopeCiphertext envelope)
              (envelopeTag envelope) with
            | none => exact iff_of_false nofun nofun
            | some opened => rw [DecryptResult.plaintext.injEq, Option.some_inj]

/-- No envelope makes a length wrap around. -/
theorem decryptPayload_ne_underflow (S : OpenSsl) (contexts : Contexts)
    (roomTopic envelope : Bytes) :
    decryptPayload S contexts roomTopic envelope ≠ .underflow := by
  rw [decryptPayload]
  by_cases hshort : envelope.length < kGcmNonceLength + kGcmTagLength
  · rw [if_pos hshort]
    exact nofun
  · rw [if_neg hshort, checkedSub_envelope (Nat.not_lt.1 hshort)]
    dsimp only
    split
    · exact nofun
    · split_ifs
      · split <;> exact nofun
      · exact nofun

theorem evpDecrypt_parts {nonce : Nonce} {ciphertext tag : Bytes}
    (hcount : byteCount plaintext.length = some count)
    (hencrypt : evpEncrypt S key nonce.bytes plaintext = some (ciphertext, tag)) :
    evpDecrypt S key ((nonce.bytes ++ ciphertext ++ tag).take kGcmNonceLength)
        (envelopeCiphertext (nonce.bytes ++ ciphertext ++ tag))
        (envelopeTag (nonce.bytes ++ ciphertext ++ tag)) =
      some (written plaintext.length (plaintext.take count)) := by
  have htag := (length_of_evpEncrypt hencrypt).2
  rw [take_parts nonce.length_eq, envelopeCiphertext_parts nonce.length_eq htag,
    envelopeTag_parts nonce.length_eq htag]
  exact evpDecrypt_of_evpEncrypt hcount hencrypt

theorem roundTrips_iff : RoundTrips S roomTopic plaintext ↔
    (deriveRoomKey S .available roomTopic ≠ none → CountCovers plaintext) := by
  constructor
  · intro h hkey count hcount
    obtain ⟨key, hkey⟩ := Option.ne_none_iff_exists'.1 hkey
    let nonce : Nonce := ⟨List.replicate kGcmNonceLength 0, List.length_replicate⟩
    have hencrypt : evpEncrypt S key nonce.bytes plaintext = some _ := evpEncrypt_eq hcount
    have hpayload := h .available (some nonce) _
      (encryptPayload_eq_some_iff.2 ⟨key, nonce, _, _, hkey, rfl, rfl, hencrypt, rfl⟩)
    obtain ⟨-, -, key', hkey', hdecrypt⟩ := decryptPayload_eq_plaintext_iff.1 hpayload.2
    obtain rfl : key = key' := Option.some.inj (hkey.symm.trans hkey')
    rw [evpDecrypt_parts hcount hencrypt] at hdecrypt
    exact (written_take_iff (byteCount_le hcount)).1 (Option.some.inj hdecrypt)
  · intro h contexts random envelope hpayload
    obtain ⟨key, nonce, ciphertext, tag, hkey, -, -, hencrypt, rfl⟩ :=
      encryptPayload_eq_some_iff.1 hpayload
    obtain ⟨hciphertext, htag⟩ := length_of_evpEncrypt hencrypt
    obtain ⟨count, hcount, -⟩ := Option.map_eq_some_iff.1 hencrypt
    have hkey' := deriveRoomKey_available hkey
    have hlength : (nonce.bytes ++ ciphertext ++ tag).length = _ :=
      length_parts nonce.length_eq htag
    have hzeros := h (Option.ne_none_iff_exists'.2 ⟨key, hkey'⟩) count hcount
    refine ⟨hciphertext ▸ hlength, decryptPayload_eq_plaintext_iff.2 ⟨?_, rfl, key, hkey', ?_⟩⟩
    · rw [hlength]
      omega
    · rw [evpDecrypt_parts hcount hencrypt, (written_take_iff (byteCount_le hcount)).2 hzeros]

/-- An envelope that authenticates decrypts to a buffer that encrypts to its own first bytes. -/
theorem exists_decryptPayload_of_authenticates (h : Authenticates S roomTopic envelope) :
    ∃ key count opened, deriveRoomKey S .available roomTopic = some key ∧
      byteCount (envelopeCiphertext envelope).length = some count ∧
      decryptPayload S .available roomTopic envelope = .plaintext opened ∧
      evpEncrypt S key (envelope.take kGcmNonceLength) opened =
        some (written (envelopeCiphertext envelope).length
          ((envelopeCiphertext envelope).take count), envelopeTag envelope) := by
  obtain ⟨hlong, key, count, hkey, hcount, hopens⟩ := h
  obtain ⟨bytes, hbytes⟩ := Option.isSome_iff_exists.1 hopens
  have hdecrypt : evpDecrypt S key (envelope.take kGcmNonceLength) (envelopeCiphertext envelope)
      (envelopeTag envelope) = some (written (envelopeCiphertext envelope).length bytes) := by
    rw [evpDecrypt_eq hcount, hbytes, Option.map_some]
  exact ⟨key, count, _, hkey, hcount,
    decryptPayload_eq_plaintext_iff.2 ⟨hlong, rfl, key, hkey, hdecrypt⟩,
    (evpEncrypt_of_evpDecrypt hcount hdecrypt).2⟩

theorem reseals_iff : Reseals S roomTopic envelope ↔
    (Authenticates S roomTopic envelope → CountCovers (envelopeCiphertext envelope)) := by
  constructor
  · intro h hauthenticates count hcount
    obtain ⟨key, count', opened, hkey, hcount', hpayload, hencrypt⟩ :=
      exists_decryptPayload_of_authenticates hauthenticates
    obtain rfl : count = count' := Option.some.inj (hcount.symm.trans hcount')
    have hlong := hauthenticates.1
    have hnonce : (envelope.take kGcmNonceLength).length = kGcmNonceLength :=
      List.length_take_of_le ((Nat.le_add_right _ _).trans hlong)
    have hreseal := (h .available opened hpayload).2 ⟨_, hnonce⟩ rfl
    obtain ⟨key', nonce, ciphertext, tag, hkey', hnonce', -, hencrypt', hparts⟩ :=
      encryptPayload_eq_some_iff.1 hreseal
    obtain rfl : key = key' := Option.some.inj (hkey.symm.trans hkey')
    obtain rfl := Option.some.inj hnonce'
    obtain ⟨rfl, rfl⟩ := Prod.mk.inj (Option.some.inj (hencrypt.symm.trans hencrypt'))
    have hcancel := hparts.trans (parts_eq hlong).symm
    rw [List.append_cancel_right_eq, List.append_cancel_left_eq] at hcancel
    exact (written_take_iff (byteCount_le hcount)).1 hcancel
  · intro h contexts opened hpayload
    obtain ⟨hlong, -, key, hkey, hdecrypt⟩ := decryptPayload_eq_plaintext_iff.1 hpayload
    have hkey' := deriveRoomKey_available hkey
    obtain ⟨count, hcount, hmap⟩ := Option.bind_eq_some_iff.1 hdecrypt
    obtain ⟨bytes, hbytes, -⟩ := Option.map_eq_some_iff.1 hmap
    have hzeros := h ⟨hlong, key, count, hkey', hcount, Option.isSome_iff_exists.2 ⟨bytes, hbytes⟩⟩
      count hcount
    obtain ⟨hlength, hencrypt⟩ := evpEncrypt_of_evpDecrypt hcount hdecrypt
    rw [(written_take_iff (byteCount_le hcount)).2 hzeros] at hencrypt
    constructor
    · rw [hlength, length_envelopeCiphertext]
      simp only [kGcmNonceLength, kGcmTagLength] at hlong ⊢
      omega
    · intro nonce hnonce
      refine encryptPayload_eq_some_iff.2 ⟨key, nonce, _, _, hkey', rfl, rfl, hnonce ▸ hencrypt, ?_⟩
      rw [hnonce]
      exact parts_eq hlong

theorem roundTrips_of_lt (h : plaintext.length < 2 ^ 31) : RoundTrips S roomTopic plaintext :=
  roundTrips_iff.2 fun _ => countCovers_of_lt h

theorem reseals_of_lt (h : envelope.length < 2 ^ 31) : Reseals S roomTopic envelope := by
  apply reseals_iff.2
  intro _
  apply countCovers_of_lt
  rw [length_envelopeCiphertext]
  omega

end Payloads

/-- A plaintext survives the round trip exactly when the count that OpenSSL is given covers it, up to
zeros. An envelope can be resealed exactly when the count covers its ciphertext, up to zeros, or it
does not authenticate. No length wraps around. -/
theorem envelope_roundTrip_iff (S : OpenSsl) (roomTopic : Bytes) :
    (∀ plaintext, RoundTrips S roomTopic plaintext ↔
      (deriveRoomKey S .available roomTopic ≠ none → CountCovers plaintext)) ∧
    (∀ envelope, Reseals S roomTopic envelope ↔
      (Authenticates S roomTopic envelope → CountCovers (envelopeCiphertext envelope))) ∧
    ∀ contexts envelope, decryptPayload S contexts roomTopic envelope ≠ .underflow :=
  ⟨fun _ => roundTrips_iff, fun _ => reseals_iff,
    fun contexts envelope => decryptPayload_ne_underflow S contexts roomTopic envelope⟩

section Counterexample

/-- One key for every room, and an AEAD that hides nothing. -/
def plainOpenSsl : OpenSsl where
  hkdf _ _ _ := some (List.replicate kRoomKeyLengthBytes 0)
  gcm := Aead.transparent Bytes kGcmTagLength

theorem not_countCovers_replicate : ¬ CountCovers (List.replicate (2 ^ 32) 1) := by
  intro h
  have hcount : byteCount (List.replicate (2 ^ 32) (1 : UInt8)).length = some 0 := by
    rw [List.length_replicate, byteCount_eq_some_iff]
    norm_num
  have hone : (1 : UInt8) ∈ (List.replicate (2 ^ 32) (1 : UInt8)).drop 0 := by
    rw [List.drop_zero, List.mem_replicate]
    norm_num
  exact absurd (h 0 hcount 1 hone) (by decide)

/-- Whatever OpenSSL does, 4 GiB of ones are not what the envelope decrypts to. -/
theorem not_roundTrips_replicate :
    (∀ (S : OpenSsl) (roomTopic : Bytes), deriveRoomKey S .available roomTopic ≠ none →
      ¬ RoundTrips S roomTopic (List.replicate (2 ^ 32) 1)) ∧
    ¬ RoundTrips plainOpenSsl (ofString "gcs/chat/smoke-test") (List.replicate (2 ^ 32) 1) := by
  have hall : ∀ (S : OpenSsl) (roomTopic : Bytes), deriveRoomKey S .available roomTopic ≠ none →
      ¬ RoundTrips S roomTopic (List.replicate (2 ^ 32) 1) := by
    intro S roomTopic hkey h
    exact not_countCovers_replicate (roundTrips_iff.1 h hkey)
  refine ⟨hall, hall _ _ ?_⟩
  decide

end Counterexample

end Crypto

end GcsChat
