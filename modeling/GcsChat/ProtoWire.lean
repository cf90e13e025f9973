import GcsChat.ByteString

/-!
# The protobuf wire format

A message on the wire is a sequence of fields, each a field number with a varint, a length
delimited or a fixed-width value. `encode` writes fields as protobuf serializers do, `decode`
reads them back; groups, which proto3 does not have, are rejected. Every list of well-formed
fields survives the round trip.
-/

namespace ProtoWire

open ByteString

/-- Base-128 digits, least significant first, at most `fuel` of them. -/
def varint : ℕ → ℕ → Bytes
  | 0, _ => []
  | fuel + 1, n =>
    if n < 128 then [UInt8.ofNat n] else UInt8.ofNat (n % 128 + 128) :: varint fuel (n / 128)

def encodeVarint (n : ℕ) : Bytes := varint (Nat.log2 n + 1) n

def readVarint : Bytes → Option (ℕ × Bytes)
  | [] => none
  | b :: bs =>
    if b.toNat < 128 then some (b.toNat, bs)
    else (readVarint bs).map fun p => (b.toNat - 128 + 128 * p.1, p.2)

theorem readVarint_varint (fuel n : ℕ) (rest : Bytes) (h : n < 128 ^ (fuel + 1)) :
    readVarint (varint (fuel + 1) n ++ rest) = some (n, rest) := by
  induction fuel generalizing n with
  | zero =>
      have hn : n < 128 := by simpa using h
      have hb : (UInt8.ofNat n).toNat = n := by rw [UInt8.toNat_ofNat']; omega
      simp only [varint, if_pos hn, List.cons_append, List.nil_append, readVarint, hb]
  | succ fuel ih =>
      rw [varint]
      split_ifs with hn
      · have hb : (UInt8.ofNat n).toNat = n := by rw [UInt8.toNat_ofNat']; omega
        simp only [List.cons_append, List.nil_append, readVarint, hb, if_pos hn]
      · have hb : (UInt8.ofNat (n % 128 + 128)).toNat = n % 128 + 128 := by
          rw [UInt8.toNat_ofNat']
          omega
        have hdiv : n / 128 < 128 ^ (fuel + 1) := by
          rw [Nat.div_lt_iff_lt_mul (by omega), ← pow_succ]
          exact h
        have hge : ¬ n % 128 + 128 < 128 := by omega
        rw [List.cons_append, readVarint, hb, if_neg hge, ih _ hdiv]
        simp only [Option.map_some, Option.some.injEq, Prod.mk.injEq, and_true]
        omega

theorem readVarint_encodeVarint (n : ℕ) (rest : Bytes) :
    readVarint (encodeVarint n ++ rest) = some (n, rest) := by
  apply readVarint_varint
  calc
    n < 2 ^ (Nat.log2 n + 1) := Nat.lt_log2_self
    _ ≤ 128 ^ (Nat.log2 n + 1) := Nat.pow_le_pow_left (by omega) _

theorem encodeVarint_ne_nil (n : ℕ) : encodeVarint n ≠ [] := by
  unfold encodeVarint varint
  split_ifs <;> simp

inductive WireValue
  | varint (n : ℕ)
  | fixed64 (raw : Bytes)
  | bytes (b : Bytes)
  | fixed32 (raw : Bytes)
  deriving DecidableEq

structure WireField where
  number : ℕ
  value : WireValue
  deriving DecidableEq

def WireValue.wireType : WireValue → ℕ
  | .varint _ => 0
  | .fixed64 _ => 1
  | .bytes _ => 2
  | .fixed32 _ => 5

def WireValue.payload : WireValue → Bytes
  | .varint n => encodeVarint n
  | .fixed64 raw => raw
  | .bytes b => encodeVarint b.length ++ b
  | .fixed32 raw => raw

def WireField.encode (f : WireField) : Bytes :=
  encodeVarint (f.number * 8 + f.value.wireType) ++ f.value.payload

/-- A 64-bit varint, or raw bytes of the width the wire type says. -/
def WireValue.WellFormed : WireValue → Prop
  | .varint n => n < 2 ^ 64
  | .fixed64 raw => raw.length = 8
  | .bytes _ => True
  | .fixed32 raw => raw.length = 4

/-- A number protobuf accepts as a field number, and a well-formed value. -/
def WireField.WellFormed (f : WireField) : Prop :=
  0 < f.number ∧ f.number < 2 ^ 29 ∧ f.value.WellFormed

def takeExact (n : ℕ) (bs : Bytes) : Option (Bytes × Bytes) :=
  if n ≤ bs.length then some (bs.take n, bs.drop n) else none

def readValue (wireType : ℕ) (bs : Bytes) : Option (WireValue × Bytes) :=
  match wireType with
  | 0 => (readVarint bs).map fun p => (.varint (p.1 % 2 ^ 64), p.2)
  | 1 => (takeExact 8 bs).map fun p => (.fixed64 p.1, p.2)
  | 2 => (readVarint bs).bind fun p => (takeExact p.1 p.2).map fun q => (.bytes q.1, q.2)
  | 5 => (takeExact 4 bs).map fun p => (.fixed32 p.1, p.2)
  | _ => none

def readField (bs : Bytes) : Option (WireField × Bytes) :=
  (readVarint bs).bind fun tag =>
    if tag.1 / 8 = 0 ∨ 2 ^ 29 ≤ tag.1 / 8 then none
    else (readValue (tag.1 % 8) tag.2).map fun p => (⟨tag.1 / 8, p.1⟩, p.2)

def readFields : ℕ → Bytes → Option (List WireField)
  | _, [] => some []
  | 0, _ :: _ => none
  | fuel + 1, b :: bs =>
    (readField (b :: bs)).bind fun p => (readFields fuel p.2).map (p.1 :: ·)

def encode (fs : List WireField) : Bytes := fs.flatMap WireField.encode

def decode (bs : Bytes) : Option (List WireField) := readFields bs.length bs

theorem takeExact_append (b rest : Bytes) : takeExact b.length (b ++ rest) = some (b, rest) := by
  simp [takeExact]

theorem length_of_takeExact {n : ℕ} {bs b rest : Bytes} (h : takeExact n bs = some (b, rest)) :
    b.length = n := by
  unfold takeExact at h
  split_ifs at h with hle
  simp only [Option.some.injEq, Prod.mk.injEq] at h
  rw [← h.1, List.length_take]
  omega

theorem readValue_payload {v : WireValue} (h : v.WellFormed) (rest : Bytes) :
    readValue v.wireType (v.payload ++ rest) = some (v, rest) := by
  cases v with
  | varint n =>
      have hn : n < 2 ^ 64 := h
      simp only [readValue, WireValue.wireType, WireValue.payload, readVarint_encodeVarint,
        Option.map_some, Nat.mod_eq_of_lt hn]
  | fixed64 raw =>
      have ht := takeExact_append raw rest
      rw [show raw.length = 8 from h] at ht
      simp [readValue, WireValue.wireType, WireValue.payload, ht]
  | bytes b =>
      simp [readValue, WireValue.wireType, WireValue.payload, readVarint_encodeVarint, takeExact_append]
  | fixed32 raw =>
      have ht := takeExact_append raw rest
      rw [show raw.length = 4 from h] at ht
      simp [readValue, WireValue.wireType, WireValue.payload, ht]

theorem wellFormed_of_readValue {wireType : ℕ} {bs rest : Bytes} {v : WireValue}
    (h : readValue wireType bs = some (v, rest)) : v.WellFormed := by
  unfold readValue at h
  split at h
  · obtain ⟨p, _, hp⟩ := Option.map_eq_some_iff.1 h
    simp only [Prod.mk.injEq] at hp
    rw [← hp.1]
    exact Nat.mod_lt _ (by norm_num)
  · obtain ⟨p, hp, he⟩ := Option.map_eq_some_iff.1 h
    simp only [Prod.mk.injEq] at he
    rw [← he.1]
    exact length_of_takeExact hp
  · obtain ⟨p, _, hp⟩ := Option.bind_eq_some_iff.1 h
    obtain ⟨q, _, he⟩ := Option.map_eq_some_iff.1 hp
    simp only [Prod.mk.injEq] at he
    rw [← he.1]
    trivial
  · obtain ⟨p, hp, he⟩ := Option.map_eq_some_iff.1 h
    simp only [Prod.mk.injEq] at he
    rw [← he.1]
    exact length_of_takeExact hp
  · cases h

theorem readField_encode {f : WireField} (h : f.WellFormed) (rest : Bytes) :
    readField (f.encode ++ rest) = some (f, rest) := by
  obtain ⟨number, value⟩ := f
  obtain ⟨hpos, hlt, hvalue⟩ := h
  have hwt : value.wireType < 8 := by cases value <;> simp [WireValue.wireType]
  have hdiv : (number * 8 + value.wireType) / 8 = number := by omega
  have hmod : (number * 8 + value.wireType) % 8 = value.wireType := by omega
  have hok : ¬ (number = 0 ∨ 2 ^ 29 ≤ number) := by
    simp only at hpos hlt
    omega
  rw [readField, WireField.encode, List.append_assoc, readVarint_encodeVarint]
  simp only [Option.bind_some, hdiv, hmod, if_neg hok, readValue_payload hvalue, Option.map_some]

theorem wellFormed_of_readField {bs rest : Bytes} {f : WireField}
    (h : readField bs = some (f, rest)) : f.WellFormed := by
  obtain ⟨tag, _, htag⟩ := Option.bind_eq_some_iff.1 h
  split_ifs at htag with hok
  obtain ⟨p, hp, he⟩ := Option.map_eq_some_iff.1 htag
  simp only [Prod.mk.injEq] at he
  rw [← he.1]
  exact ⟨by simp only; omega, by simp only; omega, wellFormed_of_readValue hp⟩

theorem length_encode_pos (f : WireField) : 0 < f.encode.length := by
  rw [WireField.encode, List.length_append]
  have := List.length_pos_iff.2 (encodeVarint_ne_nil (f.number * 8 + f.value.wireType))
  omega

theorem readFields_encode {fs : List WireField} (h : ∀ f ∈ fs, f.WellFormed) {fuel : ℕ}
    (hfuel : (encode fs).length ≤ fuel) : readFields fuel (encode fs) = some fs := by
  induction fs generalizing fuel with
  | nil => cases fuel <;> rfl
  | cons f fs ih =>
      have hread := readField_encode (h f List.mem_cons_self) (encode fs)
      have hlen : (encode (f :: fs)).length = f.encode.length + (encode fs).length := by
        simp [encode]
      have hpos := length_encode_pos f
      have hcons : encode (f :: fs) = f.encode ++ encode fs := rfl
      cases fuel with
      | zero => omega
      | succ fuel =>
          have hrest : readFields fuel (encode fs) = some fs :=
            ih (fun g hg => h g (List.mem_cons_of_mem f hg)) (by omega)
          cases hbs : f.encode ++ encode fs with
          | nil => simp [List.append_eq_nil_iff.1 hbs] at hpos
          | cons b bs =>
              rw [hcons, hbs, readFields, ← hbs, hread]
              simp [hrest]

/-- Well-formed fields survive the round trip. -/
theorem decode_encode {fs : List WireField} (h : ∀ f ∈ fs, f.WellFormed) :
    decode (encode fs) = some fs := readFields_encode h le_rfl

theorem wellFormed_of_readFields {fuel : ℕ} {bs : Bytes} {fs : List WireField}
    (h : readFields fuel bs = some fs) : ∀ f ∈ fs, f.WellFormed := by
  induction fuel generalizing bs fs with
  | zero =>
      cases bs with
      | nil => cases h; simp
      | cons b bs => cases h
  | succ fuel ih =>
      cases bs with
      | nil => cases h; simp
      | cons b bs =>
          obtain ⟨p, hp, hrest⟩ := Option.bind_eq_some_iff.1 h
          obtain ⟨gs, hgs, rfl⟩ := Option.map_eq_some_iff.1 hrest
          intro f hf
          rcases List.mem_cons.1 hf with rfl | hf
          · exact wellFormed_of_readField hp
          · exact ih hgs f hf

theorem wellFormed_of_decode {bs : Bytes} {fs : List WireField} (h : decode bs = some fs) :
    ∀ f ∈ fs, f.WellFormed := wellFormed_of_readFields h

end ProtoWire
