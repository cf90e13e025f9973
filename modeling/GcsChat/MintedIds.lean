import GcsChat.EntityStore

/-!
# Minted ids and the keys they end in

`NextMessageId` and `NextEntityId` keep a seed and a counter each, for as long as the process lives.
An id spells out its prefix, the seed and the counter, with dashes between the numbers, so it can
be read back; and the keys of messages, spaces, rooms and the manifest begin differently.
-/

namespace GcsChat

open ByteString

def dash : UInt8 := 45

inductive IdKind
  | message
  | space
  | room
  deriving DecidableEq

def IdKind.idPrefix : IdKind → Bytes
  | .message => kMessageIdPrefix
  | .space => kSpaceIdPrefix
  | .room => kRoomIdPrefix

/-- The variables of a minting function that outlive its calls. -/
structure IdSource where
  nowMs : ℕ
  token : ℕ
  sequence : UInt64

def IdSource.mint (idPrefix : Bytes) (s : IdSource) : Bytes :=
  mintId idPrefix s.nowMs s.token s.sequence.toNat

def IdSource.advance (s : IdSource) : IdSource := { s with sequence := s.sequence + 1 }

/-- What a process has drawn once, for good. -/
def IdSource.seed (s : IdSource) : ℕ × ℕ := (s.nowMs, s.token)

/-- The sources of one process: messages have one, spaces and rooms share the other. -/
structure MintProcess where
  messages : IdSource
  entities : IdSource

namespace MintProcess

def source (P : MintProcess) : IdKind → IdSource
  | .message => P.messages
  | .space => P.entities
  | .room => P.entities

def step (P : MintProcess) : IdKind → MintProcess
  | .message => { P with messages := P.messages.advance }
  | .space => { P with entities := P.entities.advance }
  | .room => { P with entities := P.entities.advance }

def mint : List IdKind → MintProcess → List Bytes
  | [], _ => []
  | kind :: rest, P => (P.source kind).mint kind.idPrefix :: mint rest (P.step kind)

end MintProcess

inductive StoreKey
  | message (roomTopic id : Bytes)
  | space (id : Bytes)
  | room (id : Bytes)
  | manifest

inductive KeyKind
  | message
  | space
  | room
  | manifest
  deriving DecidableEq

namespace StoreKey

def kind : StoreKey → KeyKind
  | message _ _ => .message
  | space _ => .space
  | room _ => .room
  | manifest => .manifest

def bytes : StoreKey → Bytes
  | message roomTopic id => buildKey roomTopic id
  | space id => kSpacesKeyPrefix ++ id
  | room id => kRoomsKeyPrefix ++ id
  | manifest => kManifestKey

end StoreKey

def IsMinted (id : Bytes) : Prop :=
  ∃ (kind : IdKind) (nowMs token seq : ℕ), id = mintId kind.idPrefix nowMs token seq

def StoreKey.Minted : StoreKey → Prop
  | message _ id => IsMinted id
  | space id => IsMinted id
  | room id => IsMinted id
  | manifest => True

theorem dash_notMem_decimal (n : ℕ) : dash ∉ decimal n := by
  intro h
  have hlow := (mem_decimal h).1
  simp [dash] at hlow

/-- The numbers are read back from the right, one dash after the other. -/
theorem mintId_append_dash_inj {stem stem' : Bytes} {nowMs nowMs' token token' seq seq' : ℕ}
    (h : mintId (stem ++ [dash]) nowMs token seq = mintId (stem' ++ [dash]) nowMs' token' seq') :
    stem = stem' ∧ nowMs = nowMs' ∧ token = token' ∧ seq = seq' := by
  have hdash : ofString "-" = [dash] := by decide
  simp only [mintId, hdash, List.append_assoc, List.singleton_append] at h
  simp only [← List.cons_append, ← List.append_assoc] at h
  obtain ⟨h, hseq⟩ := eq_of_append_cons_eq (dash_notMem_decimal seq) (dash_notMem_decimal seq') h
  obtain ⟨h, htoken⟩ :=
    eq_of_append_cons_eq (dash_notMem_decimal token) (dash_notMem_decimal token') h
  obtain ⟨hstem, hms⟩ :=
    eq_of_append_cons_eq (dash_notMem_decimal nowMs) (dash_notMem_decimal nowMs') h
  exact ⟨hstem, decimal_injective hms, decimal_injective htoken, decimal_injective hseq⟩

theorem IdKind.exists_idPrefix_eq (kind : IdKind) : ∃ stem, kind.idPrefix = stem ++ [dash] := by
  cases kind with
  | message => exact ⟨ofString "msg", by decide⟩
  | space => exact ⟨ofString "space", by decide⟩
  | room => exact ⟨ofString "room", by decide⟩

theorem IdKind.idPrefix_injective : Function.Injective IdKind.idPrefix := by
  intro kind kind' h
  revert h
  cases kind <;> cases kind' <;> first | exact fun _ => rfl | decide

theorem mintId_inj {kind kind' : IdKind} {nowMs nowMs' token token' seq seq' : ℕ}
    (h : mintId kind.idPrefix nowMs token seq = mintId kind'.idPrefix nowMs' token' seq') :
    kind = kind' ∧ nowMs = nowMs' ∧ token = token' ∧ seq = seq' := by
  obtain ⟨stem, hstem⟩ := kind.exists_idPrefix_eq
  obtain ⟨stem', hstem'⟩ := kind'.exists_idPrefix_eq
  rw [hstem, hstem'] at h
  obtain ⟨hsame, hnumbers⟩ := mintId_append_dash_inj h
  refine ⟨IdKind.idPrefix_injective ?_, hnumbers⟩
  rw [hstem, hstem', hsame]

theorem IsMinted.slash_notMem {id : Bytes} (h : IsMinted id) : slash ∉ id := by
  obtain ⟨kind, nowMs, token, seq, rfl⟩ := h
  apply slash_notMem_mintId
  cases kind <;> decide

theorem IdSource.sequence_advance (s : IdSource) :
    s.advance.sequence.toNat = (s.sequence.toNat + 1) % 2 ^ 64 := UInt64.toNat_add _ _

namespace MintProcess

theorem source_step (P : MintProcess) (call kind : IdKind) :
    (P.step call).source kind = P.source kind ∨
      (P.step call).source kind = (P.source kind).advance := by
  cases call <;> cases kind <;> first | exact .inl rfl | exact .inr rfl

theorem source_step_self (P : MintProcess) (kind : IdKind) :
    (P.step kind).source kind = (P.source kind).advance := by
  cases kind <;> rfl

/-- Induction on the calls: every id of a run has the seed of its source, and a number that the
counter reaches in that run. -/
theorem exists_eq_of_mem_mint {calls : List IdKind} {P : MintProcess} {id : Bytes}
    (h : id ∈ mint calls P) : ∃ (kind : IdKind) (k : ℕ), k < calls.length ∧
      id = mintId kind.idPrefix (P.source kind).nowMs (P.source kind).token
        (((P.source kind).sequence.toNat + k) % 2 ^ 64) := by
  induction calls generalizing P with
  | nil => exact absurd h List.not_mem_nil
  | cons call rest ih =>
      rw [mint, List.mem_cons] at h
      rcases h with rfl | h
      · refine ⟨call, 0, Nat.succ_pos _, ?_⟩
        rw [Nat.add_zero, Nat.mod_eq_of_lt (UInt64.toNat_lt _)]
        rfl
      · obtain ⟨kind, k, hk, hid⟩ := ih h
        rcases P.source_step call kind with hsource | hsource
        · rw [hsource] at hid
          exact ⟨kind, k, Nat.lt_succ_of_lt hk, hid⟩
        · rw [hsource, IdSource.sequence_advance, Nat.mod_add_mod, Nat.add_assoc,
            Nat.add_comm 1] at hid
          exact ⟨kind, k + 1, Nat.succ_lt_succ hk, hid⟩

/-- As long as the counters do not come round, no id is minted twice. -/
theorem nodup_mint {calls : List IdKind} (h : calls.length ≤ 2 ^ 64) (P : MintProcess) :
    (mint calls P).Nodup := by
  induction calls generalizing P with
  | nil => exact List.nodup_nil
  | cons call rest ih =>
      rw [List.length_cons] at h
      rw [mint, List.nodup_cons]
      refine ⟨fun hmem => ?_, ih (by omega) _⟩
      obtain ⟨kind, k, hk, hid⟩ := exists_eq_of_mem_mint hmem
      rw [IdSource.mint] at hid
      obtain ⟨rfl, -, -, hseq⟩ := mintId_inj hid
      have hlow := (P.source call).sequence.toNat_lt
      rw [source_step_self, IdSource.sequence_advance] at hseq
      omega

theorem seed_eq_of_mem_mint {calls calls' : List IdKind} {P Q : MintProcess} {id : Bytes}
    (hP : id ∈ mint calls P) (hQ : id ∈ mint calls' Q) :
    ∃ kind, (P.source kind).seed = (Q.source kind).seed := by
  obtain ⟨kind, k, -, rfl⟩ := exists_eq_of_mem_mint hP
  obtain ⟨kind', k', -, hid⟩ := exists_eq_of_mem_mint hQ
  obtain ⟨rfl, hms, htoken, -⟩ := mintId_inj hid
  exact ⟨kind, Prod.ext hms htoken⟩

end MintProcess

namespace KeyKind

def beginning : KeyKind → Bytes
  | message => kMessagesKeyPrefix
  | space => kSpacesKeyPrefix
  | room => kRoomsKeyPrefix
  | manifest => kManifestKey

theorem eq_of_beginning_isPrefix {kind kind' : KeyKind}
    (h : kind.beginning <+: kind'.beginning) : kind = kind' := by
  revert h
  cases kind <;> cases kind' <;> first | exact fun _ => rfl | decide

end KeyKind

namespace StoreKey

theorem beginning_isPrefix_bytes (key : StoreKey) : key.kind.beginning <+: key.bytes := by
  cases key with
  | message roomTopic id =>
      rw [bytes, buildKey, List.append_assoc]
      exact List.prefix_append _ _
  | space id => exact List.prefix_append _ _
  | room id => exact List.prefix_append _ _
  | manifest => exact List.prefix_rfl

/-- Keys of two kinds part in their beginnings, whatever ids and topics follow. -/
theorem kind_eq_of_bytes_eq {key key' : StoreKey} (h : key.bytes = key'.bytes) :
    key.kind = key'.kind := by
  have hprefix := key.beginning_isPrefix_bytes
  rw [h] at hprefix
  rcases List.prefix_or_prefix_of_prefix hprefix key'.beginning_isPrefix_bytes with h | h
  · exact KeyKind.eq_of_beginning_isPrefix h
  · exact (KeyKind.eq_of_beginning_isPrefix h).symm

theorem eq_of_bytes_eq {key key' : StoreKey} (hkey : key.Minted) (hkey' : key'.Minted)
    (h : key.bytes = key'.bytes) : key = key' := by
  have hkind := kind_eq_of_bytes_eq h
  cases key <;> cases key' <;> cases hkind
  case message.message =>
    obtain ⟨hT, hid⟩ := buildKey_inj hkey.slash_notMem hkey'.slash_notMem h
    rw [hT, hid]
  case space.space => rw [List.append_cancel_left h]
  case room.room => rw [List.append_cancel_left h]
  case manifest.manifest => rfl

end StoreKey

/-- Ids spell out all that they are made of, so no two mints and no two keys meet. -/
theorem minted_ids_and_keys_never_meet :
    (∀ (kind kind' : IdKind) (nowMs nowMs' token token' seq seq' : ℕ),
      mintId kind.idPrefix nowMs token seq = mintId kind'.idPrefix nowMs' token' seq' →
        kind = kind' ∧ nowMs = nowMs' ∧ token = token' ∧ seq = seq') ∧
    (∀ (kind : IdKind) (nowMs token seq : ℕ), slash ∉ mintId kind.idPrefix nowMs token seq) ∧
    (∀ P Q : MintProcess, (∀ kind, (P.source kind).seed ≠ (Q.source kind).seed) →
      ∀ calls calls', List.Disjoint (MintProcess.mint calls P) (MintProcess.mint calls' Q)) ∧
    (∀ (P : MintProcess) (calls : List IdKind), calls.length ≤ 2 ^ 64 →
      (MintProcess.mint calls P).Nodup) ∧
    (∀ T T' id id' : Bytes, IsMinted id → IsMinted id' → buildKey T id = buildKey T' id' →
      T = T' ∧ id = id') ∧
    ∀ key key' : StoreKey, key.bytes = key'.bytes →
      key.kind = key'.kind ∧ (key.Minted → key'.Minted → key = key') := by
  refine ⟨fun _ _ _ _ _ _ _ _ => mintId_inj, fun kind nowMs token seq => ?_, ?_, ?_, ?_, ?_⟩
  · exact IsMinted.slash_notMem ⟨kind, nowMs, token, seq, rfl⟩
  · intro P Q hseeds calls calls' id hP hQ
    obtain ⟨kind, hseed⟩ := MintProcess.seed_eq_of_mem_mint hP hQ
    exact hseeds kind hseed
  · exact fun P calls h => MintProcess.nodup_mint h P
  · exact fun T T' id id' hid hid' => buildKey_inj hid.slash_notMem hid'.slash_notMem
  · exact fun key key' h =>
      ⟨StoreKey.kind_eq_of_bytes_eq h, fun hkey hkey' => StoreKey.eq_of_bytes_eq hkey hkey' h⟩

/-- A process and the next one, whose seeds read alike without the dashes. -/
theorem restarted_process_mints_other_ids :
    let first : MintProcess := ⟨⟨1, 23, 0⟩, ⟨1, 24, 0⟩⟩
    let second : MintProcess := ⟨⟨12, 3, 0⟩, ⟨12, 4, 0⟩⟩
    let calls : List IdKind := [.message, .space, .room, .message]
    (MintProcess.mint calls first).Nodup ∧
      List.Disjoint (MintProcess.mint calls first) (MintProcess.mint calls second) ∧
      slash ∉ mintId kRoomIdPrefix 1 24 1 ∧
      buildKey kSmokeTopicA (mintId kMessageIdPrefix 1 23 0) ≠
        buildKey kSmokeTopicA (mintId kMessageIdPrefix 12 3 0) ∧
      (StoreKey.space (mintId kSpaceIdPrefix 1 24 0)).bytes ≠ StoreKey.manifest.bytes := by
  intro first second calls
  obtain ⟨hinj, hslash, hdisjoint, hnodup, hbuild, hkeys⟩ := minted_ids_and_keys_never_meet
  refine ⟨hnodup first calls (by norm_num [calls]), hdisjoint first second (fun kind => ?_) _ _,
    hslash .room 1 24 1, fun h => ?_, fun h => ?_⟩
  · cases kind <;> decide
  · obtain ⟨-, hid⟩ := hbuild _ _ _ _ ⟨.message, 1, 23, 0, rfl⟩ ⟨.message, 12, 3, 0, rfl⟩ h
    obtain ⟨-, hms, -⟩ := hinj .message .message _ _ _ _ _ _ hid
    omega
  · cases (hkeys _ _ h).1

end GcsChat
