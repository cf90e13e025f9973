import GcsChat.ByteString

/-!
# Archive keys, room topics and minted ids

The key grammar of `gcs_messaging.cpp`: a message is archived under
`gcs/messages/<topic>/<id>`, and the receive funnel recovers the topic from a key by dropping the
raw datastore framing, the suffix and the last segment. Ids are minted from a per-process seed and
a counter. The room topics accepted at the FFI boundary have a single segment after their
namespace, so no topic is a slash-prefix of another one.
-/

namespace GcsChat

open ByteString

def kMessagesKeyPrefix : Bytes := ofString "gcs/messages/"
def kMessageIdPrefix : Bytes := ofString "msg-"
def kValueSuffix : Bytes := ofString "/v"
def kPrioritySuffix : Bytes := ofString "/p"
def kRoomTopicNamespace : Bytes := ofString "gcs/chat/"
def kSmokeTopicA : Bytes := ofString "gcs/chat/smoke-test"
def kSmokeTopicB : Bytes := ofString "gcs/chat/smoke-test-2"

def slash : UInt8 := 47

/-- `std::string::substr(pos)`, which throws `std::out_of_range` past the end. -/
def substr (pos : ℕ) (b : Bytes) : Option Bytes := if pos ≤ b.length then some (b.drop pos) else none

/-- `std::to_string` of an unsigned number. -/
def decimal (n : ℕ) : Bytes := ofString (toString n)

/-- The minted form `prefix<ms>-<token>-<seq>` of `NextMessageId` and `NextEntityId`. -/
def mintId (idPrefix : Bytes) (nowMs token seq : ℕ) : Bytes :=
  idPrefix ++ (decimal nowMs ++ ofString "-" ++ decimal token) ++ ofString "-" ++ decimal seq

def nextMessageId (nowMs token seq : ℕ) : Bytes := mintId kMessageIdPrefix nowMs token seq

def buildKey (roomTopic id : Bytes) : Bytes := kMessagesKeyPrefix ++ roomTopic ++ slash :: id

def dropRawSuffix (logical : Bytes) : Bytes :=
  if endsWith logical kValueSuffix || endsWith logical kPrioritySuffix then
    logical.take (logical.length - kValueSuffix.length)
  else logical

def dropLastSegment (logical : Bytes) : Bytes :=
  match rfind slash logical with
  | some lastSlash => logical.take lastSlash
  | none => logical

/-- `Messaging::RoomTopicFromKey`; `none` is the exception of `substr`. -/
def roomTopicFromKey (key : Bytes) : Option Bytes :=
  match find kMessagesKeyPrefix key with
  | none => some []
  | some prefixPos =>
      (substr kMessagesKeyPrefix.length (dropRawSuffix (key.drop prefixPos))).map dropLastSegment

/-- The prefix that `QueryHistory` scans. -/
def historyPrefix (roomTopic : Bytes) : Bytes := kMessagesKeyPrefix ++ roomTopic ++ [slash]

def isValidRoomTopicShape (roomTopic : Bytes) : Bool :=
  decide (kRoomTopicNamespace.length < roomTopic.length) &&
    roomTopic.take kRoomTopicNamespace.length == kRoomTopicNamespace &&
    !(roomTopic.drop kRoomTopicNamespace.length).contains slash

theorem utf8EncodeChar_of_isDigit {c : Char} (h : c.isDigit) :
    String.utf8EncodeChar c = [c.val.toUInt8] := by
  have hle : c.val.toNat ≤ 57 := by
    simp only [Char.isDigit, Bool.and_eq_true, decide_eq_true_eq] at h
    exact UInt32.le_iff_toNat_le.1 h.2
  apply String.utf8EncodeChar_eq_singleton
  simp only [Char.utf8Size]
  rw [if_pos]
  rw [UInt32.le_iff_toNat_le]
  exact hle.trans (by decide)

theorem decimal_eq (n : ℕ) : decimal n = (Nat.toDigits 10 n).map fun c => c.val.toUInt8 := by
  unfold decimal ofString
  rw [Nat.toString_eq_ofList_toDigits, String.toList_ofList, List.map_eq_flatMap]
  exact List.flatMap_congr fun c hc =>
    utf8EncodeChar_of_isDigit (Nat.isDigit_of_mem_toDigits (by decide) (by decide) hc)

theorem toNat_toUInt8_of_isDigit {c : Char} (h : c.isDigit) :
    c.val.toUInt8.toNat = c.toNat ∧ 48 ≤ c.toNat ∧ c.toNat ≤ 57 := by
  simp only [Char.isDigit, Bool.and_eq_true, decide_eq_true_eq] at h
  have hlow : 48 ≤ c.val.toNat := UInt32.le_iff_toNat_le.1 h.1
  have hhigh : c.val.toNat ≤ 57 := UInt32.le_iff_toNat_le.1 h.2
  have hval : c.toNat = c.val.toNat := rfl
  rw [UInt32.toNat_toUInt8]
  omega

theorem mem_decimal {n : ℕ} {b : UInt8} (h : b ∈ decimal n) : 48 ≤ b.toNat ∧ b.toNat ≤ 57 := by
  rw [decimal_eq, List.mem_map] at h
  obtain ⟨c, hc, rfl⟩ := h
  have hdigit := toNat_toUInt8_of_isDigit (Nat.isDigit_of_mem_toDigits (by decide) (by decide) hc)
  omega

theorem map_decimal (n : ℕ) :
    (decimal n).map (fun b => Char.ofNat b.toNat) = Nat.toDigits 10 n := by
  rw [decimal_eq, List.map_map]
  refine (List.map_congr_left fun c hc => ?_).trans (List.map_id _)
  have hdigit := toNat_toUInt8_of_isDigit (Nat.isDigit_of_mem_toDigits (by decide) (by decide) hc)
  simp only [Function.comp_apply, hdigit.1, Char.ofNat_toNat, id]

theorem decimal_injective : Function.Injective decimal := by
  intro m n h
  have hdigits : Nat.toDigits 10 m = Nat.toDigits 10 n := by
    rw [← map_decimal, h, map_decimal]
  rw [← Nat.ofDigitChars_ten_toDigits (n := m), hdigits, Nat.ofDigitChars_ten_toDigits]

theorem slash_notMem_decimal (n : ℕ) : slash ∉ decimal n := by
  intro h
  have := (mem_decimal h).1
  simp [slash] at this

theorem slash_notMem_mintId {idPrefix : Bytes} (h : slash ∉ idPrefix) (nowMs token seq : ℕ) :
    slash ∉ mintId idPrefix nowMs token seq := by
  have hdash : slash ∉ ofString "-" := by decide
  simp only [mintId, List.mem_append, not_or]
  exact ⟨⟨⟨h, ⟨slash_notMem_decimal _, hdash⟩, slash_notMem_decimal _⟩, hdash⟩,
    slash_notMem_decimal _⟩

theorem validUtf8_mintId {idPrefix : Bytes} (h : ValidUtf8 idPrefix) (nowMs token seq : ℕ) :
    ValidUtf8 (mintId idPrefix nowMs token seq) :=
  ((h.append (((validUtf8_ofString _).append (validUtf8_ofString _)).append
    (validUtf8_ofString _))).append (validUtf8_ofString _)).append (validUtf8_ofString _)

theorem mintId_seq_injective (idPrefix : Bytes) (nowMs token : ℕ) :
    Function.Injective (mintId idPrefix nowMs token) := by
  intro m n h
  exact decimal_injective (List.append_cancel_left h)

theorem nextMessageId_injective (nowMs token : ℕ) :
    Function.Injective (nextMessageId nowMs token) := mintId_seq_injective _ _ _

/-- An id that fills the last segment of a key and is not taken for a raw suffix. -/
structure IsKeySegment (id : Bytes) : Prop where
  slash_notMem : slash ∉ id
  ne_value : id ≠ ofString "v"
  ne_priority : id ≠ ofString "p"

theorem four_le_length_nextMessageId (nowMs token seq : ℕ) :
    4 ≤ (nextMessageId nowMs token seq).length := by
  have hpre : kMessageIdPrefix.length = 4 := by decide
  simp only [nextMessageId, mintId, List.length_append]
  omega

theorem isKeySegment_nextMessageId (nowMs token seq : ℕ) :
    IsKeySegment (nextMessageId nowMs token seq) := by
  have hlen := four_le_length_nextMessageId nowMs token seq
  refine ⟨slash_notMem_mintId (by decide) _ _ _, fun h => ?_, fun h => ?_⟩
  all_goals
    rw [h] at hlen
    revert hlen
    decide

theorem buildKey_inj {T T' x x' : Bytes} (hx : slash ∉ x) (hx' : slash ∉ x')
    (h : buildKey T x = buildKey T' x') : T = T' ∧ x = x' := by
  obtain ⟨hT, hid⟩ := eq_of_append_cons_eq hx hx' h
  exact ⟨List.append_cancel_left hT, hid⟩

theorem dropRawSuffix_buildKey (T : Bytes) {x : Bytes} (hx : IsKeySegment x) :
    dropRawSuffix (buildKey T x) = buildKey T x := by
  have hno : ∀ y, slash ∉ y → y ≠ x → endsWith (buildKey T x) (slash :: y) = false := by
    intro y hy hne
    rw [Bool.eq_false_iff, Ne, endsWith_iff]
    exact fun hsuffix => hne (eq_of_cons_suffix_append_cons hx.slash_notMem hy hsuffix)
  have hv : endsWith (buildKey T x) kValueSuffix = false :=
    hno (ofString "v") (by decide) hx.ne_value.symm
  have hp : endsWith (buildKey T x) kPrioritySuffix = false :=
    hno (ofString "p") (by decide) hx.ne_priority.symm
  simp [dropRawSuffix, hv, hp]

theorem dropRawSuffix_append {suffix : Bytes}
    (h : suffix = kValueSuffix ∨ suffix = kPrioritySuffix) (logical : Bytes) :
    dropRawSuffix (logical ++ suffix) = logical := by
  have hends : (endsWith (logical ++ suffix) kValueSuffix ||
      endsWith (logical ++ suffix) kPrioritySuffix) = true := by
    rw [Bool.or_eq_true, endsWith_iff, endsWith_iff]
    rcases h with rfl | rfl
    · exact .inl (List.suffix_append _ _)
    · exact .inr (List.suffix_append _ _)
  have hlength : suffix.length = kValueSuffix.length := by
    rcases h with rfl | rfl
    · rfl
    · decide
  rw [dropRawSuffix, if_pos hends, List.length_append, hlength, Nat.add_sub_cancel, List.take_left]

theorem dropRawSuffix_cases (logical : Bytes) : dropRawSuffix logical = logical ∨
    ∃ suffix, (suffix = kValueSuffix ∨ suffix = kPrioritySuffix) ∧
      logical = dropRawSuffix logical ++ suffix := by
  by_cases hends : (endsWith logical kValueSuffix || endsWith logical kPrioritySuffix) = true
  · rw [Bool.or_eq_true, endsWith_iff, endsWith_iff] at hends
    rcases hends with ⟨rest, rfl⟩ | ⟨rest, rfl⟩
    · exact .inr ⟨_, .inl rfl, by rw [dropRawSuffix_append (.inl rfl)]⟩
    · exact .inr ⟨_, .inr rfl, by rw [dropRawSuffix_append (.inr rfl)]⟩
  · exact .inl (if_neg hends)

theorem dropLastSegment_append_cons (T : Bytes) {x : Bytes} (hx : slash ∉ x) :
    dropLastSegment (T ++ slash :: x) = T := by
  simp [dropLastSegment, rfind_append_cons T hx]

theorem dropLastSegment_eq_self_iff {T : Bytes} : dropLastSegment T = T ↔ slash ∉ T := by
  rw [dropLastSegment]
  constructor
  · intro h hmem
    obtain ⟨i, hi, hlast⟩ := rfind_of_mem hmem
    rw [hlast] at h
    have hlength := congrArg List.length h
    rw [List.length_take] at hlength
    omega
  · intro hmem
    rw [rfind_of_notMem hmem]

theorem borderless_kMessagesKeyPrefix : Borderless kMessagesKeyPrefix := by decide

/-- What stands before the first archive prefix of a key does not count. -/
theorem roomTopicFromKey_append {framing : Bytes} (h : ¬ kMessagesKeyPrefix <:+: framing)
    (rest : Bytes) : roomTopicFromKey (framing ++ (kMessagesKeyPrefix ++ rest)) =
      (substr kMessagesKeyPrefix.length (dropRawSuffix (kMessagesKeyPrefix ++ rest))).map
        dropLastSegment := by
  simp only [roomTopicFromKey, find_append_append borderless_kMessagesKeyPrefix h, List.drop_left]

theorem substr_append (a b : Bytes) : substr a.length (a ++ b) = some b := by
  rw [substr, if_pos (by simp), List.drop_left]

/-- `RoomTopicFromKey` throws on a key whose first archive prefix has nothing but a `v` or a `p`
after it: the suffix that it drops takes the slash of the prefix along. -/
theorem roomTopicFromKey_eq_none_iff {key : Bytes} : roomTopicFromKey key = none ↔
    ∃ framing, ¬ kMessagesKeyPrefix <:+: framing ∧
      (key = framing ++ (kMessagesKeyPrefix ++ ofString "v") ∨
        key = framing ++ (kMessagesKeyPrefix ++ ofString "p")) := by
  constructor
  · intro h
    cases hfind : find kMessagesKeyPrefix key with
    | none => simp only [roomTopicFromKey, hfind, reduceCtorEq] at h
    | some n =>
        obtain ⟨framing, rest, hframing, rfl⟩ := exists_framing_of_find (by decide) hfind
        refine ⟨framing, hframing, ?_⟩
        rw [roomTopicFromKey_append hframing, Option.map_eq_none_iff, substr, ite_eq_right_iff] at h
        have hshort : (dropRawSuffix (kMessagesKeyPrefix ++ rest)).length <
            kMessagesKeyPrefix.length := by
          by_contra hlong
          exact Option.some_ne_none _ (h (Nat.le_of_not_lt hlong))
        rcases dropRawSuffix_cases (kMessagesKeyPrefix ++ rest) with hsame | ⟨suffix, hsuffix, heq⟩
        · rw [hsame, List.length_append] at hshort
          omega
        · rcases hsuffix with rfl | rfl
          · exact .inl (by rw [eq_singleton_of_append_eq heq hshort (by decide)]; rfl)
          · exact .inr (by rw [eq_singleton_of_append_eq heq hshort (by decide)]; rfl)
  · rintro ⟨framing, hframing, rfl | rfl⟩
    · rw [roomTopicFromKey_append hframing, Option.map_eq_none_iff]
      decide
    · rw [roomTopicFromKey_append hframing, Option.map_eq_none_iff]
      decide

theorem roomTopicFromKey_buildKey {framing : Bytes} (h : ¬ kMessagesKeyPrefix <:+: framing)
    (T : Bytes) {x : Bytes} (hx : IsKeySegment x) :
    roomTopicFromKey (framing ++ buildKey T x) = some T := by
  have hraw := dropRawSuffix_buildKey T hx
  rw [buildKey, List.append_assoc] at hraw ⊢
  rw [roomTopicFromKey_append h, hraw, substr_append, Option.map_some,
    dropLastSegment_append_cons T hx.slash_notMem]

theorem kMessagesKeyPrefix_not_isInfix_slash : ¬ kMessagesKeyPrefix <:+: [slash] := by decide

theorem roomTopicFromKey_cons_buildKey (T : Bytes) {x : Bytes} (hx : IsKeySegment x) :
    roomTopicFromKey (slash :: buildKey T x) = some T :=
  roomTopicFromKey_buildKey kMessagesKeyPrefix_not_isInfix_slash T hx

theorem isValidRoomTopicShape_iff {T : Bytes} : isValidRoomTopicShape T = true ↔
    ∃ room, room ≠ [] ∧ slash ∉ room ∧ T = kRoomTopicNamespace ++ room := by
  simp only [isValidRoomTopicShape, Bool.and_eq_true, decide_eq_true_eq, beq_iff_eq,
    Bool.not_eq_true', List.contains_eq_mem, decide_eq_false_iff_not]
  constructor
  · rintro ⟨⟨hlen, htake⟩, hdrop⟩
    refine ⟨T.drop kRoomTopicNamespace.length, ?_, hdrop, ?_⟩
    · intro hnil
      have := congrArg List.length hnil
      simp only [List.length_drop, List.length_nil] at this
      omega
    · conv_lhs => rw [← List.take_append_drop kRoomTopicNamespace.length T, htake]
  · rintro ⟨room, hne, hslash, rfl⟩
    simp only [List.length_append, List.take_left, List.drop_left]
    have := List.length_pos_iff.2 hne
    exact ⟨⟨by omega, trivial⟩, hslash⟩

/-- No room's history prefix covers the records of another room. -/
theorem eq_of_historyPrefix_isPrefix {T T' x : Bytes} (hT : isValidRoomTopicShape T = true)
    (hT' : isValidRoomTopicShape T' = true) (h : historyPrefix T <+: buildKey T' x) : T = T' := by
  obtain ⟨a, _, ha, rfl⟩ := isValidRoomTopicShape_iff.1 hT
  obtain ⟨b, _, hb, rfl⟩ := isValidRoomTopicShape_iff.1 hT'
  simp only [historyPrefix, buildKey, List.append_assoc, List.prefix_append_right_inj] at h
  rw [eq_of_append_singleton_isPrefix ha hb h]

theorem historyPrefix_prefix_buildKey (T x : Bytes) : historyPrefix T <+: buildKey T x :=
  ⟨x, by simp [historyPrefix, buildKey]⟩

end GcsChat
