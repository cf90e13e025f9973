import GcsChat.MessageKeys

/-!
# The framings of an archive key

The callbacks deliver a message key as `BuildKey` made it, with a leading slash, or in the raw form
of the datastore, between its framing and a `/v` or `/p` suffix. `RoomTopicFromKey` takes the
suffix off before the id, and it cannot tell the two apart: an id that reads like a suffix takes
the last segment of the topic along.
-/

namespace GcsChat

open ByteString

/-- What the datastore puts before a logical key. -/
def rawFraming (ns : Bytes) : Bytes := slash :: ns ++ ofString "/k/"

/-- The topic comes back from every documented form of the key. -/
structure UndoesBuildKey (T x : Bytes) : Prop where
  logical : roomTopicFromKey (buildKey T x) = some T
  slashed : roomTopicFromKey (slash :: buildKey T x) = some T
  raw : ∀ ns, ¬ kMessagesKeyPrefix <:+: rawFraming ns →
    ∀ suffix ∈ [kValueSuffix, kPrioritySuffix],
      roomTopicFromKey (rawFraming ns ++ buildKey T x ++ suffix) = some T

theorem kMessagesKeyPrefix_not_isInfix_nil : ¬ kMessagesKeyPrefix <:+: [] := by decide

theorem roomTopicFromKey_append_suffix {framing : Bytes} (h : ¬ kMessagesKeyPrefix <:+: framing)
    (logical : Bytes) {suffix : Bytes} (hsuffix : suffix = kValueSuffix ∨ suffix = kPrioritySuffix) :
    roomTopicFromKey (framing ++ (kMessagesKeyPrefix ++ (logical ++ suffix))) =
      some (dropLastSegment logical) := by
  have hraw : dropRawSuffix (kMessagesKeyPrefix ++ (logical ++ suffix)) =
      kMessagesKeyPrefix ++ logical := by
    rw [← List.append_assoc]
    exact dropRawSuffix_append hsuffix _
  rw [roomTopicFromKey_append h, hraw, substr_append, Option.map_some]

theorem roomTopicFromKey_buildKey_append {framing : Bytes} (h : ¬ kMessagesKeyPrefix <:+: framing)
    (T : Bytes) {x : Bytes} (hx : slash ∉ x) {suffix : Bytes}
    (hsuffix : suffix = kValueSuffix ∨ suffix = kPrioritySuffix) :
    roomTopicFromKey (framing ++ buildKey T x ++ suffix) = some T := by
  have hkey : framing ++ buildKey T x ++ suffix =
      framing ++ (kMessagesKeyPrefix ++ (T ++ slash :: x ++ suffix)) := by
    simp only [buildKey, List.append_assoc]
  rw [hkey, roomTopicFromKey_append_suffix h _ hsuffix, dropLastSegment_append_cons T hx]

/-- An id that reads like a suffix goes as one, and the topic loses its last segment. -/
theorem roomTopicFromKey_buildKey_of_suffix {framing : Bytes}
    (h : ¬ kMessagesKeyPrefix <:+: framing) (T : Bytes) {x : Bytes}
    (hx : x = ofString "v" ∨ x = ofString "p") :
    roomTopicFromKey (framing ++ buildKey T x) = some (dropLastSegment T) := by
  have hsuffix : slash :: x = kValueSuffix ∨ slash :: x = kPrioritySuffix := by
    rcases hx with rfl | rfl
    · exact .inl (by decide)
    · exact .inr (by decide)
  rw [buildKey, List.append_assoc, roomTopicFromKey_append_suffix h T hsuffix]

/-- The forms without a raw suffix are the ones an id can spoil. -/
theorem roomTopicFromKey_buildKey_iff {framing : Bytes} (h : ¬ kMessagesKeyPrefix <:+: framing)
    (T : Bytes) {x : Bytes} (hx : slash ∉ x) :
    roomTopicFromKey (framing ++ buildKey T x) = some T ↔
      (x = ofString "v" ∨ x = ofString "p" → slash ∉ T) := by
  by_cases hid : x = ofString "v" ∨ x = ofString "p"
  · rw [roomTopicFromKey_buildKey_of_suffix h T hid, Option.some_inj, dropLastSegment_eq_self_iff]
    exact ⟨fun hT _ => hT, fun hT => hT hid⟩
  · obtain ⟨hv, hp⟩ := not_or.1 hid
    exact iff_of_true (roomTopicFromKey_buildKey h T ⟨hx, hv, hp⟩) fun h => absurd h hid

/-- Every form of a key leads back to its topic, unless the id is a raw suffix and the topic has a
slash; and a key without the archive prefix belongs to no room. -/
theorem undoesBuildKey_iff (T : Bytes) {x : Bytes} (hx : slash ∉ x) :
    (UndoesBuildKey T x ↔ (x = ofString "v" ∨ x = ofString "p" → slash ∉ T)) ∧
      ∀ key, ¬ kMessagesKeyPrefix <:+: key → roomTopicFromKey key = some [] := by
  refine ⟨⟨fun h => ?_, fun h => ⟨?_, ?_, ?_⟩⟩, fun key hkey => ?_⟩
  · exact (roomTopicFromKey_buildKey_iff kMessagesKeyPrefix_not_isInfix_nil T hx).1 h.logical
  · exact (roomTopicFromKey_buildKey_iff kMessagesKeyPrefix_not_isInfix_nil T hx).2 h
  · exact (roomTopicFromKey_buildKey_iff kMessagesKeyPrefix_not_isInfix_slash T hx).2 h
  · intro ns hns suffix hsuffix
    refine roomTopicFromKey_buildKey_append hns T hx ?_
    simpa only [List.mem_cons, List.not_mem_nil, or_false] using hsuffix
  · rw [roomTopicFromKey, find_eq_none_iff.2 hkey]

theorem undoesBuildKey_smokeTopic :
    UndoesBuildKey kSmokeTopicA (nextMessageId 0 0 0) ∧
      roomTopicFromKey (ofString "gcs/index/manifest") = some [] := by
  have hid := isKeySegment_nextMessageId 0 0 0
  obtain ⟨hiff, hother⟩ := undoesBuildKey_iff kSmokeTopicA hid.slash_notMem
  refine ⟨hiff.2 fun h => ?_, hother _ (by decide)⟩
  exact absurd h (not_or.2 ⟨hid.ne_value, hid.ne_priority⟩)

/-- A message with the id `v` comes back as a message of the namespace of its room. -/
theorem suffix_id_loses_room :
    kSmokeTopicA ≠ [] ∧ ofString "v" ≠ [] ∧ slash ∉ ofString "v" ∧
      roomTopicFromKey (buildKey kSmokeTopicA (ofString "v")) = some (ofString "gcs/chat") ∧
      ¬ UndoesBuildKey kSmokeTopicA (ofString "v") := by
  have hlost :
      roomTopicFromKey (buildKey kSmokeTopicA (ofString "v")) = some (ofString "gcs/chat") := by
    decide
  refine ⟨by decide, by decide, by decide, hlost, fun h => ?_⟩
  have hlogical := h.logical
  rw [hlost] at hlogical
  revert hlogical
  decide

end GcsChat
