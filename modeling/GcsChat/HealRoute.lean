import GcsChat.EcmaPattern
import GcsChat.Messaging
import GcsChat.Session

/-!
# The heal route

A message that the store brings is archived under the key of its room, and the store calls
`OnMessageArrived` for the keys that the registered pattern fully matches. The check on the topics of
`join_topic` and `send_text` forbids another slash, and the pattern forbids line terminators.
-/

namespace GcsChat

open ByteString EcmaPattern

def kMessagesKeyCallbackPattern : Bytes := ofString "/gcs/messages/.*"

/-- `std::regex_match`; `none` is a pattern that is not a sequence of bytes and dots. -/
def regexMatch (pattern key : Bytes) : Option Bool := (readPattern pattern).map (fullMatch · key)

namespace Messaging

variable (M : Messaging)

/-- What the store does with an element under `key`: the callback, for a key that matches. -/
def heal (s : MessagingState) (key valueBytes : Bytes) : Option MessagingState :=
  if regexMatch kMessagesKeyCallbackPattern key = some true then M.onMessageArrived s key valueBytes
  else some s

end Messaging

/-- The callback key of a message is matched, and what arrives under it reaches the receive funnel
with the room of the message and throws nothing, in every component and state and for every value. -/
def HealRouteCovers (roomTopic id : Bytes) : Prop :=
  regexMatch kMessagesKeyCallbackPattern (slash :: buildKey roomTopic id) = some true ∧
    ∀ (M : Messaging) (s : MessagingState) (valueBytes : Bytes),
      M.onMessageArrived s (slash :: buildKey roomTopic id) valueBytes =
          some (M.applyMessage s roomTopic valueBytes) ∧
        M.heal s (slash :: buildKey roomTopic id) valueBytes =
          some (M.applyMessage s roomTopic valueBytes)

section HealRoute

variable {roomTopic : Bytes}

theorem readPattern_kMessagesKeyCallbackPattern :
    readPattern kMessagesKeyCallbackPattern =
      some (literals (slash :: kMessagesKeyPrefix) ++ [.star .dot]) := by
  decide

theorem regexMatch_buildKey_iff (roomTopic id : Bytes) :
    regexMatch kMessagesKeyCallbackPattern (slash :: buildKey roomTopic id) = some true ↔
      ∀ c ∈ roomTopic ++ slash :: id, isLineTerminator c = false := by
  have hkey : slash :: buildKey roomTopic id =
      (slash :: kMessagesKeyPrefix) ++ (roomTopic ++ slash :: id) := by
    rw [buildKey, List.append_assoc, List.cons_append]
  rw [regexMatch, readPattern_kMessagesKeyCallbackPattern, hkey, Option.map_some, Option.some_inj,
    fullMatch_literals_append, fullMatch_star_dot_iff]

theorem not_isLineTerminator_of_all {l : Bytes} (h : l.all (fun c => !isLineTerminator c) = true) :
    ∀ c ∈ l, isLineTerminator c = false := by
  simpa using h

theorem not_isLineTerminator_nextMessageId (nowMs token seq : ℕ) :
    ∀ c ∈ nextMessageId nowMs token seq, isLineTerminator c = false := by
  intro c hc
  have hdecimal : ∀ n, c ∈ decimal n → isLineTerminator c = false := by
    intro n hn
    have hdigit := (mem_decimal hn).1
    rw [isLineTerminator, Bool.or_eq_false_iff, beq_eq_false_iff_ne, beq_eq_false_iff_ne]
    constructor
    · rintro rfl
      exact absurd hdigit (by decide)
    · rintro rfl
      exact absurd hdigit (by decide)
  have hliteral : ∀ b ∈ kMessageIdPrefix ++ ofString "-", isLineTerminator b = false :=
    not_isLineTerminator_of_all (by decide)
  simp only [nextMessageId, mintId, List.mem_append] at hc
  rcases hc with ((hc | (hc | hc) | hc) | hc) | hc
  · exact hliteral c (List.mem_append_left _ hc)
  · exact hdecimal _ hc
  · exact hliteral c (List.mem_append_right _ hc)
  · exact hdecimal _ hc
  · exact hliteral c (List.mem_append_right _ hc)
  · exact hdecimal _ hc

theorem ne_nil_of_topicRejection {arm : Bytes} (h : Core.topicRejection arm roomTopic = none) :
    roomTopic ≠ [] := by
  rintro rfl
  rw [Core.topicRejection, if_pos rfl] at h
  exact Option.some_ne_none _ h

/-- The key of a message leads back to its room, whether or not the pattern matches it. -/
theorem onMessageArrived_buildKey (M : Messaging) (s : MessagingState) (hroom : roomTopic ≠ [])
    (nowMs token seq : ℕ) (valueBytes : Bytes) :
    M.onMessageArrived s (slash :: buildKey roomTopic (nextMessageId nowMs token seq)) valueBytes =
      some (M.applyMessage s roomTopic valueBytes) := by
  rw [Messaging.onMessageArrived,
    roomTopicFromKey_cons_buildKey _ (isKeySegment_nextMessageId nowMs token seq), Option.map_some,
    if_neg hroom]

/-- The heal route covers a topic that the commands accept exactly when the topic has no line
terminator. -/
theorem healRouteCovers_iff {arm : Bytes} (haccepted : Core.topicRejection arm roomTopic = none)
    (nowMs token seq : ℕ) :
    HealRouteCovers roomTopic (nextMessageId nowMs token seq) ↔
      ∀ c ∈ roomTopic, isLineTerminator c = false := by
  have hmatch : regexMatch kMessagesKeyCallbackPattern
      (slash :: buildKey roomTopic (nextMessageId nowMs token seq)) = some true ↔
        ∀ c ∈ roomTopic, isLineTerminator c = false := by
    rw [regexMatch_buildKey_iff, List.forall_mem_append, List.forall_mem_cons]
    exact and_iff_left ⟨by decide, not_isLineTerminator_nextMessageId nowMs token seq⟩
  have harrived := fun M s => onMessageArrived_buildKey M s (ne_nil_of_topicRejection haccepted)
    nowMs token seq
  refine (and_iff_left_of_imp fun hmatched M s valueBytes => ?_).trans hmatch
  rw [Messaging.heal, if_pos hmatched]
  exact ⟨harrived M s valueBytes, harrived M s valueBytes⟩

theorem healRouteCovers_smoke :
    Core.topicRejection (ofString "join_topic") kSmokeTopicA = none ∧
      HealRouteCovers kSmokeTopicA (nextMessageId 0 0 0) := by
  have haccepted : Core.topicRejection (ofString "join_topic") kSmokeTopicA = none := by decide
  exact ⟨haccepted, (healRouteCovers_iff haccepted 0 0 0).2
    (not_isLineTerminator_of_all (by decide))⟩

/-- A room of two lines can be joined, and what the store brings for it is dropped. -/
theorem not_healRouteCovers_two_lines :
    let roomTopic := ofString "gcs/chat/a\nb"
    Core.topicRejection (ofString "join_topic") roomTopic = none ∧
      Core.topicRejection (ofString "send_text") roomTopic = none ∧
      ¬ HealRouteCovers roomTopic (nextMessageId 0 0 0) := by
  refine ⟨by decide, by decide, fun h => ?_⟩
  have hmatched := (regexMatch_buildKey_iff _ _).1 h.1
  exact absurd (hmatched 10 (by decide)) (by decide)

end HealRoute

end GcsChat
