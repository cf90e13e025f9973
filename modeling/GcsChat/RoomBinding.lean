import GcsChat.Messaging

/-!
# Which room a delivery reaches

The receive funnel decrypts under the room of the delivery and then trusts the room and the id
written inside the payload. A delivery stays in its room exactly when the accepted payload names
that room and carries an id that fills one segment of a key.
-/

namespace GcsChat.Messaging

open ByteString ProtoSchema

def Call.roomTopic : Call → Option Bytes
  | .live topic _ => some topic
  | .arrived key _ => roomTopicFromKey key
  | _ => none

/-- The arguments of the `ApplyMessage` call behind a delivery. -/
def Call.applied : Call → Option (Bytes × Bytes)
  | .live topic valueBytes => some (topic, valueBytes)
  | .arrived key valueBytes =>
      ((roomTopicFromKey key).filter (· ≠ [])).map fun roomTopic => (roomTopic, valueBytes)
  | _ => none

def newEvents (s t : MessagingState) : List GcsEvent := t.pushed.drop s.pushed.length

def newArchives (s t : MessagingState) : List (Bytes × Bytes) :=
  t.archiveQueue.drop s.archiveQueue.length

variable (M : Messaging)

/-- From one state to the next, every event is a message of the room and every archive write is
stored under the room's prefix and the message's own id. -/
def BoundTo (roomTopic : Bytes) (s t : MessagingState) : Prop :=
  (∀ e ∈ newEvents s t, ∃ msg, e = .message msg ∧ msg.roomTopic = roomTopic) ∧
    ∀ kv ∈ newArchives s t, ∃ msg, M.openMessage roomTopic kv.2 = some msg ∧
      kv.1 = buildKey roomTopic msg.id ∧ msg.id ≠ [] ∧ slash ∉ msg.id

/-- A payload that is accepted names the room of the delivery. -/
def NamesItsRoom (s : MessagingState) (c : Call) : Prop :=
  ∀ roomTopic valueBytes msg, c.applied = some (roomTopic, valueBytes) →
    M.openMessage roomTopic valueBytes = some msg → msg.id ∉ s.seenIds →
      msg.roomTopic = roomTopic ∧ msg.id ≠ [] ∧ slash ∉ msg.id

def performAll (s : MessagingState) (cs : List Call) : MessagingState := cs.foldl M.perform s

variable {M}

theorem perform_of_applied {c : Call} {roomTopic valueBytes : Bytes}
    (h : c.applied = some (roomTopic, valueBytes)) (s : MessagingState) :
    M.perform s c = M.applyMessage s roomTopic valueBytes := by
  cases c with
  | live topic v =>
      obtain ⟨rfl, rfl⟩ := Prod.mk.inj (Option.some.inj h)
      rfl
  | arrived key v =>
      simp only [Call.applied, Option.map_eq_some_iff, Option.filter_eq_some_iff, Prod.mk.injEq,
        decide_eq_true_eq] at h
      obtain ⟨_, ⟨hkey, hne⟩, rfl, rfl⟩ := h
      simp only [perform, onMessageArrived, hkey, Option.map_some, Option.getD_some, if_neg hne]
  | send _ _ _ => exact absurd h (by simp [Call.applied])
  | history _ _ => exact absurd h (by simp [Call.applied])
  | archive => exact absurd h (by simp [Call.applied])

theorem perform_of_not_applied {c : Call} {T : Bytes} (hT : c.roomTopic = some T)
    (h : c.applied = none) (s : MessagingState) : M.perform s c = s := by
  cases c with
  | live topic v => exact absurd h (by simp [Call.applied])
  | arrived key v =>
      simp only [Call.roomTopic] at hT
      simp only [Call.applied, hT, Option.map_eq_none_iff, Option.filter_eq_none_iff] at h
      have hnil : T = [] := by simpa using h T rfl
      simp only [perform, onMessageArrived, hT, Option.map_some, Option.getD_some, if_pos hnil]
  | send _ _ _ => exact absurd hT (by simp [Call.roomTopic])
  | history _ _ => exact absurd hT (by simp [Call.roomTopic])
  | archive => exact absurd hT (by simp [Call.roomTopic])

theorem roomTopic_of_applied {c : Call} {roomTopic valueBytes : Bytes}
    (h : c.applied = some (roomTopic, valueBytes)) : c.roomTopic = some roomTopic := by
  cases c with
  | live topic v =>
      obtain ⟨rfl, rfl⟩ := Prod.mk.inj (Option.some.inj h)
      rfl
  | arrived key v =>
      simp only [Call.applied, Option.map_eq_some_iff, Option.filter_eq_some_iff, Prod.mk.injEq] at h
      obtain ⟨_, ⟨hkey, _⟩, rfl, _⟩ := h
      exact hkey
  | send _ _ _ => exact absurd h (by simp [Call.applied])
  | history _ _ => exact absurd h (by simp [Call.applied])
  | archive => exact absurd h (by simp [Call.applied])

theorem boundTo_refl (M : Messaging) (T : Bytes) (s : MessagingState) : M.BoundTo T s s := by
  simp [BoundTo, newEvents, newArchives]

theorem boundTo_accept_iff {s : MessagingState} {T v : Bytes} {msg : ChatMessageState}
    (hopen : M.openMessage T v = some msg) :
    M.BoundTo T s (M.accept s msg v) ↔ msg.roomTopic = T ∧ msg.id ≠ [] ∧ slash ∉ msg.id := by
  simp only [BoundTo, newEvents, newArchives, accept_pushed, accept_archiveQueue, List.drop_left,
    List.mem_singleton, forall_eq, GcsEvent.message.injEq, exists_eq_left', withRole_roomTopic,
    hopen, Option.some.injEq]
  constructor
  · rintro ⟨hroom, _, hne, hslash⟩
    exact ⟨hroom, hne, hslash⟩
  · rintro ⟨rfl, hne, hslash⟩
    exact ⟨rfl, rfl, hne, hslash⟩

theorem namesItsRoom_iff_of_applied {s : MessagingState} {c : Call} {T v : Bytes}
    (happ : c.applied = some (T, v)) : M.NamesItsRoom s c ↔
      ∀ msg, M.openMessage T v = some msg → msg.id ∉ s.seenIds →
        msg.roomTopic = T ∧ msg.id ≠ [] ∧ slash ∉ msg.id := by
  constructor
  · intro h msg
    exact h T v msg happ
  · intro h T' v' msg hc
    obtain ⟨rfl, rfl⟩ := Prod.mk.inj (Option.some.inj (happ.symm.trans hc))
    exact h msg

theorem boundTo_applyMessage_iff (M : Messaging) (s : MessagingState) (T v : Bytes) :
    M.BoundTo T s (M.applyMessage s T v) ↔
      ∀ msg, M.openMessage T v = some msg → msg.id ∉ s.seenIds →
        msg.roomTopic = T ∧ msg.id ≠ [] ∧ slash ∉ msg.id := by
  cases hopen : M.openMessage T v with
  | none => simp [applyMessage_of_not_opened hopen, boundTo_refl]
  | some msg =>
      by_cases hseen : msg.id ∈ s.seenIds
      · simp [applyMessage_of_mem hopen hseen, boundTo_refl, hseen]
      · simp [applyMessage_of_notMem hopen hseen, boundTo_accept_iff hopen, hseen]

theorem boundTo_perform_iff (M : Messaging) (s : MessagingState) (c : Call) :
    (∀ T, c.roomTopic = some T → M.BoundTo T s (M.perform s c)) ↔ M.NamesItsRoom s c := by
  cases happ : c.applied with
  | none =>
      refine iff_of_true (fun T hT => ?_) (fun T v msg hc => ?_)
      · rw [perform_of_not_applied hT happ]
        exact boundTo_refl M T s
      · rw [happ] at hc
        cases hc
  | some call =>
      obtain ⟨T, v⟩ := call
      rw [roomTopic_of_applied happ, namesItsRoom_iff_of_applied happ, perform_of_applied happ]
      simp only [Option.some.injEq, forall_eq']
      exact boundTo_applyMessage_iff M s T v

/-- Over every run, each delivery stays in its room exactly when each accepted payload names the
room it was delivered on. -/
theorem deliveries_bound_iff (M : Messaging) (cs : List Call) :
    (∀ pre c post, cs = pre ++ c :: post → ∀ T, c.roomTopic = some T →
        M.BoundTo T (M.performAll .fresh pre) (M.perform (M.performAll .fresh pre) c)) ↔
      ∀ pre c post, cs = pre ++ c :: post → M.NamesItsRoom (M.performAll .fresh pre) c :=
  forall₄_congr fun pre c _ _ => boundTo_perform_iff M (M.performAll .fresh pre) c

/-- A peer publishing on one room makes a message of another room appear and be archived there. -/
theorem foreign_payload_not_boundTo :
    let M := plaintext (ofString "self")
    let payload := M.codec.serialize (numberedMessage kSmokeTopicB 0)
    let after := M.performAll .fresh [.live kSmokeTopicA payload]
    newEvents .fresh after = [.message (M.withRole (numberedMessage kSmokeTopicB 0))] ∧
      newArchives .fresh after = [(buildKey kSmokeTopicB (nextMessageId 0 0 0), payload)] ∧
      ¬ M.BoundTo kSmokeTopicA .fresh after := by
  intro M payload after
  have hopen : M.openMessage kSmokeTopicA payload = some (numberedMessage kSmokeTopicB 0) :=
    openMessage_plaintext _ _ (valid_numberedMessage (validUtf8_ofString _) 0)
  have hafter : after = M.accept .fresh (numberedMessage kSmokeTopicB 0) payload :=
    applyMessage_of_notMem (s := .fresh) hopen (Finset.notMem_empty _)
  rw [hafter]
  refine ⟨rfl, rfl, fun hbound => ?_⟩
  have hroom := ((boundTo_accept_iff hopen).1 hbound).1
  revert hroom
  decide

end GcsChat.Messaging
