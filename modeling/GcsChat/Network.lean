import GcsChat.Node

/-!
# Nodes that replicate each other's archives

Any number of nodes with the same seam and codec. The network may lose, duplicate, reorder and
delay live messages, and replicate any record a node has ever stored to any node at any time. Every
byte string that belongs to a message, in flight or at rest, is the payload its sender computed.
-/

namespace GcsChat

open ByteString ProtoSchema

/-- Every record in the store, on its way to it or announced by a callback satisfies `P`. -/
structure NodeState.Holds (P : Bytes × Bytes → Prop) (s : NodeState) : Prop where
  unpushed : ∀ a ∈ s.unpushed, P a.record
  unqueued : ∀ a ∈ s.unqueued, P a.record
  queue : ∀ record ∈ s.messaging.archiveQueue, P record
  archiving : ∀ record ∈ s.archiving, P record
  store : ∀ k v, s.store.find? k = some v → P (k, v)
  written : ∀ record ∈ s.written, P record
  callbacks : ∀ cb ∈ s.callbacks, P (cb.key, cb.valueBytes)

namespace NodeState.Holds

variable {P Q : Bytes × Bytes → Prop} {s : NodeState}

theorem fresh (P : Bytes × Bytes → Prop) : NodeState.fresh.Holds P where
  unpushed := by simp [NodeState.fresh]
  unqueued := by simp [NodeState.fresh]
  queue := by simp [NodeState.fresh, MessagingState.fresh]
  archiving := by simp [NodeState.fresh]
  store := by simp [NodeState.fresh]
  written := by simp [NodeState.fresh]
  callbacks := by simp [NodeState.fresh]

theorem mono (h : s.Holds P) (hPQ : ∀ record, P record → Q record) : s.Holds Q where
  unpushed a ha := hPQ _ (h.unpushed a ha)
  unqueued a ha := hPQ _ (h.unqueued a ha)
  queue r hr := hPQ _ (h.queue r hr)
  archiving r hr := hPQ _ (h.archiving r hr)
  store k v hkv := hPQ _ (h.store k v hkv)
  written r hr := hPQ _ (h.written r hr)
  callbacks cb hcb := hPQ _ (h.callbacks cb hcb)

theorem write (h : s.Holds P) {key v : Bytes} (hrecord : P (key, v)) : (s.write key v).Holds P :=
  { h with
    store := by
      intro k w hfind
      simp only [NodeState.write, OrderedMap.find?_insertOrAssign] at hfind
      split_ifs at hfind with hk
      · exact hk ▸ Option.some.inj hfind ▸ hrecord
      · exact h.store k w hfind
    written := List.forall_mem_append.2 ⟨h.written, List.forall_mem_singleton.2 hrecord⟩
    callbacks := List.forall_mem_append.2 ⟨h.callbacks, List.forall_mem_singleton.2 hrecord⟩ }

theorem merge (h : s.Holds P) {key v : Bytes} (hrecord : P (key, v)) (wins : Bool) :
    (s.merge key v wins).Holds P :=
  { h with
    store := by
      intro k w hfind
      simp only [NodeState.merge] at hfind
      split_ifs at hfind
      · exact (h.write hrecord).store k w hfind
      · rw [OrderedMap.find?_emplace] at hfind
        split_ifs at hfind with hk
        · exact hk.1 ▸ Option.some.inj hfind ▸ hrecord
        · exact h.store k w hfind
    written := List.forall_mem_append.2 ⟨h.written, List.forall_mem_singleton.2 hrecord⟩
    callbacks := List.forall_mem_append.2 ⟨h.callbacks, List.forall_mem_singleton.2 hrecord⟩ }

theorem receive (h : s.Holds P) {M : Messaging} {T v : Bytes}
    (hopen : ∀ msg, M.openMessage T v = some msg → P (Accepted.record ⟨msg, v⟩)) :
    (M.receive s T v).Holds P := by
  rcases M.receive_cases s T v with heq | ⟨msg, hmsg, _, heq⟩
  · rwa [heq]
  · rw [heq]
    exact { h with
      unpushed := List.forall_mem_append.2
        ⟨h.unpushed, List.forall_mem_singleton.2 (hopen msg hmsg)⟩ }

theorem arrive (h : s.Holds P) {M : Messaging} {key v : Bytes}
    (hopen : ∀ T msg, roomTopicFromKey key = some T → M.openMessage T v = some msg →
      P (Accepted.record ⟨msg, v⟩)) : (M.arrive s key v).Holds P := by
  cases hkey : roomTopicFromKey key with
  | none =>
      simp only [Messaging.arrive, hkey]
      exact h
  | some T =>
      by_cases hT : T = []
      · simp only [Messaging.arrive, hkey, if_pos hT]
        exact h
      · rw [Messaging.arrive_of_roomTopic hkey hT]
        exact h.receive (hopen T · hkey)

/-- A step keeps what a node holds when the records it brings in satisfy `P`: those that are
delivered, replicated or sent, and those the funnel rebuilds from a record of the store. -/
theorem step (h : s.Holds P) {M : Messaging} {l : Label} {t : NodeState} (hstep : M.Step s l t)
    (hlive : ∀ T v msg, l = .live T v → M.openMessage T v = some msg →
      P (Accepted.record ⟨msg, v⟩))
    (hreplicate : ∀ k v wins, l = .replicate k v wins → P (k, v))
    (hcallback : ∀ k v T msg, P (k, v) → roomTopicFromKey (slash :: k) = some T →
      M.openMessage T v = some msg → P (Accepted.record ⟨msg, v⟩))
    (hsend : ∀ msg payload, ⟨msg, some payload, .published⟩ ∈ s.sends →
      P (buildKey msg.roomTopic msg.id, payload)) : t.Holds P := by
  cases hstep with
  | live T v => exact h.receive (hlive T v · rfl)
  | replicate key v wins => exact h.merge (hreplicate key v wins rfl) wins
  | callback before cb after hcbs =>
      obtain ⟨hothers, hcb⟩ := forall_mem_of_eq_append_cons h.callbacks hcbs
      have hrest : NodeState.Holds P { s with callbacks := before ++ after } :=
        { h with callbacks := hothers }
      exact hrest.arrive fun T msg hkey hopen =>
        hcallback cb.key cb.valueBytes T msg hcb hkey hopen
  | push before a after hlist _ =>
      obtain ⟨hrest, ha⟩ := forall_mem_of_eq_append_cons h.unpushed hlist
      exact { h with
        unpushed := hrest
        unqueued := List.forall_mem_append.2 ⟨h.unqueued, List.forall_mem_singleton.2 ha⟩ }
  | enqueue before a after hlist =>
      obtain ⟨hrest, ha⟩ := forall_mem_of_eq_append_cons h.unqueued hlist
      exact { h with
        unqueued := hrest
        queue := List.forall_mem_append.2 ⟨h.queue, List.forall_mem_singleton.2 ha⟩ }
  | take item rest hqueue _ =>
      have hsplit := h.queue
      rw [hqueue, List.forall_mem_cons] at hsplit
      exact { h with
        queue := hsplit.2
        archiving := by simpa using hsplit.1 }
  | put item harchiving =>
      have hidle : NodeState.Holds P { s with archiving := none } :=
        { h with archiving := by simp }
      exact hidle.write (h.archiving item harchiving)
  | putFailed => exact { h with archiving := by simp }
  | sendPut before msg payload after hlist =>
      have hsent : NodeState.Holds P
          { s with sends := before ++ ⟨msg, some payload, .archived⟩ :: after } := { h with }
      exact hsent.write (hsend msg payload (by simp [hlist]))
  | _ => exact { h with }

end NodeState.Holds

namespace Messaging

variable {M : Messaging} {s t : NodeState} {l : Label}

theorem arrive_sends (M : Messaging) (s : NodeState) (key v : Bytes) :
    (M.arrive s key v).sends = s.sends ∧ (M.arrive s key v).published = s.published := by
  rcases arrive_cases M s key v with h | ⟨_, _, _, _, _, h⟩ <;> rw [h] <;> exact ⟨rfl, rfl⟩

theorem receive_sends (M : Messaging) (s : NodeState) (T v : Bytes) :
    (M.receive s T v).sends = s.sends ∧ (M.receive s T v).published = s.published := by
  rcases receive_cases M s T v with h | ⟨_, _, _, h⟩ <;> rw [h] <;> exact ⟨rfl, rfl⟩

structure Advances (M : Messaging) (c c' : Sending) : Prop where
  message : c'.message = c.message
  keeps : ∀ v, c.payload = some v → c'.payload = some v
  computes : ∀ v, c'.payload = some v → c.payload = some v ∨
    ∃ random, M.sealed random c.message.roomTopic (M.codec.serialize c.message) = some v

theorem Advances.stage (msg : ChatMessageState) (payload : Option Bytes)
    (stage stage' : SendStage) : M.Advances ⟨msg, payload, stage⟩ ⟨msg, payload, stage'⟩ :=
  ⟨rfl, fun _ h => h, fun _ h => Or.inl h⟩

theorem Step.sends (h : M.Step s l t) : t.sends = s.sends ∨
    (∃ T text id nowMs, l = .send T text id nowMs ∧
      t.sends = s.sends ++ [⟨M.completeMessage T text id nowMs, none, .minted⟩]) ∨
    ∃ before c c' after, s.sends = before ++ c :: after ∧ t.sends = before ++ c' :: after ∧
      M.Advances c c' := by
  cases h with
  | live T v => exact Or.inl (receive_sends M s T v).1
  | callback before cb after _ =>
      exact Or.inl (arrive_sends M { s with callbacks := before ++ after } _ cb.valueBytes).1
  | send T text id nowMs => exact Or.inr (Or.inl ⟨T, text, id, nowMs, rfl, rfl⟩)
  | sendEcho before msg after hlist =>
      exact Or.inr (Or.inr ⟨before, _, _, after, hlist, rfl, .stage msg none _ _⟩)
  | sendSeal before msg after random payload hlist hsealed =>
      refine Or.inr (Or.inr ⟨before, _, _, after, hlist, rfl, rfl, by simp, ?_⟩)
      rintro v ⟨⟩
      exact Or.inr ⟨random, hsealed⟩
  | sendSealFailed before msg after _ hlist =>
      exact Or.inr (Or.inr ⟨before, _, _, after, hlist, rfl, .stage msg none _ _⟩)
  | sendPublish before msg payload after hlist =>
      exact Or.inr (Or.inr ⟨before, _, _, after, hlist, rfl, .stage msg (some payload) _ _⟩)
  | sendPublishFailed before msg payload after hlist =>
      exact Or.inr (Or.inr ⟨before, _, _, after, hlist, rfl, .stage msg (some payload) _ _⟩)
  | sendPut before msg payload after hlist =>
      exact Or.inr (Or.inr ⟨before, _, _, after, hlist, rfl, .stage msg (some payload) _ _⟩)
  | sendPutFailed before msg payload after hlist =>
      exact Or.inr (Or.inr ⟨before, _, _, after, hlist, rfl, .stage msg (some payload) _ _⟩)
  | sendReturn before msg payload after hlist =>
      exact Or.inr (Or.inr ⟨before, _, _, after, hlist, rfl, .stage msg (some payload) _ _⟩)
  | sendReturnFailed before msg payload after hlist =>
      exact Or.inr (Or.inr ⟨before, _, _, after, hlist, rfl, .stage msg payload _ _⟩)
  | _ => exact Or.inl rfl

theorem Step.published (h : M.Step s l t) : t.published = s.published ∨
    ∃ msg payload, ⟨msg, some payload, .sealed⟩ ∈ s.sends ∧
      t.published = s.published ++ [(msg.roomTopic, payload)] := by
  cases h with
  | live T v => exact Or.inl (receive_sends M s T v).2
  | callback before cb after _ =>
      exact Or.inl (arrive_sends M { s with callbacks := before ++ after } _ cb.valueBytes).2
  | sendPublish before msg payload after hlist =>
      exact Or.inr ⟨msg, payload, by simp [hlist], rfl⟩
  | _ => exact Or.inl rfl

end Messaging

/-- Nodes that differ only in who sends. -/
structure Network (ι : Type*) where
  sender : ι → Bytes
  crypto : CryptoSeam
  codec : MessageCodec ChatMessageState chatMessageSchema.Valid
  validUtf8_sender : ∀ i, ValidUtf8 (sender i)
  decryptUndoesEncrypt : crypto.DecryptUndoesEncrypt

namespace Network

variable {ι : Type*} (N : Network ι)

def messaging (i : ι) : Messaging := ⟨N.sender i, N.crypto, N.codec⟩

/-- What the network and the commands of the nodes may do: deliver what was published, replicate
what was stored, and send UTF-8 text to a room under an id that was minted and never used before. -/
def Allowed (s : ι → NodeState) : Label → Prop
  | .live T v => ∃ j, (T, v) ∈ (s j).published
  | .replicate k v _ => ∃ j, (k, v) ∈ (s j).written
  | .send T text id nowMs => isValidRoomTopicShape T = true ∧ ValidUtf8 T ∧ ValidUtf8 text ∧
      IsInt64 nowMs ∧ (∃ ms token seq, id = nextMessageId ms token seq) ∧
      ∀ j, ∀ c ∈ (s j).sends, c.message.id ≠ id
  | _ => True

def system : TransitionSystem (ι → NodeState) (ι × Label) where
  initial s := ∀ i, s i = .fresh
  step s il t := (N.messaging il.1).Step (s il.1) il.2 (t il.1) ∧ (∀ j ≠ il.1, t j = s j) ∧
    Allowed s il.2

/-- Some `SendMessage` minted the id for the room and computed the payload. -/
def Minted (s : ι → NodeState) (T x v : Bytes) : Prop :=
  ∃ j, ∃ c ∈ (s j).sends, c.message.roomTopic = T ∧ c.message.id = x ∧ c.payload = some v

def IsRecord (s : ι → NodeState) (record : Bytes × Bytes) : Prop :=
  ∃ T x, record.1 = buildKey T x ∧ Minted s T x record.2

structure IsSent (i : ι) (c : Sending) : Prop where
  valid : chatMessageSchema.Valid c.message
  shape : isValidRoomTopicShape c.message.roomTopic = true
  segment : IsKeySegment c.message.id
  opens : ∀ v ∈ c.payload, (N.messaging i).openMessage c.message.roomTopic v = some c.message

structure Invariant (s : ι → NodeState) : Prop where
  sent : ∀ i, ∀ c ∈ (s i).sends, N.IsSent i c
  nodup : ∀ i, ((s i).sends.map fun c => c.message.id).Nodup
  distinct : ∀ i j, ∀ c ∈ (s i).sends, ∀ d ∈ (s j).sends, c.message.id = d.message.id → i = j
  published : ∀ i T v, (T, v) ∈ (s i).published → ∃ x, Minted s T x v
  holds : ∀ i, (s i).Holds (IsRecord s)

variable {N}

theorem Minted.opens {s : ι → NodeState} (h : N.Invariant s) {T x v : Bytes} (hm : Minted s T x v)
    (i : ι) : ∃ msg, (N.messaging i).openMessage T v = some msg ∧ msg.roomTopic = T ∧ msg.id = x ∧
      isValidRoomTopicShape T = true ∧ IsKeySegment x := by
  obtain ⟨j, c, hc, rfl, rfl, hv⟩ := hm
  have hsent := h.sent j c hc
  exact ⟨c.message, hsent.opens v hv, rfl, rfl, hsent.shape, hsent.segment⟩

/-- An id is minted once, for one room and with one payload. -/
theorem Minted.unique {s : ι → NodeState} (h : N.Invariant s) {T T' x v v' : Bytes}
    (hm : Minted s T x v) (hm' : Minted s T' x v') : T = T' ∧ v = v' := by
  obtain ⟨i, c, hc, rfl, rfl, hv⟩ := hm
  obtain ⟨j, d, hd, rfl, hid, hv'⟩ := hm'
  obtain rfl := h.distinct i j c hc d hd hid.symm
  obtain rfl := List.inj_on_of_nodup_map (h.nodup i) hc hd hid.symm
  exact ⟨rfl, Option.some.inj (hv.symm.trans hv')⟩

theorem IsRecord.callback {s : ι → NodeState} (h : N.Invariant s) {k v T : Bytes}
    {msg : ChatMessageState} (i : ι) (hrecord : IsRecord s (k, v))
    (hkey : roomTopicFromKey (slash :: k) = some T)
    (hopen : (N.messaging i).openMessage T v = some msg) :
    IsRecord s (Accepted.record ⟨msg, v⟩) := by
  obtain ⟨T', x, rfl, hm⟩ := hrecord
  obtain ⟨msg', hopen', hroom, hid, _, hseg⟩ := hm.opens h i
  rw [roomTopicFromKey_cons_buildKey T' hseg] at hkey
  obtain rfl := Option.some.inj hkey
  obtain rfl := Option.some.inj (hopen.symm.trans hopen')
  exact ⟨T', x, by rw [Accepted.record, hroom, hid], hm⟩

section Step

variable {s t : ι → NodeState} {il : ι × Label}

theorem Minted.step (hstep : N.system.step s il t) {T x v : Bytes} (hm : Minted s T x v) :
    Minted t T x v := by
  obtain ⟨j, c, hc, hT, hx, hv⟩ := hm
  by_cases hj : j = il.1
  · subst hj
    rcases hstep.1.sends with heq | ⟨_, _, _, _, _, heq⟩ | ⟨before, d, d', after, hlist, heq, hadv⟩
    · exact ⟨_, c, heq ▸ hc, hT, hx, hv⟩
    · exact ⟨_, c, heq ▸ List.mem_append_left _ hc, hT, hx, hv⟩
    · rw [hlist, List.mem_append, List.mem_cons] at hc
      rcases hc with hc | rfl | hc
      · exact ⟨il.1, c, by simp [heq, hc], hT, hx, hv⟩
      · exact ⟨il.1, d', by simp [heq], hadv.message ▸ hT, hadv.message ▸ hx, hadv.keeps v hv⟩
      · exact ⟨il.1, c, by simp [heq, hc], hT, hx, hv⟩
  · exact ⟨j, c, hstep.2.1 j hj ▸ hc, hT, hx, hv⟩

theorem IsRecord.step (hstep : N.system.step s il t) {record : Bytes × Bytes}
    (h : IsRecord s record) : IsRecord t record := by
  obtain ⟨T, x, hkey, hm⟩ := h
  exact ⟨T, x, hkey, hm.step hstep⟩

theorem isSent_completeMessage {T text id : Bytes} {nowMs : ℤ}
    (hallowed : Allowed s (.send T text id nowMs)) (i : ι) (stage : SendStage) :
    N.IsSent i ⟨(N.messaging i).completeMessage T text id nowMs, none, stage⟩ := by
  obtain ⟨hshape, hT, htext, hnow, ⟨ms, token, seq, rfl⟩, _⟩ := hallowed
  exact ⟨Messaging.valid_completeMessage (N.validUtf8_sender i) hT htext
    (validUtf8_mintId (validUtf8_ofString _) ms token seq) hnow, hshape,
    isKeySegment_nextMessageId ms token seq, by simp⟩

theorem IsSent.advances {i : ι} {c c' : Sending} (h : N.IsSent i c)
    (hadv : (N.messaging i).Advances c c') : N.IsSent i c' := by
  refine ⟨hadv.message ▸ h.valid, hadv.message ▸ h.shape, hadv.message ▸ h.segment, fun v hv => ?_⟩
  rw [hadv.message]
  rcases hadv.computes v hv with hv | ⟨random, hsealed⟩
  · exact h.opens v hv
  · exact Messaging.openMessage_sealed N.decryptUndoesEncrypt h.valid hsealed

theorem Invariant.sent_step (h : N.Invariant s) (hstep : N.system.step s il t) (i : ι) :
    ∀ c ∈ (t i).sends, N.IsSent i c := by
  by_cases hi : i = il.1
  · subst hi
    rcases hstep.1.sends with heq | ⟨T, text, id, nowMs, hl, heq⟩ |
      ⟨before, d, d', after, hlist, heq, hadv⟩
    · exact heq ▸ h.sent _
    · have hallowed := hstep.2.2
      rw [hl] at hallowed
      rw [heq]
      exact List.forall_mem_append.2 ⟨h.sent _, List.forall_mem_singleton.2
        (isSent_completeMessage hallowed _ _)⟩
    · have hsplit := h.sent il.1
      rw [hlist, List.forall_mem_append, List.forall_mem_cons] at hsplit
      rw [heq, List.forall_mem_append, List.forall_mem_cons]
      exact ⟨hsplit.1, hsplit.2.1.advances hadv, hsplit.2.2⟩
  · exact hstep.2.1 i hi ▸ h.sent i

theorem sendIds_step (hstep : N.system.step s il t) (i : ι) :
    ((t i).sends.map fun c => c.message.id) = ((s i).sends.map fun c => c.message.id) ∨
      i = il.1 ∧ ∃ id, (∀ j, id ∉ (s j).sends.map fun c => c.message.id) ∧
        ((t i).sends.map fun c => c.message.id) = ((s i).sends.map fun c => c.message.id) ++ [id] := by
  by_cases hi : i = il.1
  · subst hi
    rcases hstep.1.sends with heq | ⟨T, text, id, nowMs, hl, heq⟩ |
      ⟨before, d, d', after, hlist, heq, hadv⟩
    · exact Or.inl (by rw [heq])
    · have hallowed := hstep.2.2
      rw [hl] at hallowed
      refine Or.inr ⟨rfl, id, fun j hmem => ?_, by rw [heq]; simp [Messaging.completeMessage,
        Messaging.pendingMessage]⟩
      obtain ⟨c, hc, hid⟩ := List.mem_map.1 hmem
      exact hallowed.2.2.2.2.2 j c hc hid
    · exact Or.inl (by rw [heq, hlist]; simp [hadv.message])
  · exact Or.inl (by rw [hstep.2.1 i hi])

theorem Invariant.nodup_step (h : N.Invariant s) (hstep : N.system.step s il t) (i : ι) :
    ((t i).sends.map fun c => c.message.id).Nodup := by
  rcases sendIds_step hstep i with heq | ⟨_, id, hnew, heq⟩
  · exact heq ▸ h.nodup i
  · rw [heq]
    exact List.nodup_append.2 ⟨h.nodup i, List.nodup_singleton id, by
      rintro a ha b hb rfl
      exact hnew i (List.mem_singleton.1 hb ▸ ha)⟩

theorem Invariant.distinct_ids (h : N.Invariant s) {i j : ι} {x : Bytes}
    (hi : x ∈ (s i).sends.map fun c => c.message.id)
    (hj : x ∈ (s j).sends.map fun c => c.message.id) : i = j := by
  obtain ⟨c, hc, hcx⟩ := List.mem_map.1 hi
  obtain ⟨d, hd, hdx⟩ := List.mem_map.1 hj
  exact h.distinct i j c hc d hd (hcx.trans hdx.symm)

theorem Invariant.distinct_step (h : N.Invariant s) (hstep : N.system.step s il t) (i j : ι) :
    ∀ c ∈ (t i).sends, ∀ d ∈ (t j).sends, c.message.id = d.message.id → i = j := by
  intro c hc d hd heq
  have hci : c.message.id ∈ (t i).sends.map fun c => c.message.id := List.mem_map_of_mem hc
  have hdj : c.message.id ∈ (t j).sends.map fun c => c.message.id :=
    heq ▸ List.mem_map_of_mem hd
  rcases sendIds_step hstep i with hidsi | ⟨hi, id, hnew, hidsi⟩ <;>
    rcases sendIds_step hstep j with hidsj | ⟨hj, id', hnew', hidsj⟩
  · exact h.distinct_ids (hidsi ▸ hci) (hidsj ▸ hdj)
  · rw [hidsi] at hci
    rw [hidsj, List.mem_append, List.mem_singleton] at hdj
    rcases hdj with hdj | rfl
    · exact h.distinct_ids hci hdj
    · exact absurd hci (hnew' i)
  · rw [hidsj] at hdj
    rw [hidsi, List.mem_append, List.mem_singleton] at hci
    rcases hci with hci | rfl
    · exact h.distinct_ids hci hdj
    · exact absurd hdj (hnew j)
  · exact hi.trans hj.symm

theorem Invariant.published_step (h : N.Invariant s) (hstep : N.system.step s il t) (i : ι)
    (T v : Bytes) (hp : (T, v) ∈ (t i).published) : ∃ x, Minted t T x v := by
  have hold : (T, v) ∈ (s i).published → ∃ x, Minted t T x v := fun hmem =>
    (h.published i T v hmem).imp fun x hm => hm.step hstep
  by_cases hi : i = il.1
  · subst hi
    rcases hstep.1.published with heq | ⟨msg, payload, hmem, heq⟩
    · exact hold (heq ▸ hp)
    · rw [heq, List.mem_append, List.mem_singleton] at hp
      rcases hp with hp | hp
      · exact hold hp
      · obtain ⟨rfl, rfl⟩ := Prod.mk.inj hp
        have hm : Minted s msg.roomTopic msg.id v := ⟨_, _, hmem, rfl, rfl, rfl⟩
        exact ⟨msg.id, hm.step hstep⟩
  · exact hold (hstep.2.1 i hi ▸ hp)

theorem Invariant.holds_step (h : N.Invariant s) (hstep : N.system.step s il t) (i : ι) :
    (t i).Holds (IsRecord t) := by
  have hmono : ∀ j, (s j).Holds (IsRecord t) := fun j =>
    (h.holds j).mono fun record hr => hr.step hstep
  by_cases hi : i = il.1
  · subst hi
    have hall := hstep.2.2
    have hkept : (t il.1).Holds (IsRecord s) := by
      refine (h.holds il.1).step hstep.1 ?_ ?_ ?_ ?_
      · intro T v msg hl hopen
        rw [hl] at hall
        obtain ⟨j, hpublished⟩ := hall
        obtain ⟨x, hm⟩ := h.published j T v hpublished
        obtain ⟨msg', hopen', hroom, hid, _⟩ := hm.opens h il.1
        obtain rfl := Option.some.inj (hopen.symm.trans hopen')
        exact ⟨T, x, by rw [Accepted.record, hroom, hid], hm⟩
      · intro k v wins hl
        rw [hl] at hall
        obtain ⟨j, hwritten⟩ := hall
        exact (h.holds j).written _ hwritten
      · exact fun k v T msg hrecord hkey hopen => hrecord.callback h il.1 hkey hopen
      · intro msg payload hmem
        exact ⟨msg.roomTopic, msg.id, rfl, il.1, _, hmem, rfl, rfl, rfl⟩
    exact hkept.mono fun record hr => hr.step hstep
  · exact hstep.2.1 i hi ▸ hmono i

end Step

theorem invariant_fresh {s : ι → NodeState} (h : ∀ i, s i = .fresh) : N.Invariant s := by
  obtain rfl : s = fun _ => NodeState.fresh := funext h
  exact {
    sent := fun _ => List.forall_mem_nil _
    nodup := fun _ => List.nodup_nil
    distinct := fun _ _ => List.forall_mem_nil _
    published := fun _ _ _ h => absurd h List.not_mem_nil
    holds := fun _ => NodeState.Holds.fresh _ }

theorem Invariant.step (s : ι → NodeState) (il : ι × Label) (t : ι → NodeState)
    (h : N.Invariant s) (hstep : N.system.step s il t) : N.Invariant t where
  sent := h.sent_step hstep
  nodup := h.nodup_step hstep
  distinct := h.distinct_step hstep
  published := h.published_step hstep
  holds := h.holds_step hstep

theorem invariant_of_reachable {s : ι → NodeState} (h : N.system.Reachable s) : N.Invariant s :=
  h.invariant (fun _ => invariant_fresh) Invariant.step

section Agreement

variable {s : ι → NodeState}

theorem Minted.slash_notMem (h : N.Invariant s) {T x v : Bytes} (hm : Minted s T x v) :
    slash ∉ x := by
  obtain ⟨j, c, hc, _, rfl, _⟩ := hm
  exact (h.sent j c hc).segment.slash_notMem

theorem IsRecord.unique (h : N.Invariant s) {k v v' : Bytes} (hv : IsRecord s (k, v))
    (hv' : IsRecord s (k, v')) : v = v' := by
  obtain ⟨T, x, hk, hm⟩ := hv
  obtain ⟨T', x', hk', hm'⟩ := hv'
  obtain ⟨rfl, rfl⟩ := buildKey_inj (hm.slash_notMem h) (hm'.slash_notMem h) (hk.symm.trans hk')
  exact (hm.unique h hm').2

theorem minted_of_published (h : N.Invariant s) {i j : ι} {T v : Bytes} {msg : ChatMessageState}
    (hp : (T, v) ∈ (s j).published) (hopen : (N.messaging i).openMessage T v = some msg) :
    Minted s T msg.id v := by
  obtain ⟨x, hm⟩ := h.published j T v hp
  obtain ⟨msg', hopen', _, rfl, _⟩ := hm.opens h i
  obtain rfl := Option.some.inj (hopen.symm.trans hopen')
  exact hm

/-- Whatever is found under the key of a room and id, and whatever is in flight with the id, is the
payload of one sender. -/
theorem exists_envelope (h : N.Invariant s) (T x : Bytes) : ∃ payload,
    (∀ v, IsRecord s (buildKey T x, v) → v = payload) ∧ ∀ T' v, Minted s T' x v → v = payload := by
  by_cases hflight : ∃ T' v, Minted s T' x v
  · obtain ⟨T', p, hp⟩ := hflight
    refine ⟨p, fun v hv => ?_, fun _ v hm => (hm.unique h hp).2⟩
    obtain ⟨T'', x', hk, hm⟩ := hv
    obtain ⟨rfl, rfl⟩ := buildKey_inj (hp.slash_notMem h) (hm.slash_notMem h) hk
    exact (hm.unique h hp).2
  · by_cases hrecord : ∃ v, IsRecord s (buildKey T x, v)
    · obtain ⟨p, hp⟩ := hrecord
      exact ⟨p, fun v hv => hv.unique h hp, fun T' v hm => absurd ⟨T', v, hm⟩ hflight⟩
    · exact ⟨[], fun v hv => absurd ⟨v, hv⟩ hrecord, fun T' v hm => absurd ⟨T', v, hm⟩ hflight⟩

theorem mem_underPrefix {s : NodeState} {T : Bytes} {entry : Bytes × Bytes} :
    entry ∈ s.underPrefix T ↔
      s.store.find? entry.1 = some entry.2 ∧ historyPrefix T <+: entry.1 := by
  rw [NodeState.underPrefix, List.mem_filter, OrderedMap.find?_eq_some_iff, decide_eq_true_eq]

def SameKeys (s t : NodeState) (T : Bytes) : Prop :=
  ∀ k, historyPrefix T <+: k → ((s.store.find? k).isSome ↔ (t.store.find? k).isSome)

theorem SameKeys.symm {s t : NodeState} {T : Bytes} (h : SameKeys s t T) : SameKeys t s T :=
  fun k hk => (h k hk).symm

theorem SameKeys.mem_underPrefix (h : N.Invariant s) {i j : ι} {T : Bytes}
    (hkeys : SameKeys (s i) (s j) T) {entry : Bytes × Bytes}
    (hentry : entry ∈ (s i).underPrefix T) : entry ∈ (s j).underPrefix T := by
  obtain ⟨hfind, hprefix⟩ := Network.mem_underPrefix.1 hentry
  obtain ⟨v, hv⟩ := Option.isSome_iff_exists.1 ((hkeys _ hprefix).1 (by simp [hfind]))
  have heq := IsRecord.unique h ((h.holds j).store _ _ hv) ((h.holds i).store _ _ hfind)
  exact Network.mem_underPrefix.2 ⟨heq ▸ hv, hprefix⟩

theorem nodup_underPrefix (s : NodeState) (T : Bytes) : (s.underPrefix T).Nodup :=
  s.store.entries_nodup.filter _

theorem SameKeys.underPrefix_perm (h : N.Invariant s) {i j : ι} {T : Bytes}
    (hkeys : SameKeys (s i) (s j) T) : ((s i).underPrefix T).Perm ((s j).underPrefix T) :=
  (List.perm_ext_iff_of_nodup (nodup_underPrefix _ T) (nodup_underPrefix _ T)).2 fun _ =>
    ⟨hkeys.mem_underPrefix h, hkeys.symm.mem_underPrefix h⟩

/-- Records under a room's prefix that open to messages of one id are the same record, when the room
is one that can be joined or nothing is encrypted. -/
theorem eq_of_openMessage_id (h : N.Invariant s) {i j : ι} {T : Bytes}
    (hT : isValidRoomTopicShape T = true ∨ (N.messaging i).encryptionEnabled = false)
    {e e' : Bytes × Bytes} (he : e ∈ (s j).underPrefix T) (he' : e' ∈ (s j).underPrefix T)
    {msg msg' : ChatMessageState} (hmsg : (N.messaging i).openMessage T e.2 = some msg)
    (hmsg' : (N.messaging i).openMessage T e'.2 = some msg') (hid : msg.id = msg'.id) :
    msg = msg' := by
  have hminted : ∀ {e : Bytes × Bytes} {msg : ChatMessageState}, e ∈ (s j).underPrefix T →
      (N.messaging i).openMessage T e.2 = some msg → ∃ T', Minted s T' msg.id e.2 := by
    intro e msg he hmsg
    obtain ⟨hfind, hprefix⟩ := Network.mem_underPrefix.1 he
    obtain ⟨T', x, hk, hm⟩ := (h.holds j).store _ _ hfind
    obtain ⟨msg', hopen, _, rfl, hshape, _⟩ := hm.opens h i
    have hsame : (N.messaging i).openMessage T e.2 = (N.messaging i).openMessage T' e.2 := by
      rcases hT with hT | hT
      · rw [eq_of_historyPrefix_isPrefix hT hshape (hk ▸ hprefix)]
      · simp only [Messaging.openMessage, Messaging.opened, hT]
        rfl
    obtain rfl := Option.some.inj (hmsg.symm.trans (hsame.trans hopen))
    exact ⟨T', hm⟩
  obtain ⟨T₁, hm⟩ := hminted he hmsg
  obtain ⟨T₂, hm'⟩ := hminted he' hmsg'
  rw [← hid] at hm'
  rw [(hm.unique h hm').2] at hmsg
  exact Option.some.inj (hmsg.symm.trans hmsg')

theorem history_eq_of_perm (h : N.Invariant s) {i j : ι} {T : Bytes}
    (hT : isValidRoomTopicShape T = true ∨ (N.messaging i).encryptionEnabled = false)
    {scan scan' : List (Bytes × Bytes)} (hscan : scan.Perm ((s i).underPrefix T))
    (hperm : scan.Perm scan') :
    ((N.messaging i).historyMessages T scan).map Messaging.withoutRole =
      ((N.messaging j).historyMessages T scan').map Messaging.withoutRole := by
  rw [Messaging.map_withoutRole_historyMessages, Messaging.map_withoutRole_historyMessages]
  refine Messaging.insertionSort_historyLE_eq_of_perm (hperm.filterMap _) ?_
  intro a ha b hb hid
  simp only [List.mem_filterMap, Option.map_eq_some_iff] at ha hb
  obtain ⟨e, he, msg, hmsg, rfl⟩ := ha
  obtain ⟨e', he', msg', hmsg', rfl⟩ := hb
  rw [eq_of_openMessage_id h hT (hscan.mem_iff.1 he) (hscan.mem_iff.1 he') hmsg hmsg' hid]

theorem eq_of_keys_eq {l l' : List (Bytes × Bytes)} (hperm : l.Perm l')
    (hnodup : (l.map Prod.fst).Nodup) (hkeys : l.map Prod.fst = l'.map Prod.fst) : l = l' := by
  refine List.ext_getElem hperm.length_eq fun n hn hn' => ?_
  refine List.inj_on_of_nodup_map hnodup (List.getElem_mem hn)
    (hperm.mem_iff.2 (List.getElem_mem hn')) ?_
  have hget := congrArg (fun keys => keys[n]?) hkeys
  simpa [hn, hn'] using hget

theorem keys_nodup_of_perm_underPrefix {s : NodeState} {T : Bytes} {scan : List (Bytes × Bytes)}
    (h : scan.Perm (s.underPrefix T)) : (scan.map Prod.fst).Nodup :=
  (h.map Prod.fst).nodup_iff.2 (s.store.keys_nodup.sublist (List.filter_sublist.map Prod.fst))

theorem history_converges (h : N.Invariant s) {i j : ι} {T : Bytes}
    (hkeys : SameKeys (s i) (s j) T) {scan scan' : List (Bytes × Bytes)}
    (hscan : scan.Perm ((s i).underPrefix T)) (hscan' : scan'.Perm ((s j).underPrefix T))
    (horder : isValidRoomTopicShape T = true ∨ (N.messaging i).encryptionEnabled = false ∨
      scan.map Prod.fst = scan'.map Prod.fst) :
    ((N.messaging i).historyMessages T scan).map Messaging.withoutRole =
      ((N.messaging j).historyMessages T scan').map Messaging.withoutRole := by
  have hperm : scan.Perm scan' := hscan.trans ((hkeys.underPrefix_perm h).trans hscan'.symm)
  rw [← or_assoc] at horder
  rcases horder with hT | horder
  · exact history_eq_of_perm h hT hscan hperm
  · obtain rfl := eq_of_keys_eq hperm (keys_nodup_of_perm_underPrefix hscan) horder
    rw [Messaging.map_withoutRole_historyMessages, Messaging.map_withoutRole_historyMessages]
    rfl

/-- In every reachable state of the network, for every room and id: one payload is all that any node
holds under the key and all that is in flight with the id, and a `SendMessage` computed it. Nodes
with the same keys under the room's prefix answer `QueryHistory` alike but for the roles, whatever
order their scans come in when the room can be joined or nothing is encrypted, and for any other
topic when the scans list the keys in one order. -/
theorem agreement_and_convergence (hs : N.system.Reachable s) (T : Bytes) :
    (∀ x, ∃ payload,
      (∀ i, (s i).Holds fun record =>
        record.1 = buildKey T x → record.2 = payload ∧ IsRecord s record) ∧
      ∀ i j T' v msg, (T', v) ∈ (s j).published →
        (N.messaging i).openMessage T' v = some msg → msg.id = x →
          v = payload ∧ Minted s T' x v) ∧
    ∀ i j, SameKeys (s i) (s j) T → ∀ scan scan', scan.Perm ((s i).underPrefix T) →
      scan'.Perm ((s j).underPrefix T) →
      (isValidRoomTopicShape T = true ∨ (N.messaging i).encryptionEnabled = false ∨
        scan.map Prod.fst = scan'.map Prod.fst) →
      ((N.messaging i).queryHistory (s i).messaging T (some scan)).2.map
          (fun history => history.message.map Messaging.withoutRole) =
        ((N.messaging j).queryHistory (s j).messaging T (some scan')).2.map
          fun history => history.message.map Messaging.withoutRole := by
  have h := invariant_of_reachable hs
  refine ⟨fun x => ?_, fun i j hkeys scan scan' hscan hscan' horder => ?_⟩
  · obtain ⟨payload, hrecord, hminted⟩ := exists_envelope h T x
    refine ⟨payload, fun i => ?_, fun i j T' v msg hp hopen hid => ?_⟩
    · refine (h.holds i).mono ?_
      rintro ⟨k, v⟩ hr rfl
      exact ⟨hrecord v hr, hr⟩
    · have hm := minted_of_published h hp hopen
      rw [hid] at hm
      exact ⟨hminted T' v hm, hm⟩
  · exact congrArg some (history_converges h hkeys hscan hscan' horder)

end Agreement

def plaintextNetwork : Network Bool where
  sender i := if i then ofString "alice" else ofString "bob"
  crypto := ⟨none, none, false⟩
  codec := protoCodecs.message
  validUtf8_sender i := by split <;> exact validUtf8_ofString _
  decryptUndoesEncrypt := by simp [CryptoSeam.DecryptUndoesEncrypt]

theorem step_update [DecidableEq ι] (s : ι → NodeState) (i : ι) {l : Label} {t : NodeState}
    (hstep : (N.messaging i).Step (s i) l t) (hallowed : Allowed s l) :
    N.system.step s (i, l) (Function.update s i t) := by
  refine ⟨?_, fun j hj => Function.update_of_ne hj _ _, hallowed⟩
  rw [Function.update_self]
  exact hstep

def aliceMessage : ChatMessageState :=
  (plaintextNetwork.messaging true).completeMessage kSmokeTopicA [] (nextMessageId 0 0 0) 0

def aliceEnvelope : Bytes := plaintextNetwork.codec.serialize aliceMessage

theorem exists_reachable_replicated : ∃ s, plaintextNetwork.system.Reachable s ∧
    ∀ i, (s i).store = OrderedMap.empty.insertOrAssign
      (buildKey kSmokeTopicA (nextMessageId 0 0 0)) aliceEnvelope := by
  have hfresh : plaintextNetwork.system.Reachable fun _ => NodeState.fresh :=
    .initial fun _ => rfl
  have hsend := hfresh.step (step_update _ true
    (Messaging.Step.send _ kSmokeTopicA [] (nextMessageId 0 0 0) 0)
    ⟨by decide, validUtf8_ofString _, validUtf8_nil, isInt64_zero, ⟨0, 0, 0, rfl⟩,
      fun _ => List.forall_mem_nil _⟩)
  have hecho := hsend.step (step_update _ true
    (Messaging.Step.sendEcho _ [] aliceMessage [] rfl rfl) trivial)
  have hseal := hecho.step (step_update _ true
    (Messaging.Step.sendSeal _ [] aliceMessage [] [] aliceEnvelope rfl rfl) trivial)
  have hpublish := hseal.step (step_update _ true
    (Messaging.Step.sendPublish _ [] aliceMessage aliceEnvelope [] rfl) trivial)
  have hput := hpublish.step (step_update _ true
    (Messaging.Step.sendPut _ [] aliceMessage aliceEnvelope [] rfl) trivial)
  have hreplicate := hput.step (step_update _ false
    (Messaging.Step.replicate _ (buildKey kSmokeTopicA (nextMessageId 0 0 0)) aliceEnvelope true)
    ⟨true, List.mem_append_right _ List.mem_cons_self⟩)
  refine ⟨_, hreplicate, fun i => ?_⟩
  cases i <;> rfl

/-- The two nodes of that run hold one payload and answer with one history. -/
theorem agreement_and_convergence_plaintext : ∃ s, plaintextNetwork.system.Reachable s ∧
    (∃ payload, ∀ i,
      (s i).store.find? (buildKey kSmokeTopicA (nextMessageId 0 0 0)) = some payload) ∧
    ((plaintextNetwork.messaging true).queryHistory (s true).messaging kSmokeTopicA
        (some ((s true).underPrefix kSmokeTopicA))).2.map
          (fun history => history.message.map Messaging.withoutRole) =
      ((plaintextNetwork.messaging false).queryHistory (s false).messaging kSmokeTopicA
        (some ((s false).underPrefix kSmokeTopicA))).2.map
          fun history => history.message.map Messaging.withoutRole := by
  obtain ⟨s, hs, hstore⟩ := exists_reachable_replicated
  obtain ⟨hagree, hhistory⟩ := agreement_and_convergence hs kSmokeTopicA
  refine ⟨s, hs, ?_, ?_⟩
  · obtain ⟨payload, hholds, _⟩ := hagree (nextMessageId 0 0 0)
    refine ⟨payload, fun i => ?_⟩
    have hfind : (s i).store.find? (buildKey kSmokeTopicA (nextMessageId 0 0 0)) =
        some aliceEnvelope := by simp [hstore i]
    exact hfind.trans (congrArg some ((hholds i).store _ _ hfind rfl).1)
  · refine hhistory true false (fun k _ => ?_) _ _ (List.Perm.refl _) (List.Perm.refl _)
      (Or.inl (by decide))
    rw [hstore true, hstore false]

end Network

end GcsChat
