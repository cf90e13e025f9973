import GcsChat.Messaging
import GcsChat.OrderedMap

/-!
# One node, step by step

The threads around one `Messaging`: the receive callbacks, the archive worker, any number of
`send_text` commands and the history replay of a join, interleaved at the points where the code
takes or gives up a lock. `m_seenMutex` sections, queue operations, sink calls and session calls are
the atomic steps. The replay runs under `g_mutex`, which the sink needs too, so no event is pushed
while one is in progress.

Every record that lands in the store fires the new-element callback once, with a slash before its
key. A callback remembers whether the record was written by this node or replicated to it.
-/

namespace GcsChat

open ByteString ProtoSchema

/-- A message past the dedupe check, with the bytes it came in. -/
structure Accepted where
  message : ChatMessageState
  valueBytes : Bytes

def Accepted.record (a : Accepted) : Bytes × Bytes :=
  (buildKey a.message.roomTopic a.message.id, a.valueBytes)

structure Callback where
  key : Bytes
  valueBytes : Bytes
  own : Bool

inductive SendStage
  | minted
  | echoed
  | sealed
  | published
  | archived
  | failing
  | returned (ok : Bool)
  deriving DecidableEq

/-- A `SendMessage` call: the complete record, and the payload once it is computed. -/
structure Sending where
  message : ChatMessageState
  payload : Option Bytes
  stage : SendStage

/-- A history replay between the prefix scan and the pushed batch. -/
structure Replay where
  history : MessageHistory
  absorbed : Bool

structure NodeState where
  messaging : MessagingState
  unpushed : List Accepted
  unqueued : List Accepted
  archiving : Option (Bytes × Bytes)
  store : OrderedMap Bytes Bytes
  written : List (Bytes × Bytes)
  callbacks : List Callback
  sends : List Sending
  published : List (Bytes × Bytes)
  replay : Option Replay

def NodeState.fresh : NodeState where
  messaging := .fresh
  unpushed := []
  unqueued := []
  archiving := none
  store := .empty
  written := []
  callbacks := []
  sends := []
  published := []
  replay := none

namespace NodeState

variable (s : NodeState)

def write (key valueBytes : Bytes) : NodeState :=
  { s with
    store := s.store.insertOrAssign key valueBytes
    written := s.written ++ [(key, valueBytes)]
    callbacks := s.callbacks ++ [⟨key, valueBytes, true⟩] }

/-- A record of another node lands: a record that loses against the stored one changes nothing but
still fires its callback. -/
def merge (key valueBytes : Bytes) (wins : Bool) : NodeState :=
  { s with
    store := if wins then s.store.insertOrAssign key valueBytes else s.store.emplace key valueBytes
    written := s.written ++ [(key, valueBytes)]
    callbacks := s.callbacks ++ [⟨key, valueBytes, false⟩] }

def underPrefix (roomTopic : Bytes) : List (Bytes × Bytes) :=
  s.store.entries.filter fun entry => decide (historyPrefix roomTopic <+: entry.1)

end NodeState

theorem forall_mem_of_eq_append_cons {α : Type} {P : α → Prop} {l before after : List α} {a : α}
    (h : ∀ x ∈ l, P x) (hl : l = before ++ a :: after) : (∀ x ∈ before ++ after, P x) ∧ P a := by
  rw [hl, List.forall_mem_append, List.forall_mem_cons] at h
  exact ⟨List.forall_mem_append.2 ⟨h.1, h.2.2⟩, h.2.1⟩

inductive Label
  | live (topic valueBytes : Bytes)
  | replicate (key valueBytes : Bytes) (wins : Bool)
  | callback (cb : Callback)
  | push
  | enqueue
  | take
  | put (ok : Bool)
  | scan (roomTopic : Bytes)
  | absorb
  | reply
  | send (roomTopic text id : Bytes) (nowMs : ℤ)
  | sendEcho
  | sendSeal
  | sendPublish (ok : Bool)
  | sendPut (ok : Bool)
  | sendReturn

namespace Messaging

variable (M : Messaging)

/-- `ApplyMessage` up to the end of its dedupe section. -/
def receive (s : NodeState) (roomTopic valueBytes : Bytes) : NodeState :=
  match M.openMessage roomTopic valueBytes with
  | none => s
  | some msg =>
      if msg.id ∈ s.messaging.seenIds then s
      else { s with
        messaging := remember s.messaging msg.id
        unpushed := s.unpushed ++ [⟨msg, valueBytes⟩] }

/-- `OnMessageArrived` up to the end of the dedupe section, or to its exception. -/
def arrive (s : NodeState) (key valueBytes : Bytes) : NodeState :=
  match roomTopicFromKey key with
  | none => s
  | some roomTopic => if roomTopic = [] then s else M.receive s roomTopic valueBytes

inductive Step : NodeState → Label → NodeState → Prop
  | live (s : NodeState) (topic valueBytes : Bytes) :
      Step s (.live topic valueBytes) (M.receive s topic valueBytes)
  | replicate (s : NodeState) (key valueBytes : Bytes) (wins : Bool) :
      Step s (.replicate key valueBytes wins) (s.merge key valueBytes wins)
  | callback (s : NodeState) (before : List Callback) (cb : Callback) (after : List Callback)
      (h : s.callbacks = before ++ cb :: after) :
      Step s (.callback cb)
        (M.arrive { s with callbacks := before ++ after } (slash :: cb.key) cb.valueBytes)
  | push (s : NodeState) (before : List Accepted) (a : Accepted) (after : List Accepted)
      (h : s.unpushed = before ++ a :: after) (hmutex : s.replay = none) :
      Step s .push { s with
        messaging := M.pushMessage s.messaging a.message
        unpushed := before ++ after
        unqueued := s.unqueued ++ [a] }
  | enqueue (s : NodeState) (before : List Accepted) (a : Accepted) (after : List Accepted)
      (h : s.unqueued = before ++ a :: after) :
      Step s .enqueue { s with
        messaging := enqueueArchive s.messaging a.record.1 a.record.2
        unqueued := before ++ after }
  | take (s : NodeState) (item : Bytes × Bytes) (rest : List (Bytes × Bytes))
      (h : s.messaging.archiveQueue = item :: rest) (hidle : s.archiving = none) :
      Step s .take { s with
        messaging := { s.messaging with archiveQueue := rest }
        archiving := some item }
  | put (s : NodeState) (item : Bytes × Bytes) (h : s.archiving = some item) :
      Step s (.put true) (NodeState.write { s with archiving := none } item.1 item.2)
  | putFailed (s : NodeState) (item : Bytes × Bytes) (h : s.archiving = some item) :
      Step s (.put false) { s with archiving := none }
  | scan (s : NodeState) (roomTopic : Bytes) (entries : List (Bytes × Bytes))
      (hscan : entries.Perm (s.underPrefix roomTopic)) (hmutex : s.replay = none) :
      Step s (.scan roomTopic)
        { s with replay := some ⟨⟨roomTopic, M.historyMessages roomTopic entries⟩, false⟩ }
  | absorb (s : NodeState) (history : MessageHistory) (h : s.replay = some ⟨history, false⟩) :
      Step s .absorb { s with
        messaging := Messaging.absorb s.messaging history.message
        replay := some ⟨history, true⟩ }
  | reply (s : NodeState) (history : MessageHistory) (h : s.replay = some ⟨history, true⟩) :
      Step s .reply { s with
        messaging := { s.messaging with pushed := s.messaging.pushed ++ [.messageHistory history] }
        replay := none }
  | send (s : NodeState) (roomTopic text id : Bytes) (nowMs : ℤ) :
      Step s (.send roomTopic text id nowMs) { s with
        messaging := insertOwn s.messaging id
        sends := s.sends ++ [⟨M.completeMessage roomTopic text id nowMs, none, .minted⟩] }
  | sendEcho (s : NodeState) (before : List Sending) (msg : ChatMessageState) (after : List Sending)
      (h : s.sends = before ++ ⟨msg, none, .minted⟩ :: after) (hmutex : s.replay = none) :
      Step s .sendEcho { s with
        messaging := M.pushMessage s.messaging { msg with state := .pending }
        sends := before ++ ⟨msg, none, .echoed⟩ :: after }
  | sendSeal (s : NodeState) (before : List Sending) (msg : ChatMessageState) (after : List Sending)
      (random payload : Bytes) (h : s.sends = before ++ ⟨msg, none, .echoed⟩ :: after)
      (hsealed : M.sealed random msg.roomTopic (M.codec.serialize msg) = some payload) :
      Step s .sendSeal { s with sends := before ++ ⟨msg, some payload, .sealed⟩ :: after }
  | sendSealFailed (s : NodeState) (before : List Sending) (msg : ChatMessageState)
      (after : List Sending) (random : Bytes) (h : s.sends = before ++ ⟨msg, none, .echoed⟩ :: after)
      (hsealed : M.sealed random msg.roomTopic (M.codec.serialize msg) = none) :
      Step s .sendSeal { s with sends := before ++ ⟨msg, none, .failing⟩ :: after }
  | sendPublish (s : NodeState) (before : List Sending) (msg : ChatMessageState) (payload : Bytes)
      (after : List Sending) (h : s.sends = before ++ ⟨msg, some payload, .sealed⟩ :: after) :
      Step s (.sendPublish true) { s with
        published := s.published ++ [(msg.roomTopic, payload)]
        sends := before ++ ⟨msg, some payload, .published⟩ :: after }
  | sendPublishFailed (s : NodeState) (before : List Sending) (msg : ChatMessageState)
      (payload : Bytes) (after : List Sending)
      (h : s.sends = before ++ ⟨msg, some payload, .sealed⟩ :: after) :
      Step s (.sendPublish false)
        { s with sends := before ++ ⟨msg, some payload, .failing⟩ :: after }
  | sendPut (s : NodeState) (before : List Sending) (msg : ChatMessageState) (payload : Bytes)
      (after : List Sending) (h : s.sends = before ++ ⟨msg, some payload, .published⟩ :: after) :
      Step s (.sendPut true) (NodeState.write
        { s with sends := before ++ ⟨msg, some payload, .archived⟩ :: after }
        (buildKey msg.roomTopic msg.id) payload)
  | sendPutFailed (s : NodeState) (before : List Sending) (msg : ChatMessageState)
      (payload : Bytes) (after : List Sending)
      (h : s.sends = before ++ ⟨msg, some payload, .published⟩ :: after) :
      Step s (.sendPut false) { s with sends := before ++ ⟨msg, some payload, .failing⟩ :: after }
  | sendReturn (s : NodeState) (before : List Sending) (msg : ChatMessageState) (payload : Bytes)
      (after : List Sending) (h : s.sends = before ++ ⟨msg, some payload, .archived⟩ :: after)
      (hmutex : s.replay = none) :
      Step s .sendReturn { s with
        messaging := M.pushMessage s.messaging msg
        sends := before ++ ⟨msg, some payload, .returned true⟩ :: after }
  | sendReturnFailed (s : NodeState) (before : List Sending) (msg : ChatMessageState)
      (payload : Option Bytes) (after : List Sending)
      (h : s.sends = before ++ ⟨msg, payload, .failing⟩ :: after) (hmutex : s.replay = none) :
      Step s .sendReturn { s with
        messaging := M.pushMessage s.messaging { msg with state := .error }
        sends := before ++ ⟨msg, payload, .returned false⟩ :: after }

/-- The node as a system of its own, open to any live message and any replicated record. -/
def node : TransitionSystem NodeState Label where
  initial s := s = .fresh
  step := M.Step

variable {M}

theorem receive_of_not_opened {s : NodeState} {T v : Bytes} (h : M.openMessage T v = none) :
    M.receive s T v = s := by
  simp only [receive, h]

theorem receive_of_mem {s : NodeState} {T v : Bytes} {msg : ChatMessageState}
    (h : M.openMessage T v = some msg) (hseen : msg.id ∈ s.messaging.seenIds) :
    M.receive s T v = s := by
  simp only [receive, h, if_pos hseen]

theorem receive_of_notMem {s : NodeState} {T v : Bytes} {msg : ChatMessageState}
    (h : M.openMessage T v = some msg) (hseen : msg.id ∉ s.messaging.seenIds) :
    M.receive s T v = { s with
      messaging := remember s.messaging msg.id
      unpushed := s.unpushed ++ [⟨msg, v⟩] } := by
  simp only [receive, h, if_neg hseen]

theorem receive_cases (M : Messaging) (s : NodeState) (T v : Bytes) :
    M.receive s T v = s ∨ ∃ msg, M.openMessage T v = some msg ∧ msg.id ∉ s.messaging.seenIds ∧
      M.receive s T v = { s with
        messaging := remember s.messaging msg.id
        unpushed := s.unpushed ++ [⟨msg, v⟩] } := by
  cases hopen : M.openMessage T v with
  | none => exact Or.inl (receive_of_not_opened hopen)
  | some msg =>
      by_cases hseen : msg.id ∈ s.messaging.seenIds
      · exact Or.inl (receive_of_mem hopen hseen)
      · exact Or.inr ⟨msg, rfl, hseen, receive_of_notMem hopen hseen⟩

theorem receive_seenIds {T v : Bytes} {msg : ChatMessageState} (h : M.openMessage T v = some msg)
    (s : NodeState) : (M.receive s T v).messaging.seenIds =
      ClearOnFull.touch kMaxSeenIds s.messaging.seenIds msg.id := by
  by_cases hseen : msg.id ∈ s.messaging.seenIds
  · rw [receive_of_mem h hseen, ClearOnFull.touch_of_mem hseen]
  · rw [receive_of_notMem h hseen, ClearOnFull.touch_of_notMem hseen]
    rfl

theorem arrive_of_roomTopic {key T : Bytes} (hkey : roomTopicFromKey key = some T) (hT : T ≠ [])
    (s : NodeState) (v : Bytes) : M.arrive s key v = M.receive s T v := by
  simp only [arrive, hkey, if_neg hT]

theorem arrive_cases (M : Messaging) (s : NodeState) (key v : Bytes) :
    M.arrive s key v = s ∨ ∃ T msg, roomTopicFromKey key = some T ∧ M.openMessage T v = some msg ∧
      msg.id ∉ s.messaging.seenIds ∧ M.arrive s key v = { s with
        messaging := remember s.messaging msg.id
        unpushed := s.unpushed ++ [⟨msg, v⟩] } := by
  cases hkey : roomTopicFromKey key with
  | none => exact Or.inl (by simp only [arrive, hkey])
  | some T =>
      by_cases hT : T = []
      · exact Or.inl (by simp only [arrive, hkey, if_pos hT])
      · rw [arrive_of_roomTopic hkey hT]
        rcases receive_cases M s T v with h | ⟨msg, hopen, hseen, h⟩
        · exact Or.inl h
        · exact Or.inr ⟨T, msg, rfl, hopen, hseen, h⟩

/-- What follows the dedupe section of an accepted message. -/
theorem run_accepted (M : Messaging) (s : NodeState) (hmutex : s.replay = none) (a : Accepted) :
    M.node.Run { s with
      messaging := remember s.messaging a.message.id
      unpushed := s.unpushed ++ [a] } [.push, .enqueue]
      { s with messaging := M.accept s.messaging a.message a.valueBytes } := by
  have hpush := TransitionSystem.Run.single (S := M.node) (Step.push { s with
    messaging := remember s.messaging a.message.id
    unpushed := s.unpushed ++ [a] } s.unpushed a [] rfl hmutex)
  have henqueue := hpush.snoc (Step.enqueue _ s.unqueued a [] rfl)
  simp only [List.append_nil] at henqueue
  exact henqueue

theorem run_applyMessage (M : Messaging) (s : NodeState) (hmutex : s.replay = none)
    (T v : Bytes) :
    ∃ ls, M.node.Run s ls { s with messaging := M.applyMessage s.messaging T v } := by
  have hlive : M.node.Run s [.live T v] (M.receive s T v) := .single (Step.live s T v)
  cases hopen : M.openMessage T v with
  | none =>
      rw [receive_of_not_opened hopen] at hlive
      exact ⟨_, by rwa [applyMessage_of_not_opened hopen]⟩
  | some msg =>
      by_cases hseen : msg.id ∈ s.messaging.seenIds
      · rw [receive_of_mem hopen hseen] at hlive
        exact ⟨_, by rwa [applyMessage_of_mem hopen hseen]⟩
      · rw [receive_of_notMem hopen hseen] at hlive
        rw [applyMessage_of_notMem hopen hseen]
        exact ⟨_, hlive.append (run_accepted M s hmutex ⟨msg, v⟩)⟩

theorem run_queryHistory (M : Messaging) (s : NodeState) (hmutex : s.replay = none) (T : Bytes)
    {scan : List (Bytes × Bytes)} (hscan : scan.Perm (s.underPrefix T)) :
    ∃ history, (M.queryHistory s.messaging T (some scan)).2 = some history ∧
      M.node.Run s [.scan T, .absorb, .reply] { s with
        messaging := { (M.queryHistory s.messaging T (some scan)).1 with
          pushed := s.messaging.pushed ++ [.messageHistory history] }
        replay := none } :=
  ⟨⟨T, M.historyMessages T scan⟩, rfl,
    ((TransitionSystem.Run.single (S := M.node) (Step.scan s T scan hscan hmutex)).snoc
      (Step.absorb _ _ rfl)).snoc (Step.reply _ _ rfl)⟩

theorem run_sendMessage (M : Messaging) (s : NodeState) (hmutex : s.replay = none)
    (T text : Bytes) (o : SendOutcomes) :
    ∃ ls t, M.node.Run s ls t ∧ t.messaging = (M.sendMessage s.messaging T text o).1 := by
  let msg := M.completeMessage T text o.id o.nowMs
  have hecho := (TransitionSystem.Run.single (S := M.node)
    (Step.send s T text o.id o.nowMs)).snoc (Step.sendEcho _ s.sends msg [] rfl hmutex)
  cases hsealed : M.sealed o.random T (M.codec.serialize msg) with
  | none =>
      refine ⟨_, _, (hecho.snoc (Step.sendSealFailed _ s.sends msg [] o.random rfl hsealed)).snoc
        (Step.sendReturnFailed _ s.sends msg none [] rfl hmutex), ?_⟩
      simp only [sendMessage]
      rw [hsealed]
      rfl
  | some payload =>
      have hseal := hecho.snoc (Step.sendSeal _ s.sends msg [] o.random payload rfl hsealed)
      cases hpublish : o.publishOk with
      | false =>
          refine ⟨_, _, (hseal.snoc (Step.sendPublishFailed _ s.sends msg payload [] rfl)).snoc
            (Step.sendReturnFailed _ s.sends msg (some payload) [] rfl hmutex), ?_⟩
          simp only [sendMessage]
          rw [hsealed]
          simp only [hpublish]
          rfl
      | true =>
          have hpublished := hseal.snoc (Step.sendPublish _ s.sends msg payload [] rfl)
          cases hput : o.putOk with
          | false =>
              refine ⟨_, _, (hpublished.snoc (Step.sendPutFailed _ s.sends msg payload [] rfl)).snoc
                (Step.sendReturnFailed _ s.sends msg (some payload) [] rfl hmutex), ?_⟩
              simp only [sendMessage]
              rw [hsealed]
              simp only [hpublish, hput]
              rfl
          | true =>
              refine ⟨_, _, (hpublished.snoc (Step.sendPut _ s.sends msg payload [] rfl)).snoc
                (Step.sendReturn _ s.sends msg payload [] rfl hmutex), ?_⟩
              simp only [sendMessage]
              rw [hsealed]
              simp only [hpublish, hput]
              rfl

end Messaging

end GcsChat
