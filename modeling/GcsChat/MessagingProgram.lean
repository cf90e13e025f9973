import GcsChat.Effects
import GcsChat.Messaging

/-!
# The messaging calls as programs

`SendMessage`, the receive funnel and `QueryHistory` again, one question after the other, so that
they can be run inside the commands and callbacks of the FFI. The event sink takes `g_mutex` around
the post. Run alone, the programs do what the state functions of the component say.
-/

namespace GcsChat

open ByteString ProtoSchema Interactive

namespace Messaging

section Programs

variable {G : Type} (M : Messaging)

/-- The sink that `gcs_init` hands to the component. -/
def eventSink (event : GcsEvent) : Program G Unit := do
  let guarded ← lockMutex
  postToDart event
  unlockMutex guarded

def sinkMessage (msg : ChatMessageState) : Program G Unit := eventSink (.message (M.withRole msg))

def sendMessageProgram (roomTopic text : Bytes) : Program G Bool := do
  let id ← nextId kMessageIdPrefix
  let now ← nowMs
  insertOwnId id
  M.sinkMessage (M.pendingMessage roomTopic text id now)
  let msg := M.completeMessage roomTopic text id now
  let fail : Program G Bool := do
    M.sinkMessage { msg with state := .error }
    pure false
  let random ← randomBytes
  match M.sealed random roomTopic (M.codec.serialize msg) with
  | none => fail
  | some payload => do
      let publishOk ← CoreSession.publish roomTopic payload
      if publishOk then do
        let putOk ← CoreSession.putTopics (buildKey roomTopic id) payload [roomTopic]
        if putOk then do
          M.sinkMessage msg
          pure true
        else fail
      else fail

def applyMessageProgram (roomTopic valueBytes : Bytes) : Program G Unit :=
  match M.openMessage roomTopic valueBytes with
  | none => pure ()
  | some msg => do
      let unseen ← insertUnseenId msg.id
      if unseen then do
        M.sinkMessage msg
        enqueueArchiveWrite (buildKey msg.roomTopic msg.id) valueBytes
      else pure ()

/-- `none` is the exception of `RoomTopicFromKey`. -/
def onMessageArrivedProgram (key valueBytes : Bytes) : Program G (Option Unit) :=
  match roomTopicFromKey key with
  | none => pure none
  | some roomTopic => if roomTopic = [] then pure (some ()) else do
      M.applyMessageProgram roomTopic valueBytes
      pure (some ())

def queryHistoryProgram (roomTopic : Bytes) : Program G (Option MessageHistory) := do
  let scan ← CoreSession.queryKeyValues (historyPrefix roomTopic)
  match scan with
  | none => pure none
  | some entries => do
      let messages := M.historyMessages roomTopic entries
      absorbIds (messages.map (·.id))
      pure (some ⟨roomTopic, messages⟩)

end Programs

structure Alone (G : Type) where
  guarded : G
  messaging : MessagingState
  calls : List SessionCall

/-- Nobody else moves. -/
def aloneWorld (G : Type) : World (Effect G) Effect.Answer (Alone G) :=
  fun w e a w' => match e, a with
    | .lock, g => g = w.guarded ∧ w' = w
    | .unlock g, _ => w' = { w with guarded := g }
    | .insertOwn id, _ => w' = { w with messaging := insertOwn w.messaging id }
    | .insertUnseen id, unseen => unseen = decide (id ∉ w.messaging.seenIds) ∧
        w' = if unseen then { w with messaging := remember w.messaging id } else w
    | .absorb ids, _ => w' = { w with messaging :=
        { w.messaging with seenIds := ClearOnFull.enterAll kMaxSeenIds w.messaging.seenIds ids } }
    | .post event, _ => w' = { w with messaging :=
        { w.messaging with pushed := w.messaging.pushed ++ [event] } }
    | .enqueueArchive key value, _ =>
        w' = { w with messaging := enqueueArchive w.messaging key value }
    | .publish topic data, _ => w' = { w with calls := w.calls ++ [.publish topic data] }
    | .putTopics key value topics, _ => w' = { w with calls := w.calls ++ [.put key value topics] }
    | .queryKeyValues _, _ => w' = w
    | _, _ => w' = w

section Alone

variable {G : Type} {M : Messaging} {w w' : Alone G} {tr : Trace (Effect G) Effect.Answer}

theorem ends_sinkMessage {msg : ChatMessageState} {u : Unit}
    (h : Ends (aloneWorld G) (M.sinkMessage msg) w tr u w') :
    w' = { w with messaging := M.pushMessage w.messaging msg } := by
  simp only [sinkMessage, eventSink, ask_bind, done_bind, ends_ask_iff, ends_done_iff] at h
  obtain ⟨_, _, _, ⟨rfl, rfl⟩, ⟨_, _, _, rfl, ⟨_, _, _, rfl, ⟨_, _, rfl⟩, _⟩, _⟩, _⟩ := h
  rfl

theorem ends_applyMessageProgram {roomTopic valueBytes : Bytes} {u : Unit}
    (h : Ends (aloneWorld G) (M.applyMessageProgram roomTopic valueBytes) w tr u w') :
    w' = { w with messaging := M.applyMessage w.messaging roomTopic valueBytes } := by
  cases hopen : M.openMessage roomTopic valueBytes with
  | none =>
      simp only [applyMessageProgram, hopen, pure_eq_done, ends_done_iff] at h
      rw [applyMessage_of_not_opened hopen, h.2.2]
  | some msg =>
      simp only [applyMessageProgram, hopen, ask_bind, done_bind, ends_ask_iff] at h
      obtain ⟨unseen, _, _, ⟨hunseen, rfl⟩, hrest, _⟩ := h
      by_cases hseen : msg.id ∈ w.messaging.seenIds
      · simp only [hunseen, hseen, not_true_eq_false, decide_false, Bool.false_eq_true, if_false,
          pure_eq_done, ends_done_iff] at hrest
        rw [applyMessage_of_mem hopen hseen, hrest.2.2]
      · simp only [hunseen, hseen, not_false_eq_true, decide_true, if_true, ends_bind_iff,
          ends_ask_iff, ends_done_iff] at hrest
        obtain ⟨_, _, _, _, hsink, ⟨_, _, _, rfl, ⟨_, _, rfl⟩, _⟩, _⟩ := hrest
        rw [applyMessage_of_notMem hopen hseen, ends_sinkMessage hsink]
        rfl

/-- The program throws where the function does, and leaves the same state behind. -/
theorem ends_onMessageArrivedProgram {key valueBytes : Bytes} {returned : Option Unit}
    (h : Ends (aloneWorld G) (M.onMessageArrivedProgram key valueBytes) w tr returned w') :
    returned.isSome = (M.onMessageArrived w.messaging key valueBytes).isSome ∧
      w' = { w with
        messaging := (M.onMessageArrived w.messaging key valueBytes).getD w.messaging } := by
  cases hkey : roomTopicFromKey key with
  | none =>
      simp only [onMessageArrivedProgram, hkey, pure_eq_done, ends_done_iff] at h
      obtain ⟨-, rfl, rfl⟩ := h
      simp only [onMessageArrived, hkey, Option.map_none, Option.getD_none, Option.isSome_none,
        true_and]
  | some roomTopic =>
      simp only [onMessageArrived, onMessageArrivedProgram, hkey, Option.map_some, Option.getD_some,
        Option.isSome_some] at h ⊢
      by_cases hnil : roomTopic = []
      · rw [if_pos hnil, pure_eq_done, ends_done_iff] at h
        obtain ⟨-, rfl, rfl⟩ := h
        rw [if_pos hnil]
        exact ⟨rfl, rfl⟩
      · rw [if_neg hnil] at h ⊢
        obtain ⟨_, _, _, _, hfunnel, hdone, _⟩ := ends_bind_iff.1 h
        obtain ⟨_, rfl, rfl⟩ := ends_done_iff.1 hdone
        exact ⟨rfl, ends_applyMessageProgram hfunnel⟩

theorem ends_queryHistoryProgram {roomTopic : Bytes} {history : Option MessageHistory}
    (h : Ends (aloneWorld G) (M.queryHistoryProgram roomTopic) w tr history w') :
    ∃ scan, w' = { w with messaging := (M.queryHistory w.messaging roomTopic scan).1 } ∧
      history = (M.queryHistory w.messaging roomTopic scan).2 := by
  simp only [queryHistoryProgram, ask_bind, done_bind, ends_ask_iff] at h
  obtain ⟨scan, _, _, rfl, hrest, _⟩ := h
  refine ⟨scan, ?_⟩
  cases scan with
  | none =>
      simp only [pure_eq_done, ends_done_iff] at hrest
      exact ⟨hrest.2.2, hrest.2.1⟩
  | some entries =>
      simp only [pure_eq_done, ends_ask_iff, ends_done_iff] at hrest
      obtain ⟨_, _, _, rfl, ⟨_, rfl, rfl⟩, _⟩ := hrest
      exact ⟨rfl, rfl⟩

theorem ends_sinkMessage_bind {msg : ChatMessageState} {ok b : Bool}
    (h : Ends (aloneWorld G) (M.sinkMessage msg >>= fun _ => pure b) w tr ok w') :
    w' = { w with messaging := M.pushMessage w.messaging msg } ∧ ok = b := by
  obtain ⟨_, _, _, _, hsink, hdone, _⟩ := ends_bind_iff.1 h
  obtain ⟨_, rfl, rfl⟩ := ends_done_iff.1 hdone
  exact ⟨ends_sinkMessage hsink, rfl⟩

theorem ends_sendMessageProgram {roomTopic text : Bytes} {ok : Bool}
    (h : Ends (aloneWorld G) (M.sendMessageProgram roomTopic text) w tr ok w') :
    ∃ o, w' = ⟨w.guarded, (M.sendMessage w.messaging roomTopic text o).1,
        w.calls ++ (M.sendMessage w.messaging roomTopic text o).2.1⟩ ∧
      ok = (M.sendMessage w.messaging roomTopic text o).2.2.toBool := by
  simp only [sendMessageProgram, ask_bind, done_bind, ends_ask_iff] at h
  obtain ⟨id, _, _, rfl, ⟨now, _, _, rfl, ⟨_, _, _, rfl, hrest, _⟩, _⟩, _⟩ := h
  obtain ⟨_, _, _, _, hecho, hrest, _⟩ := ends_bind_iff.1 hrest
  simp only [ends_ask_iff] at hrest
  obtain ⟨random, _, _, rfl, hrest, _⟩ := hrest
  rw [ends_sinkMessage hecho] at hrest
  cases hsealed : M.sealed random roomTopic
      (M.codec.serialize (M.completeMessage roomTopic text id now)) with
  | none =>
      rw [hsealed] at hrest
      obtain ⟨rfl, rfl⟩ := ends_sinkMessage_bind hrest
      refine ⟨⟨id, now, random, false, false⟩, ?_, ?_⟩ <;> simp only [sendMessage, hsealed]
      · simp
      · rfl
  | some payload =>
      simp only [hsealed, ends_ask_iff] at hrest
      obtain ⟨publishOk, _, _, rfl, hrest, _⟩ := hrest
      cases publishOk with
      | false =>
          obtain ⟨rfl, rfl⟩ := ends_sinkMessage_bind hrest
          refine ⟨⟨id, now, random, false, false⟩, ?_, ?_⟩ <;> simp only [sendMessage, hsealed]
          · rfl
          · rfl
      | true =>
          simp only [if_true, ends_ask_iff] at hrest
          obtain ⟨putOk, _, _, rfl, hrest, _⟩ := hrest
          cases putOk with
          | false =>
              obtain ⟨rfl, rfl⟩ := ends_sinkMessage_bind hrest
              refine ⟨⟨id, now, random, true, false⟩, ?_, ?_⟩ <;> simp only [sendMessage, hsealed]
              · simp
              · rfl
          | true =>
              obtain ⟨rfl, rfl⟩ := ends_sinkMessage_bind hrest
              refine ⟨⟨id, now, random, true, true⟩, ?_, ?_⟩ <;> simp only [sendMessage, hsealed]
              · simp
              · rfl

end Alone

end Messaging

end GcsChat
