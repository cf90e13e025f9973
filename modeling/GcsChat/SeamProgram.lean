import GcsChat.Interactive
import GcsChat.Messaging

/-!
# The messaging calls over the crypto seam

`SendMessage`, the receive funnel and `QueryHistory` once more, with the injected callables among
what is asked, so that they may answer anything. With the callables of the component, and alone,
the programs do what its state functions say.
-/

namespace GcsChat

open ByteString ProtoSchema Interactive

inductive SeamEffect
  | mint
  | nowMs
  | insertOwn (id : Bytes)
  | insertUnseen (id : Bytes)
  | absorb (ids : List Bytes)
  | sink (event : GcsEvent)
  | encrypt (roomTopic plain : Bytes)
  | decrypt (roomTopic valueBytes : Bytes)
  | publish (topic data : Bytes)
  | put (key value : Bytes) (topics : List Bytes)
  | enqueueArchive (key value : Bytes)
  | queryKeyValues (keyPrefix : Bytes)

/-- The callables and the scan answer what they return, or that they fail. -/
@[reducible]
def SeamEffect.Answer : SeamEffect → Type
  | .mint => Bytes
  | .nowMs => ℤ
  | .insertOwn _ => Unit
  | .insertUnseen _ => Bool
  | .absorb _ => Unit
  | .sink _ => Unit
  | .encrypt _ _ => Option Bytes
  | .decrypt _ _ => Option Bytes
  | .publish _ _ => Bool
  | .put _ _ _ => Bool
  | .enqueueArchive _ _ => Unit
  | .queryKeyValues _ => Option (List (Bytes × Bytes))

abbrev SeamProgram (α : Type) : Type := Interactive SeamEffect SeamEffect.Answer α

abbrev SeamTrace : Type := Trace SeamEffect SeamEffect.Answer

namespace Messaging

section Programs

variable (M : Messaging)

def pushing (msg : ChatMessageState) : SeamProgram Unit :=
  .ask (.sink (.message (M.withRole msg))) .done

def sealing (roomTopic serialized : Bytes) : SeamProgram (Option Bytes) :=
  if M.encryptionEnabled then .ask (.encrypt roomTopic serialized) .done else pure (some serialized)

def opening (roomTopic valueBytes : Bytes) : SeamProgram (Option Bytes) :=
  if M.encryptionEnabled then .ask (.decrypt roomTopic valueBytes) .done else pure (some valueBytes)

def failing (msg : ChatMessageState) : SeamProgram Bool := do
  M.pushing { msg with state := .error }
  pure false

/-- `SendMessage` once it has computed the payload. -/
def delivering (msg : ChatMessageState) (payload : Bytes) : SeamProgram Bool := do
  let publishOk ← .ask (.publish msg.roomTopic payload) .done
  if publishOk then do
    let putOk ← .ask (.put (buildKey msg.roomTopic msg.id) payload [msg.roomTopic]) .done
    if putOk then do
      M.pushing msg
      pure true
    else M.failing msg
  else M.failing msg

def sending (roomTopic text : Bytes) : SeamProgram Bool := do
  let id ← .ask .mint .done
  let now ← .ask .nowMs .done
  .ask (.insertOwn id) .done
  M.pushing (M.pendingMessage roomTopic text id now)
  let msg := M.completeMessage roomTopic text id now
  let payload ← M.sealing roomTopic (M.codec.serialize msg)
  match payload with
  | none => M.failing msg
  | some payload => M.delivering msg payload

/-- What `ApplyMessage` does with a message it could open. -/
def accepting (msg : ChatMessageState) (valueBytes : Bytes) : SeamProgram Unit := do
  let unseen ← .ask (.insertUnseen msg.id) .done
  if unseen then do
    M.pushing msg
    .ask (.enqueueArchive (buildKey msg.roomTopic msg.id) valueBytes) .done
  else pure ()

def applying (roomTopic valueBytes : Bytes) : SeamProgram Unit := do
  let plain ← M.opening roomTopic valueBytes
  match plain.bind M.codec.parse with
  | none => pure ()
  | some msg => M.accepting msg valueBytes

/-- `OnMessageArrived`; an exception ends it as well. -/
def arriving (key valueBytes : Bytes) : SeamProgram Unit :=
  match roomTopicFromKey key with
  | none => pure ()
  | some roomTopic => if roomTopic = [] then pure () else M.applying roomTopic valueBytes

/-- The loop of `QueryHistory` over the scan. -/
def openingAll (roomTopic : Bytes) : List (Bytes × Bytes) → SeamProgram (List ChatMessageState)
  | [] => pure []
  | entry :: rest => do
      let plain ← M.opening roomTopic entry.2
      let messages ← openingAll roomTopic rest
      match plain.bind M.codec.parse with
      | none => pure messages
      | some msg => pure (M.withRole msg :: messages)

def querying (roomTopic : Bytes) : SeamProgram (Option MessageHistory) := do
  let scan ← .ask (.queryKeyValues (historyPrefix roomTopic)) .done
  match scan with
  | none => pure none
  | some entries => do
      let messages ← M.openingAll roomTopic entries
      let sorted := messages.insertionSort historyLE
      .ask (.absorb (sorted.map (·.id))) .done
      pure (some ⟨roomTopic, sorted⟩)

end Programs

/-- Nobody else moves, and the callables are those of the component. -/
def seamWorld (M : Messaging) :
    World SeamEffect SeamEffect.Answer (MessagingState × List SessionCall) :=
  fun w e a w' => match e, a with
    | .insertOwn id, _ => w' = (insertOwn w.1 id, w.2)
    | .insertUnseen id, unseen => unseen = decide (id ∉ w.1.seenIds) ∧
        w' = if unseen then (remember w.1 id, w.2) else w
    | .absorb ids, _ =>
        w' = ({ w.1 with seenIds := ClearOnFull.enterAll kMaxSeenIds w.1.seenIds ids }, w.2)
    | .sink event, _ => w' = ({ w.1 with pushed := w.1.pushed ++ [event] }, w.2)
    | .encrypt roomTopic plain, envelope => w' = w ∧
        ∃ random, envelope = M.crypto.encrypt.bind fun encrypt => encrypt random roomTopic plain
    | .decrypt roomTopic valueBytes, plain => w' = w ∧
        plain = M.crypto.decrypt.bind fun decrypt => decrypt roomTopic valueBytes
    | .publish topic data, _ => w' = (w.1, w.2 ++ [.publish topic data])
    | .put key value topics, _ => w' = (w.1, w.2 ++ [.put key value topics])
    | .enqueueArchive key value, _ => w' = (enqueueArchive w.1 key value, w.2)
    | _, _ => w' = w

section Alone

variable {M : Messaging} {w w' : MessagingState × List SessionCall} {tr : SeamTrace}

theorem ends_sealing {roomTopic serialized : Bytes} {payload : Option Bytes}
    (h : Ends (seamWorld M) (M.sealing roomTopic serialized) w tr payload w') :
    w' = w ∧ ∃ random, payload = M.sealed random roomTopic serialized := by
  unfold sealing at h
  unfold sealed
  split_ifs at h ⊢ with henabled
  · obtain ⟨envelope, _, _, ⟨rfl, random, rfl⟩, hdone, -⟩ := ends_ask_iff.1 h
    obtain ⟨-, rfl, rfl⟩ := ends_done_iff.1 hdone
    exact ⟨rfl, random, rfl⟩
  · obtain ⟨-, rfl, rfl⟩ := ends_done_iff.1 h
    exact ⟨rfl, [], rfl⟩

theorem ends_opening {roomTopic valueBytes : Bytes} {plain : Option Bytes}
    (h : Ends (seamWorld M) (M.opening roomTopic valueBytes) w tr plain w') :
    w' = w ∧ plain = M.opened roomTopic valueBytes := by
  unfold opening at h
  unfold opened
  split_ifs at h ⊢ with henabled
  · obtain ⟨_, _, _, ⟨rfl, rfl⟩, hdone, -⟩ := ends_ask_iff.1 h
    obtain ⟨-, rfl, rfl⟩ := ends_done_iff.1 hdone
    exact ⟨rfl, rfl⟩
  · obtain ⟨-, rfl, rfl⟩ := ends_done_iff.1 h
    exact ⟨rfl, rfl⟩

theorem ends_failing {msg : ChatMessageState} {ok : Bool}
    (h : Ends (seamWorld M) (M.failing msg) w tr ok w') :
    w' = (M.pushMessage w.1 { msg with state := .error }, w.2) ∧ ok = false := by
  obtain ⟨_, _, _, rfl, hdone, -⟩ := ends_ask_iff.1 h
  obtain ⟨-, rfl, rfl⟩ := ends_done_iff.1 hdone
  exact ⟨rfl, rfl⟩

theorem ends_sending {roomTopic text : Bytes} {ok : Bool}
    (h : Ends (seamWorld M) (M.sending roomTopic text) w tr ok w') :
    ∃ o, w' = ((M.sendMessage w.1 roomTopic text o).1,
        w.2 ++ (M.sendMessage w.1 roomTopic text o).2.1) ∧
      ok = (M.sendMessage w.1 roomTopic text o).2.2.toBool := by
  obtain ⟨id, _, _, rfl, h, -⟩ := ends_ask_bind_iff.1 h
  obtain ⟨now, _, _, rfl, h, -⟩ := ends_ask_bind_iff.1 h
  obtain ⟨_, _, _, rfl, h, -⟩ := ends_ask_bind_iff.1 h
  obtain ⟨_, _, _, rfl, h, -⟩ := ends_ask_bind_iff.1 h
  obtain ⟨payload, _, _, _, hseal, h, -⟩ := ends_bind_iff.1 h
  obtain ⟨rfl, random, rfl⟩ := ends_sealing hseal
  cases hsealed : M.sealed random roomTopic
      (M.codec.serialize (M.completeMessage roomTopic text id now)) with
  | none =>
      rw [hsealed] at h
      obtain ⟨rfl, rfl⟩ := ends_failing h
      refine ⟨⟨id, now, random, false, false⟩, ?_, ?_⟩ <;> simp only [sendMessage, hsealed]
      · exact Prod.ext rfl (List.append_nil _).symm
      · rfl
  | some payload =>
      rw [hsealed] at h
      obtain ⟨publishOk, _, _, rfl, h, -⟩ := ends_ask_bind_iff.1 h
      cases publishOk with
      | false =>
          obtain ⟨rfl, rfl⟩ := ends_failing h
          refine ⟨⟨id, now, random, false, false⟩, ?_, ?_⟩ <;> simp only [sendMessage, hsealed]
          · rfl
          · rfl
      | true =>
          obtain ⟨putOk, _, _, rfl, h, -⟩ := ends_ask_bind_iff.1 h
          cases putOk with
          | false =>
              obtain ⟨rfl, rfl⟩ := ends_failing h
              refine ⟨⟨id, now, random, true, false⟩, ?_, ?_⟩ <;> simp only [sendMessage, hsealed]
              · exact Prod.ext rfl (List.append_assoc _ _ _)
              · rfl
          | true =>
              obtain ⟨_, _, _, rfl, hdone, -⟩ := ends_ask_bind_iff.1 h
              obtain ⟨-, rfl, rfl⟩ := ends_done_iff.1 hdone
              refine ⟨⟨id, now, random, true, true⟩, ?_, ?_⟩ <;> simp only [sendMessage, hsealed]
              · exact Prod.ext rfl (List.append_assoc _ _ _)
              · rfl

theorem ends_applying {roomTopic valueBytes : Bytes} {u : Unit}
    (h : Ends (seamWorld M) (M.applying roomTopic valueBytes) w tr u w') :
    w' = (M.applyMessage w.1 roomTopic valueBytes, w.2) := by
  obtain ⟨plain, _, _, u₁, hopen, h, -⟩ := ends_bind_iff.1 h
  obtain ⟨hsame, rfl⟩ := ends_opening hopen
  subst u₁
  change Ends _ (match M.openMessage roomTopic valueBytes with
    | none => pure ()
    | some msg => M.accepting msg valueBytes) _ _ _ _ at h
  cases hmessage : M.openMessage roomTopic valueBytes with
  | none =>
      rw [hmessage] at h
      rw [applyMessage_of_not_opened hmessage, (ends_done_iff.1 h).2.2]
  | some msg =>
      rw [hmessage] at h
      obtain ⟨unseen, _, _, ⟨rfl, rfl⟩, h, -⟩ := ends_ask_bind_iff.1 h
      by_cases hseen : msg.id ∈ w.1.seenIds
      · rw [applyMessage_of_mem hmessage hseen]
        simp only [hseen, not_true_eq_false, decide_false, Bool.false_eq_true, if_false,
          pure_eq_done, ends_done_iff] at h
        exact h.2.2
      · rw [applyMessage_of_notMem hmessage hseen]
        simp only [hseen, not_false_eq_true, decide_true, if_true] at h
        obtain ⟨_, _, _, rfl, h, -⟩ := ends_ask_bind_iff.1 h
        obtain ⟨_, _, _, rfl, hdone, -⟩ := ends_ask_iff.1 h
        exact (ends_done_iff.1 hdone).2.2

theorem ends_openingAll {roomTopic : Bytes} {entries : List (Bytes × Bytes)}
    {messages : List ChatMessageState}
    (h : Ends (seamWorld M) (M.openingAll roomTopic entries) w tr messages w') :
    w' = w ∧ messages = entries.filterMap fun entry =>
      (M.openMessage roomTopic entry.2).map M.withRole := by
  induction entries generalizing tr messages w' with
  | nil =>
      obtain ⟨-, rfl, rfl⟩ := ends_done_iff.1 h
      exact ⟨rfl, rfl⟩
  | cons entry rest ih =>
      obtain ⟨plain, _, _, u₁, hopen, h, -⟩ := ends_bind_iff.1 h
      obtain ⟨hsame, rfl⟩ := ends_opening hopen
      subst u₁
      obtain ⟨later, _, _, u₂, hlater, h, -⟩ := ends_bind_iff.1 h
      obtain ⟨hsame, rfl⟩ := ih hlater
      subst u₂
      change Ends _ (match M.openMessage roomTopic entry.2 with
        | none => pure _
        | some msg => pure _) _ _ _ _ at h
      cases hmessage : M.openMessage roomTopic entry.2 with
      | none =>
          rw [hmessage] at h
          obtain ⟨-, rfl, rfl⟩ := ends_done_iff.1 h
          exact ⟨rfl, by simp [hmessage]⟩
      | some msg =>
          rw [hmessage] at h
          obtain ⟨-, rfl, rfl⟩ := ends_done_iff.1 h
          exact ⟨rfl, by simp [hmessage]⟩

theorem ends_querying {roomTopic : Bytes} {history : Option MessageHistory}
    (h : Ends (seamWorld M) (M.querying roomTopic) w tr history w') :
    ∃ scan, w' = ((M.queryHistory w.1 roomTopic scan).1, w.2) ∧
      history = (M.queryHistory w.1 roomTopic scan).2 := by
  obtain ⟨scan, _, _, rfl, h, -⟩ := ends_ask_bind_iff.1 h
  refine ⟨scan, ?_⟩
  cases scan with
  | none =>
      obtain ⟨-, rfl, rfl⟩ := ends_done_iff.1 h
      exact ⟨rfl, rfl⟩
  | some entries =>
      obtain ⟨messages, _, _, _, hall, h, -⟩ := ends_bind_iff.1 h
      obtain ⟨rfl, rfl⟩ := ends_openingAll hall
      obtain ⟨_, _, _, rfl, hdone, -⟩ := ends_ask_bind_iff.1 h
      obtain ⟨-, rfl, rfl⟩ := ends_done_iff.1 hdone
      exact ⟨rfl, rfl⟩

end Alone

end Messaging

end GcsChat
