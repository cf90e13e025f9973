import GcsChat.SeamProgram
import GcsChat.Typestate
import Mathlib.Data.List.Forall2

/-!
# What is published and archived

Any number of threads send, receive and replay on one `Messaging`, whose archive worker runs beside
them, and every callable and every call of the session may answer anything. With the seam enabled,
what goes to the session is what `encrypt` has answered for the same room, or what was received and
`decrypt` has accepted; the texts that are sent leave no trace in it.
-/

namespace GcsChat

open ByteString ProtoSchema Interactive TransitionSystem

inductive SeamCall
  | send (roomTopic text : Bytes)
  | live (topic valueBytes : Bytes)
  | arrived (key valueBytes : Bytes)
  | history (roomTopic : Bytes)

def SeamCall.program (M : Messaging) : SeamCall → SeamProgram Unit
  | send roomTopic text => M.sending roomTopic text >>= fun _ => pure ()
  | live topic valueBytes => M.applying topic valueBytes
  | arrived key valueBytes => M.arriving key valueBytes
  | history roomTopic => M.querying roomTopic >>= fun _ => pure ()

/-- The delivery topic of what is received, and its bytes. -/
def SeamCall.delivers : SeamCall → Option (Bytes × Bytes)
  | live topic valueBytes => some (topic, valueBytes)
  | arrived key valueBytes => (roomTopicFromKey key).map fun roomTopic => (roomTopic, valueBytes)
  | _ => none

def SessionCall.data : SessionCall → Bytes
  | publish _ payload => payload
  | put _ value _ => value

/-- A call that a thread is in, with what it has asked so far. -/
structure Activity where
  call : SeamCall
  asked : SeamTrace
  rest : SeamProgram Unit

/-- The threads, the archive queue and what the archive worker has taken from it. -/
structure SeamState (ι : Type) where
  threads : ι → Option Activity
  queue : List (Bytes × Bytes)
  inHand : Option (Bytes × Bytes)

inductive SeamStep (ι : Type)
  | call (i : ι) (call : SeamCall)
  | answer (i : ι) (e : SeamEffect) (a : e.Answer)
  | finish (i : ι)
  | take
  | handOver (item : Bytes × Bytes) (putOk : Bool)

/-- What a step passes to the session; the worker's `Put` has no topics. -/
def SeamStep.sessionCall {ι : Type} : SeamStep ι → Option SessionCall
  | answer _ (.publish topic data) _ => some (.publish topic data)
  | answer _ (.put key value topics) _ => some (.put key value topics)
  | handOver item _ => some (.put item.1 item.2 [])
  | _ => none

namespace SeamState

variable {ι : Type}

def fresh (ι : Type) : SeamState ι := ⟨fun _ => none, [], none⟩

def enqueued (s : SeamState ι) : SeamEffect → SeamState ι
  | .enqueueArchive key value => { s with queue := s.queue ++ [(key, value)] }
  | _ => s

variable [DecidableEq ι]

def set (s : SeamState ι) (i : ι) (activity : Option Activity) : SeamState ι :=
  { s with threads := Function.update s.threads i activity }

@[simp] theorem set_threads_self (s : SeamState ι) (i : ι) (activity : Option Activity) :
    (s.set i activity).threads i = activity := Function.update_self _ _ _

theorem set_threads_of_ne (s : SeamState ι) {i j : ι} (activity : Option Activity) (h : j ≠ i) :
    (s.set i activity).threads j = s.threads j := Function.update_of_ne h _ _

end SeamState

def Messaging.seamSystem (M : Messaging) (ι : Type) [DecidableEq ι] :
    TransitionSystem (SeamState ι) (SeamStep ι) where
  initial s := s = .fresh ι
  step s l s' := match l with
    | .call i call => s.threads i = none ∧ s' = s.set i (some ⟨call, [], call.program M⟩)
    | .answer i e a => ∃ call asked next, s.threads i = some ⟨call, asked, ask e next⟩ ∧
        s' = (s.enqueued e).set i (some ⟨call, asked ++ [⟨e, a⟩], next a⟩)
    | .finish i => ∃ call asked, s.threads i = some ⟨call, asked, done ()⟩ ∧ s' = s.set i none
    | .take => ∃ item rest, s.inHand = none ∧ s.queue = item :: rest ∧
        s' = { s with queue := rest, inHand := some item }
    | .handOver item _ => s.inHand = some item ∧ s' = { s with inHand := none }

def passed : (Σ e : SeamEffect, e.Answer) → Option Bytes
  | ⟨.publish _ data, _⟩ => some data
  | ⟨.put _ value _, _⟩ => some value
  | _ => none

/-- After `asked`, the call may pass what its callables have answered, and only that. -/
def SeamCall.Allows (call : SeamCall) (asked : SeamTrace) : SeamEffect → Prop
  | .publish topic data => asked.filterMap passed = [] ∧
      ∃ text plain, call = .send topic text ∧ ⟨.encrypt topic plain, some data⟩ ∈ asked
  | .put _ value topics => asked.filterMap passed = [value] ∧ ∃ roomTopic text plain,
      call = .send roomTopic text ∧ topics = [roomTopic] ∧
        ⟨.encrypt roomTopic plain, some value⟩ ∈ asked
  | .enqueueArchive _ value => ∃ roomTopic plain,
      call.delivers = some (roomTopic, value) ∧ ⟨.decrypt roomTopic value, some plain⟩ ∈ asked
  | _ => True

def seamDiscipline (call : SeamCall) : Discipline SeamEffect SeamEffect.Answer SeamTrace where
  allows := call.Allows
  possible _ _ _ := True
  after asked e a := asked ++ [⟨e, a⟩]

section Programs

variable {M : Messaging} {call : SeamCall} {asked : SeamTrace}

theorem follows_failing (msg : ChatMessageState) :
    (M.failing msg).Follows (seamDiscipline call) asked fun _ _ => True :=
  ⟨trivial, fun _ _ => trivial⟩

theorem follows_delivering (msg : ChatMessageState) (text : Bytes) {plain payload : Bytes}
    (hsealed : (⟨.encrypt msg.roomTopic plain, some payload⟩ : Σ e : SeamEffect, e.Answer) ∈ asked)
    (hnone : asked.filterMap passed = []) :
    (M.delivering msg payload).Follows (seamDiscipline (.send msg.roomTopic text)) asked
      fun _ _ => True := by
  refine ⟨⟨hnone, text, plain, rfl, hsealed⟩, fun publishOk _ => ?_⟩
  cases publishOk with
  | false => exact follows_failing msg
  | true =>
      refine ⟨⟨?_, msg.roomTopic, text, plain, rfl, rfl, List.mem_append_left _ hsealed⟩,
        fun putOk _ => ?_⟩
      · change List.filterMap passed (asked ++ [⟨.publish msg.roomTopic payload, true⟩]) = [payload]
        rw [List.filterMap_append, hnone]
        rfl
      · cases putOk with
        | false => exact follows_failing msg
        | true => exact ⟨trivial, fun _ _ => trivial⟩

theorem follows_sending (henabled : M.encryptionEnabled = true) (roomTopic text : Bytes) :
    (M.sending roomTopic text).Follows (seamDiscipline (.send roomTopic text)) []
      fun _ _ => True := by
  refine ⟨trivial, fun id _ => ⟨trivial, fun now _ => ⟨trivial, fun _ _ =>
    ⟨trivial, fun _ _ => ?_⟩⟩⟩⟩
  let msg := M.completeMessage roomTopic text id now
  dsimp only [Interactive.bind]
  rw [Messaging.sealing, if_pos henabled]
  refine ⟨trivial, fun payload _ => ?_⟩
  cases payload with
  | none => exact follows_failing msg
  | some payload =>
      exact follows_delivering msg text
        (List.mem_append_right _ List.mem_cons_self) rfl

theorem follows_applying (henabled : M.encryptionEnabled = true) {roomTopic valueBytes : Bytes}
    (hdelivers : call.delivers = some (roomTopic, valueBytes)) :
    (M.applying roomTopic valueBytes).Follows (seamDiscipline call) asked fun _ _ => True := by
  rw [Messaging.applying, Messaging.opening, if_pos henabled]
  refine ⟨trivial, fun plain _ => ?_⟩
  cases plain with
  | none => exact trivial
  | some plain =>
      dsimp only [Interactive.bind, Option.bind_some]
      cases M.codec.parse plain with
      | none => exact trivial
      | some msg =>
          refine ⟨trivial, fun unseen _ => ?_⟩
          cases unseen with
          | false => exact trivial
          | true =>
              refine ⟨trivial, fun _ _ => ⟨⟨roomTopic, plain, hdelivers, ?_⟩, fun _ _ => trivial⟩⟩
              exact List.mem_append_left _ (List.mem_append_left _
                (List.mem_append_right _ List.mem_cons_self))

theorem follows_openingAll (roomTopic : Bytes) (entries : List (Bytes × Bytes)) :
    (M.openingAll roomTopic entries).Follows (seamDiscipline call) asked fun _ _ => True := by
  induction entries generalizing asked with
  | nil => exact trivial
  | cons entry rest ih =>
      have hopening : (M.opening roomTopic entry.2).Follows (seamDiscipline call) asked
          fun _ _ => True := by
        unfold Messaging.opening
        split
        · exact ⟨trivial, fun _ _ => trivial⟩
        · exact trivial
      refine hopening.bind fun plain _ _ => ih.bind fun messages _ _ => ?_
      cases plain.bind M.codec.parse <;> exact trivial

theorem follows_program (henabled : M.encryptionEnabled = true) (call : SeamCall) :
    (call.program M).Follows (seamDiscipline call) [] fun _ _ => True := by
  cases call with
  | send roomTopic text => exact (follows_sending henabled roomTopic text).bind fun _ _ _ => trivial
  | live topic valueBytes => exact follows_applying henabled rfl
  | arrived key valueBytes =>
      change Follows _ (M.arriving key valueBytes) _ _
      rw [Messaging.arriving]
      cases htopic : roomTopicFromKey key with
      | none => exact trivial
      | some roomTopic =>
          change Follows _ (if roomTopic = [] then _ else _) _ _
          split
          · exact trivial
          · refine follows_applying henabled ?_
            rw [SeamCall.delivers, htopic]
            rfl
  | history roomTopic =>
      refine ⟨trivial, fun scan _ => ?_⟩
      cases scan with
      | none => exact trivial
      | some entries =>
          refine Follows.bind (R := fun _ _ => True) ?_ fun _ _ _ => trivial
          exact (follows_openingAll roomTopic entries).bind fun _ _ _ => ⟨trivial, fun _ _ => trivial⟩

end Programs

def OnePayload (asked : SeamTrace) : Prop :=
  ∀ b ∈ asked.filterMap passed, ∀ b' ∈ asked.filterMap passed, b = b'

theorem OnePayload.snoc {call : SeamCall} {asked : SeamTrace} {e : SeamEffect} (h : OnePayload asked)
    (hallows : call.Allows asked e) (a : e.Answer) : OnePayload (asked ++ [⟨e, a⟩]) := by
  intro b hb b' hb'
  rw [List.filterMap_append] at hb hb'
  cases e with
  | publish topic data =>
      rw [hallows.1, List.nil_append] at hb hb'
      rw [List.mem_singleton.1 hb, List.mem_singleton.1 hb']
  | put key value topics =>
      rw [hallows.1] at hb hb'
      have hboth : ∀ x ∈ [value] ++ [value], x = value := by simp
      rw [hboth b hb, hboth b' hb']
  | _ =>
      change b ∈ asked.filterMap passed ++ [] at hb
      change b' ∈ asked.filterMap passed ++ [] at hb'
      rw [List.append_nil] at hb hb'
      exact h b hb b' hb'

section Runs

variable {ι : Type} [DecidableEq ι] {M : Messaging} {ls : List (SeamStep ι)} {l : SeamStep ι}
  {s s' : SeamState ι}

/-- The bytes were received, and `decrypt` has accepted them under their delivery topic. -/
def Received (ls : List (SeamStep ι)) (data : Bytes) : Prop := ∃ i call roomTopic plain,
  .call i call ∈ ls ∧ call.delivers = some (roomTopic, data) ∧
    .answer i (.decrypt roomTopic data) (some plain) ∈ ls

/-- What holds of a call of thread `i` after the steps `ls`. -/
structure ActivitySound (ls : List (SeamStep ι)) (i : ι) (activity : Activity) : Prop where
  called : .call i activity.call ∈ ls
  asked : ∀ x ∈ activity.asked, .answer i x.1 x.2 ∈ ls
  follows : activity.rest.Follows (seamDiscipline activity.call) activity.asked fun _ _ => True
  onePayload : OnePayload activity.asked

structure SeamSound (ls : List (SeamStep ι)) (s : SeamState ι) : Prop where
  activity : ∀ i activity, s.threads i = some activity → ActivitySound ls i activity
  queued : ∀ item ∈ s.inHand.toList ++ s.queue, Received ls item.2

omit [DecidableEq ι] in
theorem Received.snoc {data : Bytes} (h : Received ls data) (l : SeamStep ι) :
    Received (ls ++ [l]) data := by
  obtain ⟨i, call, roomTopic, plain, hcall, hdelivers, haccepted⟩ := h
  exact ⟨i, call, roomTopic, plain, List.mem_append_left _ hcall, hdelivers,
    List.mem_append_left _ haccepted⟩

omit [DecidableEq ι] in
theorem ActivitySound.snoc {i : ι} {activity : Activity} (h : ActivitySound ls i activity)
    (l : SeamStep ι) : ActivitySound (ls ++ [l]) i activity :=
  ⟨List.mem_append_left _ h.called, fun x hx => List.mem_append_left _ (h.asked x hx), h.follows,
    h.onePayload⟩

omit [DecidableEq ι] in
theorem ActivitySound.allows {i : ι} {call : SeamCall} {asked : SeamTrace} {e : SeamEffect}
    {next : e.Answer → SeamProgram Unit} (h : ActivitySound ls i ⟨call, asked, ask e next⟩) :
    call.Allows asked e := h.follows.1

omit [DecidableEq ι] in
theorem ActivitySound.answer {i : ι} {call : SeamCall} {asked : SeamTrace} {e : SeamEffect}
    {next : e.Answer → SeamProgram Unit} (h : ActivitySound ls i ⟨call, asked, ask e next⟩)
    (a : e.Answer) :
    ActivitySound (ls ++ [.answer i e a]) i ⟨call, asked ++ [⟨e, a⟩], next a⟩ where
  called := List.mem_append_left _ h.called
  asked := by
    intro x hx
    rcases List.mem_append.1 hx with hold | hnew
    · exact List.mem_append_left _ (h.asked x hold)
    · rw [List.mem_singleton.1 hnew]
      exact List.mem_append_right _ List.mem_cons_self
  follows := h.follows.2 a trivial
  onePayload := h.onePayload.snoc h.allows a

theorem SeamSound.set (h : SeamSound ls s) {i : ι} {activity : Option Activity} {u : SeamState ι}
    (hthreads : u.threads = s.threads)
    (hself : ∀ act, activity = some act → ActivitySound (ls ++ [l]) i act)
    (hqueued : ∀ item ∈ u.inHand.toList ++ u.queue, Received (ls ++ [l]) item.2) :
    SeamSound (ls ++ [l]) (u.set i activity) := by
  refine ⟨fun j act hj => ?_, hqueued⟩
  by_cases hji : j = i
  · subst hji
    rw [SeamState.set_threads_self] at hj
    exact hself act hj
  · rw [SeamState.set_threads_of_ne _ _ hji, hthreads] at hj
    exact (h.activity j act hj).snoc l

omit [DecidableEq ι] in
/-- What is enqueued for the archive was received. -/
theorem SeamSound.enqueued (h : SeamSound ls s) {i : ι} {call : SeamCall} {asked : SeamTrace}
    {e : SeamEffect} {next : e.Answer → SeamProgram Unit}
    (hthread : s.threads i = some ⟨call, asked, ask e next⟩) :
    ∀ item ∈ (s.enqueued e).inHand.toList ++ (s.enqueued e).queue, Received ls item.2 := by
  have hactivity := h.activity i _ hthread
  cases e with
  | enqueueArchive key value =>
      intro item hitem
      change item ∈ s.inHand.toList ++ (s.queue ++ [(key, value)]) at hitem
      rw [← List.append_assoc, List.mem_append, List.mem_singleton] at hitem
      rcases hitem with hold | rfl
      · exact h.queued item hold
      · obtain ⟨roomTopic, plain, hdelivers, haccepted⟩ := hactivity.allows
        exact ⟨i, call, roomTopic, plain, hactivity.called, hdelivers, hactivity.asked _ haccepted⟩
  | _ => exact h.queued

theorem SeamSound.step (henabled : M.encryptionEnabled = true) (h : SeamSound ls s)
    (hstep : (M.seamSystem ι).step s l s') : SeamSound (ls ++ [l]) s' := by
  cases l with
  | call i call =>
      obtain ⟨-, rfl⟩ := hstep
      refine h.set rfl (fun act hact => ?_) fun item hitem => (h.queued item hitem).snoc _
      obtain rfl := Option.some.inj hact
      exact ⟨List.mem_append_right _ List.mem_cons_self, fun x hx => absurd hx List.not_mem_nil,
        follows_program henabled call, fun b hb => absurd hb List.not_mem_nil⟩
  | answer i e a =>
      obtain ⟨call, asked, next, hthread, rfl⟩ := hstep
      have hthreads : (s.enqueued e).threads = s.threads := by
        cases e <;> rfl
      refine h.set hthreads (fun act hact => ?_)
        fun item hitem => (h.enqueued hthread item hitem).snoc _
      obtain rfl := Option.some.inj hact
      exact (h.activity i _ hthread).answer a
  | finish i =>
      obtain ⟨call, asked, -, rfl⟩ := hstep
      exact h.set rfl nofun fun item hitem => (h.queued item hitem).snoc _
  | take =>
      obtain ⟨item, rest, hhand, hqueue, rfl⟩ := hstep
      refine ⟨fun j act hj => (h.activity j act hj).snoc _, fun x hx => (h.queued x ?_).snoc _⟩
      rw [hhand, hqueue]
      exact hx
  | handOver item putOk =>
      obtain ⟨-, rfl⟩ := hstep
      exact ⟨fun j act hj => (h.activity j act hj).snoc _,
        fun x hx => (h.queued x (List.mem_append_right _ hx)).snoc _⟩

theorem seamSound_of_run (henabled : M.encryptionEnabled = true) {s₀ : SeamState ι}
    (h₀ : (M.seamSystem ι).initial s₀) (hrun : (M.seamSystem ι).Run s₀ ls s) : SeamSound ls s := by
  induction hrun with
  | nil =>
      obtain rfl : s₀ = .fresh ι := h₀
      exact ⟨nofun, nofun⟩
  | snoc _ hstep ih => exact ih.step henabled hstep

/-- The bytes that the step passes to the session are what `encrypt` has answered for the room of the
`SendMessage` that passes them, or were received. -/
inductive Vouched (ls : List (SeamStep ι)) (s : SeamState ι) : SeamStep ι → Prop
  | publish {i : ι} {activity : Activity} {roomTopic text plain data : Bytes} {ok : Bool}
      (hthread : s.threads i = some activity) (hcall : activity.call = .send roomTopic text)
      (hsealed : ⟨.encrypt roomTopic plain, some data⟩ ∈ activity.asked) :
      Vouched ls s (.answer i (.publish roomTopic data) ok)
  | put {i : ι} {activity : Activity} {roomTopic text plain key data : Bytes} {ok : Bool}
      (hthread : s.threads i = some activity) (hcall : activity.call = .send roomTopic text)
      (hsealed : ⟨.encrypt roomTopic plain, some data⟩ ∈ activity.asked) :
      Vouched ls s (.answer i (.put key data [roomTopic]) ok)
  | archived {key data : Bytes} {ok : Bool} (hreceived : Received ls data) :
      Vouched ls s (.handOver (key, data) ok)

theorem SeamSound.vouched (h : SeamSound ls s) (hstep : (M.seamSystem ι).step s l s')
    (hcall : l.sessionCall ≠ none) : Vouched ls s l := by
  cases l with
  | answer i e a =>
      obtain ⟨call, asked, next, hthread, -⟩ := hstep
      have hallows := (h.activity i _ hthread).allows
      cases e with
      | publish topic data =>
          obtain ⟨-, text, plain, hsend, hsealed⟩ := hallows
          exact .publish hthread hsend hsealed
      | put key value topics =>
          obtain ⟨-, roomTopic, text, plain, hsend, rfl, hsealed⟩ := hallows
          exact .put hthread hsend hsealed
      | _ => exact absurd rfl hcall
  | handOver item putOk =>
      obtain ⟨hhand, -⟩ := hstep
      refine .archived (h.queued item (List.mem_append_left _ ?_))
      rw [hhand]
      exact List.mem_cons_self
  | _ => exact absurd rfl hcall

/-- The bytes are a serialized record, as they are before `encrypt` and after `decrypt`. -/
def Messaging.IsRecord (M : Messaging) (data : Bytes) : Prop :=
  ∃ msg, chatMessageSchema.Valid msg ∧ data = M.codec.serialize msg

/-- The callables keep records in: `encrypt` has answered none, and `decrypt` has accepted none. -/
structure Messaging.Conceals (M : Messaging) (ls : List (SeamStep ι)) : Prop where
  encrypt : ∀ i roomTopic plain data, .answer i (.encrypt roomTopic plain) (some data) ∈ ls →
    ¬ M.IsRecord data
  decrypt : ∀ i roomTopic data plain, .answer i (.decrypt roomTopic data) (some plain) ∈ ls →
    ¬ M.IsRecord data

omit [DecidableEq ι] in
theorem SeamSound.not_isRecord (h : SeamSound ls s) (hvouched : Vouched ls s l)
    (hconceals : M.Conceals ls) {c : SessionCall} (hc : l.sessionCall = some c) :
    ¬ M.IsRecord c.data := by
  cases hvouched with
  | publish hthread hcall hsealed =>
      obtain rfl := Option.some.inj hc
      exact hconceals.encrypt _ _ _ _ ((h.activity _ _ hthread).asked _ hsealed)
  | put hthread hcall hsealed =>
      obtain rfl := Option.some.inj hc
      exact hconceals.encrypt _ _ _ _ ((h.activity _ _ hthread).asked _ hsealed)
  | archived hreceived =>
      obtain rfl := Option.some.inj hc
      obtain ⟨i, call, roomTopic, plain, -, -, haccepted⟩ := hreceived
      exact hconceals.decrypt _ _ _ _ haccepted

end Runs

/-- The same call, a `SendMessage` with another text. -/
def SeamCall.retell (ρ : Bytes → Bytes) : SeamCall → SeamCall
  | send roomTopic text => send roomTopic (ρ text)
  | call => call

/-- Two programs ask the same with the same answers, up to what `encrypt` is given and what the sink is
shown. -/
inductive Veiled {α : Type} : SeamProgram α → SeamProgram α → Prop
  | done (a : α) : Veiled (done a) (done a)
  | same {e : SeamEffect} {next next' : e.Answer → SeamProgram α}
      (h : ∀ a, Veiled (next a) (next' a)) : Veiled (ask e next) (ask e next')
  | encrypt {roomTopic plain plain' : Bytes} {next next' : Option Bytes → SeamProgram α}
      (h : ∀ a, Veiled (next a) (next' a)) :
      Veiled (ask (.encrypt roomTopic plain) next) (ask (.encrypt roomTopic plain') next')
  | sink {event event' : GcsEvent} {next next' : Unit → SeamProgram α}
      (h : ∀ a, Veiled (next a) (next' a)) :
      Veiled (ask (.sink event) next) (ask (.sink event') next')

/-- The same step, seen from the session and the callables. -/
inductive SameOutside {ι : Type} (ρ : Bytes → Bytes) : SeamStep ι → SeamStep ι → Prop
  | call (i : ι) (call : SeamCall) : SameOutside ρ (.call i call) (.call i (call.retell ρ))
  | answer (i : ι) (e : SeamEffect) (a : e.Answer) : SameOutside ρ (.answer i e a) (.answer i e a)
  | encrypt (i : ι) (roomTopic plain plain' : Bytes) (a : Option Bytes) :
      SameOutside ρ (.answer i (.encrypt roomTopic plain) a) (.answer i (.encrypt roomTopic plain') a)
  | sink (i : ι) (event event' : GcsEvent) :
      SameOutside ρ (.answer i (.sink event) ()) (.answer i (.sink event') ())
  | finish (i : ι) : SameOutside ρ (.finish i) (.finish i)
  | take : SameOutside ρ .take .take
  | handOver (item : Bytes × Bytes) (putOk : Bool) :
      SameOutside ρ (.handOver item putOk) (.handOver item putOk)

inductive SameThread (ρ : Bytes → Bytes) : Option Activity → Option Activity → Prop
  | idle : SameThread ρ none none
  | active {call : SeamCall} {asked asked' : SeamTrace} {p p' : SeamProgram Unit} (h : Veiled p p') :
      SameThread ρ (some ⟨call, asked, p⟩) (some ⟨call.retell ρ, asked', p'⟩)

structure SameArchive {ι : Type} (ρ : Bytes → Bytes) (s u : SeamState ι) : Prop where
  threads : ∀ i, SameThread ρ (s.threads i) (u.threads i)
  queue : u.queue = s.queue
  inHand : u.inHand = s.inHand

namespace Veiled

variable {α β : Type} {M : Messaging}

theorem refl (p : SeamProgram α) : Veiled p p := by
  induction p with
  | done a => exact .done a
  | ask e next ih => exact .same ih

theorem bind {p p' : SeamProgram α} {f f' : α → SeamProgram β} (h : Veiled p p')
    (hf : ∀ a, Veiled (f a) (f' a)) : Veiled (p >>= f) (p' >>= f') := by
  induction h with
  | done a => exact hf a
  | same _ ih => exact .same ih
  | encrypt _ ih => exact .encrypt ih
  | sink _ ih => exact .sink ih

theorem failing (msg msg' : ChatMessageState) : Veiled (M.failing msg) (M.failing msg') :=
  .sink fun _ => .done false

/-- The text of the message shows in its events only. -/
theorem delivering (msg msg' : ChatMessageState) (hroom : msg'.roomTopic = msg.roomTopic)
    (hid : msg'.id = msg.id) (payload : Bytes) :
    Veiled (M.delivering msg payload) (M.delivering msg' payload) := by
  rw [Messaging.delivering, Messaging.delivering, hroom, hid]
  refine .same fun publishOk => ?_
  cases publishOk with
  | false => exact failing msg msg'
  | true =>
      refine .same fun putOk => ?_
      cases putOk with
      | false => exact failing msg msg'
      | true => exact .sink fun _ => .done true

theorem sending (henabled : M.encryptionEnabled = true) (roomTopic text text' : Bytes) :
    Veiled (M.sending roomTopic text) (M.sending roomTopic text') := by
  refine .same fun id => .same fun now => .same fun _ => .sink fun _ => ?_
  let msg := M.completeMessage roomTopic text id now
  let msg' := M.completeMessage roomTopic text' id now
  have hseal : Veiled (M.sealing roomTopic (M.codec.serialize msg))
      (M.sealing roomTopic (M.codec.serialize msg')) := by
    rw [Messaging.sealing, if_pos henabled, Messaging.sealing, if_pos henabled]
    exact .encrypt fun payload => .done payload
  refine hseal.bind fun payload => ?_
  cases payload with
  | none => exact failing msg msg'
  | some payload => exact delivering msg msg' rfl rfl payload

theorem program (henabled : M.encryptionEnabled = true) (ρ : Bytes → Bytes) (call : SeamCall) :
    Veiled (call.program M) ((call.retell ρ).program M) := by
  cases call with
  | send roomTopic text => exact (sending henabled roomTopic text (ρ text)).bind fun _ => .done ()
  | _ => exact .refl _

end Veiled

section Retold

variable {ι : Type} [DecidableEq ι] {M : Messaging} {ρ : Bytes → Bytes} {s s' u : SeamState ι}
  {l : SeamStep ι}

theorem SameArchive.set (h : SameArchive ρ s u) {i : ι} {activity activity' : Option Activity}
    (hthread : SameThread ρ activity activity') :
    SameArchive ρ (s.set i activity) (u.set i activity') := by
  refine ⟨fun j => ?_, h.queue, h.inHand⟩
  by_cases hj : j = i
  · subst hj
    rw [SeamState.set_threads_self, SeamState.set_threads_self]
    exact hthread
  · rw [SeamState.set_threads_of_ne _ _ hj, SeamState.set_threads_of_ne _ _ hj]
    exact h.threads j

omit [DecidableEq ι] in
theorem SameArchive.enqueued (h : SameArchive ρ s u) (e : SeamEffect) :
    SameArchive ρ (s.enqueued e) (u.enqueued e) := by
  cases e with
  | enqueueArchive key value =>
      exact ⟨h.threads, congrArg (· ++ [(key, value)]) h.queue, h.inHand⟩
  | _ => exact h

/-- Every step can be taken with other texts. -/
theorem SameArchive.step (henabled : M.encryptionEnabled = true) (h : SameArchive ρ s u)
    (hstep : (M.seamSystem ι).step s l s') :
    ∃ l' u', (M.seamSystem ι).step u l' u' ∧ SameOutside ρ l l' ∧ SameArchive ρ s' u' := by
  cases l with
  | call i call =>
      obtain ⟨hidle, rfl⟩ := hstep
      have hthread := h.threads i
      rw [hidle] at hthread
      refine ⟨.call i (call.retell ρ), _, ⟨?_, rfl⟩, .call i call,
        h.set (.active (Veiled.program henabled ρ call))⟩
      cases hu : u.threads i with
      | none => rfl
      | some activity =>
          rw [hu] at hthread
          cases hthread
  | answer i e a =>
      obtain ⟨call, asked, next, hactive, rfl⟩ := hstep
      have hthread := h.threads i
      rw [hactive] at hthread
      generalize hu : u.threads i = other at hthread
      cases hthread with
      | active hveiled =>
          cases hveiled with
          | same hnext =>
              exact ⟨.answer i e a, _, ⟨_, _, _, hu, rfl⟩, .answer i e a,
                (h.enqueued e).set (.active (hnext a))⟩
          | @encrypt roomTopic plain plain' _ _ hnext =>
              exact ⟨.answer i (.encrypt roomTopic plain') a, _, ⟨_, _, _, hu, rfl⟩,
                .encrypt i roomTopic plain plain' a, h.set (.active (hnext a))⟩
          | @sink event event' _ _ hnext =>
              exact ⟨.answer i (.sink event') (), _, ⟨_, _, _, hu, rfl⟩, .sink i event event',
                h.set (.active (hnext ()))⟩
  | finish i =>
      obtain ⟨call, asked, hactive, rfl⟩ := hstep
      have hthread := h.threads i
      rw [hactive] at hthread
      generalize hu : u.threads i = other at hthread
      cases hthread with
      | active hveiled =>
          cases hveiled
          exact ⟨.finish i, _, ⟨_, _, hu, rfl⟩, .finish i, h.set .idle⟩
  | take =>
      obtain ⟨item, rest, hhand, hqueue, rfl⟩ := hstep
      exact ⟨.take, _, ⟨item, rest, h.inHand.trans hhand, h.queue.trans hqueue, rfl⟩, .take,
        ⟨h.threads, rfl, rfl⟩⟩
  | handOver item putOk =>
      obtain ⟨hhand, rfl⟩ := hstep
      exact ⟨.handOver item putOk, _, ⟨h.inHand.trans hhand, rfl⟩, .handOver item putOk,
        ⟨h.threads, h.queue, rfl⟩⟩

theorem SameArchive.run (henabled : M.encryptionEnabled = true) (h : SameArchive ρ s u)
    {ls : List (SeamStep ι)} (hrun : (M.seamSystem ι).Run s ls s') :
    ∃ ls' u', (M.seamSystem ι).Run u ls' u' ∧ List.Forall₂ (SameOutside ρ) ls ls' ∧
      SameArchive ρ s' u' := by
  induction hrun with
  | nil => exact ⟨[], u, .nil u, .nil, h⟩
  | snoc _ hstep ih =>
      obtain ⟨ls', v, hrun', hsame, harchive⟩ := ih
      obtain ⟨l', u', hstep', hlabel, harchive'⟩ := harchive.step henabled hstep
      exact ⟨ls' ++ [l'], u', hrun'.snoc hstep', List.rel_append hsame (.cons hlabel .nil),
        harchive'⟩

omit [DecidableEq ι] in
theorem SameOutside.sessionCall {l' : SeamStep ι} (h : SameOutside ρ l l') :
    l'.sessionCall = l.sessionCall := by
  cases h <;> rfl

omit [DecidableEq ι] in
theorem sessionCalls_eq {ls ls' : List (SeamStep ι)} (h : List.Forall₂ (SameOutside ρ) ls ls') :
    ls'.filterMap SeamStep.sessionCall = ls.filterMap SeamStep.sessionCall := by
  induction h with
  | nil => rfl
  | cons hlabel _ ih => rw [List.filterMap_cons, List.filterMap_cons, hlabel.sessionCall, ih]

end Retold

def SeamEffect.OnSeam : SeamEffect → Prop
  | .encrypt _ _ => True
  | .decrypt _ _ => True
  | _ => False

section Disabled

variable {M : Messaging} (hdisabled : M.encryptionEnabled = false)

include hdisabled

theorem asksOnly_sealing (roomTopic serialized : Bytes) :
    (M.sealing roomTopic serialized).AsksOnly fun e => ¬ e.OnSeam := by
  rw [Messaging.sealing, hdisabled]
  exact trivial

theorem asksOnly_opening (roomTopic valueBytes : Bytes) :
    (M.opening roomTopic valueBytes).AsksOnly fun e => ¬ e.OnSeam := by
  rw [Messaging.opening, hdisabled]
  exact trivial

omit hdisabled in
theorem asksOnly_failing (msg : ChatMessageState) :
    (M.failing msg).AsksOnly fun e => ¬ e.OnSeam := ⟨id, fun _ => trivial⟩

omit hdisabled in
theorem asksOnly_delivering (msg : ChatMessageState) (payload : Bytes) :
    (M.delivering msg payload).AsksOnly fun e => ¬ e.OnSeam := by
  refine ⟨id, fun publishOk => ?_⟩
  cases publishOk with
  | false => exact asksOnly_failing msg
  | true =>
      refine ⟨id, fun putOk => ?_⟩
      cases putOk with
      | false => exact asksOnly_failing msg
      | true => exact ⟨id, fun _ => trivial⟩

theorem asksOnly_applying (roomTopic valueBytes : Bytes) :
    (M.applying roomTopic valueBytes).AsksOnly fun e => ¬ e.OnSeam := by
  refine (asksOnly_opening hdisabled roomTopic valueBytes).bind fun plain => ?_
  cases plain.bind M.codec.parse with
  | none => exact trivial
  | some msg =>
      refine ⟨id, fun unseen => ?_⟩
      cases unseen with
      | false => exact trivial
      | true => exact ⟨id, fun _ => ⟨id, fun _ => trivial⟩⟩

theorem asksOnly_openingAll (roomTopic : Bytes) (entries : List (Bytes × Bytes)) :
    (M.openingAll roomTopic entries).AsksOnly fun e => ¬ e.OnSeam := by
  induction entries with
  | nil => exact trivial
  | cons entry rest ih =>
      refine (asksOnly_opening hdisabled roomTopic entry.2).bind fun plain => ih.bind fun _ => ?_
      cases plain.bind M.codec.parse <;> exact trivial

theorem asksOnly_program (call : SeamCall) :
    (call.program M).AsksOnly fun e => ¬ e.OnSeam := by
  cases call with
  | send roomTopic text =>
      refine ⟨id, fun id' => ⟨id, fun now => ⟨id, fun _ => ⟨id, fun _ => ?_⟩⟩⟩⟩
      let msg := M.completeMessage roomTopic text id' now
      refine AsksOnly.bind ((asksOnly_sealing hdisabled roomTopic (M.codec.serialize msg)).bind
        fun payload => ?_) fun _ => trivial
      cases payload with
      | none => exact asksOnly_failing msg
      | some payload => exact asksOnly_delivering msg payload
  | live topic valueBytes => exact asksOnly_applying hdisabled topic valueBytes
  | arrived key valueBytes =>
      change AsksOnly _ (M.arriving key valueBytes)
      rw [Messaging.arriving]
      cases roomTopicFromKey key with
      | none => exact trivial
      | some roomTopic =>
          change AsksOnly _ (if roomTopic = [] then _ else _)
          split
          · exact trivial
          · exact asksOnly_applying hdisabled roomTopic valueBytes
  | history roomTopic =>
      refine ⟨id, fun scan => ?_⟩
      cases scan with
      | none => exact trivial
      | some entries =>
          refine AsksOnly.bind ?_ fun _ => trivial
          exact (asksOnly_openingAll hdisabled roomTopic entries).bind
            fun _ => ⟨id, fun _ => trivial⟩

theorem rest_asksOnly {ι : Type} [DecidableEq ι] {ls : List (SeamStep ι)} {s : SeamState ι}
    (hrun : (M.seamSystem ι).Run (.fresh ι) ls s) :
    ∀ i activity, s.threads i = some activity →
      activity.rest.AsksOnly fun e => ¬ e.OnSeam := by
  refine hrun.invariant (I := fun s => ∀ i activity, s.threads i = some activity →
    activity.rest.AsksOnly fun e => ¬ e.OnSeam) (fun u l w h hstep => ?_) nofun
  have hset : ∀ {v : SeamState ι} {j : ι} {new : Option Activity}, v.threads = u.threads →
      (∀ activity, new = some activity → activity.rest.AsksOnly fun e => ¬ e.OnSeam) →
      ∀ i activity, (v.set j new).threads i = some activity →
        activity.rest.AsksOnly fun e => ¬ e.OnSeam := by
    intro v j new hthreads hnew i activity hi
    by_cases hij : i = j
    · subst hij
      rw [SeamState.set_threads_self] at hi
      exact hnew activity hi
    · rw [SeamState.set_threads_of_ne _ _ hij, hthreads] at hi
      exact h i activity hi
  cases l with
  | call j call =>
      obtain ⟨-, rfl⟩ := hstep
      refine hset rfl fun activity hactivity => ?_
      obtain rfl := Option.some.inj hactivity
      exact asksOnly_program hdisabled call
  | answer j e a =>
      obtain ⟨call, asked, next, hthread, rfl⟩ := hstep
      have hthreads : (u.enqueued e).threads = u.threads := by
        cases e <;> rfl
      refine hset hthreads fun activity hactivity => ?_
      obtain rfl := Option.some.inj hactivity
      exact (h j _ hthread).2 a
  | finish j =>
      obtain ⟨call, asked, -, rfl⟩ := hstep
      exact hset rfl nofun
  | take =>
      obtain ⟨item, rest, -, -, rfl⟩ := hstep
      exact h
  | handOver item putOk =>
      obtain ⟨-, rfl⟩ := hstep
      exact h

/-- The callables are never called. -/
theorem not_onSeam_of_run {ι : Type} [DecidableEq ι] {ls : List (SeamStep ι)} {s : SeamState ι}
    (hrun : (M.seamSystem ι).Run (.fresh ι) ls s) {i : ι} {e : SeamEffect} {a : e.Answer}
    (he : e.OnSeam) : .answer i e a ∉ ls := by
  induction hrun with
  | nil => exact List.not_mem_nil
  | snoc hbefore hstep ih =>
      intro hmem
      rcases List.mem_append.1 hmem with hold | hlast
      · exact ih hold
      · obtain rfl := List.mem_singleton.1 hlast
        obtain ⟨call, asked, next, hthread, -⟩ := hstep
        exact (rest_asksOnly hdisabled hbefore i _ hthread).1 he

end Disabled

/-- What goes to the session after the steps `ls` is vouched for, the same in one `SendMessage`, no
record unless the callables let one out, and would be the same with any other texts. -/
structure Enveloped {ι : Type} [DecidableEq ι] (M : Messaging) (ls : List (SeamStep ι))
    (s : SeamState ι) : Prop where
  vouched : ∀ l t, (M.seamSystem ι).step s l t → l.sessionCall ≠ none → Vouched ls s l
  onePayload : ∀ i activity, s.threads i = some activity → OnePayload activity.asked
  concealed : M.Conceals ls → ∀ l t c, (M.seamSystem ι).step s l t → l.sessionCall = some c →
    ¬ M.IsRecord c.data
  retold : ∀ ρ, ∃ ls' s', (M.seamSystem ι).Run (.fresh ι) ls' s' ∧
    List.Forall₂ (SameOutside ρ) ls ls' ∧
    ls'.filterMap SeamStep.sessionCall = ls.filterMap SeamStep.sessionCall

/-- After any run the session gets envelopes only, and a disabled seam is never asked. -/
theorem envelopes_only {ι : Type} [DecidableEq ι] (M : Messaging) {ls : List (SeamStep ι)}
    {s : SeamState ι} (hrun : (M.seamSystem ι).Run (.fresh ι) ls s) :
    (M.encryptionEnabled = true → Enveloped M ls s) ∧
      (M.encryptionEnabled = false → ∀ i e a, SeamEffect.OnSeam e → .answer i e a ∉ ls) := by
  refine ⟨fun henabled => ?_, fun hdisabled i e a he => not_onSeam_of_run hdisabled hrun he⟩
  have hsound := seamSound_of_run henabled rfl hrun
  refine ⟨fun l t hstep hcall => hsound.vouched hstep hcall,
    fun i activity hi => (hsound.activity i activity hi).onePayload,
    fun hconceals l t c hstep hc => ?_, fun ρ => ?_⟩
  · have hcall : l.sessionCall ≠ none := by
      rw [hc]
      nofun
    exact hsound.not_isRecord (hsound.vouched hstep hcall) hconceals hc
  · obtain ⟨ls', s', hrun', hsame, -⟩ :=
      SameArchive.run henabled ⟨fun _ => .idle, rfl, rfl⟩ hrun
    exact ⟨ls', s', hrun', hsame, sessionCalls_eq hsame⟩

/-- A seam whose envelopes begin with a byte that no record begins with. -/
def boxed (sender : Bytes) : Messaging where
  sender := sender
  crypto :=
    { encrypt := some fun _ _ plain => some (0 :: plain)
      decrypt := some fun _ valueBytes => match valueBytes with
        | 0 :: plain => some plain
        | _ => none
      enabled := true }
  codec := protoCodecs.message

theorem not_isRecord_boxed (sender plain : Bytes) : ¬ (boxed sender).IsRecord (0 :: plain) := by
  rintro ⟨msg, hvalid, hdata⟩
  have hparse := (boxed sender).codec.parse_serialize msg hvalid
  rw [← hdata] at hparse
  have hfield : ProtoWire.readField (0 :: plain) = none := by
    rw [ProtoWire.readField]
    simp [ProtoWire.readVarint]
  have hnone : chatMessageSchema.parse (0 :: plain) = none := by
    rw [Schema.parse, ProtoWire.decode, List.length_cons, ProtoWire.readFields, hfield]
    rfl
  exact Option.some_ne_none _ (hparse.symm.trans hnone)

theorem run_answered {M : Messaging} {ι : Type} [DecidableEq ι] {ls : List (SeamStep ι)}
    {s₀ s : SeamState ι} {i : ι} {call : SeamCall} {asked : SeamTrace} {e : SeamEffect}
    {next : e.Answer → SeamProgram Unit} (h : (M.seamSystem ι).Run s₀ ls s)
    (hthread : s.threads i = some ⟨call, asked, ask e next⟩) (a : e.Answer) :
    ∃ s', (M.seamSystem ι).Run s₀ (ls ++ [.answer i e a]) s' ∧
      s'.threads i = some ⟨call, asked ++ [⟨e, a⟩], next a⟩ :=
  ⟨_, h.snoc ⟨call, asked, next, hthread, rfl⟩, SeamState.set_threads_self _ _ _⟩

/-- A message that has been published in its envelope and waits for the archive. -/
theorem envelopes_only_published : let M := boxed (ofString "self")
    ∃ ls s, (M.seamSystem ℕ).Run (.fresh ℕ) ls s ∧ Enveloped M ls s ∧ M.Conceals ls ∧
      ∃ data, ls.filterMap SeamStep.sessionCall = [.publish (ofString "gcs/chat/a") data] := by
  intro M
  let roomTopic := ofString "gcs/chat/a"
  let id := nextMessageId 0 0 0
  let data : Bytes := 0 :: M.codec.serialize (M.completeMessage roomTopic [] id 0)
  let called : SeamState ℕ := (SeamState.fresh ℕ).set 0
    (some ⟨.send roomTopic [], [], (SeamCall.send roomTopic []).program M⟩)
  have hcalled : (M.seamSystem ℕ).Run (.fresh ℕ) [.call 0 (.send roomTopic [])] called :=
    .single ⟨rfl, rfl⟩
  have hthread : called.threads 0 = _ := SeamState.set_threads_self _ _ _
  obtain ⟨minted, hminted, hthread⟩ := run_answered hcalled hthread id
  obtain ⟨timed, htimed, hthread⟩ := run_answered hminted hthread 0
  obtain ⟨inserted, hinserted, hthread⟩ := run_answered htimed hthread ()
  obtain ⟨pending, hpending, hthread⟩ := run_answered hinserted hthread ()
  obtain ⟨sealed, hsealed, hthread⟩ := run_answered hpending hthread (some data)
  obtain ⟨published, hpublished, -⟩ := run_answered hsealed hthread true
  refine ⟨_, published, hpublished, (envelopes_only M hpublished).1 rfl, ⟨?_, ?_⟩, data, rfl⟩
  · intro i topic plain sealed hmem
    simp at hmem
    obtain ⟨-, -, -, rfl⟩ := hmem
    exact not_isRecord_boxed _ _
  · intro i topic opened plain hmem
    simp at hmem

end GcsChat
