import GcsChat.SerialSession
import GcsChat.Typestate

/-!
# How the calls use the mutex

Every call takes `g_mutex`, works on what it guards and gives it back once for each unlocked window,
with the window counted in `g_inFlight`. A session that is up when a section begins is still up when
it ends; only `gcs_init` can end a section with a session that was not there before. The effects
allowed under the mutex are a parameter.
-/

namespace GcsChat

open ByteString Interactive

/-- Where a call is: before its first section, under `g_mutex` (inside a window or not when it took
it, and what it found), in an unlocked window, or past its last section. -/
inductive Mode
  | start
  | inside (window : Bool) (found : Globals)
  | window
  | past

/-- What is asked between two sections, through a pointer or of nobody. -/
def Effect.Unlocked {G : Type} : Effect G → Prop
  | .putTopics _ _ _ => True
  | .publish _ _ => True
  | .subscribe _ => True
  | .nextId _ => True
  | .nowMs => True
  | .random => True
  | .insertOwn _ => True
  | .insertUnseen _ => True
  | .enqueueArchive _ _ => True
  | _ => False

theorem Effect.Sends.unlocked {G : Type} {e : Effect G} (h : e.Sends) : e.Unlocked := by
  cases e <;> trivial

/-- What every call may ask under `g_mutex`: what waits for no other thread and starts no session. -/
def Effect.Quick {G : Type} : Effect G → Prop
  | .isRunning => True
  | .get _ => True
  | .addListenTopic _ => True
  | .addBroadcastTopic _ => True
  | .queryKeyValues _ => True
  | .registerNewElementCallback => True
  | .nextId _ => True
  | .nowMs => True
  | .absorb _ => True
  | .post _ => True
  | _ => False

/-- What the commands ask with `g_mutex` held: they also write to the catalog. -/
def Effect.Held {G : Type} (e : Effect G) : Prop := e.Quick ∨ ∃ key value, e = .put key value

/-- A call comes back from a window to a session that is up, and with itself counted. -/
def mutexDiscipline (P : Effect Globals → Prop) :
    Discipline (Effect Globals) Effect.Answer Mode where
  allows m e := match m, e with
    | .start, .lock => True
    | .start, .receivingDisabled => True
    | .start, _ => False
    | .inside w found, .unlock g => (found.session ≠ none → g.session = found.session) ∧
        (g.inFlight + w.toNat = found.inFlight ∨
          g.inFlight + w.toNat = found.inFlight + 1 ∧ g.session ≠ none)
    | .inside _ _, .lock => False
    | .inside _ _, e => P e
    | .window, .lock => True
    | .window, e => e.Unlocked
    | .past, _ => False
  possible m e a := match m, e, a with
    | .window, .lock, g => g.session ≠ none ∧ 0 < g.inFlight
    | _, _, _ => True
  after m e a := match m, e, a with
    | .start, .lock, g => .inside false g
    | .window, .lock, g => .inside true g
    | .inside w found, .unlock g, _ =>
        if g.inFlight + w.toNat = found.inFlight then .past else .window
    | m, _, _ => m

/-- Only `lock` and `unlock` lead to another typestate. -/
theorem mutexDiscipline_after {P : Effect Globals → Prop} {m : Mode} {e : Effect Globals}
    (hlock : e ≠ .lock) (hunlock : ∀ g, e ≠ .unlock g) (a : e.Answer) :
    (mutexDiscipline P).possible m e a ∧ (mutexDiscipline P).after m e a = m := by
  cases e with
  | lock => exact absurd rfl hlock
  | unlock g => exact absurd rfl (hunlock g)
  | _ => cases m <;> exact ⟨trivial, rfl⟩

/-- What a section works with fits what it found: the call's own window is not counted any more, and
a session that was up is up. -/
def Mode.Holds : Mode → Globals → Prop
  | .inside w found, g => g.inFlight + w.toNat = found.inFlight ∧
      (found.session ≠ none → g.session = found.session)
  | _, _ => False

namespace Mode

variable {m : Mode} {g g' : Globals}

theorem Holds.of_eq (h : m.Holds g) (hsession : g'.session = g.session)
    (hinFlight : g'.inFlight = g.inFlight) : m.Holds g' := by
  cases m with
  | inside w found =>
      refine ⟨?_, fun hup => ?_⟩
      · rw [hinFlight]
        exact h.1
      · rw [hsession]
        exact h.2 hup
  | _ => exact h

end Mode

section Rules

variable {P : Effect Globals → Prop} {m : Mode} {g : Globals} {α : Type}
  {Q : α → Mode → Prop}

theorem follows_ask {e : Effect Globals} {next : e.Answer → Program Globals α} (h : m.Holds g)
    (he : e.Held) (hP : P e)
    (hnext : ∀ a, (next a).Follows (mutexDiscipline P) m Q) :
    (ask e next).Follows (mutexDiscipline P) m Q := by
  cases m with
  | inside w found =>
      rcases he with hquick | ⟨key, value, rfl⟩
      · cases e with
        | lock => exact hquick.elim
        | unlock g => exact hquick.elim
        | _ => exact ⟨hP, fun a _ => hnext a⟩
      · exact ⟨hP, fun a _ => hnext a⟩
  | _ => exact h.elim

theorem follows_unlock (h : m.Holds g) {next : Unit → Program Globals α}
    (hnext : (next ()).Follows (mutexDiscipline P) .past Q) :
    (ask (.unlock g) next).Follows (mutexDiscipline P) m Q := by
  cases m with
  | inside w found =>
      refine ⟨⟨h.2, .inl h.1⟩, fun _ _ => ?_⟩
      change (next ()).Follows _ (if g.inFlight + w.toNat = found.inFlight then Mode.past
        else .window) Q
      rw [if_pos h.1]
      exact hnext
  | _ => exact h.elim

theorem follows_open (h : m.Holds g) (hup : g.session ≠ none) {next : Unit → Program Globals α}
    (hnext : (next ()).Follows (mutexDiscipline P) .window Q) :
    (ask (.unlock { g with inFlight := g.inFlight + 1 }) next).Follows (mutexDiscipline P) m Q := by
  cases m with
  | inside w found =>
      have hcount := h.1
      refine ⟨⟨h.2, .inr ⟨?_, hup⟩⟩, fun _ _ => ?_⟩
      · change g.inFlight + 1 + w.toNat = _
        omega
      · change (next ()).Follows _ (if g.inFlight + 1 + w.toNat = found.inFlight then Mode.past
          else .window) Q
        rw [if_neg (by omega)]
        exact hnext
  | _ => exact h.elim

theorem follows_close {next : Globals → Program Globals α}
    (hnext : ∀ g, g.session ≠ none → (Mode.inside true g).Holds { g with inFlight := g.inFlight - 1 } →
      (next g).Follows (mutexDiscipline P) (.inside true g) Q) :
    (ask .lock next).Follows (mutexDiscipline P) .window Q := by
  refine ⟨trivial, fun g ⟨hup, hcount⟩ => hnext g hup ⟨?_, fun _ => rfl⟩⟩
  change g.inFlight - 1 + 1 = g.inFlight
  omega

theorem follows_unlocked {e : Effect Globals} {next : e.Answer → Program Globals α}
    (he : e.Unlocked) (hnext : ∀ a, (next a).Follows (mutexDiscipline P) .window Q) :
    (ask e next).Follows (mutexDiscipline P) .window Q := by
  cases e with
  | lock => exact he.elim
  | _ => exact ⟨he, fun a _ => hnext a⟩

variable (P) in
/-- Inside a window the sink takes the mutex and gives back what it found. -/
theorem follows_eventSink (hpost : ∀ event, P (.post event)) (event : GcsEvent) :
    (Messaging.eventSink event : Program Globals Unit).Follows (mutexDiscipline P) .window
      fun _ m => m = .window := by
  refine ⟨trivial, fun g ⟨hup, hcount⟩ => ⟨hpost event, fun _ _ => ⟨⟨fun _ => rfl, .inr
    ⟨rfl, hup⟩⟩, fun _ _ => ?_⟩⟩⟩
  change (if g.inFlight + 1 = g.inFlight then Mode.past else .window) = .window
  exact if_neg (by omega)

theorem follows_stores {p : Program Globals α} (h : m.Holds g) (hP : ∀ e, e.Quick → P e)
    (hput : ∀ key value, P (.put key value)) (hp : p.AsksOnly Effect.Stores) :
    p.Follows (mutexDiscipline P) m fun _ m' => m' = m := by
  cases m with
  | inside w found =>
      refine follows_of_asksOnly hp fun e he => ?_
      cases e with
      | get key => exact ⟨hP _ trivial, fun _ => rfl⟩
      | put key value => exact ⟨hput key value, fun _ => rfl⟩
      | nextId idPrefix => exact ⟨hP _ trivial, fun _ => rfl⟩
      | nowMs => exact ⟨hP _ trivial, fun _ => rfl⟩
      | _ => exact he.elim
  | _ => exact h.elim

theorem follows_loads {p : Program Globals α} (h : m.Holds g) (hP : ∀ e, e.Quick → P e)
    (hp : p.AsksOnly Effect.Loads) :
    p.Follows (mutexDiscipline P) m fun _ m' => m' = m := by
  cases m with
  | inside w found =>
      refine follows_of_asksOnly hp fun e he => ?_
      cases e with
      | get key => exact ⟨hP _ trivial, fun _ => rfl⟩
      | _ => exact he.elim
  | _ => exact h.elim

theorem follows_replays {p : Program Globals α} (h : m.Holds g) (hP : ∀ e, e.Quick → P e)
    (hp : p.AsksOnly Effect.Replays) :
    p.Follows (mutexDiscipline P) m fun _ m' => m' = m := by
  cases m with
  | inside w found =>
      refine follows_of_asksOnly hp fun e he => ?_
      cases e with
      | queryKeyValues keyPrefix => exact ⟨hP _ trivial, fun _ => rfl⟩
      | absorb ids => exact ⟨hP _ trivial, fun _ => rfl⟩
      | post event => exact ⟨hP _ trivial, fun _ => rfl⟩
      | _ => exact he.elim
  | _ => exact h.elim

end Rules

/-- The program follows the discipline, except that it may build a session first. -/
def Begins {α : Type} (P : Effect Globals → Prop) (p : Program Globals α) (m : Mode)
    (Q : α → Mode → Prop) : Prop :=
  p.Follows (mutexDiscipline P) m Q ∨ (∃ found, m = .inside false found) ∧
    ∃ next, p = ask .initSession next ∧ ∀ opened, (next opened).Follows (mutexDiscipline P) m Q

theorem Begins.follows {α : Type} {P : Effect Globals → Prop} {p : Program Globals α} {m : Mode}
    {Q : α → Mode → Prop} (h : Begins P p m Q) (hp : ∀ next, p ≠ ask .initSession next) :
    p.Follows (mutexDiscipline P) m Q := by
  rcases h with hfollows | ⟨-, next, rfl, -⟩
  · exact hfollows
  · exact absurd rfl (hp next)

def GcsCommand.IsWrite : GcsCommand → Prop
  | createSpace _ _ _ => True
  | createRoom _ _ => True
  | updateSpace _ _ _ _ => True
  | _ => False

/-- The command passes the checks before its first write to the catalog. -/
def GcsCommand.Writes (e : EntityStore) : GcsCommand → Prop
  | createSpace name _ _ => Core.nameRejection (ofString "create_space") name = none
  | createRoom name parentSpaceId => Core.nameRejection (ofString "create_room") name = none ∧
      (parentSpaceId ≠ [] → e.isValidParentSpace parentSpaceId)
  | updateSpace spaceId name _ _ => spaceId ≠ [] ∧ name ≠ [] ∧
      utf8CodePointCount name ≤ kMaxEntityNameLength ∧ e.isValidParentSpace spaceId
  | _ => False

theorem GcsCommand.Writes.isWrite {e : EntityStore} {command : GcsCommand}
    (h : command.Writes e) : command.IsWrite := by
  cases command <;> trivial

namespace Core

/-- `gcs_publish` gets to a write to the catalog as long as the session runs: it is called for the
session that is up with a command that passes all checks. -/
structure Reaches (C : Core) (g : Globals) (session : Option ℕ) (topic : Option Bytes) (bytes : Bytes)
    (command : GcsCommand) : Prop where
  up : g.session ≠ none
  session : session = g.session
  payload : bytes ≠ [] ∧ bytes.length ≤ kMaxInt
  topic : topic = some kCommandTopic
  parses : C.parseCommand bytes = some command
  writes : command.Writes g.entities

section Calls

variable {C : Core} {P : Effect Globals → Prop} {m : Mode} {g : Globals}

def Keeps (g : Globals) (m : Mode) : Prop := m.Holds g ∧ g.session ≠ none

variable (hP : ∀ e : Effect Globals, e.Quick → P e)

include hP

theorem follows_joinBothWays (h : m.Holds g) (topic : Bytes) :
    (joinBothWays topic).Follows (mutexDiscipline P) m fun _ m' => m' = m := by
  refine follows_ask h (.inl trivial) (hP _ trivial) fun listenOk => ?_
  cases listenOk with
  | false => exact rfl
  | true => exact follows_ask h (.inl trivial) (hP _ trivial) fun broadcastOk => rfl

theorem follows_postErrorNotice (h : m.Holds g) (notice : Bytes) :
    (postErrorNotice notice).Follows (mutexDiscipline P) m fun _ m' => m' = m :=
  follows_ask h (.inl trivial) (hP _ trivial) fun _ => rfl

theorem follows_resumeLive (topic : Bytes) (liveOk : Bool) :
    (resumeLive topic liveOk).Follows (mutexDiscipline P) .window fun r m' => Keeps r.1 m' := by
  refine follows_close fun g hup hholds => ?_
  cases liveOk with
  | true => exact ⟨hholds, hup⟩
  | false =>
      exact (follows_postErrorNotice hP hholds _).bind fun _ m' hm' => by
        rw [hm']
        exact ⟨hholds, hup⟩

theorem follows_subscribeLive (h : Keeps g m) (topic : Bytes) :
    (subscribeLive g topic).Follows (mutexDiscipline P) m fun r m' => Keeps r.1 m' :=
  follows_open h.1 h.2 (follows_unlocked trivial fun liveOk => follows_resumeLive hP topic liveOk)

theorem follows_pushMessageHistory (h : m.Holds g) (topic : Bytes) :
    (C.pushMessageHistory topic).Follows (mutexDiscipline P) m fun _ m' => m' = m :=
  follows_replays h hP (replays_pushMessageHistory C topic)

theorem follows_registerDerived (topics : List Bytes) (h : Keeps g m) :
    (C.registerDerived topics g).Follows (mutexDiscipline P) m Keeps := by
  induction topics generalizing g m with
  | nil => exact h
  | cons topic rest ih =>
      rw [registerDerived]
      by_cases hmem : topic ∈ g.derivedTopics
      · rw [if_pos hmem]
        exact ih h
      rw [if_neg hmem]
      refine (follows_joinBothWays hP h.1 topic).bind fun joined m' hm' => ?_
      rw [hm']
      cases joined with
      | false => exact ih h
      | true =>
          have hadded : Keeps (addDerived g topic) m := ⟨h.1.of_eq rfl rfl, h.2⟩
          refine (follows_pushMessageHistory hP h.1 topic).bind fun _ m'' hm'' => ?_
          rw [hm'']
          exact (follows_subscribeLive hP hadded topic).bind fun r m₃ hr => ih hr

theorem follows_refreshDerivedJoins (h : Keeps g m) :
    (C.refreshDerivedJoins g).Follows (mutexDiscipline P) m Keeps :=
  (follows_registerDerived hP _ h).bind fun _ _ hkept => ⟨hkept.1.of_eq rfl rfl, hkept.2⟩

theorem follows_reject (h : m.Holds g) (notice : Bytes) :
    (reject g notice).Follows (mutexDiscipline P) m fun r m' => m'.Holds r.1 :=
  (follows_postErrorNotice hP h notice).bind fun _ m' hm' => by
    rw [hm']
    exact h

theorem follows_failWith (h : m.Holds g) (notice : Bytes) :
    (failWith g notice).Follows (mutexDiscipline P) m fun r m' => m'.Holds r.1 :=
  (follows_postErrorNotice hP h notice).bind fun _ m' hm' => by
    rw [hm']
    exact h

theorem follows_joinTopic (h : Keeps g m) (topic : Bytes) :
    (C.joinTopic g topic).Follows (mutexDiscipline P) m fun r m' => m'.Holds r.1 := by
  rw [joinTopic]
  cases topicRejection (ofString "join_topic") topic with
  | some notice => exact follows_reject hP h.1 notice
  | none =>
      refine (follows_joinBothWays hP h.1 topic).bind fun joined m' hm' => ?_
      rw [hm']
      cases joined with
      | false => exact follows_failWith hP h.1 _
      | true =>
          have hjoined : Keeps (g.joined topic) m := ⟨h.1.of_eq rfl rfl, h.2⟩
          refine follows_ask h.1 (.inl trivial) (hP _ trivial) fun _ => ?_
          refine (follows_pushMessageHistory hP h.1 topic).bind fun _ m'' hm'' => ?_
          rw [hm'']
          by_cases hmem : topic ∈ g.roomTopics
          · rw [decide_eq_true hmem]
            exact hjoined.1
          · rw [decide_eq_false hmem]
            exact (follows_subscribeLive hP hjoined topic).bind fun r m₃ hr => hr.1

theorem follows_publishCatalog (h : Keeps g m) :
    (C.publishCatalog g).Follows (mutexDiscipline P) m fun r m' => m'.Holds r.1 := by
  refine (follows_refreshDerivedJoins hP h).bind fun g' m' hkept => ?_
  exact follows_ask hkept.1 (.inl trivial) (hP _ trivial) fun _ =>
    follows_ask hkept.1 (.inl trivial) (hP _ trivial) fun _ => hkept.1

theorem follows_sinkMessage_bind {α : Type} {Q : α → Mode → Prop} (msg : ChatMessageState)
    {next : Unit → Program Globals α}
    (hnext : (next ()).Follows (mutexDiscipline P) .window Q) :
    (C.messaging.sinkMessage msg >>= next).Follows (mutexDiscipline P) .window Q :=
  (follows_eventSink P (fun _ => hP _ trivial) _).bind fun _ m' hm' => by
    rw [hm']
    exact hnext

theorem follows_sendMessageProgram (topic text : Bytes) :
    (C.messaging.sendMessageProgram topic text : Program Globals Bool).Follows
      (mutexDiscipline P) .window fun _ m' => m' = .window := by
  refine sendMessageProgram_rule (K := fun p => p.Follows (mutexDiscipline P) .window
    fun _ m' => m' = .window) (fun _ => rfl) (fun hp hf => hp.bind ?_) (fun he => ?_)
    (fun _ => follows_eventSink P (fun _ => hP _ trivial) _) topic text
  · rintro a m' rfl
    exact hf a
  · exact follows_unlocked he.unlocked

theorem follows_applyMessageProgram (topic data : Bytes) :
    (C.messaging.applyMessageProgram topic data : Program Globals Unit).Follows
      (mutexDiscipline P) .window fun _ m' => m' = .window := by
  unfold Messaging.applyMessageProgram
  cases C.messaging.openMessage topic data with
  | none => exact rfl
  | some msg =>
      refine follows_unlocked trivial fun unseen => ?_
      cases unseen with
      | false => exact rfl
      | true => exact follows_sinkMessage_bind hP msg (follows_unlocked trivial fun _ => rfl)

theorem follows_onMessageArrivedProgram (key value : Bytes) :
    (C.messaging.onMessageArrivedProgram key value : Program Globals (Option Unit)).Follows
      (mutexDiscipline P) .window fun _ m' => m' = .window := by
  unfold Messaging.onMessageArrivedProgram
  cases roomTopicFromKey key with
  | none => exact rfl
  | some topic =>
      change Follows _ (if topic = [] then _ else _) _ _
      split
      · exact rfl
      · exact (follows_applyMessageProgram hP topic value).bind fun _ _ hm' => hm'

theorem follows_sendText (h : Keeps g m) (topic text : Bytes) :
    (C.sendText g topic text).Follows (mutexDiscipline P) m fun r m' => m'.Holds r.1 := by
  rw [sendText]
  split
  · exact follows_reject hP h.1 _
  split
  · exact follows_reject hP h.1 _
  split
  · exact follows_reject hP h.1 _
  refine follows_open h.1 h.2 ((follows_sendMessageProgram hP topic text).bind fun sendOk m' hm' => ?_)
  rw [hm']
  refine follows_close fun g' hup hholds => ?_
  cases sendOk with
  | true => exact hholds
  | false => exact follows_failWith hP hholds _

theorem follows_createSpace (h : Keeps g m) {name : Bytes} {isPublic autoJoinRooms : Bool}
    (hput : (GcsCommand.createSpace name isPublic autoJoinRooms).Writes g.entities →
      ∀ key value, P (.put key value)) :
    (C.createSpace g name isPublic autoJoinRooms).Follows (mutexDiscipline P) m
      fun r m' => m'.Holds r.1 := by
  rw [createSpace]
  split
  · exact follows_reject hP h.1 _
  · next hname =>
      refine (follows_stores h.1 hP (hput hname) (stores_createSpace C.codecs g.entities _ _ _)).bind
        fun created m' hm' => ?_
      rw [hm']
      have hcreated : m.Holds { g with entities := created.1 } := h.1.of_eq rfl rfl
      cases created.2.isSome with
      | false => exact follows_failWith hP hcreated _
      | true => exact follows_ask hcreated (.inl trivial) (hP _ trivial) fun _ => hcreated

theorem follows_afterWrite (h : Keeps g m) {written : EntityStore} {ok : Bool} {notice : Bytes} :
    (if ok then C.publishCatalog { g with entities := written }
      else failWith { g with entities := written } notice).Follows (mutexDiscipline P) m
        fun r m' => m'.Holds r.1 := by
  have hwritten : Keeps { g with entities := written } m := ⟨h.1.of_eq rfl rfl, h.2⟩
  cases ok with
  | false => exact follows_failWith hP hwritten.1 _
  | true => exact follows_publishCatalog hP hwritten

theorem follows_createRoom (h : Keeps g m) {name parentSpaceId : Bytes}
    (hput : (GcsCommand.createRoom name parentSpaceId).Writes g.entities →
      ∀ key value, P (.put key value)) :
    (C.createRoom g name parentSpaceId).Follows (mutexDiscipline P) m
      fun r m' => m'.Holds r.1 := by
  rw [createRoom]
  split
  · exact follows_reject hP h.1 _
  split
  · exact follows_reject hP h.1 _
  · next hname hparent =>
      have hwrites : (GcsCommand.createRoom name parentSpaceId).Writes g.entities :=
        ⟨hname, fun hne => by
          by_contra hinvalid
          exact hparent ⟨hne, hinvalid⟩⟩
      refine (follows_stores h.1 hP (hput hwrites) (stores_createRoom C.codecs g.entities _ _)).bind
        fun created m' hm' => ?_
      rw [hm']
      exact follows_afterWrite hP h

theorem follows_updateSpace (h : Keeps g m) {spaceId name : Bytes} {isPublic autoJoinRooms : Bool}
    (hput : (GcsCommand.updateSpace spaceId name isPublic autoJoinRooms).Writes g.entities →
      ∀ key value, P (.put key value)) :
    (C.updateSpace g spaceId name isPublic autoJoinRooms).Follows (mutexDiscipline P) m
      fun r m' => m'.Holds r.1 := by
  rw [updateSpace]
  split
  · exact follows_reject hP h.1 _
  split
  · exact follows_reject hP h.1 _
  · next hids hlength =>
      rw [not_or] at hids
      have hstore : (g.entities.updateSpace C.codecs
          (desiredSpace spaceId name isPublic autoJoinRooms) : Program Globals _).Follows
            (mutexDiscipline P) m fun _ m' => m' = m := by
        rw [EntityStore.updateSpace]
        split
        · exact rfl
        split
        · exact rfl
        · next existing hfind hdeleted =>
            have hvalid : g.entities.isValidParentSpace spaceId := by
              rw [EntityStore.isValidParentSpace]
              change g.entities.mSpaces.find? spaceId = some existing at hfind
              rw [hfind]
              simpa using hdeleted
            refine follows_ask h.1 (.inl trivial) (hP _ trivial) fun now =>
              follows_ask h.1 (.inr ⟨_, _, rfl⟩)
                (hput ⟨hids.1, hids.2, by omega, hvalid⟩ _ _) fun ok => ?_
            cases ok <;> exact rfl
      refine hstore.bind fun updated m' hm' => ?_
      rw [hm']
      exact follows_afterWrite hP h

theorem follows_runCommand (h : Keeps g m) {command : GcsCommand}
    (hput : command.Writes g.entities → ∀ key value, P (.put key value)) :
    (C.runCommand g command).Follows (mutexDiscipline P) m fun r m' => m'.Holds r.1 := by
  cases command with
  | joinTopic topic => exact follows_joinTopic hP h topic
  | sendText topic text => exact follows_sendText hP h topic text
  | createSpace name isPublic autoJoinRooms => exact follows_createSpace hP h hput
  | createRoom name parentSpaceId => exact follows_createRoom hP h hput
  | updateSpace spaceId name isPublic autoJoinRooms => exact follows_updateSpace hP h hput
  | payloadNotSet => exact follows_reject hP h.1 _

/-- The arms of `gcs_publish`, of which those that write to the catalog may put under the mutex. -/
theorem follows_publishLocked (h : m.Holds g) {session : Option ℕ} {topic payload : Option Bytes}
    (hput : ∀ bytes command, payload = some bytes → C.Reaches g session topic bytes command →
      ∀ key value, P (.put key value)) :
    (C.publishLocked g session topic payload).Follows (mutexDiscipline P) m
      fun r m' => m'.Holds r.1 := by
  cases topic with
  | none => exact h
  | some topic =>
      cases payload with
      | none => exact h
      | some bytes =>
          rw [publishLocked]
          split
          · exact h
          · next hcheck =>
              have hup : g.session ≠ none := fun hnone => hcheck (.inl hnone)
              refine follows_ask h (.inl trivial) (hP _ trivial) fun running => ?_
              cases running with
              | false => exact h
              | true =>
                  change Follows _ (if topic ≠ kCommandTopic then _ else _) _ _
                  split
                  · exact h
                  · next htopic =>
                      rw [not_or, not_or, not_or] at hcheck
                      obtain ⟨_, hsession, hne, hlength⟩ := hcheck
                      cases hparse : C.parseCommand bytes with
                      | none => exact follows_reject hP h _
                      | some command =>
                          refine follows_runCommand hP ⟨h, hup⟩ fun hwrites => ?_
                          exact hput bytes command rfl ⟨hup, not_not.1 hsession,
                            ⟨hne, Nat.le_of_not_lt hlength⟩, congrArg some (not_not.1 htopic), hparse,
                            hwrites⟩

theorem follows_joinSmokeTopics (h : m.Holds g) (topics : List Bytes) (joinedAny : Bool) :
    (joinSmokeTopics topics g joinedAny).Follows (mutexDiscipline P) m
      fun r m' => m' = m ∧ m.Holds r.1 ∧ r.1.session = g.session := by
  induction topics generalizing g joinedAny with
  | nil => exact ⟨rfl, h, rfl⟩
  | cons topic rest ih =>
      refine (follows_joinBothWays hP h topic).bind fun joined m' hm' => ?_
      rw [hm']
      cases joined with
      | false => exact ih h joinedAny
      | true =>
          have hjoined : m.Holds { g with roomTopics := g.roomTopics ++ [topic] } := h.of_eq rfl rfl
          exact ih hjoined true

theorem follows_startSession (h : m.Holds g) (hnone : g.session = none) (session : ℕ) :
    (C.startSession g session).Follows (mutexDiscipline P) m fun r m' => m'.Holds r.1 := by
  refine (follows_joinSmokeTopics hP h _ _).bind fun joined m' ⟨hm', hholds, hsession⟩ => ?_
  rw [hm']
  cases joined.2 with
  | false => exact hholds
  | true =>
      refine follows_ask hholds (.inl trivial) (hP _ trivial) fun _ => ?_
      refine (follows_loads hholds hP (loads_loadFromStore C.codecs)).bind fun entities m'' hm'' => ?_
      rw [hm'']
      have hstarted : Keeps { joined.1 with session := some session, entities := entities } m := by
        refine ⟨?_, nofun⟩
        cases m with
        | inside w found =>
            refine ⟨hholds.1, fun hup => ?_⟩
            exact absurd ((hholds.2 hup).symm.trans (hsession.trans hnone)) hup
        | _ => exact hholds
      exact (follows_refreshDerivedJoins hP hstarted).bind fun g' m₃ hkept => hkept.1

theorem follows_opened (h : m.Holds g) (hnone : g.session = none) (opened : Option ℕ) :
    (match opened with
      | none => pure (g, none)
      | some session => C.startSession g session : Program Globals (Globals × Option ℕ)).Follows
        (mutexDiscipline P) m fun r m' => m'.Holds r.1 := by
  cases opened with
  | none => exact h
  | some session => exact follows_startSession hP h hnone session

/-- A receive callback ends without having taken the mutex or past its last section, unless an
exception takes it out of its window. -/
def CallbackEnds : Option Unit → Mode → Prop
  | some (), m => m = .start ∨ m = .past
  | none, m => m = .window

omit hP in
theorem follows_receiveCallback {funnel : Program Globals (Option Unit)}
    (hfunnel : funnel.Follows (mutexDiscipline P) .window fun _ m' => m' = .window) :
    (receiveCallback funnel).Follows (mutexDiscipline P) .start CallbackEnds := by
  refine ⟨trivial, fun disabled _ => ?_⟩
  cases disabled with
  | true => exact .inl rfl
  | false =>
      refine ⟨trivial, fun g _ => ?_⟩
      have hholds : (Mode.inside false g).Holds g := ⟨Nat.add_zero _, fun _ => rfl⟩
      change Follows _ (if g.session = none then _ else _) _ _
      split
      · exact follows_unlock hholds (.inr rfl)
      · next hup =>
          refine follows_open hholds hup (hfunnel.bind fun returned m' hm' => ?_)
          rw [hm']
          cases returned with
          | none => exact rfl
          | some _ => exact follows_close fun g' _ hclosed => follows_unlock hclosed (.inr rfl)

theorem follows_liveCallback (topic data : Bytes) :
    (C.liveCallback topic data).Follows (mutexDiscipline P) .start CallbackEnds :=
  follows_receiveCallback ((follows_applyMessageProgram hP topic data).bind fun _ _ hm' => hm')

theorem follows_healCallback (key value : Bytes) :
    (C.healCallback key value).Follows (mutexDiscipline P) .start CallbackEnds :=
  follows_receiveCallback (follows_onMessageArrivedProgram hP key value)

end Calls

end Core

end GcsChat
