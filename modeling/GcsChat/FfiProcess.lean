import GcsChat.MutexDiscipline
import GcsChat.TransitionSystem
import Mathlib.Logic.Function.Basic

/-!
# The process behind the FFI

Any number of threads call `gcs_init`, `gcs_publish`, `gcs_subscribe` and `gcs_shutdown`, and run the
receive callbacks that earlier calls have registered. `g_mutex` has one owner; each question of a
call is a step of its own, so threads interleave everywhere except where the mutex keeps them out.
Sessions are numbered in the order in which they are published, so an address that is used again
does not confuse two of them. An exception that leaves a callback goes to the SDK, which is outside:
the thread may do anything after it, or nothing. The exit hook is left out.
-/

namespace GcsChat

open ByteString Interactive

/-- A pointer that a caller passes, and the number of the session it was issued for; the code only
sees the pointer. -/
structure Handle where
  address : ℕ
  session : ℕ
  deriving DecidableEq

/-- A call of the FFI or of a callback. A callback belongs to the session that registered it. -/
inductive FfiCall
  | init (configAccepted : Bool)
  | publish (handle : Option Handle) (topic payload : Option Bytes)
  | subscribe (handle : Option Handle) (topic : Option Bytes) (dartPort : ℤ)
  | shutdown (handle : Option Handle)
  | live (session : ℕ) (topic data : Bytes)
  | heal (session : ℕ) (key value : Bytes)

def FfiCall.registeredBy : FfiCall → Option ℕ
  | live n _ _ => some n
  | heal n _ _ => some n
  | _ => none

/-- How a call ends; a callback may end in an exception. -/
inductive FfiResult
  | handle (session : Option ℕ)
  | status (status : GcsStatus)
  | void
  | threw

/-- The windows that are never counted down. -/
def FfiResult.leaks : FfiResult → ℕ
  | threw => 1
  | _ => 0

inductive TeardownStage
  | sdkShutdown
  | stopArchive
  | joinArchive
  | sessionShutdown
  | resetEntities
  | resetSession
  | relock
  deriving DecidableEq

structure Teardown where
  sdkBootedHere : Bool
  evicted : Option ℕ
  stage : TeardownStage

/-- What a thread is doing. A call that is running has the session whose raw pointers it holds. -/
inductive FfiThread
  | idle
  | called (call : FfiCall)
  | running (call : FfiCall) (program : Program Globals FfiResult) (pointer : Option ℕ)
  | subscribing (handle : Handle) (topic : Bytes) (dartPort : ℤ)
  | draining (handle : Handle)
  | tearingDown (handle : Handle) (work : Teardown)

/-- The archive queue of a `Messaging` and its worker; `enqueued` and `handedOver` remember all. -/
structure Archive where
  queue : List (Bytes × Bytes)
  inHand : Option (Bytes × Bytes)
  stopped : Bool
  returned : Bool
  enqueued : List (Bytes × Bytes)
  handedOver : List (Bytes × Bytes)

def Archive.fresh : Archive := ⟨[], none, false, false, [], []⟩

def Archive.enqueue (a : Archive) (key value : Bytes) : Archive :=
  { a with queue := a.queue ++ [(key, value)], enqueued := a.enqueued ++ [(key, value)] }

structure SessionObjects where
  address : ℕ
  session : Bool
  messaging : Bool
  entities : Bool
  shutDown : Bool
  archive : Archive

def SessionObjects.absent : SessionObjects := ⟨0, false, false, false, false, .fresh⟩

def SessionObjects.built (address : ℕ) : SessionObjects := ⟨address, true, true, true, false, .fresh⟩

/-- The session last published has the number `built`. The pubsub keeps a callback for each of
`registrations`, the store of a session one if it is in `bridges`. The windows that an exception has
left are `leaked`. -/
structure FfiProcess (ι : Type) where
  globals : Globals
  dartPort : ℤ
  receivingDisabled : Bool
  tearingDown : Bool
  sdkBootedHere : Bool
  nodeUp : Bool
  owner : Option ι
  threads : ι → FfiThread
  built : ℕ
  objects : ℕ → SessionObjects
  registrations : List (ℕ × Bytes)
  bridges : List ℕ
  leaked : ℕ

inductive FfiStep (ι : Type)
  | call (i : ι) (call : FfiCall)
  | enter (i : ι)
  | subscribed (i : ι) (running : Bool)
  | lock (i : ι)
  | unlock (i : ι)
  | answer (i : ι) (e : Effect Globals) (a : e.Answer)
  | finish (i : ι)
  | drained (i : ι)
  | teardown (i : ι)
  | take (session : ℕ)
  | handOver (session : ℕ)
  | workerReturn (session : ℕ)

def giveBack (g : Globals) (result : FfiResult) : Program Globals FfiResult := do
  unlockMutex g
  pure result

namespace Core

variable (C : Core)

/-- `gcs_init` and `gcs_publish` once they have taken `g_mutex`. -/
def locked (g : Globals) (tearingDown : Bool) : FfiCall → Program Globals FfiResult
  | .init configAccepted =>
      if tearingDown ∨ (g.session = none ∧ ¬ configAccepted) then giveBack g (.handle none)
      else do
        let result ← C.initLocked g
        giveBack result.1 (.handle result.2)
  | .publish handle topic payload => do
      let result ← C.publishLocked g (handle.map (·.address)) topic payload
      giveBack result.1 (.status result.2)
  | _ => giveBack g .void

def greet (g : Globals) : Program Globals FfiResult := do
  postToDart (buildSpaceTreeEvent g)
  postToDart (buildRoomListEvent g)
  postToDart (.readiness true)
  giveBack g (.status .ok)

def callbackResult : Option Unit → FfiResult
  | some () => .void
  | none => .threw

def callback : FfiCall → Program Globals FfiResult
  | .live _ topic data => do
      let returned ← C.liveCallback topic data
      pure (callbackResult returned)
  | .heal _ key value => do
      let returned ← C.healCallback key value
      pure (callbackResult returned)
  | _ => pure .void

end Core

namespace Teardown

/-- The stage after the node is down, or when it stays up. -/
def stageFor (evicted : Option ℕ) : TeardownStage :=
  if evicted.isSome then .stopArchive else .relock

def start (sdkBootedHere : Bool) (evicted : Option ℕ) : Teardown :=
  ⟨sdkBootedHere, evicted, if sdkBootedHere then .sdkShutdown else stageFor evicted⟩

def next (work : Teardown) : Teardown :=
  { work with stage := match work.stage with
    | .sdkShutdown => stageFor work.evicted
    | .stopArchive => .joinArchive
    | .joinArchive => .sessionShutdown
    | .sessionShutdown => .resetEntities
    | .resetEntities => .resetSession
    | .resetSession => .relock
    | .relock => .relock }

end Teardown

namespace FfiProcess

variable {ι : Type}

/-- No session, and a node if a host has booted one. -/
def fresh (ι : Type) (nodeUp : Bool) : FfiProcess ι where
  globals := .fresh
  dartPort := 0
  receivingDisabled := false
  tearingDown := false
  sdkBootedHere := false
  nodeUp := nodeUp
  owner := none
  threads _ := .idle
  built := 0
  objects _ := .absent
  registrations := []
  bridges := []
  leaked := 0

def setObjects (s : FfiProcess ι) (n : ℕ) (o : SessionObjects) : FfiProcess ι :=
  { s with objects := Function.update s.objects n o }

def updateArchive (s : FfiProcess ι) (n : ℕ) (f : Archive → Archive) : FfiProcess ι :=
  s.setObjects n { s.objects n with archive := f (s.objects n).archive }

/-- What is guarded after a section; a session that was not there before gets the next number. -/
def release (s : FfiProcess ι) (g : Globals) : FfiProcess ι :=
  let freed : FfiProcess ι := { s with globals := g, owner := none }
  match s.globals.session, g.session with
  | none, some address =>
      { freed with built := s.built + 1 }.setObjects (s.built + 1) (.built address)
  | _, _ => freed

section Release

variable (s : FfiProcess ι) (g : Globals)

@[simp] theorem release_globals : (s.release g).globals = g := by
  unfold release
  split <;> rfl

@[simp] theorem release_owner : (s.release g).owner = none := by
  unfold release
  split <;> rfl

@[simp] theorem release_threads : (s.release g).threads = s.threads := by
  unfold release
  split <;> rfl

theorem release_of_up (h : s.globals.session ≠ none) :
    s.release g = { s with globals := g, owner := none } := by
  unfold release
  split
  · next hnone _ => exact absurd hnone h
  · rfl

theorem release_of_none (h : g.session = none) :
    s.release g = { s with globals := g, owner := none } := by
  unfold release
  split
  · next hsome => exact absurd (h.symm.trans hsome) nofun
  · rfl

theorem release_of_opened {address : ℕ} (hnone : s.globals.session = none)
    (hsome : g.session = some address) : s.release g =
      ({ s with globals := g, owner := none, built := s.built + 1 } : FfiProcess ι).setObjects
        (s.built + 1) (.built address) := by
  unfold release
  rw [hnone, hsome]

@[simp] theorem release_leaked : (s.release g).leaked = s.leaked := by
  unfold release
  split <;> rfl

theorem built_le_release :
    s.built ≤ (s.release g).built := by
  unfold release
  split
  · exact Nat.le_succ _
  · exact le_rfl

end Release

/-- A section that goes on outside has taken its pointer again, unless it has changed nothing: the
sink's sections are inside a window that is still open. An exception is thrown in the window. -/
inductive Repointed (s : FfiProcess ι) (g : Globals) (pointer : Option ℕ) :
    Program Globals FfiResult → Option ℕ → Prop
  | ended {result : FfiResult} (h : result.leaks = 0) : Repointed s g pointer (done result) none
  | threw : Repointed s g pointer (done .threw) (some (s.release g).built)
  | kept {e : Effect Globals} {next : e.Answer → Program Globals FfiResult} (h : g = s.globals) :
      Repointed s g pointer (ask e next) pointer
  | taken {e : Effect Globals} {next : e.Answer → Program Globals FfiResult} (h : g ≠ s.globals) :
      Repointed s g pointer (ask e next) (some (s.release g).built)

/-- The answers that depend on the process: the intake gate, and that a new session is allocated
where no other one is. -/
def Answers (s : FfiProcess ι) : (e : Effect Globals) → e.Answer → Prop
  | .lock, _ => False
  | .unlock _, _ => False
  | .receivingDisabled, disabled => disabled = s.receivingDisabled
  | .initSession, some address => ∀ n, (s.objects n).session → (s.objects n).address ≠ address
  | _, _ => True

/-- `gcs_init` reopens the gate just before it registers the message bridge. -/
def answered (s : FfiProcess ι) (pointer : Option ℕ) : (e : Effect Globals) → e.Answer → FfiProcess ι
  | .initSession, some _ => if s.nodeUp then s else { s with nodeUp := true, sdkBootedHere := true }
  | .initSession, none =>
      if s.sdkBootedHere then
        { s with nodeUp := false, sdkBootedHere := false, registrations := [] }
      else s
  | .registerNewElementCallback, ok =>
      { s with
        receivingDisabled := false
        bridges := if ok then (s.built + 1) :: s.bridges else s.bridges }
  | .subscribe topic, ok => match ok, pointer with
      | true, some n => { s with registrations := (n, topic) :: s.registrations }
      | _, _ => s
  | .enqueueArchive key value, _ => match pointer with
      | some n => s.updateArchive n (·.enqueue key value)
      | none => s
  | _, _ => s

/-- The step of a teardown may wait for the threads it joins. -/
def CanTearDown (s : FfiProcess ι) (work : Teardown) : Prop :=
  match work.stage, work.evicted with
  | .sdkShutdown, _ => ∀ j n topic data program pointer,
      s.threads j ≠ .running (.live n topic data) program pointer
  | .joinArchive, some n => (s.objects n).archive.returned
  | .sessionShutdown, some n => ∀ j key value program pointer,
      s.threads j ≠ .running (.heal n key value) program pointer
  | .relock, _ => s.owner = none
  | _, _ => True

def destroyed (s : FfiProcess ι) (work : Teardown) : FfiProcess ι :=
  match work.stage, work.evicted with
  | .sdkShutdown, _ => { s with nodeUp := false, registrations := [] }
  | .stopArchive, some n => s.updateArchive n ({ · with stopped := true })
  | .joinArchive, some n => s.setObjects n { s.objects n with messaging := false }
  | .sessionShutdown, some n => s.setObjects n { s.objects n with shutDown := true }
  | .resetEntities, some n => s.setObjects n { s.objects n with entities := false }
  | .resetSession, some n => s.setObjects n { s.objects n with session := false }
  | .relock, _ => { s with tearingDown := false }
  | _, _ => s

variable [DecidableEq ι]

def set (s : FfiProcess ι) (i : ι) (t : FfiThread) : FfiProcess ι :=
  { s with threads := Function.update s.threads i t }

@[simp] theorem set_threads_self (s : FfiProcess ι) (i : ι) (t : FfiThread) :
    (s.set i t).threads i = t := by
  rw [set]
  exact Function.update_self i t s.threads

theorem set_threads_of_ne (s : FfiProcess ι) {i j : ι} (t : FfiThread) (h : j ≠ i) :
    (s.set i t).threads j = s.threads j := by
  rw [set]
  exact Function.update_of_ne h t s.threads

/-- The eviction of `TeardownSessionAndNode`, and what it has to destroy. -/
def evict (s : FfiProcess ι) (i : ι) (handle : Handle) : FfiProcess ι :=
  let gated : FfiProcess ι :=
    { s with receivingDisabled := true, tearingDown := true, sdkBootedHere := false }
  match s.globals.session with
  | none => gated.set i (.tearingDown handle (.start s.sdkBootedHere none))
  | some _ =>
      { gated with
        dartPort := 0
        globals := { Globals.fresh with inFlight := s.globals.inFlight } }.set i
          (.tearingDown handle (.start s.sdkBootedHere (some s.built)))

section Evict

variable {s : FfiProcess ι} (i : ι) (handle : Handle)

@[simp] theorem evict_session : (s.evict i handle).globals.session = none := by
  unfold evict
  split
  · next h => exact h
  · rfl

@[simp] theorem evict_built : (s.evict i handle).built = s.built := by
  unfold evict
  split <;> rfl

@[simp] theorem evict_objects : (s.evict i handle).objects = s.objects := by
  unfold evict
  split <;> rfl

theorem evict_owner : (s.evict i handle).owner = s.owner := by
  unfold evict
  split <;> rfl

theorem tearingDown_evict : (s.evict i handle).tearingDown = true := by
  unfold evict
  split <;> rfl

theorem evict_dartPort : (s.evict i handle).dartPort = 0 ∨
    s.globals.session = none ∧ (s.evict i handle).dartPort = s.dartPort := by
  unfold evict
  split
  · next hsession => exact .inr ⟨hsession, rfl⟩
  · exact .inl rfl

theorem evict_threads_self_of_up (h : s.globals.session ≠ none) :
    (s.evict i handle).threads i =
      .tearingDown handle (.start s.sdkBootedHere (some s.built)) := by
  unfold evict
  split
  · next hsession => exact absurd hsession h
  · exact set_threads_self _ _ _

variable {i} in
theorem evict_threads_of_ne {j : ι} (hj : j ≠ i) :
    (s.evict i handle).threads j = s.threads j := by
  unfold evict
  split <;> exact set_threads_of_ne _ _ hj

end Evict

/-- What a call does when it takes `g_mutex` for the first time. -/
def enter (C : Core) (s : FfiProcess ι) (i : ι) : FfiCall → FfiProcess ι
  | .shutdown (some handle) =>
      if s.globals.session = some handle.address then
        if s.globals.inFlight = 0 then s.evict i handle
        else { s with receivingDisabled := true }.set i (.draining handle)
      else s.set i .idle
  | .shutdown none => s.set i .idle
  | .subscribe (some handle) (some topic) dartPort =>
      if s.globals.session = some handle.address ∧ dartPort ≠ 0 then
        { s with owner := some i }.set i (.subscribing handle topic dartPort)
      else s.set i .idle
  | .subscribe _ _ _ => s.set i .idle
  | call => { s with owner := some i }.set i
      (.running call (C.locked s.globals s.tearingDown call) none)

def tearDown (s : FfiProcess ι) (i : ι) (handle : Handle) (work : Teardown) : FfiProcess ι :=
  (s.destroyed work).set i
    (if work.stage = .relock then .idle else .tearingDown handle work.next)

end FfiProcess

section System

variable {ι : Type} [DecidableEq ι]

def ffiSystem (C : Core) (ι : Type) [DecidableEq ι] :
    TransitionSystem (FfiProcess ι) (FfiStep ι) where
  initial s := ∃ nodeUp, s = .fresh ι nodeUp
  step s l s' := match l with
    | .call i call => s.threads i = .idle ∧ match call with
        | .live n topic _ => (n, topic) ∈ s.registrations ∧
            s' = s.set i (.running call (C.callback call) none)
        | .heal n _ _ => n ∈ s.bridges ∧ (s.objects n).shutDown = false ∧
            s' = s.set i (.running call (C.callback call) none)
        | _ => s' = s.set i (.called call)
    | .enter i => ∃ call, s.threads i = .called call ∧ s.owner = none ∧ s' = s.enter C i call
    | .subscribed i running => ∃ handle topic dartPort,
        s.threads i = .subscribing handle topic dartPort ∧
        s' = if running then
            { s with dartPort := dartPort }.set i (.running
              (.subscribe (some handle) (some topic) dartPort) (Core.greet s.globals) none)
          else s.set i (.running (.subscribe (some handle) (some topic) dartPort)
            (giveBack s.globals (.status .errorNotRunning)) none)
    | .lock i => ∃ call next pointer, s.threads i = .running call (ask .lock next) pointer ∧
        s.owner = none ∧
        s' = { s with owner := some i }.set i (.running call (next s.globals) pointer)
    | .unlock i => ∃ call g next pointer pointer',
        s.threads i = .running call (ask (.unlock g) next) pointer ∧ s.owner = some i ∧
        s.Repointed g pointer (next ()) pointer' ∧
        s' = (s.release g).set i (.running call (next ()) pointer')
    | .answer i e a => ∃ call next pointer, s.threads i = .running call (ask e next) pointer ∧
        s.Answers e a ∧ s' = (s.answered pointer e a).set i (.running call (next a) pointer)
    | .finish i => ∃ call result pointer, s.threads i = .running call (done result) pointer ∧
        s' = { s with leaked := s.leaked + result.leaks }.set i .idle
    | .drained i => ∃ handle, s.threads i = .draining handle ∧ s.owner = none ∧
        s.globals.inFlight = 0 ∧ s' = s.evict i handle
    | .teardown i => ∃ handle work, s.threads i = .tearingDown handle work ∧ s.CanTearDown work ∧
        s' = s.tearDown i handle work
    | .take n => ∃ item rest, (s.objects n).archive.inHand = none ∧
        (s.objects n).archive.returned = false ∧ (s.objects n).archive.queue = item :: rest ∧
        s' = s.updateArchive n fun a => { a with inHand := some item, queue := rest }
    | .handOver n => ∃ item, (s.objects n).archive.inHand = some item ∧
        s' = s.updateArchive n fun a => { a with
          inHand := none
          handedOver := a.handedOver ++ [item] }
    | .workerReturn n => (s.objects n).archive.inHand = none ∧
        (s.objects n).archive.returned = false ∧ (s.objects n).archive.stopped ∧
        (s.objects n).archive.queue = [] ∧ s' = s.updateArchive n ({ · with returned := true })

end System

section Threads

variable {ι : Type} {C : Core} {s s' : FfiProcess ι}

/-- A shutdown evicts the session that is up, right when it is called or after it has waited. -/
inductive Evicts (s : FfiProcess ι) (i : ι) (handle : Handle) : FfiStep ι → Prop
  | atOnce (h : s.threads i = .called (.shutdown (some handle)))
      (hsession : s.globals.session = some handle.address) : Evicts s i handle (.enter i)
  | drained (h : s.threads i = .draining handle) : Evicts s i handle (.drained i)

/-- The step that a thread takes: from what it was doing to what it does next. -/
inductive ThreadStep (C : Core) (s : FfiProcess ι) (i : ι) :
    FfiStep ι → FfiThread → FfiThread → Prop
  | call {call : FfiCall} : ThreadStep C s i (.call i call) .idle (.called call)
  | callback {call : FfiCall} :
      ThreadStep C s i (.call i call) .idle (.running call (C.callback call) none)
  | locked {call : FfiCall} (hfree : s.owner = none) : ThreadStep C s i (.enter i) (.called call)
      (.running call (C.locked s.globals s.tearingDown call) none)
  | refused {call : FfiCall} : ThreadStep C s i (.enter i) (.called call) .idle
  | subscribing {handle : Handle} {topic : Bytes} {dartPort : ℤ} (hfree : s.owner = none)
      (hsession : s.globals.session = some handle.address) (hport : dartPort ≠ 0) :
      ThreadStep C s i (.enter i) (.called (.subscribe (some handle) (some topic) dartPort))
        (.subscribing handle topic dartPort)
  | draining {handle : Handle} (hfree : s.owner = none)
      (hsession : s.globals.session = some handle.address) (hwait : s.globals.inFlight ≠ 0) :
      ThreadStep C s i (.enter i) (.called (.shutdown (some handle))) (.draining handle)
  | evicts {l : FfiStep ι} {handle : Handle} (h : Evicts s i handle l) (hfree : s.owner = none)
      (hidle : s.globals.inFlight = 0) : ThreadStep C s i l (s.threads i)
        (.tearingDown handle (.start s.sdkBootedHere (s.globals.session.map fun _ => s.built)))
  | greets {handle : Handle} {topic : Bytes} {dartPort : ℤ} :
      ThreadStep C s i (.subscribed i true) (.subscribing handle topic dartPort)
        (.running (.subscribe (some handle) (some topic) dartPort) (Core.greet s.globals) none)
  | notRunning {handle : Handle} {topic : Bytes} {dartPort : ℤ} :
      ThreadStep C s i (.subscribed i false) (.subscribing handle topic dartPort)
        (.running (.subscribe (some handle) (some topic) dartPort)
          (giveBack s.globals (.status .errorNotRunning)) none)
  | lock {call : FfiCall} {next : Globals → Program Globals FfiResult} {pointer : Option ℕ}
      (hfree : s.owner = none) : ThreadStep C s i (.lock i)
        (.running call (ask .lock next) pointer) (.running call (next s.globals) pointer)
  | unlock {call : FfiCall} {g : Globals} {next : Unit → Program Globals FfiResult}
      {pointer pointer' : Option ℕ} (howner : s.owner = some i)
      (hpointer : s.Repointed g pointer (next ()) pointer') : ThreadStep C s i (.unlock i)
        (.running call (ask (.unlock g) next) pointer) (.running call (next ()) pointer')
  | answer {call : FfiCall} {e : Effect Globals} {a : e.Answer}
      {next : e.Answer → Program Globals FfiResult} {pointer : Option ℕ} (ha : s.Answers e a) :
      ThreadStep C s i (.answer i e a) (.running call (ask e next) pointer)
        (.running call (next a) pointer)
  | finish {call : FfiCall} {result : FfiResult} {pointer : Option ℕ} :
      ThreadStep C s i (.finish i) (.running call (done result) pointer) .idle
  | teardown {handle : Handle} {work : Teardown} (hcan : s.CanTearDown work)
      (hstage : work.stage ≠ .relock) : ThreadStep C s i (.teardown i) (.tearingDown handle work)
        (.tearingDown handle work.next)
  | tornDown {handle : Handle} {work : Teardown} (hfree : s.owner = none)
      (hstage : work.stage = .relock) :
      ThreadStep C s i (.teardown i) (.tearingDown handle work) .idle

namespace FfiProcess

structure Alike (s s' : FfiProcess ι) : Prop where
  globals : s'.globals = s.globals
  dartPort : s'.dartPort = s.dartPort
  owner : s'.owner = s.owner
  built : s'.built = s.built
  leaked : s'.leaked = s.leaked
  threads : s'.threads = s.threads

theorem alike_answered (pointer : Option ℕ) (e : Effect Globals) (a : e.Answer) :
    Alike s (s.answered pointer e a) := by
  cases e with
  | initSession =>
      cases a with
      | none =>
          rw [answered]
          split <;> exact ⟨rfl, rfl, rfl, rfl, rfl, rfl⟩
      | some address =>
          rw [answered]
          split <;> exact ⟨rfl, rfl, rfl, rfl, rfl, rfl⟩
  | subscribe topic => cases a <;> cases pointer <;> exact ⟨rfl, rfl, rfl, rfl, rfl, rfl⟩
  | enqueueArchive key value => cases pointer <;> exact ⟨rfl, rfl, rfl, rfl, rfl, rfl⟩
  | _ => exact ⟨rfl, rfl, rfl, rfl, rfl, rfl⟩

theorem alike_destroyed (work : Teardown) : Alike s (s.destroyed work) := by
  obtain ⟨booted, evicted, stage⟩ := work
  cases stage <;> cases evicted <;> exact ⟨rfl, rfl, rfl, rfl, rfl, rfl⟩

end FfiProcess

/-- Thread `j` has not moved, and nobody else touches what it guards. -/
structure Rests (s s' : FfiProcess ι) (j : ι) : Prop where
  thread : s'.threads j = s.threads j
  guarded : s'.owner = some j → s.owner = some j ∧ s'.globals = s.globals ∧ s'.built = s.built

theorem guarded_same {i j : ι} (_ : j ≠ i) (howner : s.owner = some j) :
    s.owner = some j ∧ s.globals = s.globals ∧ s.built = s.built := ⟨howner, rfl, rfl⟩

theorem guarded_taken {p : Prop} {i j : ι} (hj : j ≠ i) (howner : some i = some j) : p :=
  absurd (Option.some.inj howner).symm hj

variable [DecidableEq ι]

theorem rests_set_cases {u : FfiProcess ι} {i : ι} {t t' : FfiThread} {l : FfiStep ι}
    (hthreads : u.threads = s.threads)
    (hguarded : ∀ j, j ≠ i → u.owner = some j →
      s.owner = some j ∧ u.globals = s.globals ∧ u.built = s.built)
    (ht : s.threads i = t) (h : ThreadStep C s i l t t') (j : ι) :
    Rests s (u.set i t') j ∨ ThreadStep C s j l (s.threads j) ((u.set i t').threads j) := by
  by_cases hj : j = i
  · subst hj
    rw [FfiProcess.set_threads_self, ht]
    exact .inr h
  · refine .inl ⟨?_, hguarded j hj⟩
    rw [FfiProcess.set_threads_of_ne _ _ hj, hthreads]

theorem rests_evict_cases {i : ι} {handle : Handle} {l : FfiStep ι} (h : Evicts s i handle l)
    (hfree : s.owner = none) (hidle : s.globals.inFlight = 0) (j : ι) :
    Rests s (s.evict i handle) j ∨
      ThreadStep C s j l (s.threads j) ((s.evict i handle).threads j) := by
  have hstep := ThreadStep.evicts (C := C) h hfree hidle
  have hfreed : ∀ {p : Prop} {k : ι}, s.owner = some k → p := fun howner =>
    absurd (hfree.symm.trans howner) nofun
  unfold FfiProcess.evict
  split
  · next hsession =>
      rw [hsession] at hstep
      exact rests_set_cases (s := s) (u := { s with
        receivingDisabled := true, tearingDown := true, sdkBootedHere := false }) rfl
          (fun _ _ => hfreed) rfl hstep j
  · next address hsession =>
      rw [hsession] at hstep
      exact rests_set_cases (s := s) (u := { s with
        receivingDisabled := true
        tearingDown := true
        sdkBootedHere := false
        dartPort := 0
        globals := { Globals.fresh with inFlight := s.globals.inFlight } }) rfl
          (fun _ _ => hfreed) rfl hstep j

/-- A step of the process leaves a thread alone or is a step of it. -/
theorem ffiSystem_rests {l : FfiStep ι} (h : (ffiSystem C ι).step s l s') (j : ι) :
    Rests s s' j ∨ ThreadStep C s j l (s.threads j) (s'.threads j) := by
  cases l with
  | call i call =>
      obtain ⟨hidle, hcall⟩ := h
      cases call with
      | live n topic data =>
          obtain ⟨-, rfl⟩ := hcall
          exact rests_set_cases (s := s) rfl (fun _ => guarded_same) hidle .callback j
      | heal n key value =>
          obtain ⟨-, -, rfl⟩ := hcall
          exact rests_set_cases (s := s) rfl (fun _ => guarded_same) hidle .callback j
      | _ =>
          obtain rfl := hcall
          exact rests_set_cases (s := s) rfl (fun _ => guarded_same) hidle .call j
  | enter i =>
      obtain ⟨call, hthread, hfree, rfl⟩ := h
      have hrefused : ∀ j, Rests s (s.set i .idle) j ∨
          ThreadStep C s j (.enter i) (s.threads j) ((s.set i .idle).threads j) :=
        rests_set_cases (s := s) rfl (fun _ => guarded_same) hthread .refused
      cases call with
      | shutdown handle =>
          cases handle with
          | none => exact hrefused j
          | some handle =>
              rw [FfiProcess.enter]
              split
              · next hsession =>
                  split
                  · next hzero => exact rests_evict_cases (.atOnce hthread hsession) hfree hzero j
                  · next hwait =>
                      exact rests_set_cases (s := s) (u := { s with receivingDisabled := true }) rfl
                        (fun _ => guarded_same) hthread (.draining hfree hsession hwait) j
              · exact hrefused j
      | subscribe handle topic dartPort =>
          cases handle with
          | none => exact hrefused j
          | some handle =>
              cases topic with
              | none => exact hrefused j
              | some topic =>
                  rw [FfiProcess.enter]
                  split
                  · next haccepted =>
                      exact rests_set_cases (s := s) (u := { s with owner := some i }) rfl
                        (fun _ => guarded_taken) hthread
                          (.subscribing hfree haccepted.1 haccepted.2) j
                  · exact hrefused j
      | _ =>
          exact rests_set_cases (s := s) (u := { s with owner := some i }) rfl
            (fun _ => guarded_taken) hthread (.locked hfree) j
  | subscribed i running =>
      obtain ⟨handle, topic, dartPort, hthread, rfl⟩ := h
      cases running with
      | true =>
          exact rests_set_cases (s := s) (u := { s with dartPort := dartPort }) rfl
            (fun _ => guarded_same) hthread .greets j
      | false => exact rests_set_cases (s := s) rfl (fun _ => guarded_same) hthread .notRunning j
  | lock i =>
      obtain ⟨call, next, pointer, hthread, hfree, rfl⟩ := h
      exact rests_set_cases (s := s) (u := { s with owner := some i }) rfl (fun _ => guarded_taken)
        hthread (.lock hfree) j
  | unlock i =>
      obtain ⟨call, g, next, pointer, pointer', hthread, howner, hpointer, rfl⟩ := h
      refine rests_set_cases (FfiProcess.release_threads s g) (fun k _ hk => ?_) hthread
        (.unlock howner hpointer) j
      rw [FfiProcess.release_owner] at hk
      cases hk
  | answer i e a =>
      obtain ⟨call, next, pointer, hthread, hanswers, rfl⟩ := h
      have halike := FfiProcess.alike_answered (s := s) pointer e a
      refine rests_set_cases halike.threads (fun k _ hk => ?_) hthread (.answer hanswers) j
      exact ⟨halike.owner ▸ hk, halike.globals, halike.built⟩
  | finish i =>
      obtain ⟨call, result, pointer, hthread, rfl⟩ := h
      exact rests_set_cases (s := s) (u := { s with leaked := s.leaked + result.leaks }) rfl
        (fun _ => guarded_same) hthread .finish j
  | drained i =>
      obtain ⟨handle, hthread, hfree, hzero, rfl⟩ := h
      exact rests_evict_cases (.drained hthread) hfree hzero j
  | teardown i =>
      obtain ⟨handle, work, hthread, hcan, rfl⟩ := h
      have halike := FfiProcess.alike_destroyed (s := s) work
      refine rests_set_cases halike.threads (fun k _ hk => ?_) hthread ?_ j
      · exact ⟨halike.owner ▸ hk, halike.globals, halike.built⟩
      split
      · next hstage =>
          refine .tornDown ?_ hstage
          rw [FfiProcess.CanTearDown, hstage] at hcan
          exact hcan
      · next hstage => exact .teardown hcan hstage
  | take n =>
      obtain ⟨item, rest, -, -, -, rfl⟩ := h
      exact .inl ⟨rfl, fun howner => ⟨howner, rfl, rfl⟩⟩
  | handOver n =>
      obtain ⟨item, -, rfl⟩ := h
      exact .inl ⟨rfl, fun howner => ⟨howner, rfl, rfl⟩⟩
  | workerReturn n =>
      obtain ⟨-, -, -, -, rfl⟩ := h
      exact .inl ⟨rfl, fun howner => ⟨howner, rfl, rfl⟩⟩

theorem ffiSystem_threads {l : FfiStep ι} (h : (ffiSystem C ι).step s l s') (j : ι) :
    s'.threads j = s.threads j ∨ ThreadStep C s j l (s.threads j) (s'.threads j) :=
  (ffiSystem_rests h j).imp_left Rests.thread

end Threads

end GcsChat
