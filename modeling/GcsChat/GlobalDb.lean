import GcsChat.ByteString
import GcsChat.Throughout
import GcsChat.TransitionSystem

/-!
# The lifecycle of the database component

`GcsGlobalDb`, statement by statement. `Initialize` takes its resources one after the other and gives
them back by hand on its two late failures, `Shutdown` releases them in order, and every operation
relies on `m_running` for the handle it uses.
-/

namespace GcsChat

open ByteString Interactive

/-- A shared pointer that is not null, as the object it points to. -/
abbrev Pointer := ℕ

inductive Resource
  | io
  | scheduler
  | graphsyncNetwork
  | generator
  | db
  | pubsub
  deriving DecidableEq

/-- The members of the object that change, `none` for a null pointer. `ioThread` says whether the
thread is joinable. -/
structure GlobalDb where
  io : Option Pointer
  scheduler : Option Pointer
  graphsyncNetwork : Option Pointer
  generator : Option Pointer
  db : Option Pointer
  pubsub : Option Pointer
  ioThread : Bool
  running : Bool
  deriving DecidableEq

inductive DbError
  | gcsDbError
  | sdkNotInitialized
  deriving DecidableEq

inductive ExternalCall
  | stop
  | start
  | shutdownNow
  | addListenTopic (topic : Bytes)
  | addBroadcastTopic (topic : Bytes)
  | put (key value : Bytes) (topics : List Bytes)
  | putLocal (key value id : Bytes)
  | queryKeyValues (keyPrefix : Bytes)
  | get (key : Bytes)
  | registerNewElementCallback (pattern : Bytes)
  | publish (topic data : Bytes)
  | subscribe (topic : Bytes)
  deriving DecidableEq

inductive Reply
  | failed
  | done
  | value (bytes : Bytes)
  | entries (entries : List (Bytes × Bytes))
  deriving DecidableEq

inductive DbStatement
  | loadRunning
  | storeRunning (running : Bool)
  | load (r : Resource)
  | makeShared (r : Resource)
  | assign (r : Resource) (handle : Pointer)
  | reset (r : Resource)
  | getNode
  | getPubSub (node : Pointer)
  | getGraphsyncNetwork (node : Pointer)
  | newGlobalDb
  | call (handle : Pointer) (c : ExternalCall)
  | spawnIoThread
  | joinable
  | joinIoThread

/-- What a statement reads, makes or is answered. The error of `GlobalDB::New` is the value of its
code. -/
def DbStatement.Answer : DbStatement → Type
  | .loadRunning | .joinable => Bool
  | .load _ | .getNode | .getPubSub _ | .getGraphsyncNetwork _ => Option Pointer
  | .makeShared _ => Pointer
  | .newGlobalDb => Except ℤ Pointer
  | .call _ _ => Reply
  | .storeRunning _ | .assign _ _ | .reset _ | .spawnIoThread | .joinIoThread => Unit

/-- What a call returns; `nullDereference` is a call through a null pointer. -/
inductive DbOutcome
  | success (reply : Reply)
  | failure (error : DbError)
  | nullDereference
  deriving DecidableEq

abbrev DbProgram := Interactive DbStatement DbStatement.Answer

namespace GlobalDb

/-- A constructed object, and one that was shut down. -/
def stopped : GlobalDb := ⟨none, none, none, none, none, none, false, false⟩

def handle (s : GlobalDb) : Resource → Option Pointer
  | .io => s.io
  | .scheduler => s.scheduler
  | .graphsyncNetwork => s.graphsyncNetwork
  | .generator => s.generator
  | .db => s.db
  | .pubsub => s.pubsub

def setHandle (s : GlobalDb) (h : Option Pointer) : Resource → GlobalDb
  | .io => { s with io := h }
  | .scheduler => { s with scheduler := h }
  | .graphsyncNetwork => { s with graphsyncNetwork := h }
  | .generator => { s with generator := h }
  | .db => { s with db := h }
  | .pubsub => { s with pubsub := h }

/-- Nothing outside is ruled out: the node may be missing, every call may fail. A statement that
throws has no answer, since the exported functions are `noexcept`. -/
def world : World DbStatement DbStatement.Answer GlobalDb := fun s e =>
  match e with
  | .loadRunning => fun a t => a = s.running ∧ t = s
  | .storeRunning running => fun _ t => t = { s with running := running }
  | .load r => fun a t => a = s.handle r ∧ t = s
  | .makeShared r => fun a t => t = s.setHandle (some a) r
  | .assign r handle => fun _ t => t = s.setHandle (some handle) r
  | .reset r => fun _ t => t = s.setHandle none r
  | .getNode | .getPubSub _ | .getGraphsyncNetwork _ | .newGlobalDb | .call _ _ => fun _ t => t = s
  | .spawnIoThread => fun _ t => t = { s with ioThread := true }
  | .joinable => fun a t => a = s.ioThread ∧ t = s
  | .joinIoThread => fun _ t => t = { s with ioThread := false }

def isRunning (s : GlobalDb) : Bool := s.running

def kReputationTopic : Bytes := ofString "gcs-reputation"

/-- One code for every value. -/
def mapGlobalDbError (_value : ℤ) : DbError := .gcsDbError

/-- A call through a member, which has to point to something. -/
def through (r : Resource) (c : ExternalCall) (next : Reply → DbProgram DbOutcome) :
    DbProgram DbOutcome :=
  ask (.load r) fun member =>
    match member with
    | none => done .nullDereference
    | some handle => ask (.call handle c) next

def resetAll (rs : List Resource) (next : DbProgram DbOutcome) : DbProgram DbOutcome :=
  rs.foldr (fun r rest => ask (.reset r) fun _ => rest) next

/-- The resets of the failure exits and of `Shutdown`, in their order. -/
def released : List Resource := [.db, .pubsub, .generator, .graphsyncNetwork, .scheduler, .io]

/-- `GcsGlobalDb::Initialize` with an injected pubsub and network. -/
def initializeWith (pubsub graphsyncNetwork : Option Pointer) : DbProgram DbOutcome :=
  ask .loadRunning fun (running : Bool) =>
    if running then done (.failure .gcsDbError)
    else
      match pubsub, graphsyncNetwork with
      | none, _ => done (.failure .gcsDbError)
      | some _, none => done (.failure .gcsDbError)
      | some pubsub, some graphsyncNetwork =>
          ask (.makeShared .io) fun _ =>
          ask (.makeShared .scheduler) fun _ =>
          ask (.assign .graphsyncNetwork graphsyncNetwork) fun _ =>
          ask (.makeShared .generator) fun _ =>
          ask (.assign .pubsub pubsub) fun _ =>
          ask .newGlobalDb fun dbResult =>
            match dbResult with
            | .error value => resetAll released (done (.failure (mapGlobalDbError value)))
            | .ok db =>
                ask (.assign .db db) fun _ =>
                through .db .start fun _ =>
                through .db (.addListenTopic kReputationTopic) fun _ =>
                through .db (.addBroadcastTopic kReputationTopic) fun broadcastResult =>
                  if broadcastResult = .failed then
                    through .db .shutdownNow fun _ =>
                    resetAll released (done (.failure .gcsDbError))
                  else
                    ask .spawnIoThread fun _ =>
                    ask (.storeRunning true) fun _ =>
                    done (.success .done)

/-- `GcsGlobalDb::Initialize` with what the node of the process has. -/
def initializeFromNode : DbProgram DbOutcome :=
  ask .getNode fun node =>
    match node with
    | none => done (.failure .sdkNotInitialized)
    | some node =>
        ask (.getPubSub node) fun pubsub =>
          match pubsub with
          | none => done (.failure .sdkNotInitialized)
          | some pubsub =>
              ask (.getGraphsyncNetwork node) fun graphsyncNetwork =>
                match graphsyncNetwork with
                | none => done (.failure .sdkNotInitialized)
                | some graphsyncNetwork => initializeWith (some pubsub) (some graphsyncNetwork)

/-- The statements of `Shutdown` from the resets on. -/
def release : DbProgram DbOutcome :=
  resetAll released (ask (.storeRunning false) fun _ => done (.success .done))

def shutdownDb : DbProgram DbOutcome :=
  ask (.load .db) fun db =>
    match db with
    | none => release
    | some db => ask (.call db .shutdownNow) fun _ => release

def joinThread : DbProgram DbOutcome :=
  ask .joinable fun (joinable : Bool) =>
    if joinable then ask .joinIoThread fun _ => shutdownDb else shutdownDb

def shutdown : DbProgram DbOutcome :=
  ask .loadRunning fun (running : Bool) =>
    if running then
      ask (.load .io) fun io =>
        match io with
        | none => joinThread
        | some io => ask (.call io .stop) fun _ => joinThread
    else done (.success .done)

def orGcsDbError (reply : Reply) : DbOutcome :=
  if reply = .failed then .failure .gcsDbError else .success reply

/-- An operation behind the gate: the check of `m_running`, and the call on the database. -/
def throughDb (c : ExternalCall) (result : Reply → DbOutcome) : DbProgram DbOutcome :=
  ask .loadRunning fun (running : Bool) =>
    if running then through .db c fun reply => done (result reply)
    else done (.failure .gcsDbError)

/-- The raw path checks its handle too. -/
def throughPubsub (c : ExternalCall) : DbProgram DbOutcome :=
  ask .loadRunning fun (running : Bool) =>
    if running then
      ask (.load .pubsub) fun pubsub =>
        match pubsub with
        | none => done (.failure .sdkNotInitialized)
        | some _ => through .pubsub c fun reply => done (orGcsDbError reply)
    else done (.failure .gcsDbError)

def addBroadcastTopic (topicName : Bytes) : DbProgram DbOutcome :=
  throughDb (.addBroadcastTopic topicName) orGcsDbError

/-- The database reports nothing here. -/
def addListenTopic (topicName : Bytes) : DbProgram DbOutcome :=
  throughDb (.addListenTopic topicName) fun _ => .success .done

def put (key value : Bytes) (topics : List Bytes) : DbProgram DbOutcome :=
  throughDb (.put key value topics) orGcsDbError

def putLocal (key value id : Bytes) : DbProgram DbOutcome :=
  throughDb (.putLocal key value id) orGcsDbError

def queryKeyValues (keyPrefix : Bytes) : DbProgram DbOutcome :=
  throughDb (.queryKeyValues keyPrefix) orGcsDbError

def registerNewElementCallback (pattern : Bytes) : DbProgram DbOutcome :=
  throughDb (.registerNewElementCallback pattern) orGcsDbError

def get (key : Bytes) : DbProgram DbOutcome := throughDb (.get key) orGcsDbError

def publish (topic data : Bytes) : DbProgram DbOutcome := throughPubsub (.publish topic data)

def subscribe (topic : Bytes) : DbProgram DbOutcome := throughPubsub (.subscribe topic)

inductive Call
  | initializeFromNode
  | initializeWith (pubsub graphsyncNetwork : Option Pointer)
  | shutdown
  | addBroadcastTopic (topicName : Bytes)
  | addListenTopic (topicName : Bytes)
  | put (key value : Bytes) (topics : List Bytes)
  | putLocal (key value id : Bytes)
  | queryKeyValues (keyPrefix : Bytes)
  | registerNewElementCallback (pattern : Bytes)
  | publish (topic data : Bytes)
  | subscribe (topic : Bytes)
  | get (key : Bytes)

def Call.program : Call → DbProgram DbOutcome
  | .initializeFromNode => GlobalDb.initializeFromNode
  | .initializeWith pubsub graphsyncNetwork => GlobalDb.initializeWith pubsub graphsyncNetwork
  | .shutdown => GlobalDb.shutdown
  | .addBroadcastTopic topicName => GlobalDb.addBroadcastTopic topicName
  | .addListenTopic topicName => GlobalDb.addListenTopic topicName
  | .put key value topics => GlobalDb.put key value topics
  | .putLocal key value id => GlobalDb.putLocal key value id
  | .queryKeyValues keyPrefix => GlobalDb.queryKeyValues keyPrefix
  | .registerNewElementCallback pattern => GlobalDb.registerNewElementCallback pattern
  | .publish topic data => GlobalDb.publish topic data
  | .subscribe topic => GlobalDb.subscribe topic
  | .get key => GlobalDb.get key

def Call.isInitialize : Call → Bool
  | .initializeFromNode | .initializeWith _ _ => true
  | _ => false

def Call.isOperation : Call → Bool
  | .initializeFromNode | .initializeWith _ _ | .shutdown => false
  | _ => true

/-- A call runs to its end before the next one. -/
def system : TransitionSystem GlobalDb Call where
  initial s := s = stopped
  step s c t := ∃ tr r, Ends world c.program s tr r t

def AllSet (s : GlobalDb) : Prop := (∀ r, (s.handle r).isSome) ∧ s.ioThread = true

def AllEmpty (s : GlobalDb) : Prop := (∀ r, s.handle r = none) ∧ s.ioThread = false

def Settled (s : GlobalDb) : Prop := s = stopped ∨ s.running = true ∧ s.AllSet

/-- The flag is up only with the handles that the operations use. -/
def Gated (s : GlobalDb) : Prop := s.running = true → s.db.isSome ∧ s.pubsub.isSome

/-- After `m_db.reset()` of a `Shutdown`, and before `m_running.store(false)`: what is left are the
resets of the other members and the store. -/
def Releasing : DbProgram DbOutcome → Prop
  | ask (.reset r) next => r ≠ .db ∧ Releasing (next ())
  | ask (.storeRunning running) _ => running = false
  | _ => False

/-- The gate protects the handles exactly outside that stretch. -/
def GateHolds (p : DbProgram DbOutcome) (s : GlobalDb) : Prop := s.Gated ↔ ¬ Releasing p

section Programs

variable {s : GlobalDb} {p : DbProgram DbOutcome} {J : GlobalDb → Prop}
  {Q : DbOutcome → GlobalDb → Prop}

theorem gateHolds_of_closed (hs : s.running = false) (hp : ¬ Releasing p) : GateHolds p s :=
  iff_of_true (fun h => absurd (hs.symm.trans h) Bool.false_ne_true) hp

theorem gateHolds_of_set (hdb : s.db.isSome) (hpubsub : s.pubsub.isSome) (hp : ¬ Releasing p) :
    GateHolds p s := iff_of_true (fun _ => ⟨hdb, hpubsub⟩) hp

theorem gateHolds_of_released (hrunning : s.running = true) (hdb : s.db = none)
    (hp : Releasing p) : GateHolds p s := by
  refine iff_of_false (fun h => ?_) (not_not_intro hp)
  have hset := (h hrunning).1
  rw [hdb] at hset
  exact Bool.false_ne_true hset

theorem not_releasing_of_asksOnly (h : p.AsksOnly (· ≠ .storeRunning false)) : ¬ Releasing p := by
  induction p with
  | done a => exact id
  | ask e next ih =>
      intro hreleasing
      cases e with
      | reset r => exact ih () (h.2 ()) hreleasing.2
      | storeRunning running => exact h.1 (congrArg _ hreleasing)
      | _ => exact hreleasing

theorem throughout_through {r : Resource} {c : ExternalCall} {next : Reply → DbProgram DbOutcome}
    {handle : Pointer} (hs : J s) (hmember : s.handle r = some handle)
    (hnext : ∀ reply, (next reply).Throughout world (fun _ => J) Q s) :
    (through r c next).Throughout world (fun _ => J) Q s := by
  refine ⟨hs, ?_⟩
  rintro member t ⟨rfl, rfl⟩
  rw [hmember]
  refine ⟨hs, ?_⟩
  rintro reply t rfl
  exact hnext reply

theorem asksOnly_resetAll {P : DbStatement → Prop} {next : DbProgram DbOutcome}
    (hP : ∀ r, P (.reset r)) (hnext : next.AsksOnly P) (rs : List Resource) :
    (resetAll rs next).AsksOnly P := by
  induction rs with
  | nil => exact hnext
  | cons r rs ih => exact ⟨hP r, fun _ => ih⟩

def resetMany (s : GlobalDb) (rs : List Resource) : GlobalDb :=
  rs.foldl (fun s r => s.setHandle none r) s

@[simp] theorem running_setHandle (s : GlobalDb) (h : Option Pointer) (r : Resource) :
    (s.setHandle h r).running = s.running := by cases r <;> rfl

@[simp] theorem ioThread_setHandle (s : GlobalDb) (h : Option Pointer) (r : Resource) :
    (s.setHandle h r).ioThread = s.ioThread := by cases r <;> rfl

theorem resetMany_released (s : GlobalDb) :
    s.resetMany released = { stopped with ioThread := s.ioThread, running := s.running } := rfl

/-- The failure exits, from wherever they are reached with the flag down. -/
theorem throughout_resetAll_done (r : DbOutcome) (rs : List Resource) (hs : s.running = false) :
    (resetAll rs (done r)).Throughout world (fun _ => Gated)
      (fun r' t => r' = r ∧ t = s.resetMany rs) s := by
  have hgated : s.Gated := fun h => absurd (hs.symm.trans h) Bool.false_ne_true
  induction rs generalizing s with
  | nil => exact ⟨hgated, rfl, rfl⟩
  | cons r rs ih =>
      refine ⟨hgated, ?_⟩
      rintro _ t rfl
      have hrunning : (s.setHandle none r).running = false := (running_setHandle s none r).trans hs
      exact ih hrunning fun h => absurd (hrunning.symm.trans h) Bool.false_ne_true

theorem releasing_rest {rs : List Resource} (hrs : .db ∉ rs) :
    Releasing (resetAll rs (ask (.storeRunning false) fun _ => done (.success .done))) := by
  induction rs with
  | nil => exact rfl
  | cons r rs ih =>
      rw [List.mem_cons, not_or] at hrs
      exact ⟨Ne.symm hrs.1, ih hrs.2⟩

/-- The stretch of `Shutdown` between the reset of the database and the store. -/
theorem throughout_release_rest {rs : List Resource} (hrs : .db ∉ rs) (hrunning : s.running = true)
    (hdb : s.db = none) :
    (resetAll rs (ask (.storeRunning false) fun _ => done (.success .done))).Throughout world
      GateHolds (fun r t => r = .success .done ∧ t = { s.resetMany rs with running := false }) s := by
  induction rs generalizing s with
  | nil =>
      refine ⟨gateHolds_of_released hrunning hdb rfl, ?_⟩
      rintro _ t rfl
      exact ⟨gateHolds_of_closed rfl id, rfl, rfl⟩
  | cons r rs ih =>
      have hreleasing := releasing_rest hrs
      rw [List.mem_cons, not_or] at hrs
      refine ⟨gateHolds_of_released hrunning hdb hreleasing, ?_⟩
      rintro _ t rfl
      apply ih hrs.2
      · rw [running_setHandle, hrunning]
      · cases r <;> first | exact hdb | rfl

theorem throughout_release (hrunning : s.running = true) (hthread : s.ioThread = false)
    (hdb : s.db.isSome) (hpubsub : s.pubsub.isSome) :
    release.Throughout world GateHolds (fun r t => r = .success .done ∧ t = stopped) s := by
  refine ⟨gateHolds_of_set hdb hpubsub fun h => h.1 rfl, ?_⟩
  rintro _ t rfl
  have hmem : Resource.db ∉ [.pubsub, .generator, .graphsyncNetwork, .scheduler, .io] := by decide
  have hrest := throughout_release_rest (s := s.setHandle none .db) hmem hrunning rfl
  apply hrest.mono
  rintro r u ⟨rfl, rfl⟩
  have hstopped := resetMany_released s
  rw [hthread] at hstopped
  exact ⟨rfl, congrArg (fun t : GlobalDb => { t with running := false }) hstopped⟩

theorem throughout_initializeWith_stopped (pubsub graphsyncNetwork : Option Pointer) :
    (initializeWith pubsub graphsyncNetwork).Throughout world (fun _ => Gated)
      (fun r t => (∃ e, r = .failure e ∧ t = stopped) ∨
        r = .success .done ∧ t.running = true ∧ t.AllSet) stopped := by
  have hunwind : ∀ (t : GlobalDb) (e : DbError), t.running = false → t.ioThread = false →
      (resetAll released (done (.failure e))).Throughout world (fun _ => Gated)
        (fun r t => (∃ e, r = .failure e ∧ t = stopped) ∨
          r = .success .done ∧ t.running = true ∧ t.AllSet) t := by
    intro t e hrunning hthread
    apply (throughout_resetAll_done (.failure e) released hrunning).mono
    rintro r u ⟨rfl, rfl⟩
    rw [resetMany_released, hrunning, hthread]
    exact .inl ⟨e, rfl, rfl⟩
  refine ⟨nofun, ?_⟩
  rintro running t ⟨rfl, rfl⟩
  cases pubsub with
  | none => exact ⟨nofun, .inl ⟨_, rfl, rfl⟩⟩
  | some pubsub =>
  cases graphsyncNetwork with
  | none => exact ⟨nofun, .inl ⟨_, rfl, rfl⟩⟩
  | some graphsyncNetwork =>
  refine ⟨nofun, ?_⟩
  rintro io t rfl
  refine ⟨nofun, ?_⟩
  rintro scheduler t rfl
  refine ⟨nofun, ?_⟩
  rintro - t rfl
  refine ⟨nofun, ?_⟩
  rintro generator t rfl
  refine ⟨nofun, ?_⟩
  rintro - t rfl
  refine ⟨nofun, ?_⟩
  rintro (value | db) t rfl
  · exact hunwind _ _ rfl rfl
  · refine ⟨nofun, ?_⟩
    rintro - t rfl
    refine throughout_through nofun rfl fun _ => ?_
    refine throughout_through nofun rfl fun _ => ?_
    refine throughout_through nofun rfl fun broadcastResult => ?_
    split_ifs
    · exact throughout_through nofun rfl fun _ => hunwind _ _ rfl rfl
    · refine ⟨nofun, ?_⟩
      rintro - t rfl
      refine ⟨nofun, ?_⟩
      rintro - t rfl
      have hset : ∀ r, ({ ((((((stopped.setHandle (some io) .io).setHandle (some scheduler)
          .scheduler).setHandle (some graphsyncNetwork) .graphsyncNetwork).setHandle
          (some generator) .generator).setHandle (some pubsub) .pubsub).setHandle (some db) .db)
          with ioThread := true, running := true } : GlobalDb).handle r |>.isSome := by
        intro r
        cases r <;> rfl
      exact ⟨fun _ => ⟨rfl, rfl⟩, .inr ⟨rfl, rfl, hset, rfl⟩⟩

theorem throughout_initializeFromNode {I : DbProgram DbOutcome → GlobalDb → Prop}
    (hI : ∀ p : DbProgram DbOutcome, ¬ Releasing p → I p s)
    (hfailure : ∀ e, Q (.failure e) s)
    (hwith : ∀ pubsub graphsyncNetwork,
      (initializeWith pubsub graphsyncNetwork).Throughout world I Q s) :
    initializeFromNode.Throughout world I Q s := by
  refine ⟨hI _ id, ?_⟩
  rintro (_ | node) t rfl
  · exact ⟨hI _ id, hfailure _⟩
  refine ⟨hI _ id, ?_⟩
  rintro (_ | pubsub) t rfl
  · exact ⟨hI _ id, hfailure _⟩
  refine ⟨hI _ id, ?_⟩
  rintro (_ | graphsyncNetwork) t rfl
  · exact ⟨hI _ id, hfailure _⟩
  exact hwith _ _

theorem throughout_initializeWith_running {I : DbProgram DbOutcome → GlobalDb → Prop}
    (hI : ∀ p : DbProgram DbOutcome, ¬ Releasing p → I p s) (hs : s.running = true)
    (pubsub graphsyncNetwork : Option Pointer) :
    (initializeWith pubsub graphsyncNetwork).Throughout world I
      (fun r t => r = .failure .gcsDbError ∧ t = s) s := by
  refine ⟨hI _ id, ?_⟩
  rintro running t ⟨rfl, rfl⟩
  rw [hs]
  exact ⟨hI _ id, rfl, rfl⟩

theorem asksOnly_through {P : DbStatement → Prop} {r : Resource} {c : ExternalCall}
    {next : Reply → DbProgram DbOutcome} (hload : P (.load r)) (hcall : ∀ handle, P (.call handle c))
    (hnext : ∀ reply, (next reply).AsksOnly P) : (through r c next).AsksOnly P := by
  refine ⟨hload, fun member => ?_⟩
  cases member with
  | none => trivial
  | some handle => exact ⟨hcall handle, hnext⟩

theorem asksOnly_initializeWith (pubsub graphsyncNetwork : Option Pointer) :
    (initializeWith pubsub graphsyncNetwork).AsksOnly (· ≠ .storeRunning false) := by
  have hunwind : ∀ e, (resetAll released (done (.failure e))).AsksOnly
      (· ≠ .storeRunning false) := by
    intro e
    apply asksOnly_resetAll
    · exact fun _ => nofun
    · trivial
  refine ⟨nofun, fun (running : Bool) => ?_⟩
  cases running with
  | true => trivial
  | false =>
  cases pubsub with
  | none => trivial
  | some pubsub =>
  cases graphsyncNetwork with
  | none => trivial
  | some graphsyncNetwork =>
  refine ⟨nofun, fun _ => ⟨nofun, fun _ => ⟨nofun, fun _ => ⟨nofun, fun _ => ⟨nofun, fun _ =>
    ⟨nofun, fun dbResult => ?_⟩⟩⟩⟩⟩⟩
  cases dbResult with
  | error value => exact hunwind _
  | ok db =>
      refine ⟨nofun, fun _ => ?_⟩
      refine asksOnly_through nofun nofun fun _ => ?_
      refine asksOnly_through nofun nofun fun _ => ?_
      refine asksOnly_through nofun nofun fun broadcastResult => ?_
      split_ifs
      · exact asksOnly_through nofun nofun fun _ => hunwind _
      · exact ⟨nofun, fun _ => ⟨nofun, fun _ => trivial⟩⟩

theorem throughout_shutdownDb (hrunning : s.running = true) (hthread : s.ioThread = false)
    (hdb : s.db.isSome) (hpubsub : s.pubsub.isSome) :
    shutdownDb.Throughout world GateHolds (fun r t => r = .success .done ∧ t = stopped) s := by
  have hrelease := throughout_release hrunning hthread hdb hpubsub
  refine ⟨gateHolds_of_set hdb hpubsub id, ?_⟩
  rintro (_ | db) t ⟨-, rfl⟩
  · exact hrelease
  · refine ⟨gateHolds_of_set hdb hpubsub id, ?_⟩
    rintro reply t rfl
    exact hrelease

theorem throughout_joinThread (hrunning : s.running = true) (hdb : s.db.isSome)
    (hpubsub : s.pubsub.isSome) :
    joinThread.Throughout world GateHolds (fun r t => r = .success .done ∧ t = stopped) s := by
  refine ⟨gateHolds_of_set hdb hpubsub id, ?_⟩
  rintro joinable t ⟨hjoinable, rfl⟩
  cases joinable with
  | false => exact throughout_shutdownDb hrunning hjoinable.symm hdb hpubsub
  | true =>
      refine ⟨gateHolds_of_set hdb hpubsub id, ?_⟩
      rintro _ t rfl
      exact throughout_shutdownDb hrunning rfl hdb hpubsub

theorem throughout_shutdown_running (hrunning : s.running = true) (hdb : s.db.isSome)
    (hpubsub : s.pubsub.isSome) :
    shutdown.Throughout world GateHolds (fun r t => r = .success .done ∧ t = stopped) s := by
  have hjoin := throughout_joinThread hrunning hdb hpubsub
  refine ⟨gateHolds_of_set hdb hpubsub id, ?_⟩
  rintro running t ⟨rfl, rfl⟩
  rw [hrunning]
  refine ⟨gateHolds_of_set hdb hpubsub id, ?_⟩
  rintro (_ | io) t ⟨-, rfl⟩
  · exact hjoin
  · refine ⟨gateHolds_of_set hdb hpubsub id, ?_⟩
    rintro reply t rfl
    exact hjoin

theorem throughout_shutdown_stopped :
    shutdown.Throughout world GateHolds (fun r t => r = .success .done ∧ t = stopped) stopped := by
  refine ⟨gateHolds_of_closed rfl id, ?_⟩
  rintro running t ⟨rfl, rfl⟩
  exact ⟨gateHolds_of_closed rfl id, rfl, rfl⟩

/-- What an operation does between calls: it leaves the object, it never calls through a null
pointer, and on a stopped object it fails. -/
def OperationSpec (p : DbProgram DbOutcome) : Prop :=
  ∀ s : GlobalDb, s.Settled → p.Throughout world (fun _ t => t = s) (fun r t => t = s ∧
    r ≠ .nullDereference ∧ (s.running = false → r = .failure .gcsDbError)) s

theorem orGcsDbError_ne_nullDereference (reply : Reply) :
    orGcsDbError reply ≠ .nullDereference := by
  rw [orGcsDbError]
  split_ifs <;> nofun

theorem operationSpec_throughDb (c : ExternalCall) {result : Reply → DbOutcome}
    (hresult : ∀ reply, result reply ≠ .nullDereference) : OperationSpec (throughDb c result) := by
  intro s hs
  refine ⟨rfl, ?_⟩
  rintro running t ⟨rfl, rfl⟩
  rcases hs with rfl | ⟨hrunning, hset, -⟩
  · exact ⟨rfl, rfl, nofun, fun _ => rfl⟩
  · obtain ⟨db, hdb⟩ := Option.isSome_iff_exists.1 (hset .db)
    rw [hrunning]
    refine ⟨rfl, ?_⟩
    rintro member u ⟨rfl, rfl⟩
    rw [hdb]
    refine ⟨rfl, ?_⟩
    rintro reply v rfl
    exact ⟨rfl, rfl, hresult reply, nofun⟩

theorem operationSpec_throughPubsub (c : ExternalCall) : OperationSpec (throughPubsub c) := by
  intro s hs
  refine ⟨rfl, ?_⟩
  rintro running t ⟨rfl, rfl⟩
  rcases hs with rfl | ⟨hrunning, hset, -⟩
  · exact ⟨rfl, rfl, nofun, fun _ => rfl⟩
  · obtain ⟨pubsub, hpubsub⟩ := Option.isSome_iff_exists.1 (hset .pubsub)
    rw [hrunning]
    refine ⟨rfl, ?_⟩
    rintro member u ⟨rfl, rfl⟩
    rw [hpubsub]
    refine ⟨rfl, ?_⟩
    rintro member v ⟨rfl, rfl⟩
    rw [hpubsub]
    refine ⟨rfl, ?_⟩
    rintro reply w rfl
    exact ⟨rfl, rfl, orGcsDbError_ne_nullDereference reply, nofun⟩

theorem Call.operationSpec {c : Call} (hc : c.isOperation = true) : OperationSpec c.program := by
  cases c with
  | initializeFromNode => exact absurd hc Bool.false_ne_true
  | initializeWith pubsub graphsyncNetwork => exact absurd hc Bool.false_ne_true
  | shutdown => exact absurd hc Bool.false_ne_true
  | publish topic data => exact operationSpec_throughPubsub _
  | subscribe topic => exact operationSpec_throughPubsub _
  | addListenTopic topicName => exact operationSpec_throughDb _ fun _ => nofun
  | _ => exact operationSpec_throughDb _ orGcsDbError_ne_nullDereference

theorem Settled.gateHolds (hs : s.Settled) (hp : ¬ Releasing p) : GateHolds p s := by
  rcases hs with rfl | ⟨-, hset, -⟩
  · exact gateHolds_of_closed rfl hp
  · exact gateHolds_of_set (hset .db) (hset .pubsub) hp

theorem throughout_initializeWith (hs : s.Settled) (pubsub graphsyncNetwork : Option Pointer) :
    (initializeWith pubsub graphsyncNetwork).Throughout world GateHolds
      (fun r t => t.Settled ∧ ∀ e, r = .failure e → t = s) s := by
  rcases hs with rfl | ⟨hrunning, hset⟩
  · have hgate := (throughout_initializeWith_stopped pubsub graphsyncNetwork).of_asksOnly
      (asksOnly_initializeWith pubsub graphsyncNetwork)
      fun q u hq hu => iff_of_true hu (not_releasing_of_asksOnly hq)
    apply hgate.mono
    rintro r t (⟨e, rfl, rfl⟩ | ⟨rfl, hrunning, hset⟩)
    · exact ⟨.inl rfl, fun _ _ => rfl⟩
    · exact ⟨.inr ⟨hrunning, hset⟩, nofun⟩
  · have hs : s.Settled := .inr ⟨hrunning, hset⟩
    apply (throughout_initializeWith_running (fun p => hs.gateHolds) hrunning
      pubsub graphsyncNetwork).mono
    rintro r t ⟨rfl, rfl⟩
    exact ⟨hs, fun _ _ => rfl⟩

/-- The calls of the lifecycle keep the gate and leave a settled object, and a failed `Initialize`
leaves the one it found. -/
theorem throughout_lifecycle {c : Call} (hc : c.isOperation = false) (hs : s.Settled) :
    c.program.Throughout world GateHolds
      (fun r t => t.Settled ∧ (c.isInitialize = true → ∀ e, r = .failure e → t = s)) s := by
  cases c with
  | initializeFromNode =>
      exact throughout_initializeFromNode (fun _ => hs.gateHolds) (fun _ => ⟨hs, fun _ _ _ => rfl⟩)
        fun pubsub graphsyncNetwork =>
          (throughout_initializeWith hs pubsub graphsyncNetwork).mono fun _ _ h =>
            ⟨h.1, fun _ => h.2⟩
  | initializeWith pubsub graphsyncNetwork =>
      exact (throughout_initializeWith hs pubsub graphsyncNetwork).mono fun _ _ h =>
        ⟨h.1, fun _ => h.2⟩
  | shutdown =>
      have hshutdown : shutdown.Throughout world GateHolds
          (fun r t => r = .success .done ∧ t = stopped) s := by
        rcases hs with rfl | ⟨hrunning, hset, -⟩
        · exact throughout_shutdown_stopped
        · exact throughout_shutdown_running hrunning (hset .db) (hset .pubsub)
      apply hshutdown.mono
      rintro r t ⟨-, rfl⟩
      exact ⟨.inl rfl, nofun⟩
  | _ => exact absurd hc.symm Bool.false_ne_true

theorem Settled.step {c : Call} {t : GlobalDb} (hs : s.Settled) (h : system.step s c t) :
    t.Settled := by
  obtain ⟨tr, r, hends⟩ := h
  cases hc : c.isOperation with
  | false => exact ((throughout_lifecycle hc hs).ends hends).1
  | true => exact ((Call.operationSpec hc s hs).ends hends).1 ▸ hs

theorem settled_of_reachable (h : system.Reachable s) : s.Settled :=
  h.invariant (fun _ hinit => .inl hinit) fun _ _ _ hs hstep => hs.step hstep

theorem Settled.running_iff (hs : s.Settled) :
    (s.running = true ↔ s.AllSet) ∧ (s.running = false ↔ s.AllEmpty) := by
  rcases hs with rfl | ⟨hrunning, hset⟩
  · refine ⟨iff_of_false nofun fun h => Bool.false_ne_true h.2, iff_of_true rfl ⟨?_, rfl⟩⟩
    intro r
    cases r <;> rfl
  · refine ⟨iff_of_true hrunning hset, iff_of_false ?_ ?_⟩
    · exact fun h => Bool.false_ne_true (h.symm.trans hrunning)
    · exact fun h => Bool.false_ne_true (h.2.symm.trans hset.2)

/-- Between calls the flag stands for all the handles and the thread, up or down. An `Initialize`
that fails leaves the object as it is, and so does an operation on a stopped one, with its error. -/
theorem lifecycle_of_reachable (h : system.Reachable s) :
    (s.isRunning = true ↔ s.AllSet) ∧ (s.isRunning = false ↔ s.AllEmpty) ∧
    (∀ c tr e t, Call.isInitialize c = true → Ends world c.program s tr (.failure e) t → t = s) ∧
    ∀ c tr r t, Call.isOperation c = true → s.isRunning = false → Ends world c.program s tr r t →
      r = .failure .gcsDbError ∧ t = s := by
  have hs := settled_of_reachable h
  refine ⟨hs.running_iff.1, hs.running_iff.2, fun c tr e t hc hends => ?_,
    fun c tr r t hc hstopped hends => ?_⟩
  · have hlifecycle : c.isOperation = false := by cases c <;> first | rfl | exact absurd hc nofun
    exact ((throughout_lifecycle hlifecycle hs).ends hends).2 hc e rfl
  · obtain ⟨hsame, -, hfails⟩ := (Call.operationSpec hc s hs).ends hends
    exact ⟨hfails hstopped, hsame⟩

end Programs

def firstRunning : GlobalDb := ⟨some 3, some 4, some 2, some 5, some 6, some 1, true, true⟩

theorem ends_initializeWith_firstRunning : ∃ tr, Ends world
    (initializeWith (some 1) (some 2)) stopped tr (.success .done) firstRunning := by
  have hstore : Ends world (ask (.storeRunning true) fun _ => done (DbOutcome.success .done))
      { firstRunning with running := false } [⟨.storeRunning true, ()⟩] (.success .done)
      firstRunning :=
    ends_ask_iff.2 ⟨(), firstRunning, [], rfl, ends_done_iff.2 ⟨rfl, rfl, rfl⟩, rfl⟩
  exact ⟨_, .cons false ⟨rfl, rfl⟩ <| .cons (3 : ℕ) rfl <| .cons (4 : ℕ) rfl <| .cons () rfl <|
    .cons (5 : ℕ) rfl <| .cons () rfl <| .cons (.ok 6 : Except ℤ Pointer) rfl <| .cons () rfl <|
    .cons (some 6 : Option Pointer) ⟨rfl, rfl⟩ <| .cons Reply.done rfl <|
    .cons (some 6 : Option Pointer) ⟨rfl, rfl⟩ <| .cons Reply.done rfl <|
    .cons (some 6 : Option Pointer) ⟨rfl, rfl⟩ <| .cons Reply.done rfl <|
    .cons () rfl hstore⟩

theorem lifecycle_firstRunning : system.Reachable firstRunning ∧
    (firstRunning.isRunning = true ↔ firstRunning.AllSet) := by
  obtain ⟨tr, hends⟩ := ends_initializeWith_firstRunning
  have hreachable : system.Reachable firstRunning :=
    (TransitionSystem.Reachable.initial rfl).step (l := .initializeWith (some 1) (some 2))
      ⟨tr, _, hends⟩
  exact ⟨hreachable, (lifecycle_of_reachable hreachable).1⟩

end GlobalDb

end GcsChat
