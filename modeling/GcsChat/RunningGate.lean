import GcsChat.GlobalDb

/-!
# The running gate during a shutdown

One thread starts and shuts the database component down, statement by statement, and between two of
its statements any other thread may start an operation, which reads `m_running` first. `Initialize`
raises the flag after its last handle is set. `Shutdown` takes it down after its last handle is
released, so an operation that starts in between is let through to a null pointer.
-/

namespace GcsChat

open ByteString Interactive

/-- The object, and what is left of the call of the owning thread. -/
structure DbThreads where
  object : GlobalDb
  owner : Option (DbProgram DbOutcome)

inductive DbThreadsStep
  | begins (c : GlobalDb.Call)
  | statement
  | returns
  | operation (c : GlobalDb.Call) (running : Bool)

namespace DbThreads

/-- The owning thread makes the calls of the lifecycle one after the other. An operation of another
thread starts with what it reads from the flag. -/
def system : TransitionSystem DbThreads DbThreadsStep where
  initial s := s = ⟨GlobalDb.stopped, none⟩
  step s l t := match l with
    | .begins c => s.owner = none ∧ c.isOperation = false ∧ t = ⟨s.object, some c.program⟩
    | .statement => ∃ e next a u, s.owner = some (ask e next) ∧ GlobalDb.world s.object e a u ∧
        t = ⟨u, some (next a)⟩
    | .returns => ∃ r, s.owner = some (done r) ∧ t = ⟨s.object, none⟩
    | .operation c running => c.isOperation = true ∧
        (∃ next, c.program = ask .loadRunning next ∧
          GlobalDb.world s.object .loadRunning running t.object) ∧ t.owner = s.owner

/-- The owning thread is between the reset of the database and the store of the flag. -/
def Releasing (s : DbThreads) : Prop := ∃ p, s.owner = some p ∧ GlobalDb.Releasing p

/-- Between calls the object is settled, and within one the gate holds throughout. -/
def Inv (s : DbThreads) : Prop :=
  match s.owner with
  | none => s.object.Settled
  | some p => p.Throughout GlobalDb.world GlobalDb.GateHolds (fun _ t => t.Settled) s.object

variable {s t : DbThreads}

theorem Inv.step (h : s.Inv) {l : DbThreadsStep} (hstep : system.step s l t) : t.Inv := by
  obtain ⟨object, owner⟩ := s
  cases l with
  | begins c =>
      obtain ⟨rfl, hc, rfl⟩ := hstep
      exact (GlobalDb.throughout_lifecycle hc h).mono fun _ _ hpost => hpost.1
  | statement =>
      obtain ⟨e, next, a, u, rfl, hworld, rfl⟩ := hstep
      exact Throughout.next h hworld
  | returns =>
      obtain ⟨r, rfl, rfl⟩ := hstep
      exact h.2
  | operation c running =>
      obtain ⟨-, ⟨next, -, -, hobject⟩, howner⟩ := hstep
      obtain ⟨object', owner'⟩ := t
      obtain rfl : object' = object := hobject
      obtain rfl : owner' = owner := howner
      exact h

theorem inv_of_reachable (h : system.Reachable s) : s.Inv := by
  apply h.invariant
  · rintro s rfl
    exact .inl rfl
  · exact fun _ _ _ hs hstep => hs.step hstep

theorem gated_iff (h : s.Inv) : s.object.Gated ↔ ¬ s.Releasing := by
  obtain ⟨object, owner⟩ := s
  cases owner with
  | none =>
      have hgate : GlobalDb.GateHolds (done .nullDereference) object :=
        GlobalDb.Settled.gateHolds h id
      exact hgate.trans (iff_of_true id fun ⟨_, hp, _⟩ => Option.some_ne_none _ hp.symm)
  | some p =>
      refine (Throughout.here h).trans (not_congr ⟨fun hp => ⟨p, rfl, hp⟩, ?_⟩)
      rintro ⟨q, hq, hreleasing⟩
      exact Option.some.inj hq ▸ hreleasing

theorem program_eq_ask_loadRunning {c : GlobalDb.Call} (hc : c.isOperation = true) :
    ∃ next, c.program = ask .loadRunning next := by
  cases c with
  | initializeFromNode => exact absurd hc Bool.false_ne_true
  | initializeWith pubsub graphsyncNetwork => exact absurd hc Bool.false_ne_true
  | shutdown => exact absurd hc Bool.false_ne_true
  | _ => exact ⟨_, rfl⟩

theorem operation_step_iff {c : GlobalDb.Call} (hc : c.isOperation = true) {running : Bool} :
    system.step s (.operation c running) t ↔ running = s.object.running ∧ t = s := by
  constructor
  · rintro ⟨-, ⟨-, -, hrunning, hobject⟩, howner⟩
    obtain ⟨object, owner⟩ := t
    obtain rfl : object = s.object := hobject
    obtain rfl : owner = s.owner := howner
    exact ⟨hrunning, rfl⟩
  · rintro ⟨rfl, rfl⟩
    obtain ⟨next, hnext⟩ := program_eq_ask_loadRunning hc
    exact ⟨hc, ⟨next, hnext, rfl, rfl⟩, rfl⟩

/-- In every state that the threads reach, an operation of any kind that reads the flag as raised
finds the handles set, exactly when no `Shutdown` is in its releasing stretch. -/
theorem operation_handles_iff (h : system.Reachable s) {c : GlobalDb.Call}
    (hc : c.isOperation = true) :
    (∀ t, system.step s (.operation c true) t →
      s.object.db.isSome ∧ s.object.pubsub.isSome) ↔ ¬ s.Releasing := by
  rw [← gated_iff (inv_of_reachable h)]
  constructor
  · intro hall hrunning
    exact hall s ((operation_step_iff hc).2 ⟨hrunning.symm, rfl⟩)
  · intro hgated t hstep
    exact hgated ((operation_step_iff hc).1 hstep).1.symm

theorem reachable_of_steps {p q : DbProgram DbOutcome} {u v : GlobalDb}
    {tr : Trace DbStatement DbStatement.Answer} (h : system.Reachable ⟨u, some p⟩)
    (hsteps : Steps GlobalDb.world p u tr q v) : system.Reachable ⟨v, some q⟩ := by
  induction hsteps with
  | nil => exact h
  | cons a ha _ ih => exact ih (h.step (l := .statement) ⟨_, _, a, _, rfl, ha, rfl⟩)

theorem reachable_firstRunning : system.Reachable ⟨GlobalDb.firstRunning, none⟩ := by
  obtain ⟨tr, hends⟩ := GlobalDb.ends_initializeWith_firstRunning
  have hbegun : system.Reachable ⟨GlobalDb.stopped,
      some (GlobalDb.initializeWith (some 1) (some 2))⟩ :=
    (TransitionSystem.Reachable.initial rfl).step
      (l := .begins (.initializeWith (some 1) (some 2))) ⟨rfl, rfl, rfl⟩
  exact (reachable_of_steps hbegun hends).step (l := .returns) ⟨_, rfl, rfl⟩

/-- What is left of a `Shutdown` when the database is gone. -/
def databaseGone : DbThreads where
  object := { GlobalDb.firstRunning with db := none, ioThread := false }
  owner := some (GlobalDb.resetAll [.pubsub, .generator, .graphsyncNetwork, .scheduler, .io]
    (ask (.storeRunning false) fun _ => done (.success .done)))

theorem reachable_databaseGone : system.Reachable databaseGone := by
  have hbegun : system.Reachable ⟨GlobalDb.firstRunning, some GlobalDb.shutdown⟩ :=
    reachable_firstRunning.step (l := .begins .shutdown) ⟨rfl, rfl, rfl⟩
  apply reachable_of_steps hbegun
  exact .cons true ⟨rfl, rfl⟩ <| .cons (some 3 : Option Pointer) ⟨rfl, rfl⟩ <|
    .cons Reply.done rfl <| .cons true ⟨rfl, rfl⟩ <| .cons () rfl <|
    .cons (some 6 : Option Pointer) ⟨rfl, rfl⟩ <| .cons Reply.done rfl <| .cons () rfl <| .nil _ _

theorem operation_handles_firstRunning :
    (∀ t, system.step ⟨GlobalDb.firstRunning, none⟩ (.operation (.get []) true) t →
      GlobalDb.firstRunning.db.isSome ∧ GlobalDb.firstRunning.pubsub.isSome) ↔
        ¬ Releasing ⟨GlobalDb.firstRunning, none⟩ :=
  operation_handles_iff reachable_firstRunning rfl

/-- A `Get` that starts after `m_db.reset()` reads the flag as raised, and the pointer is null. -/
theorem get_let_through_to_null : system.Reachable databaseGone ∧
    system.step databaseGone (.operation (.get (ofString "key")) true) databaseGone ∧
      databaseGone.object.db = none :=
  ⟨reachable_databaseGone, (operation_step_iff rfl).2 ⟨rfl, rfl⟩, rfl⟩

end DbThreads

end GcsChat
