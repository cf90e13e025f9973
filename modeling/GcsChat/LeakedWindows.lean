import GcsChat.DrainSafety
import GcsChat.FfiRuns

/-!
# Windows that an exception leaves

On some keys `RoomTopicFromKey` throws, between the two sections of a heal callback, and the window
that the exception leaves is counted for good. So `g_inFlight` is the number of windows as long as no
such key gets that far; after that no shutdown evicts the session any more.
-/

namespace GcsChat

open ByteString Interactive TransitionSystem

def FfiCall.Throws : FfiCall → Prop
  | heal _ key _ => roomTopicFromKey key = none
  | _ => False

/-- A callback whose key throws finds no session whenever it takes the mutex. -/
def turnedAway (throws : Prop) : Discipline (Effect Globals) Effect.Answer Unit where
  allows _ _ := True
  possible _ e a := match e, a with
    | .lock, g => throws → g.session = none
    | _, _ => True
  after _ _ _ := ()

def ThrowsNothing (throws : Prop) (p : Program Globals FfiResult) : Prop :=
  p.Follows (turnedAway throws) () fun result _ => result.leaks = 0

section Programs

variable {C : Core} {throws : Prop} {p : Program Globals FfiResult}

theorem keeps_of_returns (h : p.Returns fun result => result.leaks = 0) : ThrowsNothing throws p := by
  induction p with
  | done result => exact h
  | ask e next ih => exact ⟨trivial, fun a _ => ih a (h a)⟩

theorem returns_receiveCallback {funnel : Program Globals (Option Unit)}
    (h : funnel.Returns fun returned => returned.isSome) :
    (Core.receiveCallback funnel).Returns fun returned => returned.isSome := by
  intro disabled
  cases disabled with
  | true => exact rfl
  | false =>
      intro g
      change Returns _ (if g.session = none then _ else _)
      split
      · exact fun _ => rfl
      · refine fun _ => h.bind fun returned hreturned => ?_
        rw [if_pos hreturned]
        exact fun _ _ => rfl

theorem leaks_callbackResult {returned : Option Unit} (h : returned.isSome) :
    (Core.callbackResult returned).leaks = 0 := by
  cases returned with
  | none => cases h
  | some _ => rfl

theorem returns_onMessageArrivedProgram {key : Bytes} (hkey : roomTopicFromKey key ≠ none)
    (value : Bytes) : (C.messaging.onMessageArrivedProgram key value :
      Program Globals (Option Unit)).Returns fun returned => returned.isSome := by
  obtain ⟨topic, htopic⟩ := Option.ne_none_iff_exists'.1 hkey
  unfold Messaging.onMessageArrivedProgram
  rw [htopic]
  change Returns _ (if topic = [] then _ else _)
  split
  · exact rfl
  · exact (returns_of_forall (fun _ => trivial) _).bind (P := fun _ => True) fun _ _ => rfl

/-- A callback whose key throws takes the mutex once before it goes into its window. -/
theorem keeps_callback (call : FfiCall) : ThrowsNothing call.Throws (C.callback call) := by
  cases call with
  | live n topic data =>
      refine keeps_of_returns ((returns_receiveCallback ?_).bind fun _ => leaks_callbackResult)
      exact (returns_of_forall (fun _ => trivial) _).bind (P := fun _ => True) fun _ _ => rfl
  | heal n key value =>
      by_cases hkey : roomTopicFromKey key = none
      · refine ⟨trivial, fun disabled _ => ?_⟩
        cases disabled with
        | true => exact rfl
        | false =>
            refine ⟨trivial, fun g hg => ?_⟩
            have hnone : g.session = none := hg hkey
            change Follows _ ((if g.session = none then _ else _) >>= _) _ _
            rw [if_pos hnone]
            exact ⟨trivial, fun _ _ => rfl⟩
      · exact keeps_of_returns ((returns_receiveCallback (returns_onMessageArrivedProgram hkey value)).bind
          fun _ => leaks_callbackResult)
  | _ => exact rfl

theorem returns_giveBack (g : Globals) {result : FfiResult} (h : result.leaks = 0) :
    (giveBack g result).Returns fun result => result.leaks = 0 := fun _ => h

theorem keeps_locked (g : Globals) (tearingDown : Bool) (call : FfiCall) :
    ThrowsNothing throws (C.locked g tearingDown call) := by
  refine keeps_of_returns ?_
  cases call with
  | init configAccepted =>
      rw [Core.locked]
      split
      · exact returns_giveBack g rfl
      · exact (returns_of_forall (fun _ => trivial) _).bind (P := fun _ => True) fun result _ =>
          returns_giveBack result.1 rfl
  | publish handle topic payload =>
      exact (returns_of_forall (fun _ => trivial) _).bind (P := fun _ => True) fun result _ =>
        returns_giveBack result.1 rfl
  | _ => exact returns_giveBack g rfl

end Programs

namespace FfiProcess

variable {ι : Type} {C : Core} {s s' : FfiProcess ι} {l : FfiStep ι}

/-- No heal callback finds a session when its key makes `RoomTopicFromKey` throw. -/
def KeepsCount (s : FfiProcess ι) : FfiStep ι → Prop
  | .lock i => ∀ call program pointer, s.threads i = .running call program pointer →
      call.Throws → s.globals.session = none
  | _ => True

variable [DecidableEq ι]

theorem leaked_enter (s : FfiProcess ι) (i : ι) (call : FfiCall) :
    (s.enter C i call).leaked = s.leaked := by
  have hevict : ∀ handle, (s.evict i handle).leaked = s.leaked := by
    intro handle
    unfold evict
    split <;> rfl
  cases call with
  | shutdown handle =>
      cases handle with
      | none => rfl
      | some handle =>
          rw [enter]
          split_ifs
          · exact hevict handle
          · rfl
          · rfl
  | subscribe handle topic dartPort =>
      cases handle with
      | none => rfl
      | some handle =>
          cases topic with
          | none => rfl
          | some topic =>
              rw [enter]
              split_ifs <;> rfl
  | _ => rfl

theorem leaked_step (hstep : (ffiSystem C ι).step s l s') : s'.leaked = s.leaked ∨
    ∃ i call result pointer, s.threads i = .running call (done result) pointer ∧
      s'.leaked = s.leaked + result.leaks := by
  cases l with
  | call i call =>
      obtain ⟨-, hcall⟩ := hstep
      cases call with
      | live n topic data =>
          obtain ⟨-, rfl⟩ := hcall
          exact .inl rfl
      | heal n key value =>
          obtain ⟨-, -, rfl⟩ := hcall
          exact .inl rfl
      | _ =>
          obtain rfl := hcall
          exact .inl rfl
  | enter i =>
      obtain ⟨call, -, -, rfl⟩ := hstep
      exact .inl (leaked_enter s i call)
  | subscribed i running =>
      obtain ⟨handle, topic, dartPort, -, rfl⟩ := hstep
      cases running <;> exact .inl rfl
  | lock i =>
      obtain ⟨call, next, pointer, -, -, rfl⟩ := hstep
      exact .inl rfl
  | unlock i =>
      obtain ⟨call, g, next, pointer, pointer', -, -, -, rfl⟩ := hstep
      exact .inl (release_leaked s g)
  | answer i e a =>
      obtain ⟨call, next, pointer, -, -, rfl⟩ := hstep
      exact .inl (alike_answered pointer e a).leaked
  | finish i =>
      obtain ⟨call, result, pointer, hthread, rfl⟩ := hstep
      exact .inr ⟨i, call, result, pointer, hthread, rfl⟩
  | drained i =>
      obtain ⟨handle, -, -, -, rfl⟩ := hstep
      refine .inl ?_
      unfold evict
      split <;> rfl
  | teardown i =>
      obtain ⟨handle, work, -, -, rfl⟩ := hstep
      exact .inl (alike_destroyed work).leaked
  | take n =>
      obtain ⟨item, rest, -, -, -, rfl⟩ := hstep
      exact .inl rfl
  | handOver n =>
      obtain ⟨item, -, rfl⟩ := hstep
      exact .inl rfl
  | workerReturn n =>
      obtain ⟨-, -, -, -, rfl⟩ := hstep
      exact .inl rfl

theorem leads_leaked {i : ι} {n : ℕ} {key : Bytes} (value : Bytes)
    (hkey : roomTopicFromKey key = none)
    (hidle : s.threads i = .idle) (hbridge : n ∈ s.bridges) (hobjects : (s.objects n).shutDown = false)
    (hfree : s.owner = none) (hgate : s.receivingDisabled = false) (hup : s.globals.session ≠ none) :
    Leads C s { s with
      globals := { s.globals with inFlight := s.globals.inFlight + 1 }
      leaked := s.leaked + 1 } := by
  let call := FfiCall.heal n key value
  let funnel : Program Globals (Option Unit) := C.messaging.onMessageArrivedProgram key value
  let held : FfiProcess ι := { s with owner := some i }
  let g : Globals := { s.globals with inFlight := s.globals.inFlight + 1 }
  let opened : FfiProcess ι := { s with globals := g, owner := none }
  have hgated : Leads C s (s.set i (.running call (ask .lock (entered funnel)) none)) :=
    leads_gated rfl ⟨hidle, hbridge, hobjects, rfl⟩ hgate trivial fun _ => trivial
  have hthrows : entered funnel s.globals = ask (.unlock g) fun _ => done .threw := by
    have hfunnel : funnel = done none := by
      change Messaging.onMessageArrivedProgram _ key value = _
      rw [Messaging.onMessageArrivedProgram, hkey]
      rfl
    rw [hfunnel, entered, if_neg hup]
    rfl
  have hlock : Leads C (s.set i (.running call (ask .lock (entered funnel)) none))
      (held.set i (.running call (ask (.unlock g) fun _ => done .threw) none)) := by
    refine Leads.step (l := .lock i) ⟨call, _, none, set_threads_self _ _ _, hfree, ?_⟩
    rw [← hthrows]
    exact (set_set (s := held) _ _).symm
  have hunlock : Leads C (held.set i (.running call (ask (.unlock g) fun _ => done .threw) none))
      (opened.set i (.running call (done .threw) (some s.built))) := by
    let inside := held.set i (.running call (ask (.unlock g) fun _ => done .threw) none)
    have hreleased : inside.release g = ({ held with globals := g, owner := none } : FfiProcess ι).set i
        (.running call (ask (.unlock g) fun _ => done .threw) none) := release_of_up inside g hup
    have hthrew : Repointed inside g none (done .threw) (some (inside.release g).built) := .threw
    refine Leads.step (l := .unlock i) ⟨call, g, _, none, some s.built, set_threads_self _ _ _, rfl,
      ?_, ?_⟩
    · rwa [hreleased] at hthrew
    · rw [hreleased]
      exact (set_set (s := opened) _ _).symm
  have hfinish : Leads C (opened.set i (.running call (done .threw) (some s.built)))
      { s with globals := g, leaked := s.leaked + 1 } := by
    refine Leads.step (l := .finish i) ⟨call, .threw, some s.built, set_threads_self _ _ _, ?_⟩
    refine Eq.trans ?_ (set_set (s := { opened with leaked := s.leaked + 1 }) _ _).symm
    refine Eq.trans ?_ (set_eq_self (s := { opened with leaked := s.leaked + 1 }) hidle).symm
    obtain ⟨_, _, _, _, _, _, owner, _, _, _, _, _, _⟩ := s
    obtain rfl : owner = none := hfree
    rfl
  exact hgated.trans (hlock.trans (hunlock.trans hfinish))

/-- A shutdown that waits goes on waiting once a window has been leaked. -/
theorem draining_step {i : ι} {handle : Handle} (h : (ffiSystem C ι).Reachable s)
    (hleaked : s.leaked ≠ 0) (hthread : s.threads i = .draining handle)
    (hstep : (ffiSystem C ι).step s l s') : s'.leaked ≠ 0 ∧ s'.threads i = .draining handle := by
  constructor
  · rcases leaked_step hstep with hsame | ⟨j, call, result, pointer, -, hmore⟩
    · rwa [hsame]
    · rw [hmore]
      exact Nat.ne_of_gt (Nat.add_pos_left (Nat.pos_of_ne_zero hleaked) _)
  · obtain ⟨⟨windows, -, hcounted⟩, -⟩ := windows_up h
    have hcount : s.globals.inFlight ≠ 0 := by
      rw [hcounted]
      exact Nat.ne_of_gt (Nat.add_pos_right _ (Nat.pos_of_ne_zero hleaked))
    rcases ffiSystem_threads hstep i with hsame | hchanged
    · rwa [hsame]
    · generalize s.threads i = t at hchanged hthread
      generalize s'.threads i = t' at hchanged ⊢
      cases hchanged with
      | evicts _ _ hzero => exact absurd hzero hcount
      | _ => cases hthread

theorem draining_of_leaked {i : ι} {handle : Handle} {ls : List (FfiStep ι)}
    (h : (ffiSystem C ι).Reachable s) (hleaked : s.leaked ≠ 0)
    (hthread : s.threads i = .draining handle) (hrun : (ffiSystem C ι).Run s ls s') :
    s'.leaked ≠ 0 ∧ s'.threads i = .draining handle := by
  induction hrun with
  | nil => exact ⟨hleaked, hthread⟩
  | snoc hbefore hstep ih =>
      exact draining_step (h.run hbefore) ih.1 ih.2 hstep

/-- No window has been leaked, and none of the running calls is going to leak one. -/
structure Kept (s : FfiProcess ι) : Prop where
  leaked : s.leaked = 0
  keeps : ∀ i call program pointer, s.threads i = .running call program pointer →
    ThrowsNothing call.Throws program

theorem Kept.step (h : s.Kept) (hstep : (ffiSystem C ι).step s l s') (hcount : s.KeepsCount l) :
    s'.Kept := by
  refine ⟨?_, fun i call program pointer hthread => ?_⟩
  · rcases leaked_step hstep with hsame | ⟨i, call, result, pointer, hthread, hleaked⟩
    · rw [hsame]
      exact h.leaked
    · have hleaks : result.leaks = 0 := h.keeps i call _ pointer hthread
      rw [hleaked, h.leaked, hleaks]
  · have hwas := h.keeps i
    have hchanged := ffiSystem_threads hstep i
    rw [hthread] at hchanged
    generalize hbefore : s.threads i = t at hchanged hwas
    rcases hchanged with rfl | hchanged
    · exact hwas call program pointer rfl
    · cases hchanged with
      | callback => exact keeps_callback call
      | locked _ => exact keeps_locked _ _ call
      | greets => exact keeps_of_returns fun _ _ _ => returns_giveBack _ rfl
      | notRunning => exact keeps_of_returns (returns_giveBack _ rfl)
      | lock _ => exact (hwas call _ _ rfl).2 _ (hcount call _ _ hbefore)
      | unlock _ _ => exact (hwas call _ _ rfl).2 () trivial
      | @answer _ e a next _ ha =>
          refine (hwas call _ _ rfl).2 a ?_
          cases e <;> first | exact trivial | exact ha.elim

theorem Kept.reachable (h : ((ffiSystem C ι).restrict KeepsCount).Reachable s) : s.Kept := by
  refine h.invariant (I := fun s => s.Kept) (fun s₀ h₀ => ?_) fun _ _ _ hu ⟨hstep, hcount⟩ =>
    hu.step hstep hcount
  obtain ⟨nodeUp, rfl⟩ := h₀
  exact ⟨rfl, fun _ _ _ _ => nofun⟩

end FfiProcess

/-- In a run in which no heal callback finds a session when its key makes `RoomTopicFromKey` throw,
`g_inFlight` is the number of threads in a window in every state; everything that is asked outside the
mutex through a raw pointer is asked in a window, and the session that a window points to is up with
all its objects, so a call that takes the mutex again finds it there. -/
theorem inFlight_windows_up {C : Core} {ι : Type} [DecidableEq ι] {s : FfiProcess ι}
    (h : ((ffiSystem C ι).restrict FfiProcess.KeepsCount).Reachable s) :
    (∃ windows : Finset ι, (∀ i, i ∈ windows ↔ (s.threads i).InWindow) ∧
      s.globals.inFlight = windows.card) ∧
    (∀ i call e next pointer, s.threads i = .running call (ask e next) pointer →
      s.owner ≠ some i → e.Unlocked → (s.threads i).InWindow) ∧
    ∀ i n, (s.threads i).pointer = some n →
      ∃ address, s.globals.session = some address ∧ (s.objects n).Up address := by
  obtain ⟨⟨windows, hmem, hcard⟩, hwindows, hup⟩ := windows_up h.of_restrict
  rw [(FfiProcess.Kept.reachable h).leaked] at hcard
  exact ⟨⟨windows, hmem, hcard⟩, hwindows, hup⟩

/-- A key on which `RoomTopicFromKey` throws. -/
def throwingKey : Bytes := ofString "/gcs/messages/v"

theorem roomTopicFromKey_throwingKey : roomTopicFromKey throwingKey = none := by decide

/-- Nobody is in a call, and one window of the first session has been leaked. -/
def leakedWindow : FfiProcess ℕ :=
  { FfiProcess.firstSession ℕ with
    globals := { FfiProcess.startedGlobals 1 with inFlight := 1 }
    leaked := 1 }

/-- A heal callback for a key that throws is all that it takes. -/
theorem inFlight_leakedWindow :
    (ffiSystem (protoCore (Messaging.plaintext [])) ℕ).Reachable leakedWindow ∧
    ¬ ∃ windows : Finset ℕ, (∀ i, i ∈ windows ↔ (leakedWindow.threads i).InWindow) ∧
      leakedWindow.globals.inFlight = windows.card := by
  constructor
  · have hleads : FfiProcess.Leads (protoCore (Messaging.plaintext []))
        (FfiProcess.firstSession ℕ) leakedWindow :=
      FfiProcess.leads_leaked (i := 1) (n := 1) [] roomTopicFromKey_throwingKey rfl
        List.mem_cons_self rfl rfl rfl (Option.some_ne_none 1)
    exact hleads.reachable (FfiProcess.reachable_firstSession _ ℕ)
  · rintro ⟨windows, hmem, hcard⟩
    have hnone : windows = ∅ := Finset.eq_empty_of_forall_notMem fun i hi =>
      (hmem i).1 hi rfl
    rw [hnone] at hcard
    exact absurd hcard (by decide)

namespace FfiProcess

/-- Thread 3 has passed the gate in a heal callback whose key throws when thread 2 evicts the session. -/
def gatedEvicted (C : Core) : FfiProcess ℕ :=
  ((firstSession ℕ).set 3 (.running (.heal 1 throwingKey [])
    (ask .lock (entered (C.messaging.onMessageArrivedProgram throwingKey []))) none)).evict 2 ⟨1, 1⟩

def turnedAwayTorn (C : Core) : FfiProcess ℕ := ((gatedEvicted C).set 3 .idle).torn 2 1

def secondWindow (C : Core) : FfiProcess ℕ :=
  let second := (turnedAwayTorn C).started 2
  ({ second with globals := { startedGlobals 2 with inFlight := 1 } } : FfiProcess ℕ).set 1
    (.running (idleHeal 2) (closing .void) (some 2))

theorem keepsCount_of_not_lock {s : FfiProcess ℕ} {l : FfiStep ℕ} (h : ∀ j, l ≠ .lock j) :
    s.KeepsCount l := by
  cases l with
  | lock j => exact absurd rfl (h j)
  | _ => trivial

theorem allowsCall_keepsCount {i n : ℕ} {call : FfiCall} (h : ¬ call.Throws) :
    AllowsCall KeepsCount i call n := by
  refine ⟨fun _ => trivial, fun _ _ _ => trivial,
    fun u next pointer hthread _ call program pointer' hthread' hthrows => ?_, fun u l hl =>
      keepsCount_of_not_lock fun j hj => ?_⟩
  · cases hthread.symm.trans hthread'
    exact absurd hthrows h
  · subst hj
    exact hl

theorem keepsCount_of_initAlone {s u : FfiProcess ℕ} {i : ℕ} {l : FfiStep ℕ}
    (h : InitAlone s i u l) (hidle : ∀ j, s.threads j = .idle) : u.KeepsCount l := by
  cases l with
  | lock j =>
      intro call program pointer hthread hthrows
      by_cases hj : j = i
      · subst hj
        rcases h.self with hself | hself | ⟨_, hself⟩ <;> cases hself.symm.trans hthread
        exact hthrows.elim
      · cases (hidle j).symm.trans ((h.others j hj).symm.trans hthread)
  | _ => trivial

theorem gatedEvicted_threads (C : Core) {j : ℕ} (hj : j ≠ 2) :
    ((gatedEvicted C).set 3 .idle).threads j = .idle := by
  by_cases h3 : j = 3
  · subst h3
    rfl
  · refine (set_threads_of_ne _ _ h3).trans ?_
    exact (evict_threads_of_ne _ hj).trans (set_threads_of_ne _ _ h3)

theorem turnedAwayTorn_threads (C : Core) (j : ℕ) : (turnedAwayTorn C).threads j = .idle := by
  by_cases hj : j = 2
  · subst hj
    exact set_threads_self _ _ _
  · exact (set_threads_of_ne _ _ hj).trans (gatedEvicted_threads C hj)

theorem reachable_turnedAwayTorn (C : Core) :
    ((ffiSystem C ℕ).restrict KeepsCount).Reachable (turnedAwayTorn C) := by
  let call := FfiCall.heal 1 throwingKey []
  let funnel : Program Globals (Option Unit) := C.messaging.onMessageArrivedProgram throwingKey []
  let s := gatedEvicted C
  let held : FfiProcess ℕ := { s with owner := some 3 }
  have hshutdown : AllowsCall KeepsCount 2 (.shutdown (some ⟨1, 1⟩)) 1 :=
    allowsCall_keepsCount fun hthrows => hthrows
  have hgated : LeadsIn C KeepsCount (firstSession ℕ)
      ((firstSession ℕ).set 3 (.running call (ask .lock (entered funnel)) none)) :=
    leads_gated rfl ⟨rfl, List.mem_cons_self, rfl, rfl⟩ rfl trivial fun _ => trivial
  have hevict : LeadsIn C KeepsCount
      ((firstSession ℕ).set 3 (.running call (ask .lock (entered funnel)) none)) s :=
    leads_shutdown rfl rfl rfl rfl hshutdown
  have hlock : LeadsIn C KeepsCount s
      (held.set 3 (.running call (ask (.unlock s.globals) fun _ => done .void) none)) := by
    refine LeadsIn.step (l := .lock 3) ⟨call, entered funnel, none, rfl, rfl, rfl⟩ ?_
    exact fun _ _ _ _ _ => rfl
  have hunlock : LeadsIn C KeepsCount
      (held.set 3 (.running call (ask (.unlock s.globals) fun _ => done .void) none))
      (s.set 3 (.running call (done .void) none)) :=
    LeadsIn.step (l := .unlock 3) ⟨call, s.globals, _, none, none, set_threads_self _ _ _, rfl,
      .ended rfl, (set_set (s := s) _ _).symm⟩ trivial
  have hfinish : LeadsIn C KeepsCount (s.set 3 (.running call (done .void) none)) (s.set 3 .idle) :=
    LeadsIn.step (step_finish (s := s) call rfl none) trivial
  have htorn : LeadsIn C KeepsCount (s.set 3 .idle) (turnedAwayTorn C) := by
    refine leads_torn rfl rfl rfl rfl rfl (fun j key value program pointer hj => ?_)
      fun u l halone => keepsCount_of_not_lock halone.lock
    by_cases hj2 : j = 2
    · subst hj2
      cases hj
    · cases (gatedEvicted_threads C hj2).symm.trans hj
  exact (hgated.trans (hevict.trans (hlock.trans (hunlock.trans
    (hfinish.trans htorn))))).restrict_reachable (restrict_firstSession 0 fun u l halone =>
      keepsCount_of_initAlone halone fun _ => rfl)

theorem reachable_secondWindow (C : Core) :
    ((ffiSystem C ℕ).restrict KeepsCount).Reachable (secondWindow C) := by
  have hothers : ∀ n, n ≠ 1 → (((gatedEvicted C).set 3 .idle).objects n).session = false :=
    fun _ => firstSession_objects_session
  have hinit : LeadsIn C KeepsCount (turnedAwayTorn C) ((turnedAwayTorn C).started 2) := by
    refine leads_init (i := 0) (turnedAwayTorn_threads C 0) rfl rfl rfl rfl
      (torn_address_ne hothers 2) fun u l halone => ?_
    exact keepsCount_of_initAlone halone (turnedAwayTorn_threads C)
  have hreturns : roomTopicFromKey [] ≠ none := by decide
  have hcall : AllowsCall KeepsCount 1 (idleHeal 2) ((turnedAwayTorn C).started 2).built :=
    allowsCall_keepsCount hreturns
  have hcallback : Funnels C (idleHeal 2) (returning (pure ())) := rfl
  have hopen : LeadsIn C KeepsCount ((turnedAwayTorn C).started 2) (secondWindow C) :=
    leads_open hcallback ⟨turnedAwayTorn_threads C 1, List.mem_cons_self, rfl, rfl⟩ rfl rfl
      (Option.some_ne_none 2) hcall
  exact (hinit.trans hopen).restrict_reachable (reachable_turnedAwayTorn C)

end FfiProcess

/-- The window of thread 1 is counted, that of the callback that was turned away is not. -/
theorem inFlight_secondWindow :
    (∃ windows : Finset ℕ, 1 ∈ windows ∧ 3 ∉ windows ∧
      (FfiProcess.secondWindow (protoCore (Messaging.plaintext []))).globals.inFlight = windows.card) ∧
    ∃ address,
      (FfiProcess.secondWindow (protoCore (Messaging.plaintext []))).globals.session = some address ∧
      ((FfiProcess.secondWindow (protoCore (Messaging.plaintext []))).objects 2).Up address := by
  obtain ⟨⟨windows, hmem, hcard⟩, -, hup⟩ := inFlight_windows_up
    (FfiProcess.reachable_secondWindow (protoCore (Messaging.plaintext [])))
  refine ⟨⟨windows, (hmem 1).2 (Option.some_ne_none 2), fun h3 => ?_, hcard⟩, hup 1 2 rfl⟩
  exact (hmem 3).1 h3 rfl

end GcsChat
