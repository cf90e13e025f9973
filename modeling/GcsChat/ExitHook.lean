import GcsChat.ShutdownRaces

/-!
# The exit hook

`TeardownSessionAndNode` as `std::atexit` runs it, on a thread of its own beside all others: without
a lock it raises the two flags, tries for `g_mutex` as long as its budget lasts, waits as long again
for the windows, evicts the session under the mutex and destroys it without. Time is a clock that
passes between the steps.
-/

namespace GcsChat

open Interactive TransitionSystem

/-- Both in milliseconds. -/
def kExitTeardownDrainTimeout : ℕ := 2000
def kExitLockRetryInterval : ℕ := 10

/-- Where the hook is. It sleeps until `wake` before it tries for the mutex again. -/
inductive ExitPhase
  | pending
  | gated
  | acquiring (deadline wake : ℕ)
  | waiting (deadline : ℕ)
  | destroying (work : Teardown)
  | abandoned
  | over

structure ExitProcess (ι : Type) where
  process : FfiProcess ι
  clock : ℕ
  registered : Bool
  phase : ExitPhase

inductive ExitStep (ι : Type)
  | ffi (l : FfiStep ι)
  | tick
  | gate
  | mark
  | retry
  | abandon
  | acquire
  | wake
  | destroy

def FfiStep.Boots {ι : Type} (l : FfiStep ι) : Prop := ∃ i a, l = .answer i .initSession a

/-- After the last stage there is nothing to relock: the hook is over. -/
def ExitPhase.from (work : Teardown) : ExitPhase :=
  if work.stage = .relock then .over else .destroying work

def ExitPhase.evicted : ExitPhase → Option ℕ
  | destroying work => work.evicted
  | _ => none

namespace ExitProcess

variable {ι : Type}

def evict (s : ExitProcess ι) : ExitProcess ι :=
  let taken : FfiProcess ι := { s.process with sdkBootedHere := false }
  match s.process.globals.session with
  | none => { s with process := taken, phase := .from (.start s.process.sdkBootedHere none) }
  | some _ =>
      { s with
        process := { taken with
          dartPort := 0
          globals := { Globals.fresh with inFlight := s.process.globals.inFlight } }
        phase := .from (.start s.process.sdkBootedHere (some s.process.built)) }

end ExitProcess

/-- The hook fires once. `try_lock` may fail although nobody owns the mutex; `wait_for` returns with
the mutex. -/
def exitSystem (C : Core) (ι : Type) [DecidableEq ι] :
    TransitionSystem (ExitProcess ι) (ExitStep ι) where
  initial s := (ffiSystem C ι).initial s.process ∧ s.registered = false ∧ s.phase = .pending
  step s l s' := match l with
    | .ffi l => (ffiSystem C ι).step s.process l s'.process ∧ s'.clock = s.clock ∧
        (s'.registered = s.registered ∨
          l.Boots ∧ s.process.nodeUp = false ∧ s'.registered = true) ∧ s'.phase = s.phase
    | .tick => s' = { s with clock := s.clock + 1 }
    | .gate => s.phase = .pending ∧ s.registered = true ∧
        s' = { s with process := { s.process with receivingDisabled := true }, phase := .gated }
    | .mark => s.phase = .gated ∧ s' = { s with
        process := { s.process with tearingDown := true }
        phase := .acquiring (s.clock + kExitTeardownDrainTimeout) s.clock }
    | .retry => ∃ deadline wake, s.phase = .acquiring deadline wake ∧ wake ≤ s.clock ∧
        s.clock < deadline ∧
        s' = { s with phase := .acquiring deadline (s.clock + kExitLockRetryInterval) }
    | .abandon => ∃ deadline wake, s.phase = .acquiring deadline wake ∧ wake ≤ s.clock ∧
        deadline ≤ s.clock ∧ s' = { s with phase := .abandoned }
    | .acquire => ∃ deadline wake, s.phase = .acquiring deadline wake ∧ wake ≤ s.clock ∧
        s.process.owner = none ∧ s' = if s.process.globals.inFlight = 0 then s.evict
          else { s with phase := .waiting (s.clock + kExitTeardownDrainTimeout) }
    | .wake => ∃ deadline, s.phase = .waiting deadline ∧ s.process.owner = none ∧
        (s.process.globals.inFlight = 0 ∨ deadline ≤ s.clock) ∧ s' = s.evict
    | .destroy => ∃ work, s.phase = .destroying work ∧ s.process.CanTearDown work ∧
        s' = { s with process := s.process.destroyed work, phase := .from work.next }

namespace ExitProcess

variable {ι : Type} {C : Core} {s s' : ExitProcess ι}

/-- Every raw pointer of a thread is to the session that is up, with all its objects. -/
def PointersUp (s : ExitProcess ι) : Prop :=
  ∀ i n, (s.process.threads i).pointer = some n →
    ∃ address, s.process.globals.session = some address ∧ (s.process.objects n).Up address

/-- The hook does not run out of time with a thread in a window. -/
def Drained (s : ExitProcess ι) : ExitStep ι → Prop
  | .wake => ∀ i, ¬ (s.process.threads i).InWindow
  | _ => True

/-- What holds as long as the hook drains: the session it destroys is down, and its alone. -/
structure Sound (C : Core) (s : ExitProcess ι) : Prop where
  process : s.process.Sound C.May
  down : ∀ n, s.phase.evicted = some n → n ≤ s.process.built ∧
    (n = s.process.built → s.process.globals.session = none)
  alone : ∀ n, s.phase.evicted = some n → ∀ i, (s.process.threads i).evicted ≠ some n

theorem Sound.pointersUp (h : s.Sound C) : s.PointersUp := by
  intro i n hn
  obtain ⟨rfl, hup⟩ := h.process.pointers i n hn
  obtain ⟨address, hsession⟩ := Option.ne_none_iff_exists'.1 hup
  exact ⟨address, hsession, h.process.up address hsession⟩

theorem evicted_from (work : Teardown) :
    (ExitPhase.from work).evicted = none ∨ (ExitPhase.from work).evicted = work.evicted := by
  rw [ExitPhase.from]
  split
  · exact .inl rfl
  · exact .inr rfl

theorem evicted_from_start {booted : Bool} {evicted : Option ℕ} {n : ℕ}
    (h : (ExitPhase.from (.start booted evicted)).evicted = some n) : evicted = some n := by
  rcases evicted_from (.start booted evicted) with hnone | hsome
  · exact absurd (hnone.symm.trans h) (Option.some_ne_none n).symm
  · exact hsome.symm.trans h

structure EvictFrame (s s' : ExitProcess ι) : Prop where
  threads : s'.process.threads = s.process.threads
  objects : s'.process.objects = s.process.objects
  built : s'.process.built = s.process.built
  leaked : s'.process.leaked = s.process.leaked
  owner : s'.process.owner = s.process.owner
  down : s'.process.globals.session = none
  inFlight : s'.process.globals.inFlight = s.process.globals.inFlight

theorem evict_frame (s : ExitProcess ι) : EvictFrame s s.evict := by
  unfold evict
  split
  · next hnone => exact ⟨rfl, rfl, rfl, rfl, rfl, hnone, rfl⟩
  · exact ⟨rfl, rfl, rfl, rfl, rfl, rfl, rfl⟩

theorem evicted_evict {n : ℕ} (h : s.evict.phase.evicted = some n) :
    n = s.process.built ∧ s.process.globals.session ≠ none := by
  unfold evict at h
  split at h
  · exact absurd (evicted_from_start h) (Option.some_ne_none n).symm
  · next address hsession =>
      refine ⟨(Option.some.inj (evicted_from_start h)).symm, ?_⟩
      rw [hsession]
      exact Option.some_ne_none address

theorem evicted_step [DecidableEq ι] {u u' : FfiProcess ι} {l : FfiStep ι}
    (hstep : (ffiSystem C ι).step u l u') {i : ι} {n : ℕ} (hn : (u'.threads i).evicted = some n) :
    (u.threads i).evicted = some n ∨ u.globals.session ≠ none ∧ n = u.built := by
  rcases ffiSystem_threads hstep i with hsame | hthread
  · rw [hsame] at hn
    exact .inl hn
  · generalize u'.threads i = t' at hthread hn
    generalize u.threads i = t at hthread ⊢
    cases hthread with
    | evicts _ _ _ =>
        rw [FfiProcess.evicted_start] at hn
        cases hsession : u.globals.session with
        | none =>
            rw [hsession] at hn
            cases hn
        | some address =>
            rw [hsession] at hn
            exact .inr ⟨Option.some_ne_none address, (Option.some.inj hn).symm⟩
    | teardown _ _ => exact .inl hn
    | _ => cases hn

variable [DecidableEq ι]

theorem Sound.ffi (h : s.Sound C) {l : FfiStep ι}
    (hstep : (ffiSystem C ι).step s.process l s'.process) (hphase : s'.phase = s.phase) :
    s'.Sound C where
  process := h.process.step_may hstep
  down n hn := by
    rw [hphase] at hn
    obtain ⟨hle, hdown⟩ := h.down n hn
    cases h.process.sessionStep hstep with
    | kept hkept =>
        rw [hkept.built, hkept.session]
        exact ⟨hle, hdown⟩
    | evicts i handle _ _ _ hs' =>
        rw [hs', FfiProcess.evict_built]
        exact ⟨hle, fun _ => FfiProcess.evict_session i handle⟩
    | publishes _ _ _ _ _ hs' =>
        have hbuilt : s'.process.built = s.process.built + 1 := by
          rw [hs']
          rfl
        rw [hbuilt]
        exact ⟨hle.trans (Nat.le_succ _), fun heq => by omega⟩
  alone n hn i hi := by
    rw [hphase] at hn
    rcases evicted_step hstep hi with hbefore | ⟨hup, heq⟩
    · exact h.alone n hn i hbefore
    · exact hup ((h.down n hn).2 heq)

omit [DecidableEq ι] in
theorem Sound.frame (h : s.Sound C) (hprocess : s'.process.Sound C.May)
    (hglobals : s'.process.globals = s.process.globals) (hbuilt : s'.process.built = s.process.built)
    (hthreads : s'.process.threads = s.process.threads)
    (hphase : s'.phase.evicted = none ∨ s'.phase.evicted = s.phase.evicted) : s'.Sound C := by
  have hbefore : ∀ n, s'.phase.evicted = some n → s.phase.evicted = some n := by
    intro n hn
    rcases hphase with hnone | hsame
    · exact absurd (hnone.symm.trans hn) (Option.some_ne_none n).symm
    · exact hsame.symm.trans hn
  refine ⟨hprocess, fun n hn => ?_, fun n hn i => ?_⟩
  · rw [hbuilt, hglobals]
    exact h.down n (hbefore n hn)
  · rw [hthreads]
    exact h.alone n (hbefore n hn) i

omit [DecidableEq ι] in
/-- The hook evicts when nobody is in a window, so nobody points to what it destroys. -/
theorem Sound.evict (h : s.Sound C) (hfree : s.process.owner = none)
    (hwindow : ∀ i, ¬ (s.process.threads i).InWindow) : s.evict.Sound C := by
  have hframe := evict_frame s
  have hpointer : ∀ i, (s.process.threads i).pointer = none := fun i => not_not.1 (hwindow i)
  have hnot : ∀ i, s.process.owner ≠ some i := fun i howns =>
    (Option.some_ne_none i) (howns.symm.trans hfree)
  refine ⟨⟨fun i => ?_, ⟨∅, fun i => ?_, ?_⟩, fun i n hn => ?_, fun address hup => ?_,
    fun i n hn => ?_⟩, fun n hn => ?_, fun n hn i hi => ?_⟩
  · rw [hframe.threads]
    exact (h.process.fits i).of_not_owner (hnot i) (by rw [hframe.owner]; exact hnot i)
  · rw [hframe.threads]
    exact iff_of_false (Finset.notMem_empty i) (hwindow i)
  · obtain ⟨windows, hmem, hcard⟩ := h.process.counted
    have hempty : windows = ∅ := Finset.eq_empty_of_forall_notMem fun i hi =>
      hwindow i ((hmem i).1 hi)
    rw [hframe.inFlight, hframe.leaked, hcard, hempty]
  · rw [hframe.threads, hpointer i] at hn
    cases hn
  · exact absurd (hup.symm.trans hframe.down) (Option.some_ne_none address)
  · rw [hframe.threads] at hn
    rw [hframe.built]
    exact ⟨(h.process.evicted i n hn).1, fun _ => hframe.down⟩
  · rw [hframe.built]
    exact ⟨(evicted_evict hn).1.le, fun _ => hframe.down⟩
  · obtain ⟨hn, hup⟩ := evicted_evict hn
    rw [hframe.threads] at hi
    exact hup ((h.process.evicted i n hi).2 hn)

omit [DecidableEq ι] in
theorem Sound.destroy (h : s.Sound C) {work : Teardown} (hphase : s.phase = .destroying work) :
    ({ s with process := s.process.destroyed work, phase := .from work.next } :
      ExitProcess ι).Sound C := by
  have halike := FfiProcess.alike_destroyed (s := s.process) work
  refine h.frame ?_ halike.globals halike.built halike.threads ?_
  · refine h.process.frame halike.globals halike.owner halike.built halike.leaked (fun address hup hsession => ?_)
      fun j => .inl (congrFun halike.threads j)
    rw [FfiProcess.objects_destroyed]
    · exact hup
    · intro hevicted
      have hdown := (h.down s.process.built (by rw [hphase]; exact hevicted)).2 rfl
      exact absurd (hsession.symm.trans hdown) (Option.some_ne_none address)
  · rw [hphase]
    exact evicted_from work.next

theorem Sound.step (h : s.Sound C) {l : ExitStep ι} (hstep : (exitSystem C ι).step s l s')
    (hdrained : s.Drained l) : s'.Sound C := by
  have hflags : ∀ (receivingDisabled tearingDown : Bool), ({ s.process with
      receivingDisabled := receivingDisabled, tearingDown := tearingDown } : FfiProcess ι).Sound
        C.May := fun _ _ =>
    h.process.frame rfl rfl rfl rfl (fun _ hup _ => hup) fun _ => .inl rfl
  cases l with
  | ffi l =>
      obtain ⟨hffi, -, -, hphase⟩ := hstep
      exact h.ffi hffi hphase
  | tick =>
      obtain rfl := hstep
      exact ⟨h.process, h.down, h.alone⟩
  | gate =>
      obtain ⟨-, -, rfl⟩ := hstep
      exact h.frame (hflags true s.process.tearingDown) rfl rfl rfl (.inl rfl)
  | mark =>
      obtain ⟨-, rfl⟩ := hstep
      exact h.frame (hflags s.process.receivingDisabled true) rfl rfl rfl (.inl rfl)
  | retry =>
      obtain ⟨deadline, wake, -, -, -, rfl⟩ := hstep
      exact h.frame h.process rfl rfl rfl (.inl rfl)
  | abandon =>
      obtain ⟨deadline, wake, -, -, -, rfl⟩ := hstep
      exact h.frame h.process rfl rfl rfl (.inl rfl)
  | acquire =>
      obtain ⟨deadline, wake, -, -, hfree, rfl⟩ := hstep
      split
      · next hidle =>
          exact h.evict hfree fun i hwindow => hwindow (h.process.pointer_eq_none hidle i)
      · exact h.frame h.process rfl rfl rfl (.inl rfl)
  | wake =>
      obtain ⟨deadline, -, hfree, -, rfl⟩ := hstep
      exact h.evict hfree hdrained
  | destroy =>
      obtain ⟨work, hphase, -, rfl⟩ := hstep
      exact h.destroy hphase

theorem Sound.initial (h : (exitSystem C ι).initial s) : s.Sound C := by
  obtain ⟨hprocess, -, hphase⟩ := h
  have hnone : ∀ n, s.phase.evicted ≠ some n := fun n hn => by
    rw [hphase] at hn
    cases hn
  exact ⟨.initial (C := C) hprocess, fun n hn => absurd hn (hnone n), fun n hn => absurd hn (hnone n)⟩

omit [DecidableEq ι] in
/-- A hook that runs out of time takes the session from under a thread. -/
theorem not_pointersUp_evict {i : ι} (hwindow : (s.process.threads i).InWindow) :
    ¬ s.evict.PointersUp := by
  intro hup
  have hframe := evict_frame s
  obtain ⟨n, hn⟩ := Option.ne_none_iff_exists'.1 hwindow
  obtain ⟨address, hsession, -⟩ := hup i n (by rw [hframe.threads]; exact hn)
  exact absurd (hsession.symm.trans hframe.down) (Option.some_ne_none address)

end ExitProcess

/-- Over a whole run with the exit hook in it, whenever it fires, no thread ever points to a session
that is not up exactly if the hook never runs out of time with a thread in a window. Then the session that
it destroys is its alone. -/
theorem exit_pointersUp_iff {C : Core} {ι : Type} [DecidableEq ι] (p : (exitSystem C ι).Path)
    (h : (exitSystem C ι).initial (p.state 0)) :
    ((∀ n ≤ p.length, (p.state n).PointersUp) ↔
        ∀ n < p.length, (p.state n).Drained (p.label n)) ∧
      ((∀ n < p.length, (p.state n).Drained (p.label n)) → ∀ n ≤ p.length, ∀ session,
        (p.state n).phase.evicted = some session →
          ((p.state n).process.globals.session = none ∨ session < (p.state n).process.built) ∧
            ∀ i, ((p.state n).process.threads i).evicted ≠ some session) := by
  have hsound : ∀ n ≤ p.length, (∀ m < n, (p.state m).Drained (p.label m)) →
      (p.state n).Sound C := by
    intro n
    induction n with
    | zero => exact fun _ _ => .initial h
    | succ n ih =>
        intro hn hdrained
        have hbefore := ih (by omega) fun m hm => hdrained m (by omega)
        exact hbefore.step (p.step n (by omega)) (hdrained n (by omega))
  refine ⟨⟨fun hup n => ?_, fun hdrained n hn => ?_⟩, fun hdrained n hn session hsession => ?_⟩
  · induction n using Nat.strong_induction_on with
    | _ n ih =>
        intro hn
        have hbefore := hsound n hn.le fun m hm => ih m hm (by omega)
        have hstep := p.step n hn
        have hafter := hup (n + 1) hn
        generalize p.label n = l at hstep ⊢
        cases l with
        | wake =>
            intro i hwindow
            obtain ⟨deadline, -, -, -, hs'⟩ := hstep
            rw [hs'] at hafter
            exact ExitProcess.not_pointersUp_evict hwindow hafter
        | _ => trivial
  · exact (hsound n hn fun m hm => hdrained m (by omega)).pointersUp
  · have hbefore := hsound n hn fun m hm => hdrained m (by omega)
    obtain ⟨hle, hdown⟩ := hbefore.down session hsession
    exact ⟨(Nat.eq_or_lt_of_le hle).imp hdown id, hbefore.alone session hsession⟩

theorem FfiProcess.nodeUp_step {C : Core} {ι : Type} [DecidableEq ι] {s s' : FfiProcess ι}
    {l : FfiStep ι} (hstep : (ffiSystem C ι).step s l s') (hl : ¬ l.Boots) (hup : s'.nodeUp = true) :
    s.nodeUp = true := by
  have hevict : ∀ i handle, (s.evict i handle).nodeUp = s.nodeUp := by
    intro i handle
    unfold evict
    split <;> rfl
  cases l with
  | call i call =>
      obtain ⟨-, hcall⟩ := hstep
      cases call with
      | live n topic data =>
          obtain ⟨-, rfl⟩ := hcall
          exact hup
      | heal n key value =>
          obtain ⟨-, -, rfl⟩ := hcall
          exact hup
      | _ =>
          obtain rfl := hcall
          exact hup
  | enter i =>
      obtain ⟨call, -, -, rfl⟩ := hstep
      unfold enter at hup
      split at hup
      · split_ifs at hup
        · rwa [hevict] at hup
        · exact hup
        · exact hup
      · exact hup
      · split_ifs at hup <;> exact hup
      · exact hup
      · exact hup
  | subscribed i running =>
      obtain ⟨handle, topic, dartPort, -, rfl⟩ := hstep
      cases running <;> exact hup
  | lock i =>
      obtain ⟨_, _, _, -, -, rfl⟩ := hstep
      exact hup
  | unlock i =>
      obtain ⟨_, g, _, _, _, -, -, -, rfl⟩ := hstep
      change (s.release g).nodeUp = true at hup
      unfold release at hup
      split at hup <;> exact hup
  | answer i e a =>
      obtain ⟨_, _, pointer, -, -, rfl⟩ := hstep
      change (s.answered pointer e a).nodeUp = true at hup
      cases e with
      | initSession => exact absurd ⟨i, a, rfl⟩ hl
      | subscribe topic => cases a <;> cases pointer <;> exact hup
      | enqueueArchive key value => cases pointer <;> exact hup
      | _ => exact hup
  | finish i =>
      obtain ⟨_, _, _, -, rfl⟩ := hstep
      exact hup
  | drained i =>
      obtain ⟨handle, -, -, -, rfl⟩ := hstep
      rwa [hevict] at hup
  | teardown i =>
      obtain ⟨handle, ⟨booted, evicted, stage⟩, -, -, rfl⟩ := hstep
      cases stage <;> cases evicted <;> first | exact hup | cases hup
  | take n =>
      obtain ⟨_, _, -, -, -, rfl⟩ := hstep
      exact hup
  | handOver n =>
      obtain ⟨_, -, rfl⟩ := hstep
      exact hup
  | workerReturn n =>
      obtain ⟨-, -, -, -, rfl⟩ := hstep
      exact hup

namespace ExitProcess

variable {ι : Type} [DecidableEq ι] {C : Core} {u u' : FfiProcess ι}
  {P : FfiProcess ι → FfiStep ι → Prop}

/-- The process moves on while the hook rests; booting the node registers the hook. -/
theorem run_ffi {ls : List (FfiStep ι)} (h : ((ffiSystem C ι).restrict P).Run u ls u') (clock : ℕ)
    (registered : Bool) (hregistered : u.nodeUp = true → registered = true) (phase : ExitPhase) :
    ∃ registered', (registered = true → registered' = true) ∧
      (u'.nodeUp = true → registered' = true) ∧
      ((exitSystem C ι).restrict Drained).Run ⟨u, clock, registered, phase⟩ (ls.map .ffi)
        ⟨u', clock, registered', phase⟩ := by
  induction h with
  | nil => exact ⟨registered, id, hregistered, .nil _⟩
  | @snoc v w ls l _ hlast ih =>
      obtain ⟨r, hkept, hup, hrun⟩ := ih
      by_cases hboots : l.Boots ∧ v.nodeUp = false
      · refine ⟨true, fun _ => rfl, fun _ => rfl, ?_⟩
        rw [List.map_append]
        exact hrun.snoc ⟨⟨hlast.1, rfl, .inr ⟨hboots.1, hboots.2, rfl⟩, rfl⟩, trivial⟩
      · refine ⟨r, hkept, fun hw => hup ?_, ?_⟩
        · by_contra hdown
          have hnode : v.nodeUp = false := Bool.eq_false_iff.2 hdown
          exact hdown (FfiProcess.nodeUp_step hlast.1 (fun hl => hboots ⟨hl, hnode⟩) hw)
        · rw [List.map_append]
          exact hrun.snoc ⟨⟨hlast.1, rfl, .inl rfl, rfl⟩, trivial⟩

theorem run_booted (h : FfiProcess.LeadsIn C P u u') (hdown : u.nodeUp = false)
    (hup : u'.nodeUp = true) (clock : ℕ) (phase : ExitPhase) :
    ∃ ls, ((exitSystem C ι).restrict Drained).Run ⟨u, clock, false, phase⟩ ls
      ⟨u', clock, true, phase⟩ := by
  obtain ⟨ls, hrun⟩ := h
  obtain ⟨registered, -, hregistered, hexit⟩ := run_ffi hrun clock false
    (fun hnode => hdown.symm.trans hnode) phase
  rw [hregistered hup] at hexit
  exact ⟨_, hexit⟩

theorem run_registered (h : FfiProcess.LeadsIn C P u u') (clock : ℕ) (phase : ExitPhase) :
    ∃ ls, ((exitSystem C ι).restrict Drained).Run ⟨u, clock, true, phase⟩ ls
      ⟨u', clock, true, phase⟩ := by
  obtain ⟨ls, hrun⟩ := h
  obtain ⟨registered, hregistered, -, hexit⟩ := run_ffi hrun clock true
    (fun _ => rfl) phase
  rw [hregistered rfl] at hexit
  exact ⟨_, hexit⟩

def flagged (u : FfiProcess ι) : FfiProcess ι :=
  { u with receivingDisabled := true, tearingDown := true }

theorem run_fired (u : FfiProcess ι) (clock : ℕ) :
    ((exitSystem C ι).restrict Drained).Run ⟨u, clock, true, .pending⟩ [.gate, .mark]
      ⟨flagged u, clock, true, .acquiring (clock + kExitTeardownDrainTimeout) clock⟩ := by
  have hgate : (exitSystem C ι).step ⟨u, clock, true, .pending⟩ .gate
      ⟨{ u with receivingDisabled := true }, clock, true, .gated⟩ := ⟨rfl, rfl, rfl⟩
  have hmark : (exitSystem C ι).step ⟨{ u with receivingDisabled := true }, clock, true, .gated⟩ .mark
      ⟨flagged u, clock, true, .acquiring (clock + kExitTeardownDrainTimeout) clock⟩ := ⟨rfl, rfl⟩
  exact Run.snoc (S := (exitSystem C ι).restrict Drained) (Run.single ⟨hgate, trivial⟩)
    ⟨hmark, trivial⟩

end ExitProcess

def freshExit : ExitProcess ℕ := ⟨.fresh ℕ false, 0, false, .pending⟩

def bootedSession : FfiProcess ℕ := (FfiProcess.fresh ℕ false).booted.started 1

theorem leads_bootedSession (C : Core) : FfiProcess.Leads C (.fresh ℕ false) bootedSession :=
  FfiProcess.leads_boot (i := 0) rfl rfl rfl rfl (fun _ hn => Bool.noConfusion hn) fun _ _ _ => trivial

def bootedWindow : FfiProcess ℕ :=
  ({ bootedSession with globals := { FfiProcess.startedGlobals 1 with inFlight := 1 } } :
    FfiProcess ℕ).set 1 (.running (FfiProcess.idleHeal 1) (FfiProcess.closing .void) (some 1))

theorem leads_bootedWindow (C : Core) : FfiProcess.Leads C (.fresh ℕ false) bootedWindow := by
  have hcallback : FfiProcess.Funnels C (FfiProcess.idleHeal 1) (FfiProcess.returning (pure ())) := rfl
  have hopen : FfiProcess.Leads C bootedSession bootedWindow :=
    FfiProcess.leads_open hcallback ⟨rfl, List.mem_cons_self, rfl, rfl⟩ rfl rfl (Option.some_ne_none 1)
      (FfiProcess.allowsCall_true 1 _ 1)
  exact (leads_bootedSession C).trans hopen

def waitingExit : ExitProcess ℕ :=
  ⟨ExitProcess.flagged bootedWindow, 1, true, .waiting (1 + kExitTeardownDrainTimeout)⟩

theorem run_waitingExit (C : Core) : ∃ ls, ((exitSystem C ℕ).restrict ExitProcess.Drained).Run
    { freshExit with clock := 1 } ls waitingExit := by
  obtain ⟨ls, hrun⟩ := ExitProcess.run_booted (leads_bootedWindow C) rfl rfl 1 .pending
  have hacquire : (exitSystem C ℕ).step ⟨ExitProcess.flagged bootedWindow, 1, true,
      .acquiring (1 + kExitTeardownDrainTimeout) 1⟩ .acquire waitingExit :=
    ⟨_, _, rfl, le_rfl, rfl, (if_neg Nat.one_ne_zero).symm⟩
  exact ⟨_, (hrun.append (ExitProcess.run_fired bootedWindow 1)).snoc ⟨hacquire, trivial⟩⟩

theorem run_evictedExit (C : Core) : ∃ ls s, ((exitSystem C ℕ).restrict ExitProcess.Drained).Run
    waitingExit ls s ∧ s.phase.evicted = some 1 := by
  let left := (ExitProcess.flagged bootedWindow).left 1
  have hclose : FfiProcess.Leads C (ExitProcess.flagged bootedWindow) left :=
    FfiProcess.leads_close (i := 1) rfl rfl rfl (Option.some_ne_none 1) (FfiProcess.allowsCall_true 1 _ 1)
  obtain ⟨ls, hrun⟩ := ExitProcess.run_registered hclose 1 (.waiting (1 + kExitTeardownDrainTimeout))
  let s : ExitProcess ℕ := ⟨left, 1, true, .waiting (1 + kExitTeardownDrainTimeout)⟩
  have hwake : (exitSystem C ℕ).step s .wake s.evict := ⟨_, rfl, rfl, .inl rfl, rfl⟩
  have hdrained : s.Drained .wake := by
    intro i hwindow
    by_cases hi : i = 1
    · subst hi
      exact hwindow rfl
    · have hthread : left.threads i = .idle :=
        (FfiProcess.set_threads_of_ne _ _ hi).trans (FfiProcess.set_threads_of_ne _ _ hi)
      change (left.threads i).InWindow at hwindow
      rw [hthread] at hwindow
      exact hwindow rfl
  exact ⟨_, _, hrun.snoc ⟨hwake, hdrained⟩, rfl⟩

/-- In a run in which the hook waits for a window and then evicts the session, the thread in the window
points to a session that is up, and the session that is evicted is the hook's alone. -/
theorem exit_pointersUp_window : ∃ (p : (exitSystem (protoCore (Messaging.plaintext [])) ℕ).Path) (n : ℕ),
    n ≤ p.length ∧ p.state n = waitingExit ∧ (p.state n).PointersUp ∧
      (p.state p.length).phase.evicted = some 1 ∧
      ((p.state p.length).process.globals.session = none ∨ 1 < (p.state p.length).process.built) ∧
      ((p.state p.length).process.threads 0).evicted ≠ some 1 := by
  let C := protoCore (Messaging.plaintext [])
  let start : (exitSystem C ℕ).Path :=
    .single (s := freshExit) (l := .tick) (t := { freshExit with clock := 1 }) rfl
  obtain ⟨ls, hrun⟩ := run_waitingExit C
  obtain ⟨ms, s, hrun', hevicted⟩ := run_evictedExit C
  obtain ⟨p, hp⟩ := start.exists_extends hrun rfl
  obtain ⟨q, hq⟩ := p.exists_extends hrun' hp.last
  have hdrained : ∀ n < q.length, (q.state n).Drained (q.label n) := by
    intro n hn
    by_cases hnp : n < p.length
    · rw [hq.state n hnp.le, hq.label n hnp]
      by_cases hn0 : n < start.length
      · rw [hp.label n hn0]
        exact trivial
      · exact hp.allowed n hnp (Nat.le_of_not_lt hn0)
    · exact hq.allowed n hn (Nat.le_of_not_lt hnp)
  have hinitial : (exitSystem C ℕ).initial (q.state 0) := by
    rw [hq.state 0 (Nat.zero_le _), hp.state 0 (Nat.zero_le _)]
    exact ⟨⟨false, rfl⟩, rfl, rfl⟩
  have hle : p.length ≤ q.length := by
    rw [hq.length]
    exact Nat.le_add_right _ _
  have hwaiting : q.state p.length = waitingExit := (hq.state _ le_rfl).trans hp.last
  have hlast : (q.state q.length).phase.evicted = some 1 := by
    rw [hq.last]
    exact hevicted
  obtain ⟨hiff, halone⟩ := exit_pointersUp_iff q hinitial
  obtain ⟨hdown, hothers⟩ := halone hdrained q.length le_rfl 1 hlast
  exact ⟨q, p.length, hle, hwaiting, hiff.2 hdrained p.length hle, hlast, hdown, hothers 0⟩

/-- The two flags apart, the process is as it was. -/
def FfiProcess.SameButFlags {ι : Type} (u u' : FfiProcess ι) : Prop :=
  u' = { u with receivingDisabled := u'.receivingDisabled, tearingDown := u'.tearingDown }

namespace ExitProcess

variable {ι : Type} {C : Core} {s s' : ExitProcess ι}

def tries (s : ExitProcess ι) : ℕ :=
  match s.phase with
  | .pending => kExitTeardownDrainTimeout / kExitLockRetryInterval
  | .gated => kExitTeardownDrainTimeout / kExitLockRetryInterval
  | .acquiring deadline wake => (deadline - wake + (kExitLockRetryInterval - 1)) / kExitLockRetryInterval
  | _ => 0

def Committed (s : ExitProcess ι) : Prop :=
  match s.phase with
  | .waiting _ => True
  | .destroying _ => True
  | .over => True
  | _ => False

theorem committed_of_phase {work : Teardown} (h : s.phase = .from work) : s.Committed := by
  rw [Committed, h, ExitPhase.from]
  split_ifs <;> trivial

theorem tries_of_phase {work : Teardown} (h : s.phase = .from work) : s.tries = 0 := by
  rw [tries, h, ExitPhase.from]
  split_ifs <;> rfl

theorem committed_evict (s : ExitProcess ι) : s.evict.Committed := by
  unfold evict
  split <;> exact committed_of_phase rfl

variable [DecidableEq ι]

/-- The hook either has the mutex after a step of its own or has touched nothing but the flags. -/
theorem committed_or_same {l : ExitStep ι} (hstep : (exitSystem C ι).step s l s')
    (hl : ∀ k, l ≠ .ffi k) : s'.Committed ∨ s.process.SameButFlags s'.process := by
  cases l with
  | ffi k => exact absurd rfl (hl k)
  | tick =>
      obtain rfl := hstep
      exact .inr rfl
  | gate =>
      obtain ⟨-, -, rfl⟩ := hstep
      exact .inr rfl
  | mark =>
      obtain ⟨-, rfl⟩ := hstep
      exact .inr rfl
  | retry =>
      obtain ⟨deadline, wake, -, -, -, rfl⟩ := hstep
      exact .inr rfl
  | abandon =>
      obtain ⟨deadline, wake, -, -, -, rfl⟩ := hstep
      exact .inr rfl
  | acquire =>
      obtain ⟨deadline, wake, -, -, -, rfl⟩ := hstep
      split
      · exact .inl (committed_evict s)
      · exact .inl trivial
  | wake =>
      obtain ⟨deadline, -, -, -, rfl⟩ := hstep
      exact .inl (committed_evict s)
  | destroy =>
      obtain ⟨work, -, -, rfl⟩ := hstep
      exact .inl (committed_of_phase rfl)

/-- A hook that has had the mutex never gives up. -/
theorem Committed.step (h : s.Committed) {l : ExitStep ι} (hstep : (exitSystem C ι).step s l s') :
    s'.Committed := by
  have hphase : ∀ {phase : ExitPhase}, s.phase = phase → (match phase with
      | .waiting _ => True
      | .destroying _ => True
      | .over => True
      | _ => False) := fun heq => heq ▸ h
  cases l with
  | ffi k =>
      obtain ⟨-, -, -, hsame⟩ := hstep
      rw [Committed, hsame]
      exact h
  | tick =>
      obtain rfl := hstep
      exact h
  | gate => exact (hphase hstep.1).elim
  | mark => exact (hphase hstep.1).elim
  | retry =>
      obtain ⟨deadline, wake, hacquiring, -⟩ := hstep
      exact (hphase hacquiring).elim
  | abandon =>
      obtain ⟨deadline, wake, hacquiring, -⟩ := hstep
      exact (hphase hacquiring).elim
  | acquire =>
      obtain ⟨deadline, wake, hacquiring, -⟩ := hstep
      exact (hphase hacquiring).elim
  | wake =>
      obtain ⟨deadline, -, -, -, rfl⟩ := hstep
      exact committed_evict s
  | destroy =>
      obtain ⟨work, -, -, rfl⟩ := hstep
      exact committed_of_phase rfl

def tried : ExitStep ι → ℕ
  | .retry => 1
  | _ => 0

theorem tried_add_tries_le {l : ExitStep ι} (hstep : (exitSystem C ι).step s l s') :
    tried l + s'.tries ≤ s.tries := by
  have hevict : s.evict.tries = 0 := by
    unfold evict
    split <;> exact tries_of_phase rfl
  cases l with
  | ffi k =>
      obtain ⟨-, -, -, hsame⟩ := hstep
      rw [tries, tries, hsame]
      exact (Nat.zero_add _).le
  | tick =>
      obtain rfl := hstep
      exact (Nat.zero_add _).le
  | gate =>
      obtain ⟨hpending, -, rfl⟩ := hstep
      rw [tries, tries, hpending]
      exact (Nat.zero_add _).le
  | mark =>
      obtain ⟨hgated, rfl⟩ := hstep
      rw [tries, tries, hgated]
      simp only [tried, kExitTeardownDrainTimeout, kExitLockRetryInterval]
      omega
  | retry =>
      obtain ⟨deadline, wake, hacquiring, hwake, hdeadline, rfl⟩ := hstep
      rw [tries, tries, hacquiring, tried]
      simp only [kExitLockRetryInterval]
      omega
  | abandon =>
      obtain ⟨deadline, wake, -, -, -, rfl⟩ := hstep
      exact Nat.zero_le _
  | acquire =>
      obtain ⟨deadline, wake, -, -, -, rfl⟩ := hstep
      split
      · rw [hevict]
        exact Nat.zero_le _
      · exact Nat.zero_le _
  | wake =>
      obtain ⟨deadline, -, -, -, rfl⟩ := hstep
      rw [hevict]
      exact Nat.zero_le _
  | destroy =>
      obtain ⟨work, -, -, rfl⟩ := hstep
      rw [tries_of_phase (s := { s with
        process := s.process.destroyed work
        phase := .from work.next }) rfl]
      exact Nat.zero_le _

theorem run_ticks (s : ExitProcess ι) (k : ℕ) :
    (exitSystem C ι).Run s (List.replicate k .tick) { s with clock := s.clock + k } := by
  induction k with
  | zero => exact .nil s
  | succ k ih =>
      rw [List.replicate_succ']
      exact ih.snoc rfl

end ExitProcess

/-- In every run the hook tries for the mutex at most two hundred times more, whoever has it. A hook
that has given up has touched nothing but the two flags, and one that still tries can give up while
nobody else moves. -/
theorem exit_gives_up {C : Core} {ι : Type} [DecidableEq ι] (p : (exitSystem C ι).Path)
    (h : (exitSystem C ι).initial (p.state 0)) :
    ∑ n ∈ Finset.range p.length, ExitProcess.tried (p.label n) ≤
        kExitTeardownDrainTimeout / kExitLockRetryInterval ∧
      ((p.state p.length).phase = .abandoned → ∀ n < p.length, (∀ l, p.label n ≠ .ffi l) →
        (p.state n).process.SameButFlags (p.state (n + 1)).process) ∧
      ∀ deadline wake, (p.state p.length).phase = .acquiring deadline wake →
        ∃ ls s', (exitSystem C ι).Run (p.state p.length) ls s' ∧
          (∀ l ∈ ls, l = .tick ∨ l = .abandon) ∧ s'.phase = .abandoned ∧
            s'.process = (p.state p.length).process := by
  refine ⟨?_, fun habandoned n hn hown => ?_, fun deadline wake hacquiring => ?_⟩
  · have hbound : ∀ k ≤ p.length, ∑ n ∈ Finset.range k, ExitProcess.tried (p.label n) +
        (p.state k).tries ≤ (p.state 0).tries := by
      intro k
      induction k with
      | zero => simp
      | succ k ih =>
          intro hk
          rw [Finset.sum_range_succ]
          have hbefore := ih (by omega)
          have hstep := ExitProcess.tried_add_tries_le (p.step k hk)
          omega
    have hstart : (p.state 0).tries = kExitTeardownDrainTimeout / kExitLockRetryInterval := by
      rw [ExitProcess.tries, h.2.2]
    have hlast := hbound p.length le_rfl
    omega
  · refine (ExitProcess.committed_or_same (p.step n hn) hown).resolve_left fun hcommitted => ?_
    have hkept := (p.forall_le_iff (R := fun s t => s.Committed → t.Committed)
      (P := fun _ _ => True) (fun _ => id) (fun _ _ _ hab hbc ha => hbc (hab ha))
      fun _ _ _ hstep => iff_of_true (fun hs => hs.step hstep) trivial).2 fun _ _ => trivial
    have hend := hkept (n + 1) p.length hn le_rfl hcommitted
    rw [ExitProcess.Committed, habandoned] at hend
    exact hend
  · let s := p.state p.length
    let late : ExitProcess ι := { s with clock := s.clock + (deadline + wake) }
    have hgives : (exitSystem C ι).step late .abandon { late with phase := .abandoned } := by
      refine ⟨deadline, wake, hacquiring, ?_, ?_, rfl⟩
      · change wake ≤ s.clock + (deadline + wake)
        omega
      · change deadline ≤ s.clock + (deadline + wake)
        omega
    refine ⟨_, _, (ExitProcess.run_ticks s (deadline + wake)).snoc hgives, fun l hl => ?_, rfl, rfl⟩
    rcases List.mem_append.1 hl with htick | habandon
    · exact .inl (List.eq_of_mem_replicate htick)
    · exact .inr (List.mem_singleton.1 habandon)

def heldSession : FfiProcess ℕ :=
  ({ bootedSession with owner := some 1 } : FfiProcess ℕ).set 1
    (.running (.publish none none none) (giveBack (FfiProcess.startedGlobals 1)
      (.status .errorInvalidArgument)) none)

theorem leads_heldSession (C : Core) : FfiProcess.Leads C (.fresh ℕ false) heldSession := by
  let call := FfiCall.publish none none none
  let held : FfiProcess ℕ := { bootedSession with owner := some 1 }
  have hcall : FfiProcess.Leads C bootedSession (bootedSession.set 1 (.called call)) :=
    FfiProcess.Leads.step (l := .call 1 call) ⟨rfl, rfl⟩
  have henter : FfiProcess.Leads C (bootedSession.set 1 (.called call)) heldSession :=
    FfiProcess.Leads.step (l := .enter 1) ⟨call, FfiProcess.set_threads_self _ _ _, rfl,
      (FfiProcess.set_set (s := held) _ _).symm⟩
  exact (leads_bootedSession C).trans (hcall.trans henter)

def triedExit (k : ℕ) : ExitProcess ℕ :=
  ⟨ExitProcess.flagged heldSession, 1 + k * kExitLockRetryInterval, true,
    .acquiring (1 + kExitTeardownDrainTimeout) (1 + k * kExitLockRetryInterval)⟩

def failedTry : List (ExitStep ℕ) := .retry :: List.replicate kExitLockRetryInterval .tick

theorem run_failedTry (C : Core) {k : ℕ} (hk : k < 200) :
    (exitSystem C ℕ).Run (triedExit k) failedTry (triedExit (k + 1)) := by
  let asleep : ExitProcess ℕ := { triedExit k with
    phase := .acquiring (1 + kExitTeardownDrainTimeout)
      (1 + k * kExitLockRetryInterval + kExitLockRetryInterval) }
  have hearly : 1 + k * kExitLockRetryInterval < 1 + kExitTeardownDrainTimeout := by
    simp only [kExitLockRetryInterval, kExitTeardownDrainTimeout]
    omega
  have hretry : (exitSystem C ℕ).step (triedExit k) .retry asleep :=
    ⟨_, _, rfl, le_rfl, hearly, rfl⟩
  have hsleep := ExitProcess.run_ticks (C := C) asleep kExitLockRetryInterval
  have hawake : { asleep with clock := asleep.clock + kExitLockRetryInterval } = triedExit (k + 1) := by
    simp only [asleep, triedExit, Nat.succ_mul, Nat.add_assoc]
  rw [hawake] at hsleep
  exact (Run.single hretry).append hsleep

theorem run_failedTries (C : Core) {k : ℕ} (hk : k ≤ 200) :
    (exitSystem C ℕ).Run (triedExit 0) (List.replicate k failedTry).flatten (triedExit k) := by
  induction k with
  | zero => exact .nil _
  | succ k ih =>
      rw [List.replicate_succ', List.flatten_append, List.flatten_singleton]
      exact (ih (by omega)).append (run_failedTry C hk)

theorem tried_failedTries (k : ℕ) :
    (((List.replicate k failedTry).flatten).map ExitProcess.tried).sum = k := by
  induction k with
  | zero => rfl
  | succ k ih =>
      rw [List.replicate_succ, List.flatten_cons, List.map_append, List.sum_append, ih]
      exact Nat.add_comm 1 k

/-- Thread 1 has the mutex all the time: the hook tries two hundred times, gives up, and touches nothing
when it does. -/
theorem exit_gives_up_held : ∃ p : (exitSystem (protoCore (Messaging.plaintext [])) ℕ).Path,
    (p.state p.length).phase = .abandoned ∧ (p.state p.length).process.owner = some 1 ∧
      ∑ n ∈ Finset.range p.length, ExitProcess.tried (p.label n) = 200 ∧
      ∃ n < p.length, p.label n = .abandon ∧
        (p.state n).process.SameButFlags (p.state (n + 1)).process := by
  let C := protoCore (Messaging.plaintext [])
  let start : (exitSystem C ℕ).Path :=
    .single (s := freshExit) (l := .tick) (t := { freshExit with clock := 1 }) rfl
  let gaveUp : ExitProcess ℕ := { triedExit 200 with phase := .abandoned }
  obtain ⟨ls, hbooted⟩ := ExitProcess.run_booted (leads_heldSession C) rfl rfl 1 .pending
  have hfired := (hbooted.append (ExitProcess.run_fired heldSession 1)).of_restrict
  have htried := (hfired.append (run_failedTries C le_rfl)).restrict
    (P := fun _ _ => True) fun _ _ _ => trivial
  have habandon : ((exitSystem C ℕ).restrict fun _ l => l = .abandon).Run (triedExit 200) [.abandon]
      gaveUp := Run.single ⟨⟨_, _, rfl, le_rfl, le_rfl, rfl⟩, rfl⟩
  obtain ⟨p, hp⟩ := start.exists_extends htried rfl
  obtain ⟨q, hq⟩ := p.exists_extends habandon hp.last
  have hinitial : (exitSystem C ℕ).initial (q.state 0) := by
    rw [hq.state 0 (Nat.zero_le _), hp.state 0 (Nat.zero_le _)]
    exact ⟨⟨false, rfl⟩, rfl, rfl⟩
  have hlength : q.length = p.length + 1 := hq.length
  have hlt : p.length < q.length := hlength ▸ Nat.lt_succ_self _
  have hlabel : q.label p.length = .abandon := hq.allowed p.length hlt le_rfl
  have hphase : (q.state q.length).phase = .abandoned := by rw [hq.last]
  obtain ⟨hbound, hsame, -⟩ := exit_gives_up q hinitial
  refine ⟨q, hphase, by rw [hq.last]; rfl, le_antisymm hbound ?_, p.length, hlt, hlabel,
    hsame hphase p.length hlt fun l hl => ?_⟩
  · rw [hq.sum, hp.sum, List.map_append, List.sum_append, tried_failedTries]
    omega
  · cases hlabel.symm.trans hl

end GcsChat
