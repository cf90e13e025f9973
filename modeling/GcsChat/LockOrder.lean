import GcsChat.ShutdownWaits

/-!
# Puts and the DAG workers

The CRDT store has some DAG workers. A put of a call returns when a worker that has nothing else to do
has processed its job; a worker that processes a message record runs the heal callback, which takes
the mutex. A command that keeps the mutex while it puts can so wait for workers that all wait for
the mutex.
-/

namespace GcsChat

open ByteString Interactive TransitionSystem FfiProcess

/-- The process with its DAG workers as threads of their own; `processed` says of each call that the
job of its put is done. -/
structure StoreProcess (ι : Type) (k : ℕ) where
  ffi : FfiProcess (ι ⊕ Fin k)
  processed : ι → Bool

inductive StoreStep (ι : Type) (k : ℕ)
  | ffi (l : FfiStep (ι ⊕ Fin k))
  | process (w : Fin k) (i : ι)

/-- The thread waits for its put. -/
def FfiThread.Putting (t : FfiThread) : Prop :=
  ∃ call e next pointer, t = running call (ask e next) pointer ∧ e.Puts

namespace StoreProcess

variable {ι : Type} {k : ℕ}

/-- Heal callbacks run on the workers, and nothing else does. -/
def Placed : FfiStep (ι ⊕ Fin k) → Prop
  | .call (.inl _) call => ∀ n key value, call ≠ .heal n key value
  | .call (.inr _) call => ∃ n key value, call = .heal n key value
  | _ => True

/-- The answer to a put is that its job has been processed. -/
def Awaited (s : StoreProcess ι k) : FfiStep (ι ⊕ Fin k) → Prop
  | .answer (.inl i) e _ => e.Puts → s.processed i = true
  | _ => True

variable [DecidableEq ι]

def processedAfter (s : StoreProcess ι k) : FfiStep (ι ⊕ Fin k) → ι → Bool
  | .answer (.inl i) (.put _ _) _ => Function.update s.processed i false
  | .answer (.inl i) (.putTopics _ _ _) _ => Function.update s.processed i false
  | _ => s.processed

end StoreProcess

def storeSystem (C : Core) (ι : Type) [DecidableEq ι] (k : ℕ) :
    TransitionSystem (StoreProcess ι k) (StoreStep ι k) where
  initial s := (ffiSystem C (ι ⊕ Fin k)).initial s.ffi ∧ ∀ i, s.processed i = false
  step s l s' := match l with
    | .ffi l => (ffiSystem C (ι ⊕ Fin k)).step s.ffi l s'.ffi ∧ StoreProcess.Placed l ∧
        s.Awaited l ∧ s'.processed = s.processedAfter l
    | .process w i => s.ffi.threads (.inr w) = .idle ∧ (s.ffi.threads (.inl i)).Putting ∧
        s' = { s with processed := Function.update s.processed i true }

namespace StoreProcess

variable {ι : Type} {k : ℕ}

/-- Call `i` holds the mutex and waits for its put, and every worker waits for the mutex. -/
structure Deadlocked (s : StoreProcess ι k) (i : ι) : Prop where
  owner : s.ffi.owner = some (.inl i)
  putting : (s.ffi.threads (.inl i)).Putting
  waits : s.processed i = false
  workers : ∀ w, (s.ffi.threads (.inr w)).WantsMutex

end StoreProcess

namespace FfiProcess

variable {ι : Type} [DecidableEq ι] {C : Core} {s s' : FfiProcess ι} {l : FfiStep ι} {i : ι}

theorem owner_step (howner : s.owner = some i) (hl : l ≠ .unlock i)
    (hstep : (ffiSystem C ι).step s l s') : s'.owner = some i := by
  have htaken : s.owner ≠ none := by
    rw [howner]
    nofun
  cases l with
  | call j call =>
      obtain ⟨-, hcall⟩ := hstep
      cases call with
      | live n topic data =>
          obtain ⟨-, rfl⟩ := hcall
          exact howner
      | heal n key value =>
          obtain ⟨-, -, rfl⟩ := hcall
          exact howner
      | _ =>
          obtain rfl := hcall
          exact howner
  | enter j =>
      obtain ⟨_, _, hfree, _⟩ := hstep
      exact absurd hfree htaken
  | subscribed j running =>
      obtain ⟨handle, topic, dartPort, -, rfl⟩ := hstep
      cases running <;> exact howner
  | lock j =>
      obtain ⟨_, _, _, _, hfree, _⟩ := hstep
      exact absurd hfree htaken
  | unlock j =>
      obtain ⟨_, _, _, _, _, _, hown, _, _⟩ := hstep
      obtain rfl := Option.some.inj (hown.symm.trans howner)
      exact absurd rfl hl
  | answer j e a =>
      obtain ⟨_, _, _, _, _, rfl⟩ := hstep
      exact (alike_answered _ e a).owner.trans howner
  | finish j =>
      obtain ⟨_, _, _, _, rfl⟩ := hstep
      exact howner
  | drained j =>
      obtain ⟨_, _, hfree, _, _⟩ := hstep
      exact absurd hfree htaken
  | teardown j =>
      obtain ⟨_, work, _, _, rfl⟩ := hstep
      exact (alike_destroyed work).owner.trans howner
  | take n =>
      obtain ⟨_, _, _, _, _, rfl⟩ := hstep
      exact howner
  | handOver n =>
      obtain ⟨_, _, rfl⟩ := hstep
      exact howner
  | workerReturn n =>
      obtain ⟨_, _, _, _, rfl⟩ := hstep
      exact howner

theorem wantsMutex_step (htaken : s.owner ≠ none) (hwants : (s.threads i).WantsMutex)
    (hstep : (ffiSystem C ι).step s l s') : s'.threads i = s.threads i := by
  rcases ffiSystem_threads hstep i with hsame | hchanged
  · exact hsame
  · generalize s'.threads i = t' at hchanged
    generalize s.threads i = t at hchanged hwants
    cases hchanged with
    | refused =>
        obtain ⟨_, _, hfree, _⟩ := hstep
        exact absurd hfree htaken
    | locked hfree => exact absurd hfree htaken
    | subscribing hfree => exact absurd hfree htaken
    | draining hfree => exact absurd hfree htaken
    | evicts _ hfree _ => exact absurd hfree htaken
    | lock hfree => exact absurd hfree htaken
    | tornDown hfree _ => exact absurd hfree htaken
    | teardown _ hstage => exact absurd hwants hstage
    | @answer call e a next pointer ha => cases e <;> first | exact ha.elim | exact hwants.elim
    | _ => exact hwants.elim

theorem putting_step (hputting : (s.threads i).Putting) (hstep : (ffiSystem C ι).step s l s') :
    s'.threads i = s.threads i ∨ ∃ e a, l = .answer i e a ∧ e.Puts := by
  obtain ⟨call, e, next, pointer, hthread, he⟩ := hputting
  rcases ffiSystem_threads hstep i with hsame | hchanged
  · exact .inl hsame
  · generalize s'.threads i = t' at hchanged
    rw [hthread] at hchanged
    generalize ht : FfiThread.running call (ask e next) pointer = t at hchanged
    cases hchanged with
    | answer ha =>
        cases ht
        exact .inr ⟨e, _, rfl, he⟩
    | lock _ =>
        cases ht
        exact he.elim
    | unlock _ _ =>
        cases ht
        exact he.elim
    | evicts h _ _ =>
        cases h with
        | atOnce hcalled _ => cases ht.trans hcalled
        | drained hdraining => cases ht.trans hdraining
    | _ => cases ht

end FfiProcess

namespace StoreProcess

variable {ι : Type} [DecidableEq ι] {k : ℕ} {C : Core} {s s' : StoreProcess ι k} {i : ι}

theorem processedAfter_of_ne {l : FfiStep (ι ⊕ Fin k)} (h : ∀ e a, l = .answer (.inl i) e a → ¬ e.Puts) :
    s.processedAfter l i = s.processed i := by
  cases l with
  | answer j e a =>
      cases j with
      | inl j =>
          by_cases hj : j = i
          · subst hj
            have hnot := h e a rfl
            cases e <;> first | rfl | exact absurd trivial hnot
          · cases e with
            | put key value => exact Function.update_of_ne (Ne.symm hj) _ _
            | putTopics key value topics => exact Function.update_of_ne (Ne.symm hj) _ _
            | _ => rfl
      | inr w => rfl
  | _ => rfl

/-- A deadlock stays for ever. -/
theorem Deadlocked.step {l : StoreStep ι k} (h : s.Deadlocked i) (hstep : (storeSystem C ι k).step s l s') :
    s'.Deadlocked i := by
  have htaken : s.ffi.owner ≠ none := by
    rw [h.owner]
    nofun
  cases l with
  | ffi l =>
      obtain ⟨hffi, -, hawaited, hprocessed⟩ := hstep
      have hanswer : ∀ e a, l = .answer (.inl i) e a → ¬ e.Puts := by
        rintro e a rfl he
        exact absurd (h.waits.symm.trans (hawaited he)) nofun
      have hthread : s'.ffi.threads (.inl i) = s.ffi.threads (.inl i) := by
        rcases FfiProcess.putting_step h.putting hffi with hsame | ⟨e, a, hl, he⟩
        · exact hsame
        · exact absurd he (hanswer e a hl)
      have hunlock : l ≠ .unlock (.inl i) := by
        rintro rfl
        obtain ⟨_, _, _, _, _, hunlocking, _⟩ := hffi
        obtain ⟨_, _, _, _, hputting, he⟩ := h.putting
        cases hunlocking.symm.trans hputting
        exact he
      refine ⟨FfiProcess.owner_step h.owner hunlock hffi, ?_, ?_, fun w => ?_⟩
      · rw [hthread]
        exact h.putting
      · rw [hprocessed, processedAfter_of_ne hanswer]
        exact h.waits
      · rw [FfiProcess.wantsMutex_step htaken (h.workers w) hffi]
        exact h.workers w
  | process w j =>
      obtain ⟨hidle, -⟩ := hstep
      have hwants := h.workers w
      rw [hidle] at hwants
      exact hwants.elim

theorem Deadlocked.run {ls : List (StoreStep ι k)} (h : s.Deadlocked i)
    (hrun : (storeSystem C ι k).Run s ls s') : s'.Deadlocked i :=
  hrun.invariant (I := fun s => s.Deadlocked i) (fun _ _ _ hu hstep => hu.step hstep) h

end StoreProcess

namespace StoreProcess

variable {ι : Type} [DecidableEq ι] {k : ℕ} {C : Core} {u u' : FfiProcess (ι ⊕ Fin k)}
  {Q : StoreProcess ι k → StoreStep ι k → Prop}

def quiet (u : FfiProcess (ι ⊕ Fin k)) : StoreProcess ι k := ⟨u, fun _ => false⟩

theorem ffi_step {processed : ι → Bool} {l : FfiStep (ι ⊕ Fin k)}
    (h : (ffiSystem C (ι ⊕ Fin k)).step u l u') (hplaced : Placed l)
    (hanswer : ∀ i e a, l = .answer (.inl i) e a → ¬ e.Puts) :
    (storeSystem C ι k).step ⟨u, processed⟩ (.ffi l) ⟨u', processed⟩ := by
  refine ⟨h, hplaced, ?_, funext fun i => (processedAfter_of_ne (hanswer i)).symm⟩
  cases l with
  | answer j e a =>
      cases j with
      | inl i => exact fun he => absurd he (hanswer i e a rfl)
      | inr w => exact trivial
  | _ => exact trivial

/-- A worker processes the job of a put, and the put returns. -/
theorem quiet_put {i : ι} {e : Effect Globals} {a : e.Answer} {w : Fin k} (he : e.Puts)
    (h : (ffiSystem C (ι ⊕ Fin k)).step u (.answer (.inl i) e a) u')
    (hidle : u.threads (.inr w) = .idle) :
    ∃ s, (storeSystem C ι k).step (quiet u) (.process w i) s ∧ s.ffi = u ∧
      (storeSystem C ι k).step s (.ffi (.answer (.inl i) e a)) (quiet u') := by
  have hputting : (u.threads (.inl i)).Putting := by
    obtain ⟨call, next, pointer, hthread, _⟩ := h
    exact ⟨call, e, next, pointer, hthread, he⟩
  have hset : Function.update (fun _ : ι => false) i true i = true := by rw [Function.update_self]
  refine ⟨⟨u, Function.update (fun _ => false) i true⟩, ⟨hidle, hputting, rfl⟩, rfl, h, trivial,
    fun _ => hset, ?_⟩
  have hcleared : Function.update (Function.update (fun _ : ι => false) i true) i false =
      fun _ => false := by
    rw [Function.update_idem, Function.update_eq_self_iff]
  cases e with
  | put key value => exact hcleared.symm
  | putTopics key value topics => exact hcleared.symm
  | _ => exact he.elim

/-- The step is no put of a call, or there is a worker for it that has nothing else to do. -/
def Served (w : Fin k) (u : FfiProcess (ι ⊕ Fin k)) (l : FfiStep (ι ⊕ Fin k)) : Prop :=
  Placed l ∧ (u.threads (.inr w) = .idle ∨ ∀ i e a, l = .answer (.inl i) e a → ¬ e.Puts)

/-- What the process does without waiting for a worker it does with the store. -/
theorem quiet_run {P : FfiProcess (ι ⊕ Fin k) → FfiStep (ι ⊕ Fin k) → Prop}
    {ls : List (FfiStep (ι ⊕ Fin k))} (h : ((ffiSystem C (ι ⊕ Fin k)).restrict P).Run u ls u')
    {w : Fin k} (hP : ∀ v l, P v l → Served w v l) (hQ : ∀ s l, P s.ffi l → Q s (.ffi l))
    (hprocess : ∀ s i, Q s (.process w i)) :
    ∃ ms, ((storeSystem C ι k).restrict Q).Run (quiet u) ms (quiet u') := by
  induction h with
  | nil => exact ⟨[], .nil _⟩
  | @snoc v v' ls l _ hlast ih =>
      obtain ⟨ms, hrun⟩ := ih
      obtain ⟨hstep, hmeets⟩ := hlast
      obtain ⟨hplaced, hserved⟩ := hP v l hmeets
      by_cases hputs : ∃ i e a, l = .answer (.inl i) e a ∧ e.Puts
      · obtain ⟨i, e, a, rfl, he⟩ := hputs
        have hidle := hserved.resolve_right fun hnot => hnot i e a rfl he
        obtain ⟨s, hjob, hffi, hanswer⟩ := quiet_put he hstep hidle
        refine ⟨ms ++ [.process w i] ++ [.ffi (.answer (.inl i) e a)],
          (hrun.snoc ⟨hjob, hprocess _ i⟩).snoc ⟨hanswer, hQ _ _ ?_⟩⟩
        rw [hffi]
        exact hmeets
      · have hstill : (storeSystem C ι k).step (quiet v) (.ffi l) (quiet v') :=
          ffi_step hstep hplaced fun i e a hl he => hputs ⟨i, e, a, hl, he⟩
        exact ⟨ms ++ [.ffi l], hrun.snoc ⟨hstill, hQ _ _ hmeets⟩⟩

theorem quiet_reachable {P : FfiProcess (ι ⊕ Fin k) → FfiStep (ι ⊕ Fin k) → Prop}
    (h : ((ffiSystem C (ι ⊕ Fin k)).restrict P).Reachable u) {w : Fin k}
    (hP : ∀ v l, P v l → Served w v l) (hQ : ∀ s l, P s.ffi l → Q s (.ffi l))
    (hprocess : ∀ s i, Q s (.process w i)) : ((storeSystem C ι k).restrict Q).Reachable (quiet u) := by
  obtain ⟨u₀, ls, h₀, hrun⟩ := h
  obtain ⟨ms, hquiet⟩ := quiet_run hrun hP hQ hprocess
  exact ⟨quiet u₀, ms, ⟨h₀, fun _ => rfl⟩, hquiet⟩

omit [DecidableEq ι] in
theorem placed_of_registeredBy {i : ι} {l : FfiStep (ι ⊕ Fin k)}
    (h : ∀ j call, l = .call j call → j = .inl i ∧ call.registeredBy = none) : Placed l := by
  cases l with
  | call j call =>
      obtain ⟨rfl, hcall⟩ := h j call rfl
      rintro n key value rfl
      cases hcall
  | _ => exact trivial

omit [DecidableEq ι] in
theorem served_of_initAlone {s : FfiProcess (ι ⊕ Fin k)} {i : ι} {w : Fin k} {l : FfiStep (ι ⊕ Fin k)}
    (hidle : s.threads (.inr w) = .idle) (h : FfiProcess.InitAlone s (.inl i) u l) : Served w u l := by
  refine ⟨placed_of_registeredBy (i := i) fun j call hl => ?_,
    .inl ((h.others _ Sum.inr_ne_inl).trans hidle)⟩
  obtain ⟨rfl, rfl⟩ := h.call j call hl
  exact ⟨rfl, rfl⟩

omit [DecidableEq ι] in
theorem served_of_routine {w : Fin k} {l : FfiStep (ι ⊕ Fin k)} (h : l.Routine) : Served w u l := by
  cases l with
  | call j call => exact h.elim
  | answer j e a =>
      refine ⟨trivial, .inr fun i e' a' hl => ?_⟩
      cases hl
      cases e <;> first | exact id | exact h.elim
  | _ => exact ⟨trivial, .inr fun _ _ _ => nofun⟩

end StoreProcess

namespace StoreProcess

variable {ι : Type} [DecidableEq ι] {k : ℕ} {C : Core} {s s' : StoreProcess ι k} {i : ι}

variable (C) in
/-- No command that gets to a write to the catalog takes the mutex. -/
def NoWrite (s : StoreProcess ι k) : StoreStep ι k → Prop
  | .ffi (.enter j) => ∀ handle topic bytes command,
      s.ffi.threads j = .called (.publish handle topic (some bytes)) →
        ¬ C.Reaches s.ffi.globals (handle.map (·.address)) topic bytes command
  | _ => True

omit [DecidableEq ι] in
theorem permits_of_noWrite {l : FfiStep (ι ⊕ Fin k)} (h : s.NoWrite C (.ffi l)) :
    s.ffi.Permits (fun _ e => e.Quick) C l := by
  cases l with
  | enter j =>
      exact fun handle topic bytes command hthread hreaches =>
        absurd hreaches (h handle topic bytes command hthread)
  | _ => exact trivial

omit [DecidableEq ι] in
theorem noWrite_of_not_enter {l : FfiStep (ι ⊕ Fin k)} (h : ∀ j, l ≠ .enter j) :
    s.NoWrite C (.ffi l) := by
  cases l with
  | enter j => exact absurd rfl (h j)
  | _ => exact trivial

def Unwritten (C : Core) (w : Fin k) (u : FfiProcess (ι ⊕ Fin k)) (l : FfiStep (ι ⊕ Fin k)) : Prop :=
  Served w u l ∧ ∀ processed, NoWrite C ⟨u, processed⟩ (.ffi l)

omit [DecidableEq ι] in
theorem unwritten_of_routine {u : FfiProcess (ι ⊕ Fin k)} {w : Fin k} {l : FfiStep (ι ⊕ Fin k)}
    (h : l.Routine) : Unwritten C w u l := by
  refine ⟨served_of_routine h, fun _ => noWrite_of_not_enter fun j hj => ?_⟩
  subst hj
  exact h

omit [DecidableEq ι] in
theorem allowsCall_unwritten {w : Fin k} {n : ℕ} {handle : Option Handle} {topic : Option Bytes}
    {bytes : Bytes} {command : GcsCommand} (hparse : C.parseCommand bytes = some command)
    (hwrites : ∀ e, ¬ command.Writes e) :
    FfiProcess.AllowsCall (Unwritten C w) (.inl i) (.publish handle topic (some bytes)) n where
  start _ := ⟨⟨fun _ _ _ => nofun, .inr fun _ _ _ => nofun⟩, fun _ => trivial⟩
  enter u hcalled _ := by
    refine ⟨⟨trivial, .inr fun _ _ _ => nofun⟩, fun _ handle' topic' bytes' command' hcalled' h => ?_⟩
    cases hcalled.symm.trans hcalled'
    cases hparse.symm.trans h.parses
    exact hwrites _ h.writes
  lock _ _ _ _ _ := ⟨⟨trivial, .inr fun _ _ _ => nofun⟩, fun _ => trivial⟩
  routine _ _ := unwritten_of_routine

omit [DecidableEq ι] in
theorem unwritten_of_initAlone {v u : FfiProcess (ι ⊕ Fin k)} {w : Fin k} {l : FfiStep (ι ⊕ Fin k)}
    (hidle : ∀ j, v.threads j = .idle) (h : FfiProcess.InitAlone v (.inl i) u l) : Unwritten C w u l := by
  refine ⟨served_of_initAlone (hidle _) h, fun processed => ?_⟩
  cases l with
  | enter j =>
      intro handle topic bytes command hcalled
      by_cases hj : j = .inl i
      · subst hj
        rcases h.self with hself | hself | ⟨_, hself⟩ <;> cases hself.symm.trans hcalled
      · cases (hidle j).symm.trans ((h.others j hj).symm.trans hcalled)
  | _ => exact trivial

/-- Under the mutex only what is quick is asked. -/
theorem sound_of_noWrite (h : ((storeSystem C ι k).restrict (NoWrite C)).Reachable s) :
    s.ffi.Sound fun _ e => e.Quick := by
  refine h.invariant (I := fun s => s.ffi.Sound fun _ e => e.Quick) (fun s₀ h₀ => ?_)
    fun u l w hu ⟨hstep, hnone⟩ => ?_
  · exact FfiProcess.Sound.initial (C := C) h₀.1
  · cases l with
    | ffi l => exact hu.step (fun _ _ he => he) (permits_of_noWrite hnone) hstep.1
    | process v j =>
        obtain ⟨-, -, rfl⟩ := hstep
        exact hu

end StoreProcess

namespace FfiProcess

variable {ι : Type} {s : FfiProcess ι} {i : ι}

theorem Sound.not_putting (h : s.Sound fun _ e => e.Quick) (howner : s.owner = some i) :
    ¬ (s.threads i).Putting := by
  rintro ⟨call, e, next, pointer, hthread, he⟩
  have hfits := h.fits i
  rw [hthread] at hfits
  obtain ⟨m, hmode, hbegins⟩ := hfits
  have hnot : ∀ next', ask e next ≠ ask .initSession next' := by
    intro next' hinit
    cases hinit
    exact he
  have hallows := (hbegins.follows hnot).1
  cases m with
  | inside w found => cases e <;> first | exact he.elim | exact hallows.elim
  | _ => exact hmode.1 howner

end FfiProcess

/-- In a run in which no command gets to a write to the catalog, no thread ever holds the mutex while
it waits for a put, so it never waits for workers that wait for the mutex. -/
theorem not_deadlocked_of_noWrite {C : Core} {ι : Type} [DecidableEq ι] {k : ℕ}
    {s : StoreProcess ι k} (h : ((storeSystem C ι k).restrict (StoreProcess.NoWrite C)).Reachable s)
    (i : ι) :
    ¬ (s.ffi.owner = some (.inl i) ∧ (s.ffi.threads (.inl i)).Putting) ∧ ¬ s.Deadlocked i := by
  have hsound := StoreProcess.sound_of_noWrite h
  have hnot : ¬ (s.ffi.owner = some (.inl i) ∧ (s.ffi.threads (.inl i)).Putting) :=
    fun ⟨howner, hputting⟩ => hsound.not_putting howner hputting
  exact ⟨hnot, fun hdead => hnot ⟨hdead.owner, hdead.putting⟩⟩

/-- Thread 0 waits for the put of its message and the only worker for the mutex, which nobody has. -/
theorem not_deadlocked_sendText : ∃ s : StoreProcess ℕ 1,
    (s.ffi.threads (.inl 0)).Putting ∧ s.processed 0 = false ∧ (s.ffi.threads (.inr 0)).WantsMutex ∧
      ¬ s.Deadlocked 0 := by
  let C := protoCore (Messaging.plaintext (ofString "self"))
  let P : FfiProcess (ℕ ⊕ Fin 1) → FfiStep (ℕ ⊕ Fin 1) → Prop := StoreProcess.Unwritten C 0
  let first := FfiProcess.firstSession (ℕ ⊕ Fin 1)
  let command := GcsCommand.sendText kSmokeTopicA (ofString "hello")
  let call := FfiCall.publish (some ⟨1, 1⟩) (some kCommandTopic) (some command.serialize)
  let msg := C.messaging.completeMessage kSmokeTopicA (ofString "hello") [] 0
  let payload := C.messaging.codec.serialize msg
  let opened : FfiProcess (ℕ ⊕ Fin 1) :=
    { first with globals := { startedGlobals 1 with inFlight := 1 } }
  let sending (p : Program Globals FfiResult) := opened.set (.inl 0) (.running call p (some 1))
  have hfirst : ((ffiSystem C (ℕ ⊕ Fin 1)).restrict P).Reachable first :=
    restrict_firstSession (.inl 0) fun _ _ => StoreProcess.unwritten_of_initAlone fun _ => rfl
  have hparse : C.parseCommand command.serialize = some command :=
    GcsCommand.parse_serialize ⟨validUtf8_ofString _, validUtf8_ofString _⟩
  have hanswer : ∀ u (e : Effect Globals) a, ¬ e.Puts → P u (.answer (.inl 0) e a) := by
    intro u e a he
    refine ⟨⟨trivial, .inr fun i e' a' hl => ?_⟩, fun _ => trivial⟩
    cases hl
    exact he
  have hsession : first.globals.session = some (⟨1, 1⟩ : Handle).address := rfl
  have hsealed : C.messaging.sealed [] kSmokeTopicA (C.messaging.codec.serialize msg) = some payload := rfl
  obtain ⟨next, next', hpublish, hnext⟩ := leads_sending (C := C) (P := P) (s := first) (i := .inl 0)
    rfl rfl hsession hparse (by decide) (by decide) (by decide) List.mem_cons_self (by decide) hsealed
    (StoreProcess.allowsCall_unwritten hparse fun _ => id) (fun u => hanswer u _ _ id)
    fun u => hanswer u _ _ id
  have hput : LeadsIn C P (sending (ask (.publish kSmokeTopicA payload) next))
      (sending (ask (.putTopics (buildKey kSmokeTopicA []) payload [kSmokeTopicA]) next')) := by
    refine LeadsIn.step (l := .answer (.inl 0) (.publish kSmokeTopicA payload) true) ⟨call, next, some 1,
      set_threads_self _ _ _, trivial, ?_⟩ (hanswer _ _ _ id)
    rw [← hnext]
    exact (set_set (s := opened) _ _).symm
  let e : Effect Globals := .putTopics (buildKey kSmokeTopicA []) payload [kSmokeTopicA]
  let key := slash :: buildKey kSmokeTopicA []
  let healing : FfiThread := .running (.heal 1 key payload)
    (ask .lock (entered (C.messaging.onMessageArrivedProgram key payload))) none
  have hidle : (sending (ask e next')).threads (.inr 0) = .idle := set_threads_of_ne _ _ Sum.inr_ne_inl
  have hhealing : LeadsIn C P (sending (ask e next')) ((sending (ask e next')).set (.inr 0) healing) :=
    leads_gated rfl ⟨hidle, List.mem_cons_self, rfl, rfl⟩ rfl
      ⟨⟨⟨1, key, payload, rfl⟩, .inr fun _ _ _ => nofun⟩, fun _ => trivial⟩
      fun u => StoreProcess.unwritten_of_routine trivial
  have hreachable := StoreProcess.quiet_reachable (Q := StoreProcess.NoWrite C) (w := 0)
    ((hpublish.trans (hput.trans hhealing)).restrict_reachable hfirst)
    (fun _ _ h => h.1) (fun s _ h => h.2 s.processed) fun _ _ => trivial
  refine ⟨StoreProcess.quiet ((sending (ask e next')).set (.inr 0) healing),
    ⟨call, e, next', some 1, ?_, trivial⟩, rfl, ?_, (not_deadlocked_of_noWrite hreachable 0).2⟩
  · exact (set_threads_of_ne _ _ Sum.inl_ne_inr).trans (set_threads_self _ _ _)
  · rw [StoreProcess.quiet, set_threads_self]
    exact trivial

namespace FfiProcess

variable {ι : Type} [DecidableEq ι] {C : Core} {s : FfiProcess ι} {i : ι}
  {P : FfiProcess ι → FfiStep ι → Prop}

/-- By answers that leave the process alone the program comes to its first put. -/
def ComesToPut (s : FfiProcess ι) (p : Program Globals FfiResult) : Prop :=
  ∃ key value next tr, Steps (answerWorld ι none) p s tr (ask (.put key value) next) s ∧
    ∀ x ∈ tr, ¬ x.1.Puts

omit [DecidableEq ι] in
theorem ComesToPut.here (key value : Bytes) (next : Bool → Program Globals FfiResult) :
    s.ComesToPut (ask (.put key value) next) := ⟨key, value, next, [], .nil _ _, List.forall_mem_nil _⟩

omit [DecidableEq ι] in
theorem ComesToPut.ask {e : Effect Globals} {next : e.Answer → Program Globals FfiResult} (a : e.Answer)
    (ha : answerWorld ι none s e a s) (he : ¬ e.Puts) (h : s.ComesToPut (next a)) :
    s.ComesToPut (Interactive.ask e next) := by
  obtain ⟨key, value, next', tr, hsteps, htr⟩ := h
  exact ⟨key, value, next', ⟨e, a⟩ :: tr, .cons a ha hsteps, List.forall_mem_cons.2 ⟨he, htr⟩⟩

omit [DecidableEq ι] in
theorem comesToPut_runCommand {g : Globals} {command : GcsCommand} (h : command.Writes g.entities)
    (f : Globals × GcsStatus → Program Globals FfiResult) :
    s.ComesToPut (C.runCommand g command >>= f) := by
  cases command with
  | createSpace name isPublic autoJoinRooms =>
      change s.ComesToPut (C.createSpace g name isPublic autoJoinRooms >>= f)
      rw [Core.createSpace, h]
      exact .ask [] ⟨trivial, rfl⟩ id (.ask (0 : ℤ) ⟨trivial, rfl⟩ id
        (.ask none ⟨trivial, rfl⟩ id (.here _ _ _)))
  | createRoom name parentSpaceId =>
      obtain ⟨hname, hparent⟩ := h
      have hvalid : ¬ (parentSpaceId ≠ [] ∧ ¬ g.entities.isValidParentSpace parentSpaceId) :=
        fun hinvalid => hinvalid.2 (hparent hinvalid.1)
      change s.ComesToPut (C.createRoom g name parentSpaceId >>= f)
      rw [Core.createRoom, hname]
      change s.ComesToPut ((if _ then _ else _) >>= f)
      rw [if_neg hvalid, EntityStore.createRoom, if_neg hvalid]
      exact .ask [] ⟨trivial, rfl⟩ id (.ask (0 : ℤ) ⟨trivial, rfl⟩ id
        (.ask none ⟨trivial, rfl⟩ id (.here _ _ _)))
  | updateSpace spaceId name isPublic autoJoinRooms =>
      obtain ⟨hid, hname, hlength, hvalid⟩ := h
      change s.ComesToPut (C.updateSpace g spaceId name isPublic autoJoinRooms >>= f)
      rw [Core.updateSpace, if_neg (by simp [hid, hname]), if_neg (Nat.not_lt_of_le hlength)]
      rw [EntityStore.isValidParentSpace] at hvalid
      split at hvalid
      · cases hvalid
      · next existing hfind =>
          have hdeleted : ¬ existing.deleted = true := by simpa using hvalid
          rw [EntityStore.updateSpace,
            show g.entities.mSpaces.find? (Core.desiredSpace spaceId name isPublic autoJoinRooms).id =
              some existing from hfind]
          change s.ComesToPut (((if _ then _ else _) >>= _) >>= f)
          rw [if_neg hdeleted]
          exact .ask (0 : ℤ) ⟨trivial, rfl⟩ id (.here _ _ _)
  | _ => exact h.elim

omit [DecidableEq ι] in
theorem comesToPut_publish {g : Globals} {handle : Option Handle} {topic : Option Bytes} {bytes : Bytes}
    {command : GcsCommand} (h : C.Reaches g (handle.map (·.address)) topic bytes command)
    (tearingDown : Bool) :
    s.ComesToPut (C.locked g tearingDown (.publish handle topic (some bytes))) := by
  have hcheck : ¬ (g.session = none ∨ handle.map (·.address) ≠ g.session ∨ bytes = [] ∨
      kMaxInt < bytes.length) := by
    simp [h.up, h.session, h.payload.1, h.payload.2]
  rw [h.topic]
  change s.ComesToPut (C.publishLocked g (handle.map (·.address)) (some kCommandTopic) (some bytes)
    >>= _)
  rw [Core.publishLocked, if_neg hcheck]
  refine .ask true ⟨trivial, rfl⟩ id ?_
  rw [h.parses]
  exact comesToPut_runCommand h.writes _

theorem leads_putting {handle : Option Handle} {topic : Option Bytes} {bytes : Bytes}
    {command : GcsCommand}
    (hthread : s.threads i = .called (.publish handle topic (some bytes))) (hfree : s.owner = none)
    (h : C.Reaches s.globals (handle.map (·.address)) topic bytes command)
    (henter : P s (.enter i)) (hanswer : ∀ (u : FfiProcess ι) t e a, u.threads = s.threads →
      ¬ e.Puts → P (u.set i t) (.answer i e a)) :
    ∃ key value next, LeadsIn C P s (({ s with owner := some i } : FfiProcess ι).set i
      (.running (.publish handle topic (some bytes)) (ask (.put key value) next) none)) := by
  let held : FfiProcess ι := { s with owner := some i }
  obtain ⟨key, value, next, tr, hsteps, htr⟩ := comesToPut_publish (s := held) h s.tearingDown
  refine ⟨key, value, next, (LeadsIn.step (l := .enter i) ⟨_, hthread, hfree, rfl⟩ henter).trans ?_⟩
  exact leads_steps (s := held) _ hsteps fun u p e a hu hmem => hanswer u _ e a hu (htr _ hmem)

end FfiProcess

namespace StoreProcess

variable {ι : Type} [DecidableEq ι] {k : ℕ} {C : Core} {s : StoreProcess ι k}

theorem run_of_leadsIn (processed : ι → Bool) {u u' : FfiProcess (ι ⊕ Fin k)}
    (h : FfiProcess.LeadsIn C (fun _ l => Placed l ∧ ∀ i e a, l = .answer (.inl i) e a → ¬ e.Puts) u u') :
    ∃ ls, (storeSystem C ι k).Run ⟨u, processed⟩ ls ⟨u', processed⟩ := by
  obtain ⟨ls, hrun⟩ := h
  induction hrun with
  | nil => exact ⟨[], .nil _⟩
  | snoc _ hlast ih =>
      obtain ⟨ms, hrun⟩ := ih
      exact ⟨_, hrun.snoc (ffi_step hlast.1 hlast.2.1 hlast.2.2)⟩

/-- Wherever a command that gets to a write takes the mutex, it may keep it until it waits for a put. -/
theorem putting_of_reaches {i : ι} {handle : Option Handle} {topic : Option Bytes} {bytes : Bytes}
    {command : GcsCommand}
    (hthread : s.ffi.threads (.inl i) = .called (.publish handle topic (some bytes)))
    (hfree : s.ffi.owner = none)
    (h : C.Reaches s.ffi.globals (handle.map (·.address)) topic bytes command) :
    ∃ ls s', (storeSystem C ι k).Run s ls s' ∧ s'.ffi.owner = some (.inl i) ∧
      (s'.ffi.threads (.inl i)).Putting := by
  obtain ⟨key, value, next, hleads⟩ := FfiProcess.leads_putting
    (P := fun _ l => Placed l ∧ ∀ i e a, l = .answer (.inl i) e a → ¬ e.Puts) hthread hfree h
    ⟨trivial, fun _ _ _ => nofun⟩ fun u t e a _ he => ⟨trivial, fun j e' a' hl => by cases hl; exact he⟩
  obtain ⟨ls, hrun⟩ := run_of_leadsIn s.processed hleads
  exact ⟨ls, _, hrun, rfl, _, _, next, none, FfiProcess.set_threads_self _ _ _, trivial⟩

end StoreProcess

/-- Thread 0 calls `create_space` in the first session, and while it puts the manifest with the mutex
in its hands, the only worker gets a message record. -/
theorem deadlocked_createSpace : ∃ s : StoreProcess ℕ 1,
    (storeSystem (protoCore (Messaging.plaintext (ofString "self"))) ℕ 1).Reachable s ∧
      s.Deadlocked 0 := by
  let C := protoCore (Messaging.plaintext (ofString "self"))
  let P : FfiProcess (ℕ ⊕ Fin 1) → FfiStep (ℕ ⊕ Fin 1) → Prop := StoreProcess.Served 0
  have hvalid : (GcsCommand.createSpace (ofString "space") true false).Valid := validUtf8_ofString _
  have hother : ∀ (u : FfiProcess (ℕ ⊕ Fin 1)) t,
      (u.set (.inl 0) t).threads (.inr 0) = u.threads (.inr 0) :=
    fun u t => FfiProcess.set_threads_of_ne _ _ Sum.inr_ne_inl
  have hfirst : ((ffiSystem C (ℕ ⊕ Fin 1)).restrict P).Reachable
      (FfiProcess.firstSession (ℕ ⊕ Fin 1)) :=
    FfiProcess.restrict_firstSession (.inl 0) fun _ _ halone =>
      StoreProcess.served_of_initAlone rfl halone
  let first := FfiProcess.firstSession (ℕ ⊕ Fin 1)
  let command := GcsCommand.createSpace (ofString "space") true false
  let call := FfiCall.publish (some ⟨1, 1⟩) (some kCommandTopic) (some command.serialize)
  have hcall : FfiProcess.LeadsIn C P first (first.set (.inl 0) (.called call)) :=
    FfiProcess.LeadsIn.step (l := .call (.inl 0) call) ⟨rfl, rfl⟩ ⟨fun _ _ _ => nofun, .inl rfl⟩
  have hname : Core.nameRejection (ofString "create_space") (ofString "space") = none := by decide
  have hreaches : C.Reaches first.globals (some 1) (some kCommandTopic) command.serialize command :=
    ⟨nofun, rfl, ⟨by decide, by decide⟩, rfl, GcsCommand.parse_serialize hvalid, hname⟩
  obtain ⟨key, value, next, hputting⟩ := FfiProcess.leads_putting (C := C) (P := P)
    (s := first.set (.inl 0) (.called call)) (FfiProcess.set_threads_self _ _ _) rfl hreaches
    ⟨trivial, .inl (hother first _)⟩ fun u t e a hu _ =>
      ⟨trivial, .inl ((hother u t).trans ((congrFun hu (.inr 0)).trans (hother first _)))⟩
  let putting : FfiProcess (ℕ ⊕ Fin 1) :=
    ({ first.set (.inl 0) (.called call) with owner := some (.inl 0) } : FfiProcess (ℕ ⊕ Fin 1)).set
      (.inl 0) (.running call (ask (.put key value) next) none)
  let healing : FfiThread := .running (FfiProcess.idleHeal 1)
    (ask .lock (FfiProcess.entered (C.messaging.onMessageArrivedProgram [] []))) none
  have hidle : putting.threads (.inr 0) = .idle := (hother _ _).trans (hother first (.called call))
  have hhealing : FfiProcess.LeadsIn C P putting (putting.set (.inr 0) healing) :=
    FfiProcess.leads_gated rfl ⟨hidle, List.mem_cons_self, rfl, rfl⟩ rfl
      ⟨⟨1, [], [], rfl⟩, .inr fun _ _ _ => nofun⟩ fun u => ⟨trivial, .inr fun _ _ _ => nofun⟩
  have hreachable : (storeSystem C ℕ 1).Reachable
      (StoreProcess.quiet (putting.set (.inr 0) healing)) :=
    Reachable.of_restrict <| StoreProcess.quiet_reachable (Q := fun _ _ => True) (w := 0)
      (hhealing.restrict_reachable (hputting.restrict_reachable (hcall.restrict_reachable hfirst)))
      (fun _ _ h => h) (fun _ _ _ => trivial) fun _ _ => trivial
  refine ⟨_, hreachable, rfl, ⟨call, .put key value, next, none, ?_, trivial⟩, rfl, fun w => ?_⟩
  · exact (FfiProcess.set_threads_of_ne _ _ Sum.inl_ne_inr).trans (FfiProcess.set_threads_self _ _ _)
  · obtain rfl : w = 0 := Subsingleton.elim w 0
    rw [StoreProcess.quiet, FfiProcess.set_threads_self]
    exact trivial

end GcsChat
