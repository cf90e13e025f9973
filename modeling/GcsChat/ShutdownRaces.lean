import GcsChat.SessionLife

/-!
# Several shutdowns at once

More than one `gcs_shutdown` may wait for the windows of a session. The first one that gets the mutex
back evicts the session, and `g_tearingDown` keeps `gcs_init` out until it has destroyed it. The
others go through the teardown as well: with nothing to destroy they are done at once and clear the
flag for all, and a session that has come up in the meantime they take for the one they were called
for.
-/

namespace GcsChat

open Interactive TransitionSystem FfiProcess

def FfiThread.work : FfiThread → Option (Handle × Teardown)
  | tearingDown handle work => some (handle, work)
  | _ => none

/-- The thread is between the eviction and the end of the destruction. -/
def FfiThread.Destroying (t : FfiThread) : Prop :=
  ∃ handle work, t.work = some (handle, work) ∧ work.stage ≠ .relock

theorem FfiThread.not_destroying_of_work {t : FfiThread} (h : t.work = none) : ¬ t.Destroying :=
  fun ⟨_, _, hwork, _⟩ => nomatch h.symm.trans hwork

def FfiThread.Boots (t : FfiThread) : Prop :=
  ∃ call next pointer, t = running call (ask .initSession next) pointer

section Exclusion

variable {ι : Type} {C : Core} {s s' : FfiProcess ι}

/-- The flag is up as long as a session is being destroyed. -/
def FfiProcess.Exclusive (s : FfiProcess ι) : Prop :=
  ∀ j, (s.threads j).Destroying → s.tearingDown = true

/-- A teardown that ends, and clears the flag, is the last one that has something to destroy. -/
def EndsAlone (s : FfiProcess ι) : FfiStep ι → Prop
  | .teardown i => ∀ handle work, s.threads i = .tearingDown handle work → work.stage = .relock →
      ∀ j, ¬ (s.threads j).Destroying
  | _ => True

theorem tearingDown_destroyed {work : Teardown} (h : work.stage ≠ .relock) :
    (s.destroyed work).tearingDown = s.tearingDown := by
  obtain ⟨booted, evicted, stage⟩ := work
  cases stage with
  | relock => exact absurd rfl h
  | _ => cases evicted <;> rfl

theorem not_boots_locked {g : Globals} (call : FfiCall) (next : Option ℕ → Program Globals FfiResult) :
    C.locked g true call ≠ ask .initSession next := by
  intro hboots
  cases call with
  | init configAccepted =>
      rw [Core.locked, if_pos (.inl rfl)] at hboots
      cases hboots
  | publish handle topic payload =>
      rw [Core.locked] at hboots
      cases topic with
      | none => cases hboots
      | some topic =>
          cases payload with
          | none => cases hboots
          | some bytes =>
              rw [Core.publishLocked] at hboots
              split at hboots <;> cases hboots
  | _ => cases hboots

theorem not_boots_of_follows {call : FfiCall} {p : Program Globals FfiResult} {m : Mode}
    (h : p.Follows (mutexDiscipline (C.May call)) m (callEnds call))
    (next : Option ℕ → Program Globals FfiResult) : p ≠ ask .initSession next := by
  rintro rfl
  cases m with
  | inside w found =>
      rcases h.1 with hquick | ⟨-, key, value, hput⟩
      · exact hquick
      · cases hput
  | _ => exact h.1.elim

variable [DecidableEq ι]

theorem destroying_step {l : FfiStep ι} (hstep : (ffiSystem C ι).step s l s') {j : ι}
    (hj : (s'.threads j).Destroying) :
    (s.threads j).Destroying ∨ s.owner = none ∧ ∃ handle, s' = s.evict j handle := by
  rcases ffiSystem_threads hstep j with hsame | hthread
  · rw [hsame] at hj
    exact .inl hj
  · obtain ⟨handle, work, hwork, hstage⟩ := hj
    generalize s'.threads j = t' at hthread hwork
    generalize s.threads j = t at hthread ⊢
    cases hthread with
    | evicts hevicts hfree hidle => exact .inr ⟨hfree, _, eq_evict hevicts hidle hstep⟩
    | teardown _ hbefore => exact .inl ⟨_, _, rfl, hbefore⟩
    | _ => cases hwork

theorem Exclusive.step {l : FfiStep ι} (h : s.Exclusive) {P : FfiCall → Effect Globals → Prop}
    (hsound : s.Sound P) (halone : EndsAlone s l) (hstep : (ffiSystem C ι).step s l s') :
    s'.Exclusive := by
  intro j hj
  rcases destroying_step hstep hj with hbefore | ⟨-, handle, rfl⟩
  · cases hsound.sessionStep hstep with
    | kept hkept =>
        rcases hkept.tearingDown with hflag | ⟨i, handle, work, rfl, hthread, rfl⟩
        · rw [hflag]
          exact h j hbefore
        · by_cases hrelock : work.stage = .relock
          · exact absurd hbefore (halone handle work hthread hrelock j)
          · change (s.destroyed work).tearingDown = true
            rw [tearingDown_destroyed hrelock]
            exact h j hbefore
    | evicts i handle _ _ _ hs' =>
        rw [hs']
        exact tearingDown_evict i handle
    | publishes _ _ _ _ _ hs' =>
        rw [hs']
        exact h j hbefore
  · exact tearingDown_evict j handle

/-- A call comes to build a session only right after its check of the flag. -/
theorem boots_step {l : FfiStep ι} (hsound : s.Sound C.May)
    (hstep : (ffiSystem C ι).step s l s') {i : ι} (hboots : (s'.threads i).Boots) :
    s'.threads i = s.threads i ∨ s.tearingDown = false := by
  refine (ffiSystem_threads hstep i).imp_right fun hthread => ?_
  obtain ⟨call, next, pointer, hboots⟩ := hboots
  rw [hboots] at hthread
  generalize ht : s.threads i = t at hthread
  generalize hp : (ask .initSession next : Program Globals FfiResult) = p at hthread
  cases hthread with
  | callback =>
      exact absurd hp.symm (not_boots_of_follows
        (follows_callback (P := C.May call) (fun e he => .inl he) call) next)
  | locked hfree =>
      by_contra hflag
      rw [Bool.not_eq_false] at hflag
      rw [hflag] at hp
      exact not_boots_locked call next hp.symm
  | lock hfree => exact absurd hp.symm (not_boots_of_follows (hsound.rest_lock ht hfree) next)
  | unlock howner hpointer =>
      rcases (hsound.rest_unlock ht howner).2 with ⟨-, hfollows⟩ | ⟨-, -, hfollows⟩
      · exact absurd hp.symm (not_boots_of_follows hfollows next)
      · exact absurd hp.symm (not_boots_of_follows hfollows next)
  | answer ha =>
      obtain ⟨m, -, hfollows⟩ := hsound.rest_answer ht _ ha
      exact absurd hp.symm (not_boots_of_follows hfollows next)
  | greets => cases hp
  | notRunning => cases hp

omit [DecidableEq ι] in
theorem owner_of_boots (hsound : s.Sound C.May) {i : ι}
    (hboots : (s.threads i).Boots) : s.owner = some i := by
  obtain ⟨call, next, pointer, hthread⟩ := hboots
  have hfits := hsound.fits i
  rw [hthread] at hfits
  obtain ⟨m, hmode, hfollows | ⟨⟨found, rfl⟩, -⟩⟩ := hfits
  · exact absurd rfl (not_boots_of_follows hfollows next)
  · exact hmode.1

theorem boots_alone_step {l : FfiStep ι} (hsound : s.Sound C.May)
    (hexclusive : s.Exclusive) (h : ∀ i, (s.threads i).Boots → ∀ j, ¬ (s.threads j).Destroying)
    (hstep : (ffiSystem C ι).step s l s') (i : ι) (hboots : (s'.threads i).Boots) (j : ι) :
    ¬ (s'.threads j).Destroying := by
  intro hj
  rcases destroying_step hstep hj with hbefore | ⟨hfree, handle, rfl⟩
  · rcases boots_step hsound hstep hboots with hsame | hflag
    · exact h i (hsame ▸ hboots) j hbefore
    · exact absurd ((hexclusive j hbefore).symm.trans hflag) nofun
  · by_cases hij : i = j
    · subst hij
      obtain ⟨handle', work, hwork, -⟩ := hj
      obtain ⟨call, next, pointer, hrunning⟩ := hboots
      rw [hrunning] at hwork
      cases hwork
    · rw [evict_threads_of_ne handle hij] at hboots
      exact absurd (hfree.symm.trans (owner_of_boots hsound hboots)) nofun

end Exclusion

/-- In every run in which each teardown that ends, and clears the flag, is the last one with anything
to destroy, no `gcs_init` comes to build a session while a session is being destroyed. -/
theorem not_destroying_of_boots {C : Core} {ι : Type} [DecidableEq ι] {s : FfiProcess ι}
    (h : ((ffiSystem C ι).restrict EndsAlone).Reachable s) {i : ι} (hboots : (s.threads i).Boots)
    (j : ι) : ¬ (s.threads j).Destroying := by
  have hinv : s.Sound C.May ∧ s.Exclusive ∧
      ∀ i, (s.threads i).Boots → ∀ j, ¬ (s.threads j).Destroying := by
    refine h.invariant (I := fun s => s.Sound C.May ∧ s.Exclusive ∧
      ∀ i, (s.threads i).Boots → ∀ j, ¬ (s.threads j).Destroying) (fun s₀ h₀ => ?_)
        fun u l w ⟨hsound, hexclusive, halone⟩ hstep => ?_
    · refine ⟨Sound.initial (C := C) h₀, ?_, ?_⟩
      · obtain ⟨nodeUp, rfl⟩ := h₀
        exact fun j hj => absurd hj (FfiThread.not_destroying_of_work rfl)
      · obtain ⟨nodeUp, rfl⟩ := h₀
        rintro i ⟨_, _, _, hrunning⟩
        cases hrunning
    · exact ⟨hsound.step_may hstep.1, Exclusive.step hexclusive hsound hstep.2 hstep.1,
        boots_alone_step hsound hexclusive halone hstep.1⟩
  exact hinv.2.2 i hboots j

theorem endsAlone_of_not_teardown {ι : Type} {s : FfiProcess ι} {l : FfiStep ι}
    (h : ∀ i, l ≠ .teardown i) : EndsAlone s l := by
  cases l with
  | teardown i => exact absurd rfl (h i)
  | _ => trivial

theorem allowsCall_endsAlone {ι : Type} (i : ι) (call : FfiCall) (n : ℕ) :
    AllowsCall EndsAlone i call n := by
  refine ⟨fun _ => trivial, fun _ _ _ => trivial, fun _ _ _ _ _ => trivial, fun u l hl =>
    endsAlone_of_not_teardown fun j hj => ?_⟩
  subst hj
  exact hl

theorem endsAlone_of_others {ι : Type} {s : FfiProcess ι} {i : ι}
    (h : ∀ j, j ≠ i → (s.threads j).work = none) : EndsAlone s (.teardown i) := by
  intro handle work hthread hstage j hj
  by_cases hji : j = i
  · subst hji
    obtain ⟨handle', work', hwork, hnot⟩ := hj
    rw [hthread] at hwork
    cases hwork
    exact hnot hstage
  · exact FfiThread.not_destroying_of_work (h j hji) hj

theorem endsAlone_of_initAlone {s u : FfiProcess ℕ} {i : ℕ} {l : FfiStep ℕ} (h : InitAlone s i u l)
    (hidle : ∀ j, s.threads j = .idle) : EndsAlone u l := by
  cases l with
  | teardown j =>
      intro handle work hthread
      by_cases hj : j = i
      · subst hj
        rcases h.self with hself | hself | ⟨_, hself⟩ <;> cases hself.symm.trans hthread
      · cases (hidle j).symm.trans ((h.others j hj).symm.trans hthread)
  | _ => trivial

/-- One of two shutdowns that have waited destroys the session, the other one finds nothing to do and
clears the flag again, and `gcs_init` comes to build the next session. -/
theorem not_destroying_twoDrained : ∃ s : FfiProcess ℕ, (s.threads 0).Boots ∧
    (s.objects 1).session = false ∧ s.tearingDown = false ∧ ¬ (s.threads 2).Destroying := by
  let C := protoCore (Messaging.plaintext [])
  let evicted := twoDrained.evict 2 ⟨1, 1⟩
  let torn := evicted.torn 2 1
  let again := torn.evict 3 ⟨1, 1⟩
  let cleared := again.tearDown 3 ⟨1, 1⟩ (.start false none)
  let called := cleared.set 0 (.called (.init true))
  have hthreads : ∀ j, j ≠ 2 → evicted.threads j = .idle ∨ evicted.threads j = .draining ⟨1, 1⟩ := by
    intro j hj
    have hsame : evicted.threads j = twoDrained.threads j := set_threads_of_ne _ _ hj
    rw [hsame]
    exact twoDrained_threads j
  have hwork : ∀ j, j ≠ 2 → (evicted.threads j).work = none := by
    intro j hj
    rcases hthreads j hj with hidle | hdraining
    · rw [hidle]
      rfl
    · rw [hdraining]
      rfl
  have hfirst : ((ffiSystem C ℕ).restrict EndsAlone).Reachable (firstSession ℕ) :=
    restrict_firstSession 0 fun _ _ halone => endsAlone_of_initAlone halone fun _ => rfl
  have hdrained : LeadsIn C EndsAlone (firstSession ℕ) twoDrained :=
    leads_twoDrained (allowsCall_endsAlone 1 _ 1) fun i => allowsCall_endsAlone i _ 1
  have hevict : LeadsIn C EndsAlone twoDrained evicted := leads_evict rfl rfl rfl trivial
  have htorn : LeadsIn C EndsAlone evicted torn := by
    refine leads_torn rfl rfl rfl rfl rfl (fun j key value program pointer hj => ?_) fun u l halone => ?_
    · by_cases hj2 : j = 2
      · subst hj2
        cases hj
      · rcases hthreads j hj2 with hidle | hdraining
        · cases hidle.symm.trans hj
        · cases hdraining.symm.trans hj
    · cases l with
      | teardown j =>
          obtain rfl := halone.teardown j rfl
          refine endsAlone_of_others fun j hj => ?_
          rw [halone.others j hj]
          exact hwork j hj
      | _ => trivial
  have hagain : LeadsIn C EndsAlone torn again := leads_evict rfl rfl rfl trivial
  have hcleared : LeadsIn C EndsAlone again cleared := by
    refine leads_teardown rfl rfl (endsAlone_of_others fun j hj => ?_)
    by_cases hj2 : j = 2
    · subst hj2
      rfl
    · have hsame : again.threads j = evicted.threads j :=
        (set_threads_of_ne _ _ hj).trans (set_threads_of_ne _ _ hj2)
      rw [hsame]
      exact hwork j hj2
  have hcall : LeadsIn C EndsAlone cleared called :=
    LeadsIn.step (l := .call 0 (.init true)) ⟨rfl, rfl⟩ trivial
  have henter : LeadsIn C EndsAlone called (called.enter C 0 (.init true)) :=
    LeadsIn.step (l := .enter 0) ⟨.init true, rfl, rfl, rfl⟩ trivial
  have hreachable : ((ffiSystem C ℕ).restrict EndsAlone).Reachable (called.enter C 0 (.init true)) :=
    (hdrained.trans (hevict.trans (htorn.trans (hagain.trans (hcleared.trans
      (hcall.trans henter)))))).restrict_reachable hfirst
  have hboots : ((called.enter C 0 (.init true)).threads 0).Boots := ⟨.init true, _, none, rfl⟩
  exact ⟨_, hboots, rfl, rfl, not_destroying_of_boots hreachable hboots 2⟩

/-- A session is destroyed by one of two shutdowns, the other one clears the flag, and `gcs_init`
comes to build a session. -/
theorem boots_while_destroying : ∃ s : FfiProcess ℕ,
    (ffiSystem (protoCore (Messaging.plaintext [])) ℕ).Reachable s ∧ (s.threads 0).Boots ∧
      (s.threads 2).Destroying := by
  let C := protoCore (Messaging.plaintext [])
  let evicted := twoDrained.evict 2 ⟨1, 1⟩
  let again := evicted.evict 3 ⟨1, 1⟩
  let cleared := again.tearDown 3 ⟨1, 1⟩ (.start false none)
  have hevict : Leads C twoDrained evicted := leads_evict rfl rfl rfl trivial
  have hagain : Leads C evicted again := leads_evict rfl rfl rfl trivial
  have hcleared : Leads C again cleared := leads_teardown rfl rfl trivial
  let called := cleared.set 0 (.called (.init true))
  have hcall : Leads C cleared called := Leads.step (l := .call 0 (.init true)) ⟨rfl, rfl⟩
  have henter : Leads C called (called.enter C 0 (.init true)) :=
    Leads.step (l := .enter 0) ⟨.init true, rfl, rfl, rfl⟩
  refine ⟨called.enter C 0 (.init true), ?_, ⟨.init true, _, none, rfl⟩,
    ⟨1, 1⟩, .start false (some 1), rfl, nofun⟩
  exact (hevict.trans (hagain.trans (hcleared.trans (hcall.trans henter)))).reachable
    (reachable_twoDrained C)

end GcsChat
