import GcsChat.SessionLife

/-!
# Which session a handle names

The code knows a session by its address: `gcs_publish`, `gcs_subscribe` and `gcs_shutdown` compare
the handle with the session that is up, and a `gcs_shutdown` that has waited takes whatever is up
then. The address stands for the session as long as no later one is allocated there, and the
session that is up for the one waited for as long as none comes up in the meantime.
-/

namespace GcsChat

open Interactive TransitionSystem

def FfiCall.handle : FfiCall → Option Handle
  | publish handle _ _ => handle
  | subscribe handle _ _ => handle
  | shutdown handle => handle
  | _ => none

/-- The handle that the thread has been called with and still goes by. -/
def FfiThread.handle : FfiThread → Option Handle
  | called call => call.handle
  | subscribing handle _ _ => some handle
  | draining handle => some handle
  | tearingDown handle _ => some handle
  | _ => none

namespace FfiProcess

section Statements

variable {ι : Type}

def Issued (s : FfiProcess ι) (handle : Handle) : Prop :=
  0 < handle.session ∧ handle.session ≤ s.built ∧
    (s.objects handle.session).address = handle.address

/-- Callers pass the handles they were given. A session comes up where none was before, and not while
a `gcs_shutdown` waits. -/
def KeepsApart (s : FfiProcess ι) : FfiStep ι → Prop
  | .call _ call => ∀ handle, call.handle = some handle → s.Issued handle
  | .unlock i => ∀ call g next pointer address,
      s.threads i = .running call (ask (.unlock g) next) pointer → s.globals.session = none →
        g.session = some address →
          (∀ n, 0 < n → n ≤ s.built → (s.objects n).address ≠ address) ∧
            ∀ j handle, s.threads j ≠ .draining handle
  | _ => True

/-- Addresses tell sessions apart, and shutdowns have what they were called for. -/
structure Apart (s : FfiProcess ι) : Prop where
  addresses : ∀ m n, 0 < m → m ≤ s.built → 0 < n → n ≤ s.built →
    (s.objects m).address = (s.objects n).address → m = n
  built : s.globals.session ≠ none → 0 < s.built
  handles : ∀ i handle, (s.threads i).handle = some handle → s.Issued handle
  draining : ∀ i handle, s.threads i = .draining handle →
    s.globals.session = none ∨ handle.session = s.built
  own : ∀ i handle work n, s.threads i = .tearingDown handle work → work.evicted = some n →
    n = handle.session

variable {s : FfiProcess ι} {P : FfiCall → Effect Globals → Prop}

/-- The handle that equals the address of the session that is up was issued for it. -/
theorem Apart.session_eq (h : s.Apart) (hsound : s.Sound P) {handle : Handle}
    (hissued : s.Issued handle) (hsession : s.globals.session = some handle.address) :
    handle.session = s.built := by
  obtain ⟨hpos, hle, haddress⟩ := hissued
  have hup := hsound.up handle.address hsession
  have hbuilt : 0 < s.built := h.built (by rw [hsession]; nofun)
  exact h.addresses _ _ hpos hle hbuilt le_rfl (haddress.trans hup.address.symm)

end Statements

section Steps

variable {ι : Type} [DecidableEq ι] {C : Core} {P : FfiCall → Effect Globals → Prop} {s s' : FfiProcess ι}
  {l : FfiStep ι}

theorem published_address {g : Globals} {address n : ℕ} (hn : n ≤ s.built) {i : ι} {t : FfiThread} :
    (((s.published g address).set i t).objects n).address = (s.objects n).address := by
  change (Function.update s.objects (s.built + 1) _ n).address = _
  rw [Function.update_of_ne (by omega)]

theorem Issued.step (h : SessionStep s l s') {handle : Handle} (hissued : s.Issued handle) :
    s'.Issued handle := by
  obtain ⟨hpos, hle, haddress⟩ := hissued
  cases h with
  | kept hkept =>
      refine ⟨hpos, ?_, ?_⟩
      · rw [hkept.built]
        exact hle
      · rw [hkept.address]
        exact haddress
  | evicts i handle' _ _ _ hs' =>
      subst hs'
      refine ⟨hpos, ?_, ?_⟩
      · rw [evict_built]
        exact hle
      · rw [evict_objects]
        exact haddress
  | publishes _ _ _ _ _ hs' =>
      subst hs'
      exact ⟨hpos, Nat.le_succ_of_le hle, (published_address hle).trans haddress⟩

theorem Apart.handles_step (h : s.Apart) (hsound : s.Sound P) (hkeeps : s.KeepsApart l)
    (hstep : (ffiSystem C ι).step s l s') (i : ι) (handle : Handle)
    (hhandle : (s'.threads i).handle = some handle) : s'.Issued handle := by
  refine Issued.step (hsound.sessionStep hstep) ?_
  rcases ffiSystem_threads hstep i with hsame | hthread
  · exact h.handles i handle (hsame ▸ hhandle)
  · have hbefore := h.handles i handle
    generalize s'.threads i = t' at hthread hhandle
    generalize ht : s.threads i = t at hthread hbefore
    cases hthread with
    | call => exact hkeeps handle hhandle
    | evicts hevicts _ _ =>
        apply hbefore
        obtain rfl := Option.some.inj hhandle
        cases hevicts with
        | atOnce hcalled _ =>
            rw [hcalled]
            rfl
        | drained hdraining =>
            rw [hdraining]
            rfl
    | subscribing _ _ _ => exact hbefore hhandle
    | draining _ _ _ => exact hbefore hhandle
    | teardown _ _ => exact hbefore hhandle
    | _ => cases hhandle

theorem Apart.draining_step (h : s.Apart) (hsound : s.Sound P) (hkeeps : s.KeepsApart l)
    (hstep : (ffiSystem C ι).step s l s') (i : ι) (handle : Handle)
    (hdraining : s'.threads i = .draining handle) :
    s'.globals.session = none ∨ handle.session = s'.built := by
  have hthread := ffiSystem_threads hstep i
  rw [hdraining] at hthread
  cases hsound.sessionStep hstep with
  | kept hkept =>
      rw [hkept.session, hkept.built]
      rcases hthread with hsame | hthread
      · exact h.draining i handle hsame.symm
      · have hissued := h.handles i handle
        generalize s.threads i = t at hthread hissued
        cases hthread with
        | draining _ hup _ => exact .inr (h.session_eq hsound (hissued rfl) hup)
  | evicts j handle' _ _ _ hs' =>
      subst hs'
      exact .inl (evict_session j handle')
  | publishes hl hrunning _ hdown hup _ =>
      subst hl
      rcases hthread with hsame | hthread
      · exact absurd hsame.symm ((hkeeps _ _ _ _ _ hrunning hdown hup).2 i handle)
      · generalize s.threads i = t at hthread
        cases hthread

omit [DecidableEq ι] in
theorem Apart.evicts_own (h : s.Apart) (hsound : s.Sound P) {i : ι} {handle : Handle}
    (hevicts : Evicts s i handle l) {n : ℕ}
    (hn : s.globals.session.map (fun _ => s.built) = some n) : n = handle.session := by
  obtain ⟨address, hup, rfl⟩ := Option.map_eq_some_iff.1 hn
  cases hevicts with
  | atOnce hcalled hsession =>
      refine (h.session_eq hsound (h.handles i handle ?_) hsession).symm
      rw [hcalled]
      rfl
  | drained hdraining =>
      rcases h.draining i handle hdraining with hnone | hown
      · exact absurd (hnone.symm.trans hup) nofun
      · exact hown.symm

theorem Apart.own_step (h : s.Apart) (hsound : s.Sound P)
    (hstep : (ffiSystem C ι).step s l s') (i : ι) (handle : Handle) (work : Teardown) (n : ℕ)
    (htearing : s'.threads i = .tearingDown handle work) (hn : work.evicted = some n) :
    n = handle.session := by
  have hthread := ffiSystem_threads hstep i
  rw [htearing] at hthread
  rcases hthread with hsame | hthread
  · exact h.own i handle work n hsame.symm hn
  · have hbefore := h.own i handle
    generalize s.threads i = t at hthread hbefore
    cases hthread with
    | evicts hevicts _ _ => exact h.evicts_own hsound hevicts hn
    | teardown _ _ => exact hbefore _ n rfl hn

theorem Apart.addresses_published (h : s.Apart) {g : Globals} {address : ℕ}
    (hfresh : ∀ n, 0 < n → n ≤ s.built → (s.objects n).address ≠ address) {i : ι} {t : FfiThread}
    {m n : ℕ} (hm : 0 < m) (hmle : m ≤ s.built + 1) (hn : 0 < n) (hnle : n ≤ s.built + 1)
    (haddress : (((s.published g address).set i t).objects m).address =
      (((s.published g address).set i t).objects n).address) : m = n := by
  have hnew : (((s.published g address).set i t).objects (s.built + 1)).address = address := by
    change (Function.update s.objects (s.built + 1) _ (s.built + 1)).address = _
    rw [Function.update_self]
    rfl
  rcases Nat.le_succ_iff.1 hmle with hmle | rfl <;> rcases Nat.le_succ_iff.1 hnle with hnle | rfl
  · rw [published_address hmle, published_address hnle] at haddress
    exact h.addresses m n hm hmle hn hnle haddress
  · rw [published_address hmle, hnew] at haddress
    exact absurd haddress (hfresh m hm hmle)
  · rw [published_address hnle, hnew] at haddress
    exact absurd haddress.symm (hfresh n hn hnle)
  · rfl

theorem Apart.step (h : s.Apart) (hsound : s.Sound P) (hkeeps : s.KeepsApart l)
    (hstep : (ffiSystem C ι).step s l s') : s'.Apart where
  addresses m n hm hmle hn hnle haddress := by
    cases hsound.sessionStep hstep with
    | kept hkept =>
        rw [hkept.built] at hmle hnle
        rw [hkept.address, hkept.address] at haddress
        exact h.addresses m n hm hmle hn hnle haddress
    | evicts i handle _ _ _ hs' =>
        subst hs'
        rw [evict_built] at hmle hnle
        rw [evict_objects] at haddress
        exact h.addresses m n hm hmle hn hnle haddress
    | publishes hl hrunning _ hdown hup hs' =>
        subst hl hs'
        exact h.addresses_published (hkeeps _ _ _ _ _ hrunning hdown hup).1 hm hmle hn hnle haddress
  built hsession := by
    cases hsound.sessionStep hstep with
    | kept hkept =>
        rw [hkept.built]
        exact h.built (hkept.session ▸ hsession)
    | evicts i handle _ _ _ hs' =>
        subst hs'
        exact absurd (evict_session i handle) hsession
    | publishes _ _ _ _ _ hs' =>
        subst hs'
        exact Nat.succ_pos s.built
  handles := h.handles_step hsound hkeeps hstep
  draining := h.draining_step hsound hkeeps hstep
  own := h.own_step hsound hstep

theorem Apart.of_reachable (h : ((ffiSystem C ι).restrict KeepsApart).Reachable s) :
    s.Sound C.May ∧ s.Apart := by
  refine h.invariant (I := fun s => s.Sound C.May ∧ s.Apart) (fun s₀ h₀ => ?_)
    fun u l w ⟨hsound, hapart⟩ hstep => ?_
  · refine ⟨Sound.initial (C := C) h₀, ?_⟩
    obtain ⟨nodeUp, rfl⟩ := h₀
    refine ⟨fun m n hm hmle => ?_, fun hup => absurd rfl hup, fun _ _ => nofun, fun _ _ => nofun,
      fun _ _ _ _ => nofun⟩
    exact absurd hmle (Nat.not_le.2 hm)
  · exact ⟨hsound.step_may hstep.1, hapart.step hsound hstep.2 hstep.1⟩

end Steps

theorem locked_publish_of_ne {C : Core} {g : Globals} {handle : Handle}
    (h : g.session ≠ some handle.address) (tearingDown : Bool) (topic payload : Option ByteString.Bytes) :
    C.locked g tearingDown (.publish (some handle) topic payload) =
      giveBack g (.status .errorInvalidArgument) := by
  cases topic with
  | none => rfl
  | some topic =>
      cases payload with
      | none => rfl
      | some payload =>
          rw [Core.locked, Core.publishLocked, if_pos (.inr (.inl fun hsame => h hsame.symm))]
          rfl

end FfiProcess

open FfiProcess

/-- Where callers pass handles they were given, sessions are allocated where none was before and none
comes up while a `gcs_shutdown` waits, a teardown has the session that its handle was issued for, and
calls are only accepted with a handle of the session that is up. -/
theorem own_session {C : Core} {ι : Type} [DecidableEq ι] {s : FfiProcess ι}
    (h : ((ffiSystem C ι).restrict KeepsApart).Reachable s) :
    (∀ i handle work n, s.threads i = .tearingDown handle work → work.evicted = some n →
      n = handle.session) ∧
    (∀ i handle topic payload, s.threads i = .called (.publish (some handle) topic payload) →
      C.locked s.globals s.tearingDown (.publish (some handle) topic payload) ≠
        giveBack s.globals (.status .errorInvalidArgument) → handle.session = s.built) ∧
    ∀ i handle topic dartPort, s.threads i = .subscribing handle topic dartPort →
      handle.session = s.built := by
  obtain ⟨hsound, hapart⟩ := Apart.of_reachable h
  refine ⟨hapart.own, fun i handle topic payload hcalled haccepted => ?_,
    fun i handle topic dartPort hsubscribing => ?_⟩
  · refine hapart.session_eq hsound (hapart.handles i handle ?_) ?_
    · rw [hcalled]
      rfl
    · by_contra hne
      exact haccepted (locked_publish_of_ne hne s.tearingDown topic payload)
  · refine hapart.session_eq hsound (hapart.handles i handle ?_) ?_
    · rw [hsubscribing]
      rfl
    · have hfits := hsound.fits i
      rw [hsubscribing] at hfits
      exact hfits.2

/-- The first session is shut down with the handle it was issued for. -/
theorem own_session_first :
    ((firstSession ℕ).evict 0 ⟨1, 1⟩).threads 0 = .tearingDown ⟨1, 1⟩ (.start false (some 1)) ∧
      1 = (Handle.mk 1 1).session := by
  let C := protoCore (Messaging.plaintext [])
  let call := FfiCall.shutdown (some ⟨1, 1⟩)
  have hfirst : ((ffiSystem C ℕ).restrict KeepsApart).Reachable (firstSession ℕ) := by
    refine restrict_firstSession 0 fun u l halone => ?_
    cases l with
    | call i call =>
        obtain ⟨-, rfl⟩ := halone.call i call rfl
        exact fun _ => nofun
    | unlock i =>
        obtain ⟨hbuilt, -⟩ := halone.unlock i rfl
        refine fun _ _ _ _ _ _ _ _ => ⟨fun n hn hle => absurd hle ?_, fun j handle hdraining => ?_⟩
        · rw [hbuilt]
          exact Nat.not_le.2 hn
        · by_cases hj : j = 0
          · subst hj
            rcases halone.self with hself | hself | ⟨_, hself⟩ <;> cases hself.symm.trans hdraining
          · cases (halone.others j hj).symm.trans hdraining
    | _ => exact trivial
  have hcalled : ((ffiSystem C ℕ).restrict KeepsApart).Reachable
      ((firstSession ℕ).set 0 (.called call)) := by
    refine hfirst.step (l := .call 0 call) ⟨⟨rfl, rfl⟩, fun handle hhandle => ?_⟩
    obtain rfl := Option.some.inj hhandle
    exact ⟨Nat.one_pos, le_rfl, rfl⟩
  have hevicted : ((ffiSystem C ℕ).restrict KeepsApart).Reachable
      ((firstSession ℕ).evict 0 ⟨1, 1⟩) := by
    refine hcalled.step (l := .enter 0) ⟨⟨call, rfl, rfl, ?_⟩, trivial⟩
    exact (enter_shutdown rfl rfl).symm
  exact ⟨rfl, (own_session hevicted).1 0 ⟨1, 1⟩ _ 1 rfl rfl⟩

/-- A `gcs_shutdown` that has waited tears down the session that has come up in the meantime, and a
handle is accepted for a session that was allocated at its address. -/
theorem evicts_later_session :
    (∃ s : FfiProcess ℕ, (ffiSystem (protoCore (Messaging.plaintext [])) ℕ).Reachable s ∧
      ∃ work, s.threads 3 = .tearingDown ⟨1, 1⟩ work ∧ work.evicted = some 2) ∧
    ∃ s : FfiProcess ℕ, (ffiSystem (protoCore (Messaging.plaintext [])) ℕ).Reachable s ∧
      s.built = 2 ∧ s.threads 0 = .subscribing ⟨1, 1⟩ [] 1 := by
  let C := protoCore (Messaging.plaintext [])
  refine ⟨?_, ?_⟩
  · let torn := (twoDrained.evict 2 ⟨1, 1⟩).torn 2 1
    have hevict : Leads C twoDrained (twoDrained.evict 2 ⟨1, 1⟩) := leads_evict rfl rfl rfl trivial
    have htorn : Leads C (twoDrained.evict 2 ⟨1, 1⟩) torn := by
      refine leads_torn rfl rfl rfl rfl rfl (fun j key value program pointer hj => ?_)
        fun _ _ _ => trivial
      by_cases hj2 : j = 2
      · subst hj2
        cases hj
      · have hsame : twoDrained.threads j = _ := (set_threads_of_ne _ _ hj2).symm.trans hj
        rcases twoDrained_threads j with hidle | hdraining
        · cases hidle.symm.trans hsame
        · cases hdraining.symm.trans hsame
    have hothers : ∀ n, n ≠ 1 → ((twoDrained.evict 2 ⟨1, 1⟩).objects n).session = false :=
      fun _ => firstSession_objects_session
    have hinit : Leads C torn (torn.started 2) :=
      leads_init (i := 0) rfl rfl rfl rfl rfl (torn_address_ne hothers 2) fun _ _ _ => trivial
    have hlater : Leads C (torn.started 2) ((torn.started 2).evict 3 ⟨1, 1⟩) := leads_evict rfl rfl rfl trivial
    exact ⟨_, (hevict.trans (htorn.trans (hinit.trans hlater))).reachable (reachable_twoDrained C),
      .start false (some 2), rfl, rfl⟩
  · let evicted := (firstSession ℕ).evict 0 ⟨1, 1⟩
    let again := (evicted.torn 0 1).started 1
    let call := FfiCall.subscribe (some ⟨1, 1⟩) (some []) 1
    have htorn : Leads C (firstSession ℕ) (evicted.torn 0 1) :=
      leads_shutdown_torn (fun _ => rfl) rfl rfl rfl rfl rfl rfl rfl
        (allowsCall_true 0 _ 1) fun _ _ _ => trivial
    have hothers : ∀ n, n ≠ 1 → (evicted.objects n).session = false :=
      fun _ => firstSession_objects_session
    have hinit : Leads C (evicted.torn 0 1) again :=
      leads_init (i := 0) rfl rfl rfl rfl rfl (torn_address_ne hothers 1) fun _ _ _ => trivial
    have hcall : Leads C again (again.set 0 (.called call)) :=
      Leads.step (l := .call 0 call) ⟨rfl, rfl⟩
    have henter : Leads C (again.set 0 (.called call)) ((again.set 0 (.called call)).enter C 0 call) :=
      Leads.step (l := .enter 0) ⟨call, rfl, rfl, rfl⟩
    exact ⟨_, (htorn.trans (hinit.trans (hcall.trans henter))).reachable
      (reachable_firstSession C ℕ), rfl, rfl⟩

end GcsChat
