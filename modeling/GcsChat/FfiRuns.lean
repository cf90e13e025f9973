import GcsChat.FfiProcess

/-!
# Runs of the process

How the process gets from one state to another when one thread moves alone: through the questions of
a section, through a whole `gcs_init`, into the window of a callback and out of it again, and through
a teardown. Nothing is asked of the other threads.
-/

namespace GcsChat

open ByteString Interactive TransitionSystem

def SessionObjects.remains (o : SessionObjects) : SessionObjects :=
  { o with
    session := false
    messaging := false
    entities := false
    shutDown := true
    archive := { o.archive with stopped := true, returned := true } }

/-- The core is not given an id or a time, and does not wait for a put. -/
def Effect.Routine {G : Type} : Effect G → Prop
  | .nextId _ => False
  | .nowMs => False
  | .put _ _ => False
  | .putTopics _ _ _ => False
  | _ => True

theorem Effect.Loads.routine {G : Type} {e : Effect G} (h : e.Loads) : e.Routine := by
  cases e with
  | get key => exact trivial
  | _ => exact h.elim

/-- The step neither starts a call nor takes the mutex, and is none of a teardown. -/
def FfiStep.Routine {ι : Type} : FfiStep ι → Prop
  | .call _ _ => False
  | .enter _ => False
  | .lock _ => False
  | .teardown _ => False
  | .answer _ e _ => e.Routine
  | _ => True

namespace FfiProcess

variable {ι : Type} [DecidableEq ι] {C : Core} {s s' s'' : FfiProcess ι} {i : ι}

theorem set_set (t t' : FfiThread) : (s.set i t).set i t' = s.set i t' := by
  rw [set, set, set, Function.update_idem]

theorem set_eq_self {t : FfiThread} (h : s.threads i = t) : s.set i t = s := by
  rw [set, ← h, Function.update_eq_self]

variable {P : FfiProcess ι → FfiStep ι → Prop}

def LeadsIn (C : Core) (P : FfiProcess ι → FfiStep ι → Prop) (s s' : FfiProcess ι) : Prop :=
  ∃ ls, ((ffiSystem C ι).restrict P).Run s ls s'

abbrev Leads (C : Core) (s s' : FfiProcess ι) : Prop := LeadsIn C (fun _ _ => True) s s'

theorem LeadsIn.refl (s : FfiProcess ι) : LeadsIn C P s s := ⟨[], .nil s⟩

theorem LeadsIn.trans (h : LeadsIn C P s s') (h' : LeadsIn C P s' s'') : LeadsIn C P s s'' := by
  obtain ⟨ls, hrun⟩ := h
  obtain ⟨ms, hrun'⟩ := h'
  exact ⟨ls ++ ms, hrun.append hrun'⟩

theorem LeadsIn.step {l : FfiStep ι} (h : (ffiSystem C ι).step s l s') (hP : P s l) :
    LeadsIn C P s s' :=
  ⟨[l], Run.single ⟨h, hP⟩⟩

theorem LeadsIn.restrict_reachable (h : LeadsIn C P s s')
    (hs : ((ffiSystem C ι).restrict P).Reachable s) : ((ffiSystem C ι).restrict P).Reachable s' := by
  obtain ⟨ls, hrun⟩ := h
  exact hs.run hrun

theorem Leads.step {l : FfiStep ι} (h : (ffiSystem C ι).step s l s') : Leads C s s' :=
  LeadsIn.step h trivial

theorem LeadsIn.reachable (h : LeadsIn C P s s') (hs : (ffiSystem C ι).Reachable s) :
    (ffiSystem C ι).Reachable s' := by
  obtain ⟨ls, hrun⟩ := h
  exact hs.run hrun.of_restrict

theorem step_finish (call : FfiCall) {result : FfiResult} (hleaks : result.leaks = 0)
    (pointer : Option ℕ) :
    (ffiSystem C ι).step (s.set i (.running call (done result) pointer)) (.finish i)
      (s.set i .idle) := by
  refine ⟨call, result, pointer, set_threads_self _ _ _, ?_⟩
  rw [hleaks]
  exact (set_set (s := s) _ _).symm

/-- The process answers a call that points to the session `pointer`. -/
def answerWorld (ι : Type) (pointer : Option ℕ) :
    World (Effect Globals) Effect.Answer (FfiProcess ι) :=
  fun s e a s' => s.Answers e a ∧ s' = s.answered pointer e a

theorem answers_set {e : Effect Globals} {a : e.Answer} {t : FfiThread} :
    (s.set i t).Answers e a ↔ s.Answers e a := by
  cases e with
  | initSession => cases a <;> exact Iff.rfl
  | _ => exact Iff.rfl

theorem answered_set {e : Effect Globals} {a : e.Answer} {pointer : Option ℕ} {t : FfiThread} :
    (s.set i t).answered pointer e a = (s.answered pointer e a).set i t := by
  cases e with
  | initSession =>
      cases a with
      | none =>
          rw [answered, answered, set]
          split <;> rfl
      | some address =>
          rw [answered, answered, set]
          split <;> rfl
  | subscribe topic => cases a <;> cases pointer <;> rfl
  | enqueueArchive key value => cases pointer <;> rfl
  | _ => rfl

theorem leads_steps (call : FfiCall) {p q : Program Globals FfiResult} {pointer : Option ℕ}
    {tr : Trace (Effect Globals) Effect.Answer} (h : Steps (answerWorld ι pointer) p s tr q s')
    (hP : ∀ (u : FfiProcess ι) p e a, u.threads = s.threads → ⟨e, a⟩ ∈ tr →
      P (u.set i (.running call p pointer)) (.answer i e a)) :
    LeadsIn C P (s.set i (.running call p pointer)) (s'.set i (.running call q pointer)) := by
  induction h with
  | nil p s => exact LeadsIn.refl _
  | @cons e next q s u s' tr a hanswer _ ih =>
      refine LeadsIn.trans (LeadsIn.step (l := .answer i e a) ?_ (hP _ _ _ _ rfl List.mem_cons_self))
        (ih fun v p e' a' hv hmem => hP v p e' a' ?_ (.tail _ hmem))
      · refine ⟨call, next, pointer, set_threads_self _ _ _, answers_set.2 hanswer.1, ?_⟩
        rw [answered_set, set_set, hanswer.2]
      · rw [hv, hanswer.2, (alike_answered pointer e a).threads]

/-- What `gcs_init` guards when it starts a session on an empty store. -/
def startedGlobals (address : ℕ) : Globals :=
  ⟨some address, .fresh, [kSmokeTopicA, kSmokeTopicB], [], [], 0⟩

def started (s : FfiProcess ι) (address : ℕ) : FfiProcess ι :=
  { s with
    globals := startedGlobals address
    receivingDisabled := false
    built := s.built + 1
    objects := Function.update s.objects (s.built + 1) (.built address)
    bridges := (s.built + 1) :: s.bridges }

def booted (s : FfiProcess ι) : FfiProcess ι :=
  { s with nodeUp := true, sdkBootedHere := s.sdkBootedHere || !s.nodeUp }

omit [DecidableEq ι] in
theorem booted_of_nodeUp (h : s.nodeUp = true) : s.booted = s := by
  obtain ⟨_, _, _, _, sdkBootedHere, nodeUp, _, _, _, _, _, _, _⟩ := s
  obtain rfl : nodeUp = true := h
  cases sdkBootedHere <;> rfl

omit [DecidableEq ι] in
theorem answered_initSession (pointer : Option ℕ) (address : ℕ) :
    s.answered pointer .initSession (some address) = s.booted := by
  cases hnode : s.nodeUp with
  | true =>
      rw [booted_of_nodeUp hnode]
      exact if_pos hnode
  | false =>
      rw [booted, hnode, Bool.not_false, Bool.or_true]
      exact if_neg (by rw [hnode]; nofun)

/-- The process with a new session in it, on a store that has the catalog. -/
def stocked (s : FfiProcess ι) (address : ℕ) (e : EntityStore) : FfiProcess ι :=
  { s.started address with globals := { startedGlobals address with entities := e } }

omit [DecidableEq ι] in
theorem ends_of_loads {α : Type} {p : Program Globals α} (hp : p.AsksOnly Effect.Loads) {w w' : Globals}
    {tr : Trace (Effect Globals) Effect.Answer} {a : α} (h : Ends serialWorld p w tr a w')
    (s : FfiProcess ι) (pointer : Option ℕ) : Ends (answerWorld ι pointer) p s tr a s := by
  induction p generalizing w tr with
  | done b =>
      obtain ⟨rfl, rfl, -⟩ := ends_done_iff.1 h
      exact .nil _ _
  | ask e next ih =>
      obtain ⟨b, u, tr', -, hrest, rfl⟩ := ends_ask_iff.1 h
      have hanswer : answerWorld ι pointer s e b s := by
        cases e with
        | get key => exact ⟨trivial, rfl⟩
        | _ => exact hp.1.elim
      exact ends_ask_iff.2 ⟨b, s, tr', hanswer, ih b (hp.2 b) hrest, rfl⟩

omit [DecidableEq ι] in
theorem steps_init (s : FfiProcess ι) {address : ℕ}
    (haddress : ∀ n, (s.objects n).session → (s.objects n).address ≠ address) {e : EntityStore}
    {w : Globals} {tr : Trace (Effect Globals) Effect.Answer}
    (hload : Ends serialWorld (EntityStore.loadFromStore C.codecs) w tr e w)
    (hderived : e.derivedJoinedTopics = []) :
    Steps (answerWorld ι none) (C.locked .fresh false (.init true)) s
      ([⟨.initSession, some address⟩, ⟨.addListenTopic kSmokeTopicA, true⟩,
        ⟨.addBroadcastTopic kSmokeTopicA, true⟩, ⟨.addListenTopic kSmokeTopicB, true⟩,
        ⟨.addBroadcastTopic kSmokeTopicB, true⟩, ⟨.registerNewElementCallback, true⟩] ++ tr)
      (giveBack { startedGlobals address with entities := e } (.handle (some address)))
      { s.booted with receivingDisabled := false, bridges := (s.built + 1) :: s.bridges } := by
  let loaded : Globals := { startedGlobals address with entities := e }
  let asked : FfiProcess ι :=
    { s.booted with receivingDisabled := false, bridges := (s.built + 1) :: s.bridges }
  let giving (result : Globals × Option ℕ) : Program Globals FfiResult :=
    giveBack result.1 (.handle result.2)
  let refreshed (e : EntityStore) : Program Globals (Globals × Option ℕ) := do
    let g ← C.refreshDerivedJoins { startedGlobals address with entities := e }
    pure (g, some address)
  have hrefreshed : refreshed e = pure (loaded, some address) := by
    change (C.registerDerived e.derivedJoinedTopics _ >>= _) >>= _ = _
    rw [hderived]
    rfl
  have hloaded : Steps (answerWorld ι none) (EntityStore.loadFromStore C.codecs >>= refreshed) asked
      (tr ++ []) (pure (loaded, some address)) asked :=
    Ends.bind (ends_of_loads (loads_loadFromStore C.codecs) hload asked none) (hrefreshed ▸ .nil _ _)
  rw [List.append_nil] at hloaded
  have hopened : answerWorld ι none s .initSession (some address) s.booted :=
    ⟨haddress, (answered_initSession none address).symm⟩
  refine steps_ask_iff.2 (.inr ⟨some address, s.booted, _, hopened, ?_, rfl⟩)
  refine steps_ask_iff.2 (.inr ⟨true, s.booted, _, ⟨trivial, rfl⟩, ?_, rfl⟩)
  refine steps_ask_iff.2 (.inr ⟨true, s.booted, _, ⟨trivial, rfl⟩, ?_, rfl⟩)
  refine steps_ask_iff.2 (.inr ⟨true, s.booted, _, ⟨trivial, rfl⟩, ?_, rfl⟩)
  refine steps_ask_iff.2 (.inr ⟨true, s.booted, _, ⟨trivial, rfl⟩, ?_, rfl⟩)
  refine steps_ask_iff.2 (.inr ⟨true, asked, _, ⟨trivial, rfl⟩, ?_, rfl⟩)
  exact hloaded.bind (f := giving)

/-- The steps of a `gcs_init` on thread `i`, from `s` on. -/
structure InitAlone (s : FfiProcess ι) (i : ι) (u : FfiProcess ι) (l : FfiStep ι) : Prop where
  call : ∀ j call, l = .call j call → j = i ∧ call = .init true
  answer : ∀ j e a, l = .answer j e a → e.Routine
  unlock : ∀ j, l = .unlock j → u.built = s.built ∧ u.objects = s.objects
  others : ∀ j, j ≠ i → u.threads j = s.threads j
  self : u.threads i = .idle ∨ u.threads i = .called (.init true) ∨
    ∃ program, u.threads i = .running (.init true) program none

/-- `gcs_init` boots the node and builds a session on a store whose catalog joins nothing by itself,
whatever the other threads are doing. -/
theorem leads_stocked (hidle : s.threads i = .idle)
    (hfree : s.owner = none) (hglobals : s.globals = .fresh) (htearing : s.tearingDown = false)
    {address : ℕ} (haddress : ∀ n, (s.objects n).session → (s.objects n).address ≠ address)
    {e : EntityStore} {w : Globals} {tr : Trace (Effect Globals) Effect.Answer}
    (hload : Ends serialWorld (EntityStore.loadFromStore C.codecs) w tr e w)
    (hderived : e.derivedJoinedTopics = []) (hP : ∀ u l, InitAlone s i u l → P u l) :
    LeadsIn C P s (s.booted.stocked address e) := by
  obtain ⟨globals, dartPort, receivingDisabled, tearingDown, sdkBootedHere, nodeUp, owner, threads,
    built, objects, registrations, bridges, leaked⟩ := s
  subst hfree hglobals htearing
  let s : FfiProcess ι := ⟨.fresh, dartPort, receivingDisabled, false, sdkBootedHere, nodeUp, none,
    threads, built, objects, registrations, bridges, leaked⟩
  let held : FfiProcess ι := { s with owner := some i }
  let before := s.set i (.called (.init true))
  let during (u : FfiProcess ι) (p : Program Globals FfiResult) := u.set i (.running (.init true) p none)
  have hothers : ∀ (u : FfiProcess ι) t, u.threads = s.threads →
      ∀ j, j ≠ i → (u.set i t).threads j = s.threads j := by
    intro u t hu j hj
    rw [set_threads_of_ne _ _ hj, hu]
  have hcall : LeadsIn C P s before := by
    refine LeadsIn.step (l := .call i (.init true)) ⟨hidle, rfl⟩
      (hP _ _ ⟨fun j call h => ?_, fun _ _ _ => nofun, fun _ => nofun, fun _ _ => rfl, .inl hidle⟩)
    cases h
    exact ⟨rfl, rfl⟩
  have henter : LeadsIn C P before (during held (C.locked .fresh false (.init true))) := by
    refine LeadsIn.step (l := .enter i)
      ⟨.init true, set_threads_self _ _ _, rfl, (set_set (s := held) _ _).symm⟩
      (hP _ _ ⟨fun _ _ => nofun, fun _ _ _ => nofun, fun _ => nofun, hothers s _ rfl, .inr (.inl ?_)⟩)
    exact set_threads_self _ _ _
  have hasked := leads_steps (C := C) (i := i) (P := P) (.init true)
    (steps_init (C := C) held haddress hload hderived) fun u p e a hu hmem => hP _ _
      ⟨fun _ _ => nofun, fun j e' a' h => ?_, fun _ => nofun, hothers u _ hu,
        .inr (.inr ⟨p, set_threads_self _ _ _⟩)⟩
  · let started := s.booted.stocked address e
    let asked : FfiProcess ι :=
      { held.booted with receivingDisabled := false, bridges := (built + 1) :: bridges }
    have hunlock : LeadsIn C P
        (during asked (giveBack started.globals (.handle (some address))))
        (during started (done (.handle (some address)))) := by
      refine LeadsIn.step (l := .unlock i) ⟨.init true, started.globals, _, none, none,
        set_threads_self _ _ _, rfl, .ended rfl, ?_⟩ (hP _ _ ⟨fun _ _ => nofun, fun _ _ _ => nofun,
          fun _ _ => ⟨rfl, rfl⟩, hothers asked _ rfl, .inr (.inr ⟨_, set_threads_self _ _ _⟩)⟩)
      exact (set_set (s := started) _ _).symm
    have hfinish : LeadsIn C P (during started (done (.handle (some address)))) started := by
      have hkeeps : (FfiResult.handle (some address)).leaks = 0 := rfl
      have hstep := step_finish (C := C) (s := started) (i := i) (.init true) hkeeps none
      rw [set_eq_self (s := started) hidle] at hstep
      exact LeadsIn.step hstep (hP _ _ ⟨fun _ _ => nofun, fun _ _ _ => nofun, fun _ => nofun,
        hothers started _ rfl, .inr (.inr ⟨_, set_threads_self _ _ _⟩)⟩)
    exact hcall.trans (henter.trans (hasked.trans (hunlock.trans hfinish)))
  · cases h
    rcases List.mem_append.1 hmem with hmem | hmem
    · simp only [List.mem_cons, List.not_mem_nil, or_false] at hmem
      rcases hmem with h | h | h | h | h | h <;> cases h <;> trivial
    · exact (Steps.asks hload (loads_loadFromStore C.codecs) _ hmem).routine

theorem leads_boot (hidle : s.threads i = .idle)
    (hfree : s.owner = none) (hglobals : s.globals = .fresh) (htearing : s.tearingDown = false)
    {address : ℕ} (haddress : ∀ n, (s.objects n).session → (s.objects n).address ≠ address)
    (hP : ∀ u l, InitAlone s i u l → P u l) :
    LeadsIn C P s (s.booted.started address) := by
  have hload : Ends serialWorld (EntityStore.loadFromStore C.codecs) .fresh
      [⟨.get kManifestKey, none⟩] .fresh .fresh :=
    ends_ask_iff.2 ⟨none, Globals.fresh, [], rfl, .nil _ _, rfl⟩
  exact leads_stocked hidle hfree hglobals htearing haddress hload rfl hP

theorem leads_init (hidle : s.threads i = .idle)
    (hfree : s.owner = none) (hglobals : s.globals = .fresh) (htearing : s.tearingDown = false)
    (hnode : s.nodeUp = true) {address : ℕ}
    (haddress : ∀ n, (s.objects n).session → (s.objects n).address ≠ address)
    (hP : ∀ u l, InitAlone s i u l → P u l) :
    LeadsIn C P s (s.started address) := by
  have hboot := leads_boot (C := C) hidle hfree hglobals htearing haddress hP
  rwa [booted_of_nodeUp hnode] at hboot

def closing (result : FfiResult) : Program Globals FfiResult :=
  ask .lock fun g => giveBack { g with inFlight := g.inFlight - 1 } result

theorem leads_window {call : FfiCall} {g : Globals} {next : Unit → Program Globals FfiResult}
    {e : Effect Globals} {next' : e.Answer → Program Globals FfiResult}
    (hnext : next () = ask e next') (howner : s.owner = some i) (hup : s.globals.session ≠ none)
    (hne : g ≠ s.globals) (hP : ∀ u, P u (.unlock i)) :
    LeadsIn C P (s.set i (.running call (ask (.unlock g) next) none))
      (({ s with globals := g, owner := none } : FfiProcess ι).set i
        (.running call (next ()) (some s.built))) := by
  let inside := s.set i (.running call (ask (.unlock g) next) none)
  have hreleased : inside.release g = ({ s with globals := g, owner := none } : FfiProcess ι).set i
      (.running call (ask (.unlock g) next) none) := release_of_up _ _ hup
  have htaken : Repointed inside g none (next ()) (some (inside.release g).built) := by
    rw [hnext]
    exact .taken hne
  rw [hreleased] at htaken
  refine LeadsIn.step (l := .unlock i) ⟨call, g, next, none, some s.built, set_threads_self _ _ _,
    howner, htaken, ?_⟩ (hP _)
  rw [hreleased, set_set]

/-- The steps of a call on thread `i` are allowed as long as the last session is session `n`. -/
structure AllowsCall (P : FfiProcess ι → FfiStep ι → Prop) (i : ι) (call : FfiCall) (n : ℕ) :
    Prop where
  start : ∀ u, P u (.call i call)
  enter : ∀ u, u.threads i = .called call → u.built = n → P u (.enter i)
  lock : ∀ u next pointer, u.threads i = .running call (ask .lock next) pointer → u.built = n →
    P u (.lock i)
  routine : ∀ u l, l.Routine → P u l

omit [DecidableEq ι] in
theorem allowsCall_true (i : ι) (call : FfiCall) (n : ℕ) : AllowsCall (fun _ _ => True) i call n :=
  ⟨fun _ => trivial, fun _ _ _ => trivial, fun _ _ _ _ _ => trivial, fun _ _ _ => trivial⟩

theorem exists_ask_closing (funnel : Program Globals Unit) (result : FfiResult) :
    ∃ (e : Effect Globals) (next : e.Answer → Program Globals FfiResult),
      (funnel >>= fun _ => closing result) = ask e next := by
  cases funnel with
  | done _ => exact ⟨.lock, _, rfl⟩
  | ask e next => exact ⟨e, _, rfl⟩

def Funnels (C : Core) (call : FfiCall) (funnel : Program Globals (Option Unit)) : Prop :=
  C.callback call =
    Core.receiveCallback funnel >>= fun returned => pure (Core.callbackResult returned)

def returning (funnel : Program Globals Unit) : Program Globals (Option Unit) := do
  funnel
  pure (some ())

def entered (funnel : Program Globals (Option Unit)) (g : Globals) : Program Globals FfiResult :=
  let inside : Program Globals (Option Unit) := if g.session = none then do
      unlockMutex g
      pure (some ())
    else do
      unlockMutex { g with inFlight := g.inFlight + 1 }
      let returned ← funnel
      if returned.isSome then do
        let g ← lockMutex
        unlockMutex { g with inFlight := g.inFlight - 1 }
        pure (some ())
      else pure none
  inside >>= fun returned => pure (Core.callbackResult returned)

theorem entered_returning {funnel : Program Globals Unit} {g : Globals} (hup : g.session ≠ none) :
    entered (returning funnel) g = ask (.unlock { g with inFlight := g.inFlight + 1 }) fun _ =>
      funnel >>= fun _ => closing .void := by
  change (if g.session = none then _ else _) >>= _ = _
  rw [if_neg hup]
  change ask (.unlock _) (fun _ => (returning funnel >>= _) >>= _) = _
  simp only [returning, bind_assoc]
  rfl

theorem funnels_heal (n : ℕ) {key value topic : Bytes} (hkey : roomTopicFromKey key = some topic)
    (htopic : topic ≠ []) :
    Funnels C (.heal n key value) (returning (C.messaging.applyMessageProgram topic value)) := by
  have hfunnel : (C.messaging.onMessageArrivedProgram key value : Program Globals (Option Unit)) =
      returning (C.messaging.applyMessageProgram topic value) := by
    rw [Messaging.onMessageArrivedProgram, hkey]
    exact if_neg htopic
  rw [← hfunnel]
  rfl

theorem leads_gated {call : FfiCall} {funnel : Program Globals (Option Unit)}
    (hcallback : Funnels C call funnel)
    (hcalled : (ffiSystem C ι).step s (.call i call) (s.set i (.running call (C.callback call) none)))
    (hgate : s.receivingDisabled = false) (hcall : P s (.call i call))
    (hanswer : ∀ u, P u (.answer i .receivingDisabled false)) :
    LeadsIn C P s (s.set i (.running call (ask .lock (entered funnel)) none)) := by
  refine (LeadsIn.step hcalled hcall).trans ?_
  rw [hcallback]
  refine LeadsIn.step (l := .answer i .receivingDisabled false) ⟨call, _, none,
    set_threads_self _ _ _, hgate.symm, ?_⟩ (hanswer _)
  exact (set_set (s := s) _ _).symm

/-- A callback passes the gate, finds the session and goes into its window. -/
theorem leads_open {call : FfiCall} {funnel : Program Globals Unit}
    (hcallback : Funnels C call (returning funnel))
    (hcalled : (ffiSystem C ι).step s (.call i call) (s.set i (.running call (C.callback call) none)))
    (hfree : s.owner = none) (hgate : s.receivingDisabled = false) (hup : s.globals.session ≠ none)
    (hP : AllowsCall P i call s.built) :
    LeadsIn C P s (({ s with globals := { s.globals with inFlight := s.globals.inFlight + 1 } } :
      FfiProcess ι).set i (.running call (funnel >>= fun _ => closing .void) (some s.built))) := by
  have hgated := leads_gated hcallback hcalled hgate (hP.start s) fun u => hP.routine u _ trivial
  obtain ⟨globals, dartPort, receivingDisabled, tearingDown, sdkBootedHere, nodeUp, owner, threads,
    built, objects, registrations, bridges, leaked⟩ := s
  subst hfree
  let s : FfiProcess ι := ⟨globals, dartPort, receivingDisabled, tearingDown, sdkBootedHere, nodeUp,
    none, threads, built, objects, registrations, bridges, leaked⟩
  let held : FfiProcess ι := { s with owner := some i }
  let g := { globals with inFlight := globals.inFlight + 1 }
  have hlock : LeadsIn C P (s.set i (.running call (ask .lock (entered (returning funnel))) none))
      (held.set i (.running call (ask (.unlock g) fun _ => funnel >>= fun _ => closing .void)
        none)) := by
    refine LeadsIn.step (l := .lock i) ⟨call, _, none, set_threads_self _ _ _, rfl, ?_⟩
      (hP.lock _ _ _ (set_threads_self _ _ _) rfl)
    rw [← entered_returning hup]
    exact (set_set (s := held) _ _).symm
  obtain ⟨e, next, hask⟩ := exists_ask_closing funnel .void
  have hunlock : LeadsIn C P (held.set i (.running call (ask (.unlock g) fun _ =>
      funnel >>= fun _ => closing .void) none)) (({ s with globals := g } : FfiProcess ι).set i
        (.running call (funnel >>= fun _ => closing .void) (some built))) := by
    refine leads_window (s := held) hask rfl hup (fun hg => ?_) fun u => hP.routine u _ trivial
    exact absurd (congrArg Globals.inFlight hg) (Nat.succ_ne_self globals.inFlight)
  exact hgated.trans (hlock.trans hunlock)

def left (s : FfiProcess ι) (i : ι) : FfiProcess ι :=
  ({ s with globals := { s.globals with inFlight := s.globals.inFlight - 1 } } : FfiProcess ι).set i
    .idle

theorem leads_close {call : FfiCall} {pointer : Option ℕ} {result : FfiResult}
    (hthread : s.threads i = .running call (closing result) pointer) (hleaks : result.leaks = 0)
    (hfree : s.owner = none) (hup : s.globals.session ≠ none) (hP : AllowsCall P i call s.built) :
    LeadsIn C P s (s.left i) := by
  obtain ⟨globals, dartPort, receivingDisabled, tearingDown, sdkBootedHere, nodeUp, owner, threads,
    built, objects, registrations, bridges, leaked⟩ := s
  subst hfree
  let s : FfiProcess ι := ⟨globals, dartPort, receivingDisabled, tearingDown, sdkBootedHere, nodeUp,
    none, threads, built, objects, registrations, bridges, leaked⟩
  let g := { globals with inFlight := globals.inFlight - 1 }
  let held : FfiProcess ι := { s with owner := some i }
  have hlock : LeadsIn C P s
      (held.set i (.running call (ask (.unlock g) fun _ => done result) pointer)) :=
    LeadsIn.step (l := .lock i) ⟨call, _, pointer, hthread, rfl, rfl⟩ (hP.lock _ _ _ hthread rfl)
  have hreleased : (held.set i (.running call (ask (.unlock g) fun _ => done result)
      pointer)).release g = ({ s with globals := g } : FfiProcess ι).set i
        (.running call (ask (.unlock g) fun _ => done result) pointer) := release_of_up _ _ hup
  have hunlock : LeadsIn C P
      (held.set i (.running call (ask (.unlock g) fun _ => done result) pointer))
      (({ s with globals := g } : FfiProcess ι).set i (.running call (done result) none)) := by
    refine LeadsIn.step (l := .unlock i) ⟨call, g, _, pointer, none, set_threads_self _ _ _, rfl,
      .ended hleaks, ?_⟩ (hP.routine _ _ trivial)
    rw [hreleased, set_set]
  have hfinish : LeadsIn C P (({ s with globals := g } : FfiProcess ι).set i
      (.running call (done result) none)) (({ s with globals := g } : FfiProcess ι).set i .idle) :=
    LeadsIn.step (step_finish (s := { s with globals := g }) call hleaks none)
      (hP.routine _ _ trivial)
  exact hlock.trans (hunlock.trans hfinish)

/-- The sink takes the mutex for its post while the window stays open. -/
theorem leads_sink {M : Messaging} {call : FfiCall} {msg : ChatMessageState} {n : ℕ}
    {rest : Unit → Program Globals FfiResult} {e : Effect Globals}
    {next : e.Answer → Program Globals FfiResult} (hrest : rest () = ask e next)
    (hfree : s.owner = none) (hup : s.globals.session ≠ none) (hP : AllowsCall P i call s.built) :
    LeadsIn C P (s.set i (.running call (M.sinkMessage msg >>= rest) (some n)))
      (s.set i (.running call (rest ()) (some n))) := by
  let event : GcsEvent := .message (M.withRole msg)
  let held : FfiProcess ι := { s with owner := some i }
  let here (s : FfiProcess ι) (p : Program Globals FfiResult) := s.set i (.running call p (some n))
  have hlock : LeadsIn C P (here s (M.sinkMessage msg >>= rest))
      (here held (ask (.post event) fun _ => ask (.unlock s.globals) rest)) := by
    refine LeadsIn.step (l := .lock i) ⟨call, _, some n, set_threads_self _ _ _, hfree, ?_⟩
      (hP.lock _ _ _ (set_threads_self _ _ _) rfl)
    exact (set_set (s := held) _ _).symm
  have hpost : LeadsIn C P (here held (ask (.post event) fun _ => ask (.unlock s.globals) rest))
      (here held (ask (.unlock s.globals) rest)) := by
    refine LeadsIn.step (l := .answer i (.post event) ()) ⟨call, _, some n, set_threads_self _ _ _,
      trivial, ?_⟩ (hP.routine _ _ trivial)
    exact (set_set (s := held) _ _).symm
  have hunlock : LeadsIn C P (here held (ask (.unlock s.globals) rest)) (here s (rest ())) := by
    have hkept : Repointed (here held (ask (.unlock s.globals) rest)) s.globals (some n) (rest ())
        (some n) := by
      rw [hrest]
      exact .kept rfl
    refine LeadsIn.step (l := .unlock i) ⟨call, s.globals, rest, some n, some n, set_threads_self _ _ _,
      rfl, hkept, ?_⟩ (hP.routine _ _ trivial)
    have hfreed : (here held (ask (.unlock s.globals) rest)).release s.globals =
        here s (ask (.unlock s.globals) rest) := by
      refine (release_of_up (here held _) s.globals hup).trans ?_
      obtain ⟨_, _, _, _, _, _, owner, _, _, _, _, _, _⟩ := s
      subst hfree
      rfl
    rw [hfreed]
    exact (set_set (s := s) _ _).symm
  exact hlock.trans (hpost.trans hunlock)

theorem leads_pushed {call : FfiCall} {topic data : Bytes} {msg : ChatMessageState}
    (hopen : C.messaging.openMessage topic data = some msg) (hfree : s.owner = none)
    (hup : s.globals.session ≠ none) {n : ℕ} {rest : Unit → Program Globals FfiResult}
    (hP : AllowsCall P i call s.built) :
    LeadsIn C P (s.set i (.running call (C.messaging.applyMessageProgram topic data >>= rest) (some n)))
      (s.set i (.running call (ask (.enqueueArchive (buildKey msg.roomTopic msg.id) data) rest)
        (some n))) := by
  let enqueue : Unit → Program Globals FfiResult := fun _ =>
    ask (.enqueueArchive (buildKey msg.roomTopic msg.id) data) rest
  have happly : C.messaging.applyMessageProgram topic data >>= rest =
      ask (.insertUnseen msg.id) fun unseen => (if unseen then do
        C.messaging.sinkMessage msg
        enqueueArchiveWrite (buildKey msg.roomTopic msg.id) data
      else pure ()) >>= rest := by
    rw [Messaging.applyMessageProgram, hopen]
    rfl
  rw [happly]
  have hinsert : LeadsIn C P (s.set i (.running call (ask (.insertUnseen msg.id) fun unseen =>
        (if unseen then do
          C.messaging.sinkMessage msg
          enqueueArchiveWrite (buildKey msg.roomTopic msg.id) data
        else pure ()) >>= rest) (some n)))
      (s.set i (.running call (C.messaging.sinkMessage msg >>= enqueue) (some n))) := by
    refine LeadsIn.step (l := .answer i (.insertUnseen msg.id) true) ⟨call, _, some n,
      set_threads_self _ _ _, trivial, ?_⟩ (hP.routine _ _ trivial)
    exact (set_set (s := s) _ _).symm
  have henqueue : enqueue () = ask (.enqueueArchive (buildKey msg.roomTopic msg.id) data) rest := rfl
  exact hinsert.trans (leads_sink henqueue hfree hup hP)

/-- A `gcs_publish` for the session that is up takes the mutex and comes to run its command. -/
theorem leads_command (hidle : s.threads i = .idle) (hfree : s.owner = none) {handle : Handle}
    (hsession : s.globals.session = some handle.address) {bytes : Bytes} {command : GcsCommand}
    (hparse : C.parseCommand bytes = some command) (hbytes : bytes ≠ []) (hlength : bytes.length ≤ kMaxInt)
    (hP : AllowsCall P i (.publish (some handle) (some kCommandTopic) (some bytes)) s.built) :
    LeadsIn C P s (({ s with owner := some i } : FfiProcess ι).set i
      (.running (.publish (some handle) (some kCommandTopic) (some bytes))
        (C.runCommand s.globals command >>= fun result => giveBack result.1 (.status result.2)) none)) := by
  let call := FfiCall.publish (some handle) (some kCommandTopic) (some bytes)
  let held : FfiProcess ι := { s with owner := some i }
  have hcheck : ¬ (s.globals.session = none ∨ some handle.address ≠ s.globals.session ∨ bytes = [] ∨
      kMaxInt < bytes.length) := by
    simp [hsession, hbytes, hlength]
  have hcall : LeadsIn C P s (s.set i (.called call)) :=
    LeadsIn.step (l := .call i call) ⟨hidle, rfl⟩ (hP.start s)
  have henter : LeadsIn C P (s.set i (.called call))
      (held.set i (.running call (C.locked s.globals s.tearingDown call) none)) := by
    refine LeadsIn.step (l := .enter i) ⟨call, set_threads_self _ _ _, hfree, ?_⟩
      (hP.enter _ (set_threads_self _ _ _) rfl)
    exact (set_set (s := held) _ _).symm
  have hasked : Steps (answerWorld ι none) (C.locked s.globals s.tearingDown call) held
      [⟨.isRunning, true⟩]
      (C.runCommand s.globals command >>= fun result => giveBack result.1 (.status result.2)) held := by
    change Steps _ (C.publishLocked s.globals (some handle.address) (some kCommandTopic) (some bytes)
      >>= _) _ _ _ _
    rw [Core.publishLocked, if_neg hcheck]
    refine steps_ask_iff.2 (.inr ⟨true, held, [], ⟨trivial, rfl⟩, ?_, rfl⟩)
    rw [hparse]
    exact .nil _ _
  refine hcall.trans (henter.trans (leads_steps call hasked fun u p e a _ hmem => ?_))
  cases List.mem_singleton.1 hmem
  exact hP.routine _ _ trivial

/-- `SendMessage` up to its publish, and the `Put` after it. -/
theorem exists_sendMessageProgram_sealed (M : Messaging) (topic text : Bytes) :
    ∃ drawn : Bytes → ℤ → Bytes → Program Globals Bool,
      M.sendMessageProgram topic text = (ask (.nextId kMessageIdPrefix) fun id => ask .nowMs fun now =>
        ask (.insertOwn id) fun _ => M.sinkMessage (M.pendingMessage topic text id now) >>= fun _ =>
          ask .random (drawn id now)) ∧
      ∀ id now random payload, M.sealed random topic (M.codec.serialize
          (M.completeMessage topic text id now)) = some payload →
        ∃ next, drawn id now random = ask (.publish topic payload) next ∧
          ∃ next', next true = ask (.putTopics (buildKey topic id) payload [topic]) next' := by
  refine ⟨_, rfl, fun id now random payload h => ?_⟩
  dsimp only [Interactive.bind]
  rw [h]
  exact ⟨_, rfl, _, rfl⟩

/-- `send_text` comes out of the mutex, has its message shown as pending and publishes it; then it puts
what it has published. -/
theorem leads_sending (hidle : s.threads i = .idle) (hfree : s.owner = none) {handle : Handle}
    (hsession : s.globals.session = some handle.address) {topic text bytes : Bytes}
    (hparse : C.parseCommand bytes = some (.sendText topic text)) (hbytes : bytes ≠ [])
    (hlength : bytes.length ≤ kMaxInt)
    (htopic : Core.topicRejection (ofString "send_text") topic = none)
    (hjoined : topic ∈ s.globals.roomTopics) (htext : text.length ≤ kMaxMessageTextLength)
    {id random payload : Bytes} {now : ℤ}
    (hsealed : C.messaging.sealed random topic (C.messaging.codec.serialize
      (C.messaging.completeMessage topic text id now)) = some payload)
    (hP : AllowsCall P i (.publish (some handle) (some kCommandTopic) (some bytes)) s.built)
    (hid : ∀ u, P u (.answer i (.nextId kMessageIdPrefix) id)) (hnow : ∀ u, P u (.answer i .nowMs now)) :
    ∃ (next next' : Bool → Program Globals FfiResult), LeadsIn C P s
        (({ s with globals := { s.globals with inFlight := s.globals.inFlight + 1 } } :
          FfiProcess ι).set i (.running (.publish (some handle) (some kCommandTopic) (some bytes))
            (ask (.publish topic payload) next) (some s.built))) ∧
      next true = ask (.putTopics (buildKey topic id) payload [topic]) next' := by
  have hcommand := leads_command hidle hfree hsession hparse hbytes hlength hP
  obtain ⟨globals, dartPort, receivingDisabled, tearingDown, sdkBootedHere, nodeUp, owner, threads,
    built, objects, registrations, bridges, leaked⟩ := s
  subst hfree
  let s : FfiProcess ι := ⟨globals, dartPort, receivingDisabled, tearingDown, sdkBootedHere, nodeUp,
    none, threads, built, objects, registrations, bridges, leaked⟩
  let call := FfiCall.publish (some handle) (some kCommandTopic) (some bytes)
  let held : FfiProcess ι := { s with owner := some i }
  let opened : Globals := { globals with inFlight := globals.inFlight + 1 }
  let during : FfiProcess ι := { s with globals := opened }
  let window (p : Program Globals FfiResult) := during.set i (.running call p (some built))
  let back (sendOk : Bool) : Program Globals (Globals × GcsStatus) := do
    let g ← lockMutex
    let g := { g with inFlight := g.inFlight - 1 }
    if sendOk then pure (g, .ok)
    else Core.failWith g (ofString "send_text failed for room '" ++ topic ++ ofString "'")
  let giving (result : Globals × GcsStatus) : Program Globals FfiResult :=
    giveBack result.1 (.status result.2)
  let rest (sendOk : Bool) : Program Globals FfiResult := back sendOk >>= giving
  obtain ⟨drawn, hsend, hdrawn⟩ := exists_sendMessageProgram_sealed C.messaging topic text
  obtain ⟨next, hnext, next', hput⟩ := hdrawn id now random payload hsealed
  let shown (_ : Unit) : Program Globals FfiResult := ask .random (drawn id now) >>= rest
  have hup : globals.session ≠ none := by
    rw [show globals.session = some handle.address from hsession]
    exact Option.some_ne_none _
  have hrun : C.runCommand globals (.sendText topic text) >>= giving =
      ask (.unlock opened) fun _ => C.messaging.sendMessageProgram topic text >>= rest := by
    have hassoc : (C.messaging.sendMessageProgram topic text >>= back) >>= giving =
        C.messaging.sendMessageProgram topic text >>= rest := bind_assoc _ _ _
    change C.sendText globals topic text >>= _ = _
    rw [Core.sendText, htopic, ← hassoc]
    change (if _ then _ else if _ then _ else _) >>= _ = _
    rw [if_neg (not_not.2 hjoined), if_neg (Nat.not_lt_of_le htext)]
    rfl
  have hopen : LeadsIn C P (held.set i (.running call (ask (.unlock opened) fun _ =>
      C.messaging.sendMessageProgram topic text >>= rest) none))
      (window (C.messaging.sendMessageProgram topic text >>= rest)) := by
    refine leads_window (s := held) rfl rfl hup (fun hg => ?_) fun u => hP.routine u _ trivial
    exact absurd (congrArg Globals.inFlight hg) (Nat.succ_ne_self globals.inFlight)
  have hpending : Steps (answerWorld ι (some built)) (C.messaging.sendMessageProgram topic text >>= rest)
      during [⟨.nextId kMessageIdPrefix, id⟩, ⟨.nowMs, now⟩, ⟨.insertOwn id, ()⟩]
      (C.messaging.sinkMessage (C.messaging.pendingMessage topic text id now) >>= shown) during := by
    rw [hsend]
    refine steps_ask_iff.2 (.inr ⟨id, during, _, ⟨trivial, rfl⟩, ?_, rfl⟩)
    refine steps_ask_iff.2 (.inr ⟨now, during, _, ⟨trivial, rfl⟩, ?_, rfl⟩)
    refine steps_ask_iff.2 (.inr ⟨(), during, _, ⟨trivial, rfl⟩, ?_, rfl⟩)
    exact .nil _ _
  have hids : LeadsIn C P (window (C.messaging.sendMessageProgram topic text >>= rest))
      (window (C.messaging.sinkMessage (C.messaging.pendingMessage topic text id now) >>= shown)) := by
    refine leads_steps call hpending fun u p e a _ hmem => ?_
    simp only [List.mem_cons, List.not_mem_nil, or_false] at hmem
    rcases hmem with h | h | h
    · cases h
      exact hid _
    · cases h
      exact hnow _
    · cases h
      exact hP.routine _ _ trivial
  have hshown : LeadsIn C P
      (window (C.messaging.sinkMessage (C.messaging.pendingMessage topic text id now) >>= shown))
      (window (shown ())) := leads_sink (s := during) rfl rfl hup hP
  have hrandom : LeadsIn C P (window (shown ()))
      (window (ask (.publish topic payload) fun publishOk => next publishOk >>= rest)) := by
    refine LeadsIn.step (l := .answer i .random random) ⟨call, _, some built, set_threads_self _ _ _,
      trivial, ?_⟩ (hP.routine _ _ trivial)
    change during.set i (.running call (ask (.publish topic payload) next >>= rest) (some built)) = _
    rw [← hnext]
    exact (set_set (s := during) _ _).symm
  have hwindow : LeadsIn C P s (held.set i (.running call (ask (.unlock opened) fun _ =>
      C.messaging.sendMessageProgram topic text >>= rest) none)) := by
    rw [← hrun]
    exact hcommand
  exact ⟨fun publishOk => next publishOk >>= rest, fun putOk => next' putOk >>= rest,
    hwindow.trans (hopen.trans (hids.trans (hshown.trans hrandom))), congrArg (· >>= rest) hput⟩

theorem leads_live (hidle : s.threads i = .idle) (hfree : s.owner = none)
    (hgate : s.receivingDisabled = false) (hup : s.globals.session ≠ none) {n : ℕ} {topic data : Bytes}
    (hregistered : (n, topic) ∈ s.registrations) {msg : ChatMessageState}
    (hopen : C.messaging.openMessage topic data = some msg) :
    Leads C s (s.updateArchive s.built (·.enqueue (buildKey msg.roomTopic msg.id) data)) := by
  let call := FfiCall.live n topic data
  let opened : FfiProcess ι :=
    { s with globals := { s.globals with inFlight := s.globals.inFlight + 1 } }
  let enqueued := opened.updateArchive s.built (·.enqueue (buildKey msg.roomTopic msg.id) data)
  have hstart : Leads C s (opened.set i (.running call
      (C.messaging.applyMessageProgram topic data >>= fun _ => closing .void) (some s.built))) :=
    leads_open rfl ⟨hidle, hregistered, rfl⟩ hfree hgate hup (allowsCall_true i call s.built)
  have henqueue : Leads C
      (opened.set i (.running call (ask (.enqueueArchive (buildKey msg.roomTopic msg.id) data)
        fun _ => closing .void) (some s.built)))
      (enqueued.set i (.running call (closing .void) (some s.built))) := by
    refine Leads.step (l := .answer i (.enqueueArchive _ data) ()) ⟨call, _, some s.built,
      set_threads_self _ _ _, trivial, ?_⟩
    exact (set_set (s := enqueued) _ _).symm
  have hclose : Leads C (enqueued.set i (.running call (closing .void) (some s.built)))
      ((enqueued.set i (.running call (closing .void) (some s.built))).left i) :=
    leads_close (set_threads_self _ _ _) rfl hfree hup (allowsCall_true i call _)
  have hleft : (enqueued.set i (.running call (closing .void) (some s.built))).left i =
      s.updateArchive s.built (·.enqueue (buildKey msg.roomTopic msg.id) data) := by
    rw [left]
    refine (set_set (s := { enqueued with globals := s.globals }) _ _).trans ?_
    exact set_eq_self (s := { enqueued with globals := s.globals }) hidle
  rw [hleft] at hclose
  refine hstart.trans (LeadsIn.trans ?_ (henqueue.trans hclose))
  exact leads_pushed (s := opened) hopen hfree hup (allowsCall_true i call s.built)

/-- Room `topic` is joined, and the pubsub keeps a callback for it. -/
def joined (s : FfiProcess ι) (topic : Bytes) : FfiProcess ι :=
  { s with
    globals := { s.globals with
      roomTopics := Core.pushBackAbsent s.globals.roomTopics topic
      explicitTopics := Core.pushBackAbsent s.globals.explicitTopics topic }
    registrations := (s.built, topic) :: s.registrations }

theorem leads_join (hidle : s.threads i = .idle) (hfree : s.owner = none) {handle : Handle}
    (hsession : s.globals.session = some handle.address) {topic bytes : Bytes}
    (hparse : C.parseCommand bytes = some (.joinTopic topic)) (hbytes : bytes ≠ [])
    (hlength : bytes.length ≤ kMaxInt)
    (htopic : Core.topicRejection (ofString "join_topic") topic = none)
    (hnew : topic ∉ s.globals.roomTopics) : Leads C s (s.joined topic) := by
  let call := FfiCall.publish (some handle) (some kCommandTopic) (some bytes)
  let held : FfiProcess ι := { s with owner := some i }
  let g : Globals := { s.globals with
    roomTopics := Core.pushBackAbsent s.globals.roomTopics topic
    explicitTopics := Core.pushBackAbsent s.globals.explicitTopics topic }
  let opened : Globals := { g with inFlight := g.inFlight + 1 }
  let resumes (liveOk : Bool) : Program Globals FfiResult := do
    let result ← (do
      let subscribed ← Core.resumeLive topic liveOk
      pure (subscribed.1, if subscribed.2 then GcsStatus.ok else .errorGeneric))
    giveBack result.1 (.status result.2)
  let giving (result : Globals × GcsStatus) : Program Globals FfiResult :=
    giveBack result.1 (.status result.2)
  have hcommand := leads_command hidle hfree hsession hparse hbytes hlength (allowsCall_true i call s.built)
  have hasked : ∃ tr, Steps (answerWorld ι none) (C.runCommand s.globals (.joinTopic topic) >>= giving)
      held tr (ask (.unlock opened) fun _ => ask (.subscribe topic) resumes) held := by
    refine ⟨[⟨.addListenTopic topic, true⟩, ⟨.addBroadcastTopic topic, true⟩,
      ⟨.post (Core.buildRoomListEvent g), ()⟩, ⟨.queryKeyValues (historyPrefix topic), none⟩], ?_⟩
    change Steps _ ((C.joinTopic s.globals topic) >>= _) _ _ _ _
    rw [Core.joinTopic, htopic]
    refine steps_ask_iff.2 (.inr ⟨true, held, _, ⟨trivial, rfl⟩, ?_, rfl⟩)
    refine steps_ask_iff.2 (.inr ⟨true, held, _, ⟨trivial, rfl⟩, ?_, rfl⟩)
    refine steps_ask_iff.2 (.inr ⟨(), held, _, ⟨trivial, rfl⟩, ?_, rfl⟩)
    refine steps_ask_iff.2 (.inr ⟨none, held, _, ⟨trivial, rfl⟩, ?_, rfl⟩)
    simp only [pure_eq_done, hnew, decide_false, Bool.false_eq_true, if_false]
    exact .nil _ _
  obtain ⟨tr, hasked⟩ := hasked
  have hup : s.globals.session ≠ none := by
    rw [hsession]
    exact Option.some_ne_none _
  let window (u : FfiProcess ι) (p : Program Globals FfiResult) (pointer : Option ℕ) :=
    u.set i (.running call p pointer)
  let during : FfiProcess ι := { s with globals := opened, owner := none }
  let live : FfiProcess ι := { during with registrations := (s.built, topic) :: s.registrations }
  have hopen : Leads C (window held (ask (.unlock opened) fun _ => ask (.subscribe topic) resumes) none)
      (window during (ask (.subscribe topic) resumes) (some s.built)) := by
    refine leads_window (s := held) rfl rfl hup (fun hg => ?_) fun _ => trivial
    exact absurd (congrArg Globals.inFlight hg) (Nat.succ_ne_self s.globals.inFlight)
  have hsubscribe : Leads C (window during (ask (.subscribe topic) resumes) (some s.built))
      (window live (resumes true) (some s.built)) := by
    refine Leads.step (l := .answer i (.subscribe topic) true) ⟨call, _, some s.built,
      set_threads_self _ _ _, trivial, ?_⟩
    exact (set_set (s := live) _ _).symm
  have hclose : Leads C (window live (resumes true) (some s.built)) (s.joined topic) := by
    have hleft : (window live (resumes true) (some s.built)).left i = s.joined topic := by
      rw [left]
      refine (set_set (s := { live with globals := g }) _ _).trans ?_
      refine (set_eq_self (s := { live with globals := g }) hidle).trans ?_
      obtain ⟨_, _, _, _, _, _, owner, _, _, _, _, _⟩ := s
      obtain rfl : owner = none := hfree
      rfl
    rw [← hleft]
    have hclosing : (window live (resumes true) (some s.built)).threads i =
      .running call (closing (.status .ok)) (some s.built) := set_threads_self _ _ _
    exact leads_close hclosing rfl rfl hup (allowsCall_true i call _)
  exact hcommand.trans ((leads_steps call hasked fun _ _ _ _ _ _ => trivial).trans (hopen.trans
    (hsubscribe.trans hclose)))

def waiting (s : FfiProcess ι) (i : ι) (handle : Handle) : FfiProcess ι :=
  ({ s with receivingDisabled := true } : FfiProcess ι).set i (.draining handle)

theorem leads_draining (hidle : s.threads i = .idle) (hfree : s.owner = none) {handle : Handle}
    (hsession : s.globals.session = some handle.address) (hwait : s.globals.inFlight ≠ 0)
    (hP : AllowsCall P i (.shutdown (some handle)) s.built) : LeadsIn C P s (s.waiting i handle) := by
  let call := FfiCall.shutdown (some handle)
  have hcall : LeadsIn C P s (s.set i (.called call)) :=
    LeadsIn.step (l := .call i call) ⟨hidle, rfl⟩ (hP.start s)
  refine hcall.trans (LeadsIn.step (l := .enter i) ⟨call, set_threads_self _ _ _, hfree, ?_⟩
    (hP.enter _ (set_threads_self _ _ _) rfl))
  have hgated : (s.set i (.called call)).enter C i call =
      ({ s.set i (.called call) with receivingDisabled := true } : FfiProcess ι).set i
        (.draining handle) := by
    have hsession' : (s.set i (.called call)).globals.session = some handle.address := hsession
    have hwait' : (s.set i (.called call)).globals.inFlight ≠ 0 := hwait
    rw [FfiProcess.enter, if_pos hsession', if_neg hwait']
  rw [hgated]
  exact (set_set (s := { s with receivingDisabled := true }) _ _).symm

theorem leads_evict {handle : Handle} (hthread : s.threads i = .draining handle)
    (hfree : s.owner = none) (hidle : s.globals.inFlight = 0) (hP : P s (.drained i)) :
    LeadsIn C P s (s.evict i handle) :=
  LeadsIn.step (l := .drained i) ⟨handle, hthread, hfree, hidle, rfl⟩ hP

theorem evict_set {t : FfiThread} {handle : Handle} : (s.set i t).evict i handle = s.evict i handle := by
  simp only [evict, set, Function.update_idem]

theorem enter_shutdown {handle : Handle} (hsession : s.globals.session = some handle.address)
    (hidle : s.globals.inFlight = 0) :
    (s.set i (.called (.shutdown (some handle)))).enter C i (.shutdown (some handle)) =
      s.evict i handle := by
  have hsession' : (s.set i (.called (.shutdown (some handle)))).globals.session =
      some handle.address := hsession
  have hidle' : (s.set i (.called (.shutdown (some handle)))).globals.inFlight = 0 := hidle
  rw [FfiProcess.enter, if_pos hsession', if_pos hidle', evict_set]

theorem leads_shutdown (hthread : s.threads i = .idle) (hfree : s.owner = none) {handle : Handle}
    (hsession : s.globals.session = some handle.address) (hidle : s.globals.inFlight = 0)
    (hP : AllowsCall P i (.shutdown (some handle)) s.built) : LeadsIn C P s (s.evict i handle) := by
  let call := FfiCall.shutdown (some handle)
  have hcall : LeadsIn C P s (s.set i (.called call)) :=
    LeadsIn.step (l := .call i call) ⟨hthread, rfl⟩ (hP.start s)
  refine hcall.trans (LeadsIn.step (l := .enter i) ⟨call, set_threads_self _ _ _, hfree, ?_⟩
    (hP.enter _ (set_threads_self _ _ _) rfl))
  exact (enter_shutdown hsession hidle).symm

theorem leads_teardown {handle : Handle} {work : Teardown}
    (hthread : s.threads i = .tearingDown handle work) (hcan : s.CanTearDown work)
    (hP : P s (.teardown i)) : LeadsIn C P s (s.tearDown i handle work) :=
  LeadsIn.step (l := .teardown i) ⟨handle, work, hthread, hcan, rfl⟩ hP

/-- Session `n` is destroyed, and the shutdown on thread `i` has returned. -/
def torn (s : FfiProcess ι) (i : ι) (n : ℕ) : FfiProcess ι :=
  (({ s with tearingDown := false } : FfiProcess ι).setObjects n (s.objects n).remains).set i .idle

theorem tearDown_setObjects {handle : Handle} {work : Teardown} {n : ℕ} {o : SessionObjects}
    {t : FfiThread} (hstage : work.stage ≠ .relock) {f : SessionObjects → SessionObjects}
    (h : ∀ u : FfiProcess ι, u.destroyed work = u.setObjects n (f (u.objects n))) :
    ((s.setObjects n o).set i t).tearDown i handle work =
      (s.setObjects n (f o)).set i (.tearingDown handle work.next) := by
  have hobjects : ((s.setObjects n o).set i t).objects n = o := Function.update_self _ _ _
  rw [tearDown, h, hobjects, if_neg hstage]
  change FfiProcess.set (((s.set i t).setObjects n o).setObjects n (f o)) i _ = _
  rw [setObjects, setObjects, Function.update_idem]
  exact set_set (s := s.setObjects n (f o)) _ _

/-- The steps of a teardown on thread `i`, from `s` on, with those of the archive worker it joins. -/
structure TeardownAlone (s : FfiProcess ι) (i : ι) (u : FfiProcess ι) (l : FfiStep ι) : Prop where
  others : ∀ j, j ≠ i → u.threads j = s.threads j
  lock : ∀ j, l ≠ .lock j
  teardown : ∀ j, l = .teardown j → j = i

theorem teardownAlone_set {u : FfiProcess ι} {t : FfiThread} {l : FfiStep ι}
    (hu : u.threads = s.threads) (hlock : ∀ j, l ≠ .lock j) (hteardown : ∀ j, l = .teardown j → j = i) :
    TeardownAlone s i (u.set i t) l := by
  refine ⟨fun j hj => ?_, hlock, hteardown⟩
  rw [set_threads_of_ne _ _ hj, hu]

/-- A teardown destroys a session that is idle, whatever the other threads are doing. -/
theorem leads_torn {handle : Handle} {n : ℕ}
    (hthread : s.threads i = .tearingDown handle (.start false (some n))) (hfree : s.owner = none)
    (hqueue : (s.objects n).archive.queue = []) (hhand : (s.objects n).archive.inHand = none)
    (hreturned : (s.objects n).archive.returned = false)
    (hheal : ∀ j key value program pointer,
      s.threads j ≠ .running (.heal n key value) program pointer)
    (hP : ∀ u l, TeardownAlone s i u l → P u l) : LeadsIn C P s (s.torn i n) := by
  let work (stage : TeardownStage) : Teardown := ⟨false, some n, stage⟩
  let during (o : SessionObjects) (stage : TeardownStage) : FfiProcess ι :=
    (s.setObjects n o).set i (.tearingDown handle (work stage))
  have hstep : ∀ o stage l, (∀ j, l ≠ .lock j) → (∀ j, l = .teardown j → j = i) →
      P (during o stage) l := fun o stage l hlock hteardown =>
    hP _ l (teardownAlone_set (s := s) (u := s.setObjects n o) rfl hlock hteardown)
  have hturn : ∀ o stage, P (during o stage) (.teardown i) := fun o stage =>
    hstep o stage _ (fun _ => nofun) fun _ hj => (FfiStep.teardown.inj hj).symm
  have hnext : ∀ o stage (f : SessionObjects → SessionObjects), stage ≠ .relock →
      (∀ u : FfiProcess ι, u.destroyed (work stage) = u.setObjects n (f (u.objects n))) →
        (during o stage).CanTearDown (work stage) →
          LeadsIn C P (during o stage) (during (f o) (work stage).next.stage) := by
    intro o stage f hstage hdestroyed hcan
    have hlead := leads_teardown (C := C) (s := during o stage) (set_threads_self _ _ _) hcan
      (hturn o stage)
    rwa [tearDown_setObjects hstage hdestroyed] at hlead
  let o := s.objects n
  let stop (o : SessionObjects) : SessionObjects :=
    { o with archive := { o.archive with stopped := true } }
  let join (o : SessionObjects) : SessionObjects := { o with messaging := false }
  let shut (o : SessionObjects) : SessionObjects := { o with shutDown := true }
  let empty (o : SessionObjects) : SessionObjects := { o with entities := false }
  let free (o : SessionObjects) : SessionObjects := { o with session := false }
  let returned := { stop o with archive := { (stop o).archive with returned := true } }
  have hstart : s = during o .stopArchive := by
    have hself : s.setObjects n o = s := by
      rw [setObjects, Function.update_eq_self]
    change s = FfiProcess.set (s.setObjects n o) i _
    rw [hself]
    exact (set_eq_self hthread).symm
  have hstop : LeadsIn C P (during o .stopArchive) (during (stop o) .joinArchive) :=
    hnext o .stopArchive stop nofun (fun _ => rfl) trivial
  have hreturn : LeadsIn C P (during (stop o) .joinArchive) (during returned .joinArchive) := by
    have hobjects : (during (stop o) .joinArchive).objects n = stop o := Function.update_self _ _ _
    refine LeadsIn.step (l := .workerReturn n) ⟨?_, ?_, ?_, ?_, ?_⟩
      (hstep _ _ _ (fun _ => nofun) fun _ => nofun)
    · rw [hobjects]
      exact hhand
    · rw [hobjects]
      exact hreturned
    · rw [hobjects]
    · rw [hobjects]
      exact hqueue
    · rw [updateArchive, hobjects]
      change _ = FfiProcess.set ((s.setObjects n (stop o)).setObjects n returned) i _
      rw [setObjects, setObjects, Function.update_idem]
      rfl
  have hjoin : LeadsIn C P (during returned .joinArchive) (during (join returned) .sessionShutdown) := by
    refine hnext returned .joinArchive join nofun (fun _ => rfl) ?_
    change ((during returned .joinArchive).objects n).archive.returned = true
    rw [show (during returned .joinArchive).objects n = returned from Function.update_self _ _ _]
  have hshutdown : LeadsIn C P (during (join returned) .sessionShutdown)
      (during (shut (join returned)) .resetEntities) := by
    refine hnext (join returned) .sessionShutdown shut nofun (fun _ => rfl)
      fun j key value program pointer hj => ?_
    by_cases hji : j = i
    · subst hji
      cases (set_threads_self _ _ _).symm.trans hj
    · exact hheal j key value program pointer ((set_threads_of_ne _ _ hji).symm.trans hj)
  have hentities : LeadsIn C P (during (shut (join returned)) .resetEntities)
      (during (empty (shut (join returned))) .resetSession) :=
    hnext _ .resetEntities empty nofun (fun _ => rfl) trivial
  have hsession : LeadsIn C P (during (empty (shut (join returned))) .resetSession)
      (during o.remains .relock) := hnext _ .resetSession free nofun (fun _ => rfl) trivial
  have hlast : LeadsIn C P (during o.remains .relock) (s.torn i n) := by
    refine LeadsIn.step (l := .teardown i) ⟨handle, work .relock, set_threads_self _ _ _, hfree, ?_⟩
      (hturn _ _)
    exact (set_set (s := { s.setObjects n o.remains with tearingDown := false }) _ _).symm
  have hrun : LeadsIn C P (during o .stopArchive) (s.torn i n) :=
    hstop.trans (hreturn.trans (hjoin.trans (hshutdown.trans (hentities.trans
      (hsession.trans hlast)))))
  rwa [← hstart] at hrun

theorem leads_shutdown_torn (hidle : ∀ j, s.threads j = .idle) (hfree : s.owner = none)
    {handle : Handle} (hsession : s.globals.session = some handle.address)
    (hwindows : s.globals.inFlight = 0) (hbooted : s.sdkBootedHere = false)
    (hqueue : (s.objects s.built).archive.queue = [])
    (hhand : (s.objects s.built).archive.inHand = none)
    (hreturned : (s.objects s.built).archive.returned = false)
    (hcall : AllowsCall P i (.shutdown (some handle)) s.built)
    (hP : ∀ u l, TeardownAlone s i u l → P u l) :
    LeadsIn C P s ((s.evict i handle).torn i s.built) := by
  refine (leads_shutdown (hidle i) hfree hsession hwindows hcall).trans ?_
  have hup : s.globals.session ≠ none := by
    rw [hsession]
    nofun
  have hthread := evict_threads_self_of_up i handle hup
  rw [hbooted] at hthread
  refine leads_torn hthread ((evict_owner i handle).trans hfree) ?_ ?_ ?_
    (fun j key value program pointer hj => ?_) fun u l halone => hP u l ⟨fun j hj => ?_, halone.lock,
      halone.teardown⟩
  · rwa [evict_objects]
  · rwa [evict_objects]
  · rwa [evict_objects]
  · by_cases hji : j = i
    · subst hji
      cases hthread.symm.trans hj
    · rw [evict_threads_of_ne handle hji, hidle j] at hj
      cases hj
  · rw [halone.others j hj, evict_threads_of_ne handle hj]

theorem torn_address_ne {n : ℕ} (hothers : ∀ m, m ≠ n → (s.objects m).session = false)
    (address m : ℕ) (hm : ((s.torn i n).objects m).session) :
    ((s.torn i n).objects m).address ≠ address := by
  change (Function.update s.objects n _ m).session = true at hm
  by_cases hmn : m = n
  · subst hmn
    rw [Function.update_self] at hm
    cases hm
  · rw [Function.update_of_ne hmn, hothers m hmn] at hm
    cases hm

/-- A session on a node that was there already. -/
def firstSession (ι : Type) : FfiProcess ι := (fresh ι true).started 1

/-- The first session comes up in every system that allows the first `gcs_init`. -/
theorem restrict_firstSession (i : ι) (hP : ∀ u l, InitAlone (fresh ι true) i u l → P u l) :
    ((ffiSystem C ι).restrict P).Reachable (firstSession ι) := by
  refine (leads_init (i := i) rfl rfl rfl rfl rfl (fun n hn => ?_) hP).restrict_reachable
    (Reachable.initial ⟨true, rfl⟩)
  cases hn

theorem reachable_firstSession (C : Core) (ι : Type) [DecidableEq ι] [Inhabited ι] :
    (ffiSystem C ι).Reachable (firstSession ι) := by
  refine (leads_init (P := fun _ _ => True) (i := default) rfl rfl rfl rfl rfl (fun n hn => ?_)
    fun _ _ _ => trivial).reachable (Reachable.initial ⟨true, rfl⟩)
  cases hn

omit [DecidableEq ι] in
theorem firstSession_objects_session {n : ℕ} (hn : n ≠ 1) :
    ((firstSession ι).objects n).session = false := by
  have habsent : (firstSession ι).objects n = .absent := Function.update_of_ne hn _ _
  rw [habsent]
  rfl

/-- A room that no session joins by itself. -/
def quietRoom : Bytes := ofString "gcs/chat/quiet"

def firstRoom (ι : Type) : FfiProcess ι := (firstSession ι).joined quietRoom

theorem leads_quietRoom {M : Messaging} (hidle : s.threads i = .idle) (hfree : s.owner = none)
    {address : ℕ} (hglobals : s.globals = startedGlobals address) :
    Leads (protoCore M) s (s.joined quietRoom) := by
  have hvalid : (GcsCommand.joinTopic quietRoom).Valid := validUtf8_ofString _
  have hsession : s.globals.session = some (Handle.mk address s.built).address := by
    rw [hglobals]
    rfl
  refine leads_join hidle hfree hsession (GcsCommand.parse_serialize hvalid) (by decide)
    (by decide) (by decide) ?_
  rw [hglobals]
  change quietRoom ∉ [kSmokeTopicA, kSmokeTopicB]
  decide

theorem reachable_firstRoom (M : Messaging) (ι : Type) [DecidableEq ι] [Inhabited ι] :
    (ffiSystem (protoCore M) ι).Reachable (firstRoom ι) :=
  (leads_quietRoom (i := default) rfl rfl (rfl : _ = startedGlobals 1)).reachable
    (reachable_firstSession (protoCore M) ι)

/-- A heal callback for a key that names no message. -/
def idleHeal (n : ℕ) : FfiCall := .heal n [] []

def firstWindow (i : ι) : FfiProcess ι :=
  ({ firstSession ι with globals := { startedGlobals 1 with inFlight := 1 } } : FfiProcess ι).set i
    (.running (idleHeal 1) (closing .void) (some 1))

theorem leads_firstWindow (i : ι) (hP : AllowsCall P i (idleHeal 1) 1) :
    LeadsIn C P (firstSession ι) (firstWindow i) :=
  have hcallback : Funnels C (idleHeal 1) (returning (pure ())) := rfl
  leads_open hcallback ⟨rfl, List.mem_cons_self, rfl, rfl⟩ rfl rfl (Option.some_ne_none 1) hP

theorem reachable_firstWindow (C : Core) (i : ι) : (ffiSystem C ι).Reachable (firstWindow i) :=
  letI : Inhabited ι := ⟨i⟩
  (leads_firstWindow i (allowsCall_true i _ 1)).reachable (reachable_firstSession C ι)

/-- Threads 2 and 3 wait to shut the first session down, and thread 1 has just left its window. -/
def twoDrained : FfiProcess ℕ := (((firstWindow 1).waiting 2 ⟨1, 1⟩).waiting 3 ⟨1, 1⟩).left 1

theorem twoDrained_threads (j : ℕ) :
    twoDrained.threads j = .idle ∨ twoDrained.threads j = .draining ⟨1, 1⟩ := by
  by_cases h1 : j = 1
  · subst h1
    exact .inl rfl
  by_cases h3 : j = 3
  · subst h3
    exact .inr rfl
  by_cases h2 : j = 2
  · subst h2
    exact .inr rfl
  · refine .inl ((set_threads_of_ne _ _ h1).trans ?_)
    refine (set_threads_of_ne _ _ h3).trans ((set_threads_of_ne _ _ h2).trans ?_)
    exact set_threads_of_ne _ _ h1

theorem leads_twoDrained {P : FfiProcess ℕ → FfiStep ℕ → Prop} (hcall : AllowsCall P 1 (idleHeal 1) 1)
    (hshutdown : ∀ i, AllowsCall P i (.shutdown (some ⟨1, 1⟩)) 1) :
    LeadsIn C P (firstSession ℕ) twoDrained := by
  have hfirst : LeadsIn C P (firstWindow 1) ((firstWindow 1).waiting 2 ⟨1, 1⟩) :=
    leads_draining rfl rfl rfl Nat.one_ne_zero (hshutdown _)
  have hsecond : LeadsIn C P ((firstWindow 1).waiting 2 ⟨1, 1⟩)
      (((firstWindow 1).waiting 2 ⟨1, 1⟩).waiting 3 ⟨1, 1⟩) :=
    leads_draining rfl rfl rfl Nat.one_ne_zero (hshutdown _)
  have hclose : LeadsIn C P (((firstWindow 1).waiting 2 ⟨1, 1⟩).waiting 3 ⟨1, 1⟩) twoDrained :=
    leads_close (i := 1) rfl rfl rfl (Option.some_ne_none 1) hcall
  exact (leads_firstWindow 1 hcall).trans (hfirst.trans (hsecond.trans hclose))

theorem reachable_twoDrained (C : Core) : (ffiSystem C ℕ).Reachable twoDrained :=
  (leads_twoDrained (allowsCall_true 1 _ 1) fun i => allowsCall_true i _ 1).reachable (reachable_firstSession C ℕ)

end FfiProcess

end GcsChat
