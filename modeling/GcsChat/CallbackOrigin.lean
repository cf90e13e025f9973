import GcsChat.DrainSafety

/-!
# Which session a received message goes to

The receive callbacks capture nothing: each takes whatever `Messaging` is global when it gets the
mutex. A pubsub that was there before the library keeps every callback that was ever registered, so a
callback of an earlier session may find a later one.
-/

namespace GcsChat

open ByteString Interactive TransitionSystem

def FfiCall.Opens (M : Messaging) : FfiCall → Prop
  | live _ topic data => M.openMessage topic data ≠ none
  | heal _ key value => ∃ topic, roomTopicFromKey key = some topic ∧ topic ≠ [] ∧
      M.openMessage topic value ≠ none
  | _ => False

def Effect.Applies {G : Type} : Effect G → Prop
  | .post _ => True
  | .enqueueArchive _ _ => True
  | _ => False

/-- A callback has given the mutex up before, and what it found when it last took it. -/
structure CallbackMode where
  opened : Bool
  found : Option Globals

/-- A callback leaves the session as it found it, and applies nothing in its first section. -/
def callbackDiscipline : Discipline (Effect Globals) Effect.Answer CallbackMode where
  allows m e := match e with
    | .unlock g => ∃ found, m.found = some found ∧ g.session = found.session
    | .post _ => m.opened = true
    | .enqueueArchive _ _ => m.opened = true
    | _ => True
  possible _ _ _ := True
  after m e a := match e, a with
    | .lock, g => { m with found := some g }
    | .unlock _, _ => { m with opened := true }
    | _, _ => m

section Programs

variable {M : Messaging} {m : CallbackMode}

theorem follows_eventSink_callback (hm : m.opened = true) (event : GcsEvent) :
    (Messaging.eventSink event : Program Globals Unit).Follows callbackDiscipline m
      fun _ m' => m'.opened = true :=
  ⟨trivial, fun g _ => ⟨hm, fun _ _ => ⟨⟨g, rfl, rfl⟩, fun _ _ => rfl⟩⟩⟩

theorem follows_applyMessage_callback (hm : m.opened = true) (topic data : Bytes) :
    (M.applyMessageProgram topic data : Program Globals Unit).Follows callbackDiscipline m
      fun _ m' => m'.opened = true := by
  unfold Messaging.applyMessageProgram
  cases M.openMessage topic data with
  | none => exact hm
  | some msg =>
      refine ⟨trivial, fun unseen _ => ?_⟩
      cases unseen with
      | false => exact hm
      | true => exact (follows_eventSink_callback hm _).bind fun _ m' hm' => ⟨hm', fun _ _ => hm'⟩

theorem follows_onMessageArrived_callback (hm : m.opened = true) (key value : Bytes) :
    (M.onMessageArrivedProgram key value : Program Globals (Option Unit)).Follows callbackDiscipline m
      fun _ m' => m'.opened = true := by
  unfold Messaging.onMessageArrivedProgram
  cases roomTopicFromKey key with
  | none => exact hm
  | some topic =>
      change Follows _ (if topic = [] then _ else _) _ _
      split
      · exact hm
      · exact (follows_applyMessage_callback hm topic value).bind fun _ _ hm' => hm'

theorem follows_receiveCallback_callback {funnel : Program Globals (Option Unit)}
    (hfunnel : ∀ m : CallbackMode, m.opened = true →
      funnel.Follows callbackDiscipline m fun _ m' => m'.opened = true) :
    (Core.receiveCallback funnel).Follows callbackDiscipline m fun _ _ => True := by
  refine ⟨trivial, fun disabled _ => ?_⟩
  cases disabled with
  | true => exact trivial
  | false =>
      refine ⟨trivial, fun g _ => ?_⟩
      change Follows _ (if g.session = none then _ else _) _ _
      split
      · exact ⟨⟨g, rfl, rfl⟩, fun _ _ => trivial⟩
      · refine ⟨⟨g, rfl, rfl⟩, fun _ _ => (hfunnel _ rfl).bind fun returned _ _ => ?_⟩
        cases returned with
        | none => exact trivial
        | some _ => exact ⟨trivial, fun g' _ => ⟨⟨g', rfl, rfl⟩, fun _ _ => trivial⟩⟩

theorem follows_callback_callback {C : Core} (call : FfiCall) :
    (C.callback call).Follows callbackDiscipline m fun _ _ => True := by
  cases call with
  | live n topic data =>
      refine (follows_receiveCallback_callback fun m hm => ?_).bind fun _ _ _ => trivial
      exact (follows_applyMessage_callback hm topic data).bind fun _ _ hm' => hm'
  | heal n key value =>
      exact (follows_receiveCallback_callback fun m hm =>
        follows_onMessageArrived_callback hm key value).bind fun _ _ _ => trivial
  | _ => exact trivial

theorem asksOnly_receiveCallback {funnel : Program Globals (Option Unit)}
    (hfunnel : ∃ returned, funnel = pure returned) :
    (Core.receiveCallback funnel).AsksOnly fun e => ¬ e.Applies := by
  obtain ⟨returned, rfl⟩ := hfunnel
  refine ⟨id, fun disabled => ?_⟩
  cases disabled with
  | true => exact trivial
  | false =>
      refine ⟨id, fun g => ?_⟩
      change AsksOnly _ (if g.session = none then _ else _)
      split
      · exact ⟨id, fun _ => trivial⟩
      · refine ⟨id, fun _ => ?_⟩
        cases returned with
        | none => exact trivial
        | some _ => exact ⟨id, fun _ => ⟨id, fun _ => trivial⟩⟩

theorem asksOnly_callback {C : Core} {call : FfiCall} (hcall : ¬ call.Opens C.messaging) :
    (C.callback call).AsksOnly fun e => ¬ e.Applies := by
  cases call with
  | live n topic data =>
      have hnone : C.messaging.openMessage topic data = none := by
        by_contra hsome
        exact hcall hsome
      refine (asksOnly_receiveCallback ⟨some (), ?_⟩).bind fun _ => trivial
      rw [Messaging.applyMessageProgram, hnone]
      rfl
  | heal n key value =>
      refine (asksOnly_receiveCallback ?_).bind fun _ => trivial
      rw [Messaging.onMessageArrivedProgram]
      cases htopic : roomTopicFromKey key with
      | none => exact ⟨none, rfl⟩
      | some topic =>
          refine ⟨some (), ?_⟩
          change (if topic = [] then _ else _) = _
          split
          · rfl
          · next hne =>
              have hnone : C.messaging.openMessage topic value = none := by
                by_contra hsome
                exact hcall ⟨topic, htopic, hne, hsome⟩
              rw [Messaging.applyMessageProgram, hnone]
              rfl
  | _ => exact trivial

end Programs

namespace FfiProcess

section Statements

variable {ι : Type}

/-- A callback that has a message, is past the gate and finds a session belongs to that session. -/
def FindsOwn (M : Messaging) (s : FfiProcess ι) : FfiStep ι → Prop
  | .lock i => ∀ call next pointer n, s.threads i = .running call (ask .lock next) pointer →
      call.registeredBy = some n → call.Opens M → s.globals.session ≠ none → n = s.built
  | _ => True

/-- A callback has nothing to apply any more, or what it points to or has found is its own session. -/
def Own (M : Messaging) (s : FfiProcess ι) (i : ι) : FfiThread → Prop
  | .running call program pointer => ∀ n, call.registeredBy = some n → ∃ m : CallbackMode,
      (s.owner = some i → m.found = some s.globals) ∧
      program.Follows callbackDiscipline m (fun _ _ => True) ∧
      (m.opened = true → pointer ≠ none ∨ ∃ result, program = done result) ∧
      ((program.AsksOnly fun e => ¬ e.Applies) ∨ call.Opens M ∧ (∀ k, pointer = some k → k = n) ∧
        (s.owner = some i → s.globals.session ≠ none → n = s.built))
  | _ => True

variable {C : Core} {M : Messaging} {P : FfiCall → Effect Globals → Prop} {s s' : FfiProcess ι} {i : ι}

theorem Own.congr {t : FfiThread} (h : s.Own M i t) (hguarded : s'.owner = some i →
    s.owner = some i ∧ s'.globals = s.globals ∧ s'.built = s.built) : s'.Own M i t := by
  cases t with
  | running call program pointer =>
      intro n hn
      obtain ⟨m, hfound, hfollows, hopened, hown⟩ := h n hn
      refine ⟨m, fun howner => ?_, hfollows, hopened, hown.imp_right fun ⟨hopens, hpoints, hup⟩ =>
        ⟨hopens, hpoints, fun howner hsession => ?_⟩⟩
      · obtain ⟨hheld, hglobals, -⟩ := hguarded howner
        rw [hglobals]
        exact hfound hheld
      · obtain ⟨hheld, hglobals, hbuilt⟩ := hguarded howner
        rw [hglobals] at hsession
        rw [hbuilt]
        exact hup hheld hsession
  | _ => exact trivial

theorem own_callback (hfree : s.owner ≠ some i) (call : FfiCall) :
    s.Own C.messaging i (.running call (C.callback call) none) := by
  intro n hn
  refine ⟨⟨false, none⟩, fun howner => absurd howner hfree, follows_callback_callback call, nofun, ?_⟩
  by_cases hopens : call.Opens C.messaging
  · exact .inr ⟨hopens, nofun, fun howner => absurd howner hfree⟩
  · exact .inl (asksOnly_callback hopens)

theorem own_locked {call : FfiCall} (tearingDown : Bool)
    (hglobals : ∀ n, call.registeredBy = some n → s'.globals = s.globals) :
    s'.Own M i (.running call (C.locked s.globals tearingDown call) none) := by
  have hgives : ∀ n, call.registeredBy = some n →
      s'.Own M i (.running call (giveBack s.globals .void) none) := fun n hn _ _ =>
    ⟨⟨false, some s'.globals⟩, fun _ => rfl, ⟨⟨s'.globals, rfl, by rw [hglobals n hn]⟩,
      fun _ _ => trivial⟩, nofun, .inl ⟨id, fun _ => trivial⟩⟩
  cases call with
  | live n topic data => exact hgives n rfl
  | heal n key value => exact hgives n rfl
  | _ => exact fun _ hn => nomatch hn

theorem Own.lock {call : FfiCall} {next : Globals → Program Globals FfiResult} {pointer : Option ℕ}
    (h : s.Own M i (.running call (ask .lock next) pointer))
    (hfinds : ∀ n, call.registeredBy = some n → call.Opens M → s.globals.session ≠ none →
      n = s.built)
    (hglobals : s'.globals = s.globals) (hbuilt : s'.built = s.built) :
    s'.Own M i (.running call (next s.globals) pointer) := by
  intro n hn
  obtain ⟨m, -, hfollows, hopened, hown⟩ := h n hn
  refine ⟨{ m with found := some s.globals }, fun _ => ?_, hfollows.2 s.globals trivial,
    fun hopen => .inl ?_, ?_⟩
  · rw [hglobals]
  · rcases hopened hopen with hpointer | ⟨result, hdone⟩
    · exact hpointer
    · cases hdone
  · rcases hown with hharmless | ⟨hopens, hpoints, -⟩
    · exact .inl (hharmless.2 s.globals)
    · refine .inr ⟨hopens, hpoints, fun _ hsession => ?_⟩
      rw [hglobals] at hsession
      rw [hbuilt]
      exact hfinds n hn hopens hsession

theorem Own.answer {call : FfiCall} {e : Effect Globals} {a : e.Answer}
    {next : e.Answer → Program Globals FfiResult} {pointer : Option ℕ}
    (h : s.Own M i (.running call (ask e next) pointer)) (ha : s.Answers e a)
    (hglobals : s'.globals = s.globals) (howner : s'.owner = s.owner) (hbuilt : s'.built = s.built) :
    s'.Own M i (.running call (next a) pointer) := by
  intro n hn
  obtain ⟨m, hfound, hfollows, hopened, hown⟩ := h n hn
  have hsame : callbackDiscipline.after m e a = m := by
    cases e with
    | lock => exact ha.elim
    | unlock g => exact ha.elim
    | _ => rfl
  have hnext := hfollows.2 a trivial
  rw [hsame] at hnext
  refine ⟨m, fun hheld => ?_, hnext, fun hopen => .inl ?_, ?_⟩
  · rw [hglobals]
    exact hfound (howner ▸ hheld)
  · rcases hopened hopen with hpointer | ⟨result, hdone⟩
    · exact hpointer
    · cases hdone
  · rcases hown with hharmless | ⟨hopens, hpoints, hup⟩
    · exact .inl (hharmless.2 a)
    · refine .inr ⟨hopens, hpoints, fun hheld hsession => ?_⟩
      rw [hglobals] at hsession
      rw [hbuilt]
      exact hup (howner ▸ hheld) hsession

/-- A callback that goes into its window points to the session it has found. -/
theorem Own.unlock {call : FfiCall} {g : Globals} {next : Unit → Program Globals FfiResult}
    {pointer pointer' : Option ℕ} (h : s.Own M i (.running call (ask (.unlock g) next) pointer))
    (hsound : s.Sound P) (hthread : s.threads i = .running call (ask (.unlock g) next) pointer)
    (howner : s.owner = some i) (hpointer : s.Repointed g pointer (next ()) pointer')
    (hfreed : s'.owner = none) : s'.Own M i (.running call (next ()) pointer') := by
  intro n hn
  obtain ⟨m, hfound, hfollows, hopened, hown⟩ := h n hn
  obtain ⟨found, hm, hsame⟩ := hfollows.1
  obtain rfl : found = s.globals := Option.some.inj (hm.symm.trans (hfound howner))
  have hrest := (hsound.rest_unlock hthread howner).2
  have hnot : s'.owner ≠ some i := by
    rw [hfreed]
    nofun
  refine ⟨{ m with opened := true }, fun hheld => absurd hheld hnot, hfollows.2 () trivial,
    fun _ => ?_, ?_⟩
  · generalize next () = rest at hpointer hrest
    cases hpointer with
    | @ended result _ => exact .inr ⟨result, rfl⟩
    | threw => exact .inl nofun
    | kept hkept =>
        refine .inl ?_
        rintro rfl
        rcases hrest with ⟨-, hpast⟩ | ⟨hopen, -, -⟩
        · exact hpast.1
        · rw [hkept] at hopen
          exact absurd hopen (Nat.succ_ne_self _).symm
    | taken _ => exact .inl nofun
  · rcases hown with hharmless | ⟨hopens, hpoints, hup⟩
    · exact .inl (hharmless.2 ())
    · refine .inr ⟨hopens, ?_, fun hheld => absurd hheld hnot⟩
      generalize next () = rest at hpointer hrest
      cases hpointer with
      | ended _ => exact nofun
      | threw =>
          rcases hrest with ⟨-, hpast⟩ | ⟨-, hsession, -⟩
          · cases hpast.1
          · rw [hsame] at hsession
            intro k hk
            rw [release_of_up s g hsession] at hk
            exact (Option.some.inj hk).symm.trans (hup howner hsession).symm
      | kept _ => exact hpoints
      | taken _ =>
          rcases hrest with ⟨-, hpast⟩ | ⟨-, hsession, -⟩
          · exact hpast.1.elim
          · rw [hsame] at hsession
            intro k hk
            rw [release_of_up s g hsession] at hk
            exact (Option.some.inj hk).symm.trans (hup howner hsession).symm

end Statements

section Steps

variable {ι : Type} [DecidableEq ι] {C : Core} {P : FfiCall → Effect Globals → Prop} {s s' : FfiProcess ι}
  {l : FfiStep ι}

theorem own_step (h : ∀ i, s.Own C.messaging i (s.threads i)) (hsound : s.Sound P)
    (hfinds : s.FindsOwn C.messaging l) (hstep : (ffiSystem C ι).step s l s') (i : ι) :
    s'.Own C.messaging i (s'.threads i) := by
  rcases ffiSystem_rests hstep i with hrests | hthread
  · rw [hrests.thread]
    exact (h i).congr hrests.guarded
  · have hbefore := h i
    have hfits := hsound.fits i
    generalize s'.threads i = t' at hthread
    generalize ht : s.threads i = t at hthread hbefore hfits
    cases hthread with
    | @callback call =>
        refine own_callback (fun howner => hfits ?_) call
        obtain ⟨-, hcall⟩ := hstep
        cases call with
        | live n topic data =>
            obtain ⟨-, rfl⟩ := hcall
            exact howner
        | heal n key value =>
            obtain ⟨-, -, rfl⟩ := hcall
            exact howner
        | _ =>
            obtain rfl := hcall
            exact howner
    | @locked call hfree =>
        refine own_locked s.tearingDown fun n hn => ?_
        obtain ⟨call', hcalled, -, rfl⟩ := hstep
        obtain rfl : call' = call := FfiThread.called.inj (hcalled.symm.trans ht)
        cases call' with
        | live n topic data => rfl
        | heal n key value => rfl
        | _ => cases hn
    | lock hfree =>
        obtain ⟨call, next, pointer, hrunning, -, rfl⟩ := hstep
        exact hbefore.lock (fun n hn hopens => hfinds _ _ _ n ht hn hopens) rfl rfl
    | @unlock call g next pointer pointer' howner hpointer =>
        refine hbefore.unlock hsound ht howner hpointer ?_
        obtain ⟨_, g', _, _, _, _, -, -, rfl⟩ := hstep
        exact release_owner s g'
    | @answer call e a next pointer ha =>
        obtain ⟨_, _, pointer', hrunning, -, rfl⟩ := hstep
        have halike := alike_answered (s := s) pointer' e a
        exact hbefore.answer ha halike.globals halike.owner halike.built
    | greets => exact fun _ hn => nomatch hn
    | notRunning => exact fun _ hn => nomatch hn
    | _ => exact trivial

theorem own_of_reachable (h : ((ffiSystem C ι).restrict (FindsOwn C.messaging)).Reachable s) (i : ι) :
    s.Own C.messaging i (s.threads i) := by
  have hinv : s.Sound C.May ∧ ∀ i, s.Own C.messaging i (s.threads i) := by
    refine h.invariant (I := fun s => s.Sound C.May ∧ ∀ i, s.Own C.messaging i (s.threads i))
      (fun s₀ h₀ => ?_) fun u l w ⟨hsound, hown⟩ hstep => ?_
    · refine ⟨Sound.initial (C := C) h₀, ?_⟩
      obtain ⟨nodeUp, rfl⟩ := h₀
      exact fun _ => trivial
    · exact ⟨hsound.step_may hstep.1, own_step hown hsound hstep.2 hstep.1⟩
  exact hinv.2 i

end Steps

end FfiProcess

open FfiProcess

/-- Where every callback with a message that takes the mutex finds its own session or none, a message
is only ever applied to the session that registered the callback. -/
theorem applied_to_registering_session {C : Core} {ι : Type} [DecidableEq ι] {s : FfiProcess ι}
    (h : ((ffiSystem C ι).restrict (FindsOwn C.messaging)).Reachable s) {i : ι} {call : FfiCall}
    {e : Effect Globals} {next : e.Answer → Program Globals FfiResult} {pointer : Option ℕ} {n : ℕ}
    (hthread : s.threads i = .running call (ask e next) pointer) (he : e.Applies)
    (hn : call.registeredBy = some n) : pointer = some n := by
  have hown := own_of_reachable h i
  rw [hthread] at hown
  obtain ⟨m, -, hfollows, hopened, hrest⟩ := hown n hn
  have hopen : m.opened = true := by
    cases e with
    | post event => exact hfollows.1
    | enqueueArchive key value => exact hfollows.1
    | _ => exact he.elim
  rcases hrest with hharmless | ⟨-, hpoints, -⟩
  · exact absurd he hharmless.1
  · rcases hopened hopen with hpointer | ⟨result, hdone⟩
    · obtain ⟨k, rfl⟩ := Option.ne_none_iff_exists'.1 hpointer
      rw [hpoints k rfl]
    · cases hdone

/-- The first session gets a message through its own heal callback. -/
theorem applied_first : ∃ (s : FfiProcess ℕ) (call : FfiCall) (e : Effect Globals)
    (next : e.Answer → Program Globals FfiResult) (pointer : Option ℕ),
      s.threads 0 = .running call (ask e next) pointer ∧ e.Applies ∧ call.registeredBy = some 1 ∧
        pointer = some 1 := by
  let M := Messaging.plaintext (ofString "self")
  let C := protoCore M
  let msg := Messaging.numberedMessage quietRoom 0
  let data := M.codec.serialize msg
  let key := slash :: buildKey quietRoom (nextMessageId 0 0 0)
  let call := FfiCall.heal 1 key data
  have hopen : M.openMessage quietRoom data = some msg :=
    Messaging.openMessage_plaintext _ _ (Messaging.valid_numberedMessage (validUtf8_ofString _) 0)
  have hcallback : Funnels C call (returning (M.applyMessageProgram quietRoom data)) :=
    funnels_heal 1 (roomTopicFromKey_cons_buildKey quietRoom (isKeySegment_nextMessageId 0 0 0))
      (by decide)
  have hallows : AllowsCall (FindsOwn M) (0 : ℕ) call 1 := by
    refine ⟨fun _ => trivial, fun _ _ _ => trivial,
      fun u next pointer hrunning hbuilt call' next' pointer' n hrunning' hn _ _ => ?_,
      fun u l hl => ?_⟩
    · obtain rfl : call = call' := (FfiThread.running.inj (hrunning.symm.trans hrunning')).1
      rw [hbuilt]
      exact (Option.some.inj hn).symm
    · cases l with
      | lock j => exact hl.elim
      | _ => exact trivial
  have hfirst : ((ffiSystem C ℕ).restrict (FindsOwn M)).Reachable (firstSession ℕ) := by
    refine restrict_firstSession 0 fun u l halone => ?_
    cases l with
    | lock j =>
        intro call next pointer n hrunning hn
        by_cases hj : j = 0
        · subst hj
          rcases halone.self with hself | hself | ⟨_, hself⟩ <;> cases hself.symm.trans hrunning
          cases hn
        · cases (halone.others j hj).symm.trans hrunning
    | _ => exact trivial
  have hwindow := leads_open (C := C) (i := 0) (P := FindsOwn M) (s := firstSession ℕ) hcallback
    ⟨rfl, List.mem_cons_self, rfl, rfl⟩ rfl rfl (Option.some_ne_none 1) hallows
  let opened : FfiProcess ℕ :=
    { firstSession ℕ with globals := { startedGlobals 1 with inFlight := 1 } }
  let e : Effect Globals := .enqueueArchive (buildKey msg.roomTopic msg.id) data
  have hpushed : LeadsIn C (FindsOwn M) (opened.set 0 (.running call
      (M.applyMessageProgram quietRoom data >>= fun _ => closing .void) (some 1))) _ :=
    leads_pushed hopen rfl (Option.some_ne_none 1) hallows
  have hthread : (opened.set 0 (.running call (ask e fun _ => closing .void) (some 1))).threads 0 =
      .running call (ask e fun _ => closing .void) (some 1) := set_threads_self _ _ _
  exact ⟨_, call, e, _, some 1, hthread, trivial, rfl, applied_to_registering_session
    ((hwindow.trans hpushed).restrict_reachable hfirst) hthread trivial rfl⟩

/-- A live message comes in through a registration of the first session, which was shut down, and is
enqueued for the second one, which has not subscribed to anything. -/
theorem applied_to_later_session :
    let C := protoCore (Messaging.plaintext (ofString "self"))
    ∃ s : FfiProcess ℕ, (ffiSystem C ℕ).Reachable s ∧ ∃ topic data key value next,
      s.threads 0 = .running (.live 1 topic data) (ask (.enqueueArchive key value) next) (some 2) ∧
        ∀ other, (2, other) ∉ s.registrations := by
  intro C
  let M := Messaging.plaintext (ofString "self")
  let msg := Messaging.numberedMessage quietRoom 0
  let data := M.codec.serialize msg
  let evicted := (firstRoom ℕ).evict 0 ⟨1, 1⟩
  let second := (evicted.torn 0 1).started 2
  have hopen : M.openMessage quietRoom data = some msg :=
    Messaging.openMessage_plaintext _ _ (Messaging.valid_numberedMessage (validUtf8_ofString _) 0)
  have htorn : Leads C (firstRoom ℕ) (evicted.torn 0 1) :=
    leads_shutdown_torn (fun _ => rfl) rfl rfl rfl rfl rfl rfl rfl
      (allowsCall_true 0 _ 1) fun _ _ _ => trivial
  have hothers : ∀ n, n ≠ 1 → (evicted.objects n).session = false :=
    fun _ => firstSession_objects_session
  have hinit : Leads C (evicted.torn 0 1) second :=
    leads_init (i := 0) rfl rfl rfl rfl rfl (torn_address_ne hothers 2) fun _ _ _ => trivial
  let call := FfiCall.live 1 quietRoom data
  let opened : FfiProcess ℕ :=
    { second with globals := { startedGlobals 2 with inFlight := 1 } }
  have hcallback : Funnels C call (returning (M.applyMessageProgram quietRoom data)) := rfl
  have hwindow : Leads C second _ := leads_open (i := 0) hcallback ⟨rfl, List.mem_cons_self, rfl⟩
    rfl rfl (Option.some_ne_none 2) (allowsCall_true 0 _ 2)
  have hpushed : Leads C (opened.set 0 (.running call
      (M.applyMessageProgram quietRoom data >>= fun _ => closing .void) (some 2))) _ :=
    leads_pushed hopen rfl (Option.some_ne_none 2) (allowsCall_true 0 _ 2)
  refine ⟨_, (htorn.trans (hinit.trans (hwindow.trans hpushed))).reachable
    (reachable_firstRoom M ℕ), quietRoom, data, _, _, _, set_threads_self _ _ _, fun other hother => ?_⟩
  change (2, other) ∈ [(1, quietRoom)] at hother
  cases List.mem_singleton.1 hother

end GcsChat
