import GcsChat.ArchiveDrain
import GcsChat.WaitGraph

/-!
# Who waits for whom

A put waits for a DAG worker, a subscribe for the GossipSub strand, and a teardown joins the strand,
the archive worker and the DAG workers in turn; the receive callbacks run on the strand and on the DAG
workers and want the mutex. As long as nobody writes to the catalog, the owner of the mutex waits for
nobody, callbacks for the owner only, senders and joiners for callbacks, and shutdowns for all of
these.
-/

namespace GcsChat

open ByteString Interactive

inductive Party (ι : Type)
  | thread (i : ι)
  | archive (session : ℕ)

def FfiThread.OnStrand (t : FfiThread) : Prop :=
  ∃ n topic data program pointer, t = running (.live n topic data) program pointer

def FfiThread.OnDagWorker (n : ℕ) (t : FfiThread) : Prop :=
  ∃ key value program pointer, t = running (.heal n key value) program pointer

def FfiThread.WantsMutex : FfiThread → Prop
  | called _ => True
  | running _ (.ask .lock _) _ => True
  | draining _ => True
  | tearingDown _ work => work.stage = .relock
  | _ => False

def Effect.Puts {G : Type} : Effect G → Prop
  | .put _ _ => True
  | .putTopics _ _ _ => True
  | _ => False

namespace FfiProcess

section Relation

variable {ι : Type}

inductive WaitsFor (s : FfiProcess ι) : Party ι → Party ι → Prop
  | mutex {i j : ι} (hi : (s.threads i).WantsMutex) (hj : s.owner = some j) :
      WaitsFor s (.thread i) (.thread j)
  | windows {i j : ι} {handle : Handle} (hi : s.threads i = .draining handle)
      (hj : (s.threads j).InWindow) : WaitsFor s (.thread i) (.thread j)
  | put {i j : ι} {n : ℕ} {call : FfiCall} {e : Effect Globals}
      {next : e.Answer → Program Globals FfiResult} {pointer : Option ℕ}
      (hi : s.threads i = .running call (ask e next) pointer) (he : e.Puts)
      (hj : (s.threads j).OnDagWorker n) : WaitsFor s (.thread i) (.thread j)
  | subscribe {i j : ι} {call : FfiCall} {topic : Bytes} {next : Bool → Program Globals FfiResult}
      {pointer : Option ℕ} (hi : s.threads i = .running call (ask (.subscribe topic) next) pointer)
      (hj : (s.threads j).OnStrand) : WaitsFor s (.thread i) (.thread j)
  | strand {i j : ι} {handle : Handle} {work : Teardown}
      (hi : s.threads i = .tearingDown handle work) (hstage : work.stage = .sdkShutdown)
      (hj : (s.threads j).OnStrand) : WaitsFor s (.thread i) (.thread j)
  | archive {i : ι} {n : ℕ} {handle : Handle} {work : Teardown}
      (hi : s.threads i = .tearingDown handle work) (hstage : work.stage = .joinArchive)
      (hn : work.evicted = some n) (hreturned : (s.objects n).archive.returned = false) :
      WaitsFor s (.thread i) (.archive n)
  | dagWorkers {i j : ι} {n : ℕ} {handle : Handle} {work : Teardown}
      (hi : s.threads i = .tearingDown handle work) (hstage : work.stage = .sessionShutdown)
      (hn : work.evicted = some n) (hj : (s.threads j).OnDagWorker n) :
      WaitsFor s (.thread i) (.thread j)
  | archivePut {n : ℕ} {j : ι} (hn : (s.objects n).archive.inHand ≠ none)
      (hj : (s.threads j).OnDagWorker n) : WaitsFor s (.archive n) (.thread j)

end Relation

end FfiProcess

/-- What a receive callback asks: nothing that waits for another thread, apart from the mutex. -/
def Effect.Receives {G : Type} : Effect G → Prop
  | .receivingDisabled => True
  | .lock => True
  | .unlock _ => True
  | .insertUnseen _ => True
  | .post _ => True
  | .enqueueArchive _ _ => True
  | _ => False

theorem asksOnly_applyMessage {M : Messaging} (topic data : Bytes) :
    (M.applyMessageProgram topic data : Program Globals Unit).AsksOnly Effect.Receives := by
  unfold Messaging.applyMessageProgram
  cases M.openMessage topic data with
  | none => exact trivial
  | some msg =>
      refine ⟨trivial, fun unseen => ?_⟩
      cases unseen with
      | false => exact trivial
      | true => exact ⟨trivial, fun g => ⟨trivial, fun _ => ⟨trivial, fun _ => ⟨trivial, fun _ =>
          trivial⟩⟩⟩⟩

theorem asksOnly_onMessageArrived {M : Messaging} (key value : Bytes) :
    (M.onMessageArrivedProgram key value : Program Globals (Option Unit)).AsksOnly Effect.Receives := by
  unfold Messaging.onMessageArrivedProgram
  cases roomTopicFromKey key with
  | none => exact trivial
  | some topic =>
      change AsksOnly _ (if topic = [] then _ else _)
      split
      · exact trivial
      · exact (asksOnly_applyMessage topic value).bind fun _ => trivial

theorem asksOnly_receives {funnel : Program Globals (Option Unit)} (hfunnel : funnel.AsksOnly Effect.Receives) :
    (Core.receiveCallback funnel).AsksOnly Effect.Receives := by
  refine ⟨trivial, fun disabled => ?_⟩
  cases disabled with
  | true => exact trivial
  | false =>
      refine ⟨trivial, fun g => ?_⟩
      change AsksOnly _ (if g.session = none then _ else _)
      split
      · exact ⟨trivial, fun _ => trivial⟩
      · refine ⟨trivial, fun _ => hfunnel.bind fun returned => ?_⟩
        cases returned with
        | none => exact trivial
        | some _ => exact ⟨trivial, fun _ => ⟨trivial, fun _ => trivial⟩⟩

theorem asksOnly_callback_receives {C : Core} (call : FfiCall) :
    (C.callback call).AsksOnly Effect.Receives := by
  cases call with
  | live n topic data =>
      refine (asksOnly_receives ?_).bind fun _ => trivial
      exact (asksOnly_applyMessage topic data).bind fun _ => trivial
  | heal n key value =>
      exact (asksOnly_receives (asksOnly_onMessageArrived key value)).bind fun _ => trivial
  | _ => exact trivial

namespace FfiProcess

section Receiving

variable {ι : Type} [DecidableEq ι] {C : Core} {s s' : FfiProcess ι} {l : FfiStep ι}

/-- What is left of every callback asks only what callbacks ask. -/
def Receiving (s : FfiProcess ι) : Prop :=
  ∀ i call program pointer, s.threads i = .running call program pointer →
    call.registeredBy ≠ none → program.AsksOnly Effect.Receives

theorem Receiving.step (h : s.Receiving) (hstep : (ffiSystem C ι).step s l s') : s'.Receiving := by
  intro i call program pointer hthread hcallback
  have hwas := h i
  have hchanged := ffiSystem_threads hstep i
  rw [hthread] at hchanged
  generalize s.threads i = t at hchanged hwas
  rcases hchanged with rfl | hchanged
  · exact hwas call program pointer rfl hcallback
  · cases hchanged with
    | callback => exact asksOnly_callback_receives call
    | locked _ =>
        cases call with
        | live n topic data => exact ⟨trivial, fun _ => trivial⟩
        | heal n key value => exact ⟨trivial, fun _ => trivial⟩
        | _ => exact absurd rfl hcallback
    | greets => exact absurd rfl hcallback
    | notRunning => exact absurd rfl hcallback
    | lock _ => exact (hwas call _ _ rfl hcallback).2 _
    | unlock _ _ => exact (hwas call _ _ rfl hcallback).2 _
    | answer _ => exact (hwas call _ _ rfl hcallback).2 _

theorem Receiving.reachable (h : (ffiSystem C ι).Reachable s) : s.Receiving := by
  refine h.invariant (I := fun s => s.Receiving) (fun s₀ h₀ => ?_) fun _ _ _ hu hstep => hu.step hstep
  obtain ⟨nodeUp, rfl⟩ := h₀
  exact fun _ _ _ _ => nofun

end Receiving

end FfiProcess

/-- How many kinds of waits may follow when the thread does not own the mutex. -/
def FfiThread.level : FfiThread → ℕ
  | idle => 0
  | subscribing _ _ _ => 0
  | running call _ _ => if call.registeredBy.isSome then 1 else 2
  | called _ => 2
  | draining _ => 3
  | tearingDown _ _ => 3

theorem FfiThread.OnStrand.level {t : FfiThread} (h : t.OnStrand) : t.level = 1 := by
  obtain ⟨n, topic, data, program, pointer, rfl⟩ := h
  rfl

theorem FfiThread.OnDagWorker.level {t : FfiThread} {n : ℕ} (h : t.OnDagWorker n) : t.level = 1 := by
  obtain ⟨key, value, program, pointer, rfl⟩ := h
  rfl

theorem FfiThread.InWindow.level {t : FfiThread} (h : t.InWindow) : t.level ≤ 2 := by
  cases t with
  | running call program pointer =>
      rw [FfiThread.level]
      split <;> omega
  | _ => exact absurd rfl h

theorem FfiThread.WantsMutex.level {t : FfiThread} (h : t.WantsMutex) : 1 ≤ t.level := by
  cases t with
  | running call program pointer =>
      rw [FfiThread.level]
      split <;> omega
  | called call => exact Nat.le_of_ble_eq_true rfl
  | draining handle => exact Nat.le_of_ble_eq_true rfl
  | tearingDown handle work => exact Nat.le_of_ble_eq_true rfl
  | _ => exact h.elim

namespace FfiProcess

section Rank

variable {ι : Type} [DecidableEq ι] {C : Core} {s : FfiProcess ι}

/-- The owner of the mutex comes first, callbacks next, then calls and the archive workers, and
shutdowns last. -/
def rank (s : FfiProcess ι) : Party ι → ℕ
  | .thread i => if s.owner = some i then 0 else (s.threads i).level
  | .archive _ => 2

theorem rank_owner {i : ι} (h : s.owner = some i) : s.rank (.thread i) = 0 := if_pos h

theorem rank_not_owner {i : ι} (h : s.owner ≠ some i) : s.rank (.thread i) = (s.threads i).level :=
  if_neg h

theorem rank_le_level (i : ι) : s.rank (.thread i) ≤ (s.threads i).level := by
  by_cases h : s.owner = some i
  · rw [rank_owner h]
    exact Nat.zero_le _
  · exact (rank_not_owner h).le

omit [DecidableEq ι] in
theorem Sound.wantsMutex {P : FfiCall → Effect Globals → Prop} (h : s.Sound P) {i : ι}
    (hi : (s.threads i).WantsMutex) : s.owner ≠ some i := by
  have hfits := h.fits i
  generalize s.threads i = t at hi hfits
  cases t with
  | running call program pointer =>
      obtain ⟨m, hmode, hbegins⟩ := hfits
      match program, hi with
      | ask .lock next, _ =>
          have hallows := (hbegins.follows nofun).1
          cases m with
          | inside w found => exact hallows.elim
          | _ => exact hmode.1
  | subscribing handle topic dartPort => exact hi.elim
  | _ => exact hfits

omit [DecidableEq ι] in
/-- Outside the writes to the catalog nothing that waits is asked with the mutex held. -/
theorem Sound.not_owner_of_waits (h : s.Sound C.May) {i : ι} {call : FfiCall} {e : Effect Globals}
    {next : e.Answer → Program Globals FfiResult} {pointer : Option ℕ}
    (hthread : s.threads i = .running call (ask e next) pointer) (hcall : ¬ C.Writing call)
    (he : e.Puts ∨ ∃ topic, e = .subscribe topic) : s.owner ≠ some i := by
  intro howner
  have hfits := h.fits i
  rw [hthread] at hfits
  obtain ⟨m, hmode, hbegins⟩ := hfits
  have hnot : ∀ next', ask e next ≠ ask .initSession next' := by
    intro next' hinit
    cases hinit
    rcases he with hputs | ⟨topic, htopic⟩
    · exact hputs
    · cases htopic
  have hallows := (hbegins.follows hnot).1
  cases m with
  | inside w found =>
      have hmay : C.May call e := by
        rcases he with hputs | ⟨topic, rfl⟩
        · cases e <;> first | exact hputs.elim | exact hallows
        · exact hallows
      rcases hmay with hquick | ⟨hwriting, -⟩
      · rcases he with hputs | ⟨topic, rfl⟩
        · cases e <;> first | exact hputs.elim | exact hquick
        · exact hquick
      · exact hcall hwriting
  | _ => exact hmode.1 howner

omit [DecidableEq ι] in
/-- Callbacks neither put nor subscribe. -/
theorem Receiving.level_of_waits (h : s.Receiving) {i : ι} {call : FfiCall} {e : Effect Globals}
    {next : e.Answer → Program Globals FfiResult} {pointer : Option ℕ}
    (hthread : s.threads i = .running call (ask e next) pointer)
    (he : ¬ e.Receives) : (s.threads i).level = 2 := by
  rw [hthread, FfiThread.level]
  cases hcallback : call.registeredBy with
  | none => rfl
  | some n => exact absurd (h i call _ pointer hthread (by rw [hcallback]; nofun)).1 he

theorem Sound.rank_lt (h : s.Sound C.May) (hreceiving : s.Receiving)
    (hnone : ∀ i call program pointer, s.threads i = .running call program pointer →
      ¬ C.Writing call) {a b : Party ι} (hwaits : s.WaitsFor a b) : s.rank b < s.rank a := by
  have hstrand : ∀ {j}, (s.threads j).OnStrand → s.rank (.thread j) ≤ 1 := fun hj =>
    hj.level ▸ rank_le_level _
  have hworker : ∀ {j n}, (s.threads j).OnDagWorker n → s.rank (.thread j) ≤ 1 := fun hj =>
    hj.level ▸ rank_le_level _
  have hteardown : ∀ {i handle work}, s.threads i = .tearingDown handle work →
      s.rank (.thread i) = 3 := by
    intro i handle work hi
    have hfree := h.fits i
    rw [hi] at hfree
    rw [rank_not_owner hfree, hi]
    rfl
  cases hwaits with
  | mutex hi hj =>
      rw [rank_owner hj, rank_not_owner (h.wantsMutex hi)]
      exact hi.level
  | @windows i j handle hi hj =>
      have hfree := h.fits i
      rw [hi] at hfree
      rw [rank_not_owner hfree, hi]
      exact Nat.lt_of_le_of_lt (rank_le_level _) (Nat.lt_succ_of_le hj.level)
  | @put i j n call e next pointer hi he hj =>
      have hreceives : ¬ e.Receives := by
        cases e <;> first | exact he.elim | exact id
      rw [rank_not_owner (h.not_owner_of_waits hi (hnone i _ _ _ hi) (.inl he)),
        hreceiving.level_of_waits hi hreceives]
      exact Nat.lt_succ_of_le (hworker hj)
  | @subscribe i j call topic next pointer hi hj =>
      rw [rank_not_owner (h.not_owner_of_waits hi (hnone i _ _ _ hi) (.inr ⟨topic, rfl⟩)),
        hreceiving.level_of_waits hi id]
      exact Nat.lt_succ_of_le (hstrand hj)
  | strand hi _ hj =>
      rw [hteardown hi]
      exact Nat.lt_of_le_of_lt (hstrand hj) (by omega)
  | archive hi _ _ _ =>
      rw [hteardown hi]
      exact Nat.lt_succ_self 2
  | dagWorkers hi _ _ hj =>
      rw [hteardown hi]
      exact Nat.lt_of_le_of_lt (hworker hj) (by omega)
  | archivePut _ hj => exact Nat.lt_succ_of_le (hworker hj)

end Rank

end FfiProcess

/-- As long as no call writes to the catalog, no thread and no archive worker waits for itself,
however indirectly, in any reachable state; so none of these waits goes round in a circle through a
shutdown. -/
theorem no_wait_cycle {C : Core} {ι : Type} [DecidableEq ι] {s : FfiProcess ι}
    (h : (ffiSystem C ι).Reachable s)
    (hnone : ∀ i call program pointer, s.threads i = .running call program pointer →
      ¬ C.Writing call) (a : Party ι) : ¬ Relation.TransGen s.WaitsFor a a :=
  WaitGraph.not_transGen_self (fun _ _ hwaits =>
    (FfiProcess.Sound.reachable h).rank_lt (FfiProcess.Receiving.reachable h) hnone hwaits) a

/-- A shutdown that waits for the window of a callback does not wait for itself. -/
theorem no_cycle_firstWindow :
    let s := (FfiProcess.firstWindow (1 : ℕ)).waiting 2 ⟨1, 1⟩
    s.WaitsFor (.thread 2) (.thread 1) ∧
      ¬ Relation.TransGen s.WaitsFor (.thread 2) (.thread 2) := by
  intro s
  let C := protoCore (Messaging.plaintext [])
  have hreachable : (ffiSystem C ℕ).Reachable s := by
    have hwait : FfiProcess.Leads C (FfiProcess.firstWindow 1) s :=
      FfiProcess.leads_draining rfl rfl rfl Nat.one_ne_zero
        (FfiProcess.allowsCall_true 2 _ 1)
    exact hwait.reachable (FfiProcess.reachable_firstWindow C 1)
  have hdraining : s.threads 2 = .draining ⟨1, 1⟩ := rfl
  refine ⟨.windows hdraining (Option.some_ne_none 1), no_wait_cycle hreachable ?_ _⟩
  rintro i call program pointer hi ⟨_, _, _, _, rfl, _⟩
  by_cases h2 : i = 2
  · subst h2
    cases hi
  by_cases h1 : i = 1
  · subst h1
    cases hi
  · change (((FfiProcess.firstWindow 1).waiting 2 ⟨1, 1⟩).threads i) = _ at hi
    rw [FfiProcess.waiting, FfiProcess.set_threads_of_ne _ _ h2] at hi
    change (FfiProcess.firstWindow 1).threads i = _ at hi
    rw [FfiProcess.firstWindow, FfiProcess.set_threads_of_ne _ _ h1] at hi
    cases hi

def FfiStep.party {ι : Type} : FfiStep ι → Party ι
  | call i _ => .thread i
  | enter i => .thread i
  | subscribed i _ => .thread i
  | lock i => .thread i
  | unlock i => .thread i
  | answer i _ _ => .thread i
  | finish i => .thread i
  | drained i => .thread i
  | teardown i => .thread i
  | take n => .archive n
  | handOver n => .archive n
  | workerReturn n => .archive n

namespace FfiProcess

variable {ι : Type} [DecidableEq ι] {C : Core} {P : FfiCall → Effect Globals → Prop}
  {s s' : FfiProcess ι} {l : FfiStep ι}

/-- A call is running on the thread; the archive worker is told to come to its end. -/
def Busy (s : FfiProcess ι) : Party ι → Prop
  | .thread i => s.threads i ≠ .idle
  | .archive n => (s.objects n).archive.stopped = true ∧ (s.objects n).archive.returned = false

/-- A teardown joins the archive worker of a session that it has told to stop. -/
def Stopping (s : FfiProcess ι) : Prop :=
  ∀ i handle work n, s.threads i = .tearingDown handle work → work.evicted = some n →
    work.stage = .joinArchive → (s.objects n).archive.stopped = true

theorem stopped_step (hstep : (ffiSystem C ι).step s l s') {n : ℕ} (hn : n ≤ s.built)
    (hstopped : (s.objects n).archive.stopped = true) :
    (s'.objects n).archive.stopped = true := by
  rcases ffiSystem_objects hstep n with hsame | hobjects
  · rw [hsame]
    exact hstopped
  · generalize s'.objects n = o' at hobjects
    cases hobjects with
    | built hnew => omega
    | @teardown i handle work _ _ hevicted =>
        obtain ⟨booted, evicted, stage⟩ := work
        obtain rfl : evicted = some n := hevicted
        cases stage with
        | sdkShutdown => exact hstopped
        | relock => exact hstopped
        | stopArchive =>
            change (Function.update s.objects n _ n).archive.stopped = true
            rw [Function.update_self]
        | _ =>
            change (Function.update s.objects n _ n).archive.stopped = true
            rw [Function.update_self]
            exact hstopped
    | _ => exact hstopped

theorem Stopping.step (h : s.Stopping) (hsound : s.Sound P)
    (hstep : (ffiSystem C ι).step s l s') : s'.Stopping := by
  intro i handle work n hthread hevicted hjoin
  have hle := hsound.evicted i n
  have hwas := h i handle
  rcases ffiSystem_threads hstep i with hsame | hchanged
  · rw [← hsame, hthread] at hle hwas
    exact stopped_step hstep (hle hevicted).1 (hwas work n rfl hevicted hjoin)
  · rw [hthread] at hchanged
    generalize hbefore : s.threads i = t at hchanged hle hwas
    cases hchanged with
    | evicts _ _ _ =>
        change (if s.sdkBootedHere then TeardownStage.sdkShutdown else Teardown.stageFor _) = _ at hjoin
        change s.globals.session.map _ = some n at hevicted
        rw [hevicted] at hjoin
        split at hjoin <;> cases hjoin
    | @teardown _ before hcan hstage =>
        obtain ⟨handle', work', hthread', -, rfl⟩ := hstep
        obtain ⟨rfl, rfl⟩ := FfiThread.tearingDown.inj (hbefore.symm.trans hthread')
        obtain ⟨booted, evicted, stage⟩ := before
        obtain rfl : evicted = some n := hevicted
        cases stage with
        | stopArchive =>
            change (Function.update s.objects n _ n).archive.stopped = true
            rw [Function.update_self]
        | sdkShutdown => cases hjoin
        | _ => cases hjoin

theorem Stopping.reachable (h : (ffiSystem C ι).Reachable s) : s.Stopping := by
  have hinv : s.Sound C.May ∧ s.Stopping := by
    refine h.invariant (I := fun s => s.Sound C.May ∧ s.Stopping) (fun s₀ h₀ => ?_)
      fun u l w ⟨hsound, hstopping⟩ hstep => ⟨hsound.step_may hstep, hstopping.step hsound hstep⟩
    refine ⟨Sound.initial (C := C) h₀, ?_⟩
    obtain ⟨nodeUp, rfl⟩ := h₀
    exact fun _ _ _ _ => nofun
  exact hinv.2

omit [DecidableEq ι] in
theorem busy_of_waitsFor (hsound : s.Sound P) (hstopping : s.Stopping) {a b : Party ι}
    (h : s.WaitsFor a b) : s.Busy b := by
  have hstrand : ∀ {j}, (s.threads j).OnStrand → s.threads j ≠ .idle := by
    intro j hj hidle
    rw [hidle] at hj
    obtain ⟨_, _, _, _, _, hrunning⟩ := hj
    cases hrunning
  have hworker : ∀ {j n}, (s.threads j).OnDagWorker n → s.threads j ≠ .idle := by
    intro j n hj hidle
    rw [hidle] at hj
    obtain ⟨_, _, _, _, hrunning⟩ := hj
    cases hrunning
  cases h with
  | @mutex i j _ hj =>
      intro hidle
      have hfits := hsound.fits j
      rw [hidle] at hfits
      exact hfits hj
  | @windows i j _ _ hj =>
      intro hidle
      rw [hidle] at hj
      exact hj rfl
  | put _ _ hj => exact hworker hj
  | subscribe _ hj => exact hstrand hj
  | strand _ _ hj => exact hstrand hj
  | archive hi hstage hn hreturned => exact ⟨hstopping _ _ _ _ hi hn hstage, hreturned⟩
  | dagWorkers _ _ _ hj => exact hworker hj
  | archivePut _ hj => exact hworker hj

omit [DecidableEq ι] in
theorem exists_answer {e : Effect Globals} (hlock : e ≠ .lock) (hunlock : ∀ g, e ≠ .unlock g) :
    ∃ a, s.Answers e a := by
  cases e with
  | lock => exact absurd rfl hlock
  | unlock g => exact absurd rfl (hunlock g)
  | initSession => exact ⟨none, trivial⟩
  | isRunning => exact ⟨true, trivial⟩
  | get key => exact ⟨none, trivial⟩
  | put key value => exact ⟨true, trivial⟩
  | putTopics key value topics => exact ⟨true, trivial⟩
  | publish topic data => exact ⟨true, trivial⟩
  | subscribe topic => exact ⟨true, trivial⟩
  | addListenTopic topic => exact ⟨true, trivial⟩
  | addBroadcastTopic topic => exact ⟨true, trivial⟩
  | queryKeyValues keyPrefix => exact ⟨none, trivial⟩
  | registerNewElementCallback => exact ⟨true, trivial⟩
  | receivingDisabled => exact ⟨s.receivingDisabled, rfl⟩
  | nextId idPrefix => exact ⟨[], trivial⟩
  | nowMs => exact ⟨0, trivial⟩
  | random => exact ⟨[], trivial⟩
  | insertOwn id => exact ⟨(), trivial⟩
  | insertUnseen id => exact ⟨true, trivial⟩
  | absorb ids => exact ⟨(), trivial⟩
  | enqueueArchive key value => exact ⟨(), trivial⟩
  | post event => exact ⟨(), trivial⟩

omit [DecidableEq ι] in
theorem exists_repointed (g : Globals) (pointer : Option ℕ) (rest : Program Globals FfiResult) :
    ∃ pointer', s.Repointed g pointer rest pointer' := by
  cases rest with
  | done result =>
      cases result with
      | threw => exact ⟨_, .threw⟩
      | _ => exact ⟨none, .ended rfl⟩
  | ask e next =>
      by_cases hsame : g = s.globals
      · exact ⟨pointer, .kept hsame⟩
      · exact ⟨_, .taken hsame⟩

omit [DecidableEq ι] in
theorem Sound.owner_of_unlock (h : s.Sound P) {i : ι} {call : FfiCall} {g : Globals}
    {next : Unit → Program Globals FfiResult} {pointer : Option ℕ}
    (hthread : s.threads i = .running call (ask (.unlock g) next) pointer) :
    s.owner = some i := by
  have hfits := h.fits i
  rw [hthread] at hfits
  obtain ⟨m, hmode, hbegins⟩ := hfits
  have hallows := (hbegins.follows nofun).1
  cases m with
  | inside w found => exact hmode.1
  | _ => exact hallows.elim

/-- A step that the thread can take when the mutex is free if it wants it. -/
theorem running_can_step (hsound : s.Sound P) {i : ι} {call : FfiCall}
    {program : Program Globals FfiResult} {pointer : Option ℕ}
    (hthread : s.threads i = .running call program pointer)
    (hfree : (s.threads i).WantsMutex → s.owner = none) :
    ∃ l s', l.party = .thread i ∧ (ffiSystem C ι).step s l s' := by
  cases program with
  | done result => exact ⟨.finish i, _, rfl, call, result, pointer, hthread, rfl⟩
  | ask e next =>
      by_cases hlock : e = .lock
      · subst hlock
        have hnone : s.owner = none := hfree (by rw [hthread]; exact trivial)
        exact ⟨.lock i, _, rfl, call, next, pointer, hthread, hnone, rfl⟩
      by_cases hunlock : ∃ g, e = .unlock g
      · obtain ⟨g, rfl⟩ := hunlock
        obtain ⟨pointer', hpointer⟩ := exists_repointed (s := s) g pointer (next ())
        exact ⟨.unlock i, _, rfl, call, g, next, pointer, pointer', hthread,
          hsound.owner_of_unlock hthread, hpointer, rfl⟩
      · obtain ⟨a, ha⟩ := exists_answer (s := s) hlock fun g hg => hunlock ⟨g, hg⟩
        exact ⟨.answer i e a, _, rfl, call, next, pointer, hthread, ha, rfl⟩

omit [DecidableEq ι] in
theorem canTearDown_of_not_waits {i : ι} {handle : Handle} {work : Teardown}
    (hthread : s.threads i = .tearingDown handle work) (hnone : ∀ b, ¬ s.WaitsFor (.thread i) b)
    (hfree : (s.threads i).WantsMutex → s.owner = none) : s.CanTearDown work := by
  obtain ⟨booted, evicted, stage⟩ := work
  cases stage with
  | sdkShutdown =>
      intro j n topic data program pointer hj
      exact hnone (.thread j) (.strand hthread rfl ⟨n, topic, data, program, pointer, hj⟩)
  | joinArchive =>
      cases evicted with
      | none => exact trivial
      | some n =>
          by_contra hreturned
          exact hnone (.archive n) (.archive hthread rfl rfl (Bool.not_eq_true _ ▸ hreturned))
  | sessionShutdown =>
      cases evicted with
      | none => exact trivial
      | some n =>
          intro j key value program pointer hj
          exact hnone (.thread j) (.dagWorkers hthread rfl rfl ⟨key, value, program, pointer, hj⟩)
  | relock => exact hfree (by rw [hthread]; exact rfl)
  | _ => cases evicted <;> exact trivial

theorem thread_can_step (hsound : s.Sound P) (hleaked : s.leaked = 0) {i : ι} (hbusy : s.threads i ≠ .idle)
    (hnone : ∀ b, ¬ s.WaitsFor (.thread i) b) :
    ∃ l s', l.party = .thread i ∧ (ffiSystem C ι).step s l s' := by
  have hfree : (s.threads i).WantsMutex → s.owner = none := by
    intro hwants
    by_contra howned
    obtain ⟨j, hj⟩ := Option.ne_none_iff_exists'.1 howned
    exact hnone (.thread j) (.mutex hwants hj)
  cases hthread : s.threads i with
  | idle => exact absurd hthread hbusy
  | called call =>
      have howner : s.owner = none := hfree (by rw [hthread]; exact trivial)
      exact ⟨.enter i, _, rfl, call, hthread, howner, rfl⟩
  | running call program pointer => exact running_can_step hsound hthread hfree
  | subscribing handle topic dartPort =>
      exact ⟨.subscribed i true, _, rfl, handle, topic, dartPort, hthread, rfl⟩
  | draining handle =>
      have howner : s.owner = none := hfree (by rw [hthread]; exact trivial)
      have hidle : s.globals.inFlight = 0 := by
        obtain ⟨windows, hmem, hcard⟩ := hsound.counted
        have hempty : windows = ∅ := Finset.eq_empty_of_forall_notMem fun j hj =>
          hnone (.thread j) (.windows hthread ((hmem j).1 hj))
        rw [hcard, hempty, hleaked, Finset.card_empty]
      exact ⟨.drained i, _, rfl, handle, hthread, howner, hidle, rfl⟩
  | tearingDown handle work =>
      exact ⟨.teardown i, _, rfl, handle, work, hthread, canTearDown_of_not_waits hthread hnone hfree,
        rfl⟩

theorem worker_can_step {n : ℕ} (hbusy : s.Busy (.archive n)) :
    ∃ l s', l.party = .archive n ∧ (ffiSystem C ι).step s l s' := by
  obtain ⟨hstopped, hreturned⟩ := hbusy
  cases hhand : (s.objects n).archive.inHand with
  | some item => exact ⟨.handOver n, _, rfl, item, hhand, rfl⟩
  | none =>
      cases hqueue : (s.objects n).archive.queue with
      | cons item rest => exact ⟨.take n, _, rfl, item, rest, hhand, hreturned, hqueue, rfl⟩
      | nil => exact ⟨.workerReturn n, _, rfl, hhand, hreturned, hstopped, hqueue, rfl⟩

end FfiProcess

/-- Whatever a call waits for, there is somebody at the end of its waits who can go on, as long as no
exception has left a window. -/
theorem waits_end_in_step {C : Core} {ι : Type} [DecidableEq ι] {s : FfiProcess ι}
    (h : (ffiSystem C ι).Reachable s) (hleaked : s.leaked = 0)
    (hnone : ∀ i call program pointer, s.threads i = .running call program pointer →
      ¬ C.Writing call) {i : ι} (hbusy : s.threads i ≠ .idle) :
    ∃ b l s', Relation.ReflTransGen s.WaitsFor (.thread i) b ∧ l.party = b ∧
      (ffiSystem C ι).step s l s' := by
  have hsound := FfiProcess.Sound.reachable h
  have hrank : ∀ a b, s.WaitsFor a b → s.rank b < s.rank a :=
    fun _ _ hab => hsound.rank_lt (FfiProcess.Receiving.reachable h) hnone hab
  obtain ⟨b, hwaits, hend⟩ := WaitGraph.exists_end hrank (.thread i)
  have hb : s.Busy b := by
    rcases hwaits.cases_tail with rfl | ⟨a, -, hab⟩
    · exact hbusy
    · exact FfiProcess.busy_of_waitsFor hsound (FfiProcess.Stopping.reachable h) hab
  cases b with
  | thread j =>
      obtain ⟨l, s', hparty, hstep⟩ := FfiProcess.thread_can_step (C := C) hsound hleaked hb hend
      exact ⟨.thread j, l, s', hwaits, hparty, hstep⟩
  | archive n =>
      obtain ⟨l, s', hparty, hstep⟩ := FfiProcess.worker_can_step (C := C) hb
      exact ⟨.archive n, l, s', hwaits, hparty, hstep⟩

end GcsChat
