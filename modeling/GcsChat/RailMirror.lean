import GcsChat.PushDiscipline
import GcsChat.RailCubit
import GcsChat.SessionLife

/-!
# The rail mirrors the core

What was pushed last to Dart is what `g_mutex` guards, or some call still has to push. That holds
over any interleaving of the calls of the FFI and its callbacks, so whenever no call has to push the
rail shows the room topics and the catalog of the core.
-/

namespace GcsChat

open ByteString Interactive TransitionSystem

/-- The call pushes snapshots, and may give the mutex up with a push owed. -/
def FfiCall.MayTell : FfiCall → Prop
  | publish _ _ _ => True
  | subscribe _ _ _ => True
  | _ => False

namespace Telling

def owes : Telling → Bool
  | outside owes => owes
  | inside _ _ owes => owes

def pushed : Telling → Option GcsEvent
  | outside _ => none
  | inside _ pushed _ => pushed

/-- Nothing has been pushed that would settle what is owed. -/
def InDebt (t : Telling) : Prop := t.pushed = none ∧ t.owes = true

@[simp] theorem take_owes (t : Telling) (found : GcsEvent) : (t.take found).owes = t.owes := by
  cases t <;> rfl

@[simp] theorem take_pushed (t : Telling) (found : GcsEvent) : (t.take found).pushed = t.pushed := by
  cases t <;> rfl

@[simp] theorem give_pushed (t : Telling) (shown : GcsEvent) (h : t.pushed = none) :
    (t.give shown).pushed = none := by
  cases t with
  | outside owes => rfl
  | inside found pushed owes => cases pushed <;> rfl

theorem MayGive.mono {p q : Prop} {t : Telling} {shown : GcsEvent} (h : t.MayGive p shown)
    (hpq : p → q) : t.MayGive q shown := by
  cases t with
  | outside owes => exact h
  | inside found pushed owes =>
      cases pushed with
      | none => exact h.imp_right hpq
      | some event => exact h

theorem MayGive.owes_give {t : Telling} {shown : GcsEvent} (h : t.MayGive False shown)
    (howes : t.owes = false) : (t.give shown).owes = false := by
  cases t with
  | outside owes => exact h.elim
  | inside found pushed owes =>
      cases pushed with
      | none =>
          change owes = false at howes
          change (owes || decide (shown ≠ found)) = false
          simp [howes, h.resolve_right id]
      | some event => rfl

end Telling

namespace FfiProcess

section Threads

variable {ι : Type} {C : Core} {P : FfiCall → Effect Globals → Prop} {k : Snapshot}
  {s s' : FfiProcess ι} {i : ι} {t : Telling}

def At (k : Snapshot) (s : FfiProcess ι) (i : ι) : Telling → Prop
  | .outside _ => s.owner ≠ some i
  | .inside found _ _ => s.owner = some i ∧ found = k.build s.globals

def Tells (k : Snapshot) (s : FfiProcess ι) (i : ι) (t : Telling) : FfiThread → Prop
  | .running call program _ => s.At k i t ∧
      program.Follows (tellDiscipline k call.MayTell) t Told ∧
      (¬ call.MayTell → t.owes = false ∧ t.pushed = none)
  | .subscribing _ _ _ => s.owner = some i ∧ t = .inside (k.build s.globals) none false
  | _ => s.owner ≠ some i ∧ t = .outside false

def Opening (s : FfiProcess ι) (i : ι) : FfiThread → Prop
  | .running (.init _) _ pointer =>
      pointer ≠ none ∨ s.owner = some i ∧ s.globals.session = none
  | _ => False

def turn [DecidableEq ι] (k : Snapshot) (s' : FfiProcess ι) (l : FfiStep ι) (i : ι) (t : Telling) :
    Telling :=
  match l with
  | .enter j => if j = i ∧ s'.owner = some i then t.take (k.build s'.globals) else t
  | .lock j => if j = i then t.take (k.build s'.globals) else t
  | .unlock j => if j = i then t.give (k.build s'.globals) else t
  | .answer j (.post event) _ => if j = i then t.push (k.read event) else t
  | _ => t

theorem Tells.at {thread : FfiThread} (h : s.Tells k i t thread) : s.At k i t := by
  cases thread with
  | running call program pointer => exact h.1
  | subscribing handle topic dartPort =>
      obtain ⟨howner, rfl⟩ := h
      exact ⟨howner, rfl⟩
  | _ =>
      obtain ⟨howner, rfl⟩ := h
      exact howner

theorem Tells.congr {thread : FfiThread} (h : s.Tells k i t thread)
    (hkept : s.owner = some i → s'.owner = some i ∧ s'.globals = s.globals)
    (hfree : s'.owner = some i → s.owner = some i) : s'.Tells k i t thread := by
  cases thread with
  | running call program pointer =>
      refine ⟨?_, h.2⟩
      have hat := h.1
      cases t with
      | outside owes => exact fun howner => hat (hfree howner)
      | inside found pushed owes =>
          obtain ⟨howner, hglobals⟩ := hkept hat.1
          refine ⟨howner, ?_⟩
          rw [hglobals]
          exact hat.2
  | subscribing handle topic dartPort =>
      obtain ⟨howner, hglobals⟩ := hkept h.1
      refine ⟨howner, ?_⟩
      rw [hglobals]
      exact h.2
  | _ => exact ⟨fun howner => h.1 (hfree howner), h.2⟩

variable [DecidableEq ι]

/-- The step of thread `j` to `new`, seen from thread `i`. -/
theorem Tells.set {u : FfiProcess ι} {j : ι} {new : FfiThread} {t' : Telling}
    (h : s.Tells k i t (s.threads i)) (hthreads : u.threads = s.threads)
    (hkept : j ≠ i → s.owner = some i → u.owner = some i ∧ u.globals = s.globals)
    (hfree : j ≠ i → u.owner = some i → s.owner = some i) (ht : j ≠ i → t' = t)
    (hself : j = i → u.Tells k i t' new) : (u.set j new).Tells k i t' ((u.set j new).threads i) := by
  by_cases hj : j = i
  · subst hj
    rw [set_threads_self]
    exact (hself rfl).congr (fun howner => ⟨howner, rfl⟩) id
  · rw [set_threads_of_ne _ _ (Ne.symm hj), hthreads, ht hj]
    exact h.congr (hkept hj) (hfree hj)

theorem Tells.set_same {u : FfiProcess ι} {j : ι} {new : FfiThread}
    (h : s.Tells k i t (s.threads i)) (hthreads : u.threads = s.threads)
    (howner : u.owner = s.owner) (hglobals : u.globals = s.globals)
    (hself : j = i → u.Tells k i t new) : (u.set j new).Tells k i t ((u.set j new).threads i) :=
  h.set hthreads (fun _ hi => ⟨howner.trans hi, hglobals⟩) (fun _ hi => howner ▸ hi) (fun _ => rfl)
    hself

theorem Tells.evict (h : s.Tells k i t (s.threads i)) {j : ι} {handle : Handle}
    (hfree : s.owner = none) (hself : j = i → t = .outside false) :
    (s.evict j handle).Tells k i t ((s.evict j handle).threads i) := by
  have hnot : ∀ {p : Prop}, s.owner = some i → p := fun howner =>
    absurd (hfree.symm.trans howner) nofun
  unfold FfiProcess.evict
  split
  · exact h.set (u := { s with receivingDisabled := true, tearingDown := true, sdkBootedHere := false })
      rfl (fun _ => hnot) (fun _ => hnot) (fun _ => rfl) fun hj => ⟨fun howner => hnot howner, hself hj⟩
  · exact h.set (u := { s with
        receivingDisabled := true
        tearingDown := true
        sdkBootedHere := false
        dartPort := 0
        globals := { Globals.fresh with inFlight := s.globals.inFlight } })
      rfl (fun _ => hnot) (fun _ => hnot) (fun _ => rfl) fun hj => ⟨fun howner => hnot howner, hself hj⟩

theorem tells_enter {j : ι} {call : FfiCall} (h : s.Tells k i t (s.threads i))
    (hthread : s.threads j = .called call) (hfree : s.owner = none)
    (hinit : j = i → ∀ accepted, call = .init accepted → s.globals.session ≠ none) :
    (s.enter C j call).Tells k i (turn k (s.enter C j call) (.enter j) i t)
      ((s.enter C j call).threads i) := by
  have hnot : ∀ {p : Prop}, s.owner = some i → p := fun howner =>
    absurd (hfree.symm.trans howner) nofun
  have houtside : j = i → t = .outside false := by
    rintro rfl
    rw [hthread] at h
    exact h.2
  -- Without the mutex the call stays where it is.
  have hturn : ∀ {u : FfiProcess ι}, u.owner = none → turn k u (.enter j) i t = t := fun hu =>
    if_neg fun hboth => absurd (hu.symm.trans hboth.2) (Option.some_ne_none i).symm
  have hidle : (s.set j .idle).Tells k i (turn k (s.set j .idle) (.enter j) i t)
      ((s.set j .idle).threads i) := by
    rw [hturn (u := s.set j .idle) hfree]
    exact h.set_same rfl rfl rfl fun hj => ⟨fun howner => hnot howner, houtside hj⟩
  -- With it, it finds what is guarded.
  have htaken : ∀ {new : FfiThread},
      (j = i → ({ s with owner := some j } : FfiProcess ι).Tells k i
        (.inside (k.build s.globals) none false) new) →
      (({ s with owner := some j } : FfiProcess ι).set j new).Tells k i
        (turn k (({ s with owner := some j } : FfiProcess ι).set j new) (.enter j) i t)
        ((({ s with owner := some j } : FfiProcess ι).set j new).threads i) := by
    refine fun hself => h.set (u := { s with owner := some j }) rfl (fun _ => hnot)
      (fun hj howner => absurd (Option.some.inj howner) hj) (fun hj => if_neg fun hboth => hj hboth.1)
        fun hj => ?_
    subst hj
    rw [turn, if_pos ⟨rfl, rfl⟩, houtside rfl]
    exact hself rfl
  have hlocked : (({ s with owner := some j } : FfiProcess ι).set j
        (.running call (C.locked s.globals s.tearingDown call) none)).Tells k i
          (turn k (({ s with owner := some j } : FfiProcess ι).set j
            (.running call (C.locked s.globals s.tearingDown call) none)) (.enter j) i t)
          ((({ s with owner := some j } : FfiProcess ι).set j
            (.running call (C.locked s.globals s.tearingDown call) none)).threads i) := by
    refine htaken fun hj => ⟨⟨congrArg some hj, rfl⟩, Core.tells_locked ?_ (hinit hj) _,
      fun _ => ⟨rfl, rfl⟩⟩
    rintro handle topic payload rfl
    exact trivial
  cases call with
  | shutdown handle =>
      cases handle with
      | none => exact hidle
      | some handle =>
          rw [FfiProcess.enter]
          split
          · split
            · rw [hturn ((evict_owner j handle).trans hfree)]
              exact h.evict hfree houtside
            · let gated : FfiProcess ι := { s with receivingDisabled := true }
              rw [hturn (u := gated.set j (.draining handle)) hfree]
              exact h.set_same (u := gated) rfl rfl rfl
                fun hj => ⟨fun howner => hnot howner, houtside hj⟩
          · exact hidle
  | subscribe handle topic dartPort =>
      cases handle with
      | none => exact hidle
      | some handle =>
          cases topic with
          | none => exact hidle
          | some topic =>
              rw [FfiProcess.enter]
              split
              · exact htaken fun hj => ⟨congrArg some hj, rfl⟩
              · exact hidle
  | _ => exact hlocked

omit [DecidableEq ι] in
theorem Tells.follows {call : FfiCall} {program : Program Globals FfiResult} {pointer : Option ℕ}
    (h : s.Tells k i t (s.threads i)) (hthread : s.threads i = .running call program pointer) :
    s.At k i t ∧ program.Follows (tellDiscipline k call.MayTell) t Told ∧
      (¬ call.MayTell → t.owes = false ∧ t.pushed = none) := by
  rw [hthread] at h
  exact h

theorem tells_lock {j : ι} {call : FfiCall} {next : Globals → Program Globals FfiResult}
    {pointer : Option ℕ} (h : s.Tells k i t (s.threads i))
    (hthread : s.threads j = .running call (ask .lock next) pointer) (hfree : s.owner = none) :
    let s' := ({ s with owner := some j } : FfiProcess ι).set j
      (.running call (next s.globals) pointer)
    s'.Tells k i (turn k s' (.lock j) i t) (s'.threads i) := by
  refine h.set (u := { s with owner := some j }) rfl
    (fun _ howner => absurd (hfree.symm.trans howner) nofun)
    (fun hj howner => absurd (Option.some.inj howner) hj) (fun hj => if_neg hj) fun hj => ?_
  subst hj
  obtain ⟨hat, hfollows, howes⟩ := h.follows hthread
  rw [turn, if_pos rfl]
  cases t with
  | outside owes => exact ⟨⟨rfl, rfl⟩, hfollows.2 s.globals trivial, howes⟩
  | inside found pushed owes => exact absurd (hfree.symm.trans hat.1) nofun

theorem tells_unlock {j : ι} {call : FfiCall} {g : Globals} {next : Unit → Program Globals FfiResult}
    {pointer pointer' : Option ℕ} (h : s.Tells k i t (s.threads i))
    (hthread : s.threads j = .running call (ask (.unlock g) next) pointer)
    (howner : s.owner = some j) :
    let s' := (s.release g).set j (.running call (next ()) pointer')
    s'.Tells k i (turn k s' (.unlock j) i t) (s'.threads i) := by
  have hfreed : ∀ {p : Prop}, (s.release g).owner = some i → p := fun hheld =>
    absurd ((release_owner s g).symm.trans hheld) nofun
  refine h.set (u := s.release g) (release_threads s g)
    (fun hj hheld => absurd (Option.some.inj (howner.symm.trans hheld)) hj) (fun _ => hfreed)
    (fun hj => if_neg hj) fun hj => ?_
  subst hj
  obtain ⟨hat, hfollows, howes⟩ := h.follows hthread
  have hshown : k.build ((s.release g).set j (.running call (next ()) pointer')).globals = k.build g :=
    congrArg k.build (release_globals s g)
  rw [turn, if_pos rfl, hshown]
  have hafter := hfollows.2 () trivial
  have hmay : t.MayGive call.MayTell (k.build g) := by
    have hallows := hfollows.1
    cases t <;> exact hallows
  refine ⟨?_, hafter, fun hnot => ⟨(hmay.mono hnot).owes_give (howes hnot).1,
    t.give_pushed _ (howes hnot).2⟩⟩
  cases t with
  | outside owes => exact hmay.elim
  | inside found pushed owes => cases pushed <;> exact fun hheld => hfreed hheld

theorem tells_answer {j : ι} {call : FfiCall} {e : Effect Globals} {a : e.Answer}
    {next : e.Answer → Program Globals FfiResult} {pointer : Option ℕ}
    (h : s.Tells k i t (s.threads i)) (hthread : s.threads j = .running call (ask e next) pointer)
    (ha : s.Answers e a) :
    let s' := (s.answered pointer e a).set j (.running call (next a) pointer)
    s'.Tells k i (turn k s' (.answer j e a) i t) (s'.threads i) := by
  have halike := alike_answered (s := s) pointer e a
  have hturn : ∀ {s' : FfiProcess ι}, j ≠ i → turn k s' (.answer j e a) i t = t := by
    intro s' hj
    cases e with
    | post event => exact if_neg hj
    | _ => rfl
  refine h.set halike.threads (fun _ hheld => ⟨halike.owner.trans hheld, halike.globals⟩)
    (fun _ hheld => halike.owner ▸ hheld) hturn fun hj => ?_
  subst hj
  obtain ⟨hat, hfollows, howes⟩ := h.follows hthread
  have hafter := hfollows.2 a trivial
  have hkept : ∀ {t' : Telling}, s.At k j t' → (s.answered pointer e a).At k j t' := by
    intro t' hat'
    cases t' with
    | outside owes => exact fun hheld => hat' (halike.owner ▸ hheld)
    | inside found pushed owes =>
        refine ⟨halike.owner.trans hat'.1, ?_⟩
        rw [halike.globals]
        exact hat'.2
  cases e with
  | lock => exact ha.elim
  | unlock g => exact ha.elim
  | post event =>
      rw [turn, if_pos rfl]
      refine ⟨hkept ?_, hafter, fun hnot => ?_⟩
      · cases t <;> exact hat
      · have hread : k.read event = none := by
          have hallows := hfollows.1
          cases t with
          | outside owes => exact hallows.elim
          | inside found pushed owes => exact hallows.resolve_right hnot
        rw [hread, Telling.push_none]
        exact howes hnot
  | _ => exact ⟨hkept hat, hafter, howes⟩

/-- What a thread tells, step by step; a `gcs_init` that finds no session is left out. -/
theorem tells_step {l : FfiStep ι} (h : s.Tells k i t (s.threads i))
    (hstep : (ffiSystem C ι).step s l s')
    (hinit : ∀ accepted, l = .enter i → s.threads i = .called (.init accepted) →
      s.globals.session ≠ none) : s'.Tells k i (turn k s' l i t) (s'.threads i) := by
  cases l with
  | call j call =>
      obtain ⟨hidle, hcall⟩ := hstep
      have hself : j = i → s.owner ≠ some i ∧ t = .outside false := by
        rintro rfl
        rw [hidle] at h
        exact h
      have hcallback : j = i → s.Tells k i t (.running call (C.callback call) none) := by
        intro hj
        obtain ⟨hfree, rfl⟩ := hself hj
        exact ⟨hfree, Core.tells_callback call, fun _ => ⟨rfl, rfl⟩⟩
      cases call with
      | live n topic data =>
          obtain ⟨-, rfl⟩ := hcall
          exact h.set_same rfl rfl rfl hcallback
      | heal n key value =>
          obtain ⟨-, -, rfl⟩ := hcall
          exact h.set_same rfl rfl rfl hcallback
      | _ =>
          obtain rfl := hcall
          exact h.set_same rfl rfl rfl hself
  | enter j =>
      obtain ⟨call, hthread, hfree, rfl⟩ := hstep
      refine tells_enter h hthread hfree fun hj accepted hcall => ?_
      subst hj hcall
      exact hinit accepted rfl hthread
  | subscribed j running =>
      obtain ⟨handle, topic, dartPort, hthread, rfl⟩ := hstep
      have hself : j = i → s.owner = some i ∧ t = .inside (k.build s.globals) none false := by
        rintro rfl
        rw [hthread] at h
        exact h
      cases running with
      | true =>
          refine h.set_same (u := { s with dartPort := dartPort }) rfl rfl rfl fun hj => ?_
          obtain ⟨howner, rfl⟩ := hself hj
          exact ⟨⟨howner, rfl⟩, Core.tells_greet trivial false, fun _ => ⟨rfl, rfl⟩⟩
      | false =>
          refine h.set_same rfl rfl rfl fun hj => ?_
          obtain ⟨howner, rfl⟩ := hself hj
          exact ⟨⟨howner, rfl⟩, Core.tells_giveBack .same _, fun _ => ⟨rfl, rfl⟩⟩
  | lock j =>
      obtain ⟨call, next, pointer, hthread, hfree, rfl⟩ := hstep
      exact tells_lock h hthread hfree
  | unlock j =>
      obtain ⟨call, g, next, pointer, pointer', hthread, howner, -, rfl⟩ := hstep
      exact tells_unlock h hthread howner
  | answer j e a =>
      obtain ⟨call, next, pointer, hthread, hanswers, rfl⟩ := hstep
      exact tells_answer h hthread hanswers
  | finish j =>
      obtain ⟨call, result, pointer, hthread, rfl⟩ := hstep
      refine h.set_same rfl rfl rfl fun hj => ?_
      subst hj
      obtain ⟨hat, hfollows, -⟩ := h.follows hthread
      obtain rfl : t = .outside false := hfollows
      exact ⟨hat, rfl⟩
  | drained j =>
      obtain ⟨handle, hthread, hfree, -, rfl⟩ := hstep
      refine h.evict hfree fun hj => ?_
      subst hj
      rw [hthread] at h
      exact h.2
  | teardown j =>
      obtain ⟨handle, work, hthread, -, rfl⟩ := hstep
      have halike := alike_destroyed (s := s) work
      refine h.set_same halike.threads halike.owner halike.globals fun hj => ?_
      subst hj
      rw [hthread] at h
      have hfree : (s.destroyed work).owner ≠ some j := fun hheld => h.1 (halike.owner ▸ hheld)
      split <;> exact ⟨hfree, h.2⟩
  | take n =>
      obtain ⟨item, rest, -, -, -, rfl⟩ := hstep
      exact h.congr (fun howner => ⟨howner, rfl⟩) id
  | handOver n =>
      obtain ⟨item, -, rfl⟩ := hstep
      exact h.congr (fun howner => ⟨howner, rfl⟩) id
  | workerReturn n =>
      obtain ⟨-, -, -, -, rfl⟩ := hstep
      exact h.congr (fun howner => ⟨howner, rfl⟩) id

/-- Between two sections only an eviction changes what is guarded, and nobody takes the mutex from
its owner. -/
theorem guarded_kept {l : FfiStep ι} (hstep : (ffiSystem C ι).step s l s')
    (hl : ∀ i, l ≠ .unlock i) :
    s'.globals = s.globals ∧ (∀ i, s.owner = some i → s'.owner = some i) ∨
      s.owner = none ∧ s'.globals.session = none := by
  have htaken : ∀ {u : FfiProcess ι}, s.owner = none → u.globals = s.globals →
      u.globals = s.globals ∧ (∀ i, s.owner = some i → u.owner = some i) ∨
        s.owner = none ∧ u.globals.session = none := fun hfree hglobals =>
    .inl ⟨hglobals, fun i howner => absurd (hfree.symm.trans howner) nofun⟩
  cases l with
  | call j call =>
      obtain ⟨-, hcall⟩ := hstep
      cases call with
      | live n topic data =>
          obtain ⟨-, rfl⟩ := hcall
          exact .inl ⟨rfl, fun _ => id⟩
      | heal n key value =>
          obtain ⟨-, -, rfl⟩ := hcall
          exact .inl ⟨rfl, fun _ => id⟩
      | _ =>
          obtain rfl := hcall
          exact .inl ⟨rfl, fun _ => id⟩
  | enter j =>
      obtain ⟨call, -, hfree, rfl⟩ := hstep
      cases call with
      | shutdown handle =>
          cases handle with
          | none => exact .inl ⟨rfl, fun _ => id⟩
          | some handle =>
              rw [FfiProcess.enter]
              split
              · split
                · exact .inr ⟨hfree, evict_session j handle⟩
                · exact .inl ⟨rfl, fun _ => id⟩
              · exact .inl ⟨rfl, fun _ => id⟩
      | subscribe handle topic dartPort =>
          cases handle with
          | none => exact .inl ⟨rfl, fun _ => id⟩
          | some handle =>
              cases topic with
              | none => exact .inl ⟨rfl, fun _ => id⟩
              | some topic =>
                  rw [FfiProcess.enter]
                  split <;> exact htaken hfree rfl
      | _ => exact htaken hfree rfl
  | subscribed j running =>
      obtain ⟨handle, topic, dartPort, -, rfl⟩ := hstep
      cases running <;> exact .inl ⟨rfl, fun _ => id⟩
  | lock j =>
      obtain ⟨call, next, pointer, -, hfree, rfl⟩ := hstep
      exact htaken hfree rfl
  | unlock j => exact absurd rfl (hl j)
  | answer j e a =>
      obtain ⟨call, next, pointer, -, -, rfl⟩ := hstep
      have halike := alike_answered (s := s) pointer e a
      exact .inl ⟨halike.globals, fun i howner => halike.owner.trans howner⟩
  | finish j =>
      obtain ⟨call, result, pointer, -, rfl⟩ := hstep
      exact .inl ⟨rfl, fun _ => id⟩
  | drained j =>
      obtain ⟨handle, -, hfree, -, rfl⟩ := hstep
      exact .inr ⟨hfree, evict_session j handle⟩
  | teardown j =>
      obtain ⟨handle, work, -, -, rfl⟩ := hstep
      have halike := alike_destroyed (s := s) work
      exact .inl ⟨halike.globals, fun i howner => halike.owner.trans howner⟩
  | take n =>
      obtain ⟨item, rest, -, -, -, rfl⟩ := hstep
      exact .inl ⟨rfl, fun _ => id⟩
  | handOver n =>
      obtain ⟨item, -, rfl⟩ := hstep
      exact .inl ⟨rfl, fun _ => id⟩
  | workerReturn n =>
      obtain ⟨-, -, -, -, rfl⟩ := hstep
      exact .inl ⟨rfl, fun _ => id⟩

theorem owner_kept {l : FfiStep ι} (hstep : (ffiSystem C ι).step s l s') (howner : s.owner = some i)
    (hl : l ≠ .unlock i) : s'.owner = some i ∧ s'.globals = s.globals := by
  have hothers : ∀ j, l ≠ .unlock j := by
    rintro j rfl
    obtain ⟨call, g, next, pointer, pointer', -, hheld, -, -⟩ := hstep
    exact hl (congrArg FfiStep.unlock (Option.some.inj (hheld.symm.trans howner)))
  rcases guarded_kept hstep hothers with ⟨hglobals, hheld⟩ | ⟨hfree, -⟩
  · exact ⟨hheld i howner, hglobals⟩
  · exact absurd (hfree.symm.trans howner) nofun

theorem opening_step {l : FfiStep ι} (h : s.Opening i (s.threads i)) (hsound : s.Sound P)
    (hstep : (ffiSystem C ι).step s l s') :
    s'.Opening i (s'.threads i) ∨ s'.Tells k i (.outside false) (s'.threads i) := by
  by_cases hl : l = .unlock i
  · subst hl
    obtain ⟨call, g, next, pointer, pointer', hthread, howner, hpointer, rfl⟩ := hstep
    rw [set_threads_self]
    rw [hthread] at h
    have hrest := (hsound.rest_unlock hthread howner).2
    have hfreed : (s.release g).owner ≠ some i := by
      rw [release_owner]
      nofun
    generalize next () = rest at hpointer hrest ⊢
    cases call with
    | init accepted =>
        cases hpointer with
        | ended _ => exact .inr ⟨hfreed, rfl, fun _ => ⟨rfl, rfl⟩⟩
        | threw => exact .inl (.inl nofun)
        | taken _ => exact .inl (.inl nofun)
        | kept hsame =>
            refine .inl (.inl ?_)
            rintro rfl
            -- A window counts the call, so the section has changed something.
            rcases hrest with ⟨-, hpast⟩ | ⟨hopen, -, -⟩
            · exact hpast.1
            · rw [hsame] at hopen
              exact absurd hopen (Nat.succ_ne_self _).symm
    | _ => exact h.elim
  · refine .inl ?_
    generalize ht : s.threads i = thread at h
    cases thread with
    | running call program pointer =>
        cases call with
        | init accepted =>
            have hkept : ∀ program', s'.Opening i (.running (.init accepted) program' pointer) :=
              fun _ => h.imp_right fun ⟨howner, hnone⟩ => by
                obtain ⟨howner', hglobals⟩ := owner_kept hstep howner hl
                exact ⟨howner', hglobals ▸ hnone⟩
            rcases ffiSystem_threads hstep i with hsame | hmoves
            · rw [hsame, ht]
              exact hkept program
            · rw [ht] at hmoves
              generalize s'.threads i = thread' at hmoves ⊢
              generalize hold : FfiThread.running (.init accepted) program pointer = old at hmoves
              cases hmoves with
              | lock => cases hold; exact hkept _
              | unlock => exact absurd rfl hl
              | answer => cases hold; exact hkept _
              | finish =>
                  cases hold
                  obtain ⟨hfree, -, hnone⟩ := hsound.finish ht
                  exact absurd h (not_or.2 ⟨fun hne => hne (hnone rfl), fun hboth => hfree hboth.1⟩)
              | evicts hevicts =>
                  cases hevicts with
                  | atOnce hcalled => cases ht.symm.trans hcalled
                  | drained hdraining => cases ht.symm.trans hdraining
              | _ => cases hold
        | _ => exact h.elim
    | _ => exact h.elim

/-- In every reachable state, every thread tells or opens a session. -/
theorem tells_of_reachable (h : (ffiSystem C ι).Reachable s) (i : ι) :
    s.Opening i (s.threads i) ∨ ∃ t, s.Tells k i t (s.threads i) := by
  have hinv : s.Sound C.May ∧ ∀ i, s.Opening i (s.threads i) ∨ ∃ t, s.Tells k i t (s.threads i) := by
    refine h.invariant (I := fun s => s.Sound C.May ∧
      ∀ i, s.Opening i (s.threads i) ∨ ∃ t, s.Tells k i t (s.threads i)) (fun s₀ h₀ => ?_)
        fun u l w ⟨hsound, htells⟩ hstep => ⟨hsound.step_may hstep, fun i => ?_⟩
    · refine ⟨Sound.initial (C := C) h₀, fun _ => .inr ⟨.outside false, ?_⟩⟩
      obtain ⟨nodeUp, rfl⟩ := h₀
      exact ⟨nofun, rfl⟩
    · rcases htells i with hopening | ⟨t, ht⟩
      · exact (opening_step hopening hsound hstep).imp_right fun hafter => ⟨_, hafter⟩
      by_cases hopens : l = .enter i ∧ (∃ accepted, u.threads i = .called (.init accepted)) ∧
          u.globals.session = none
      · obtain ⟨rfl, ⟨accepted, hthread⟩, hnone⟩ := hopens
        obtain ⟨call, hcalled, -, rfl⟩ := hstep
        obtain rfl : call = .init accepted := FfiThread.called.inj (hcalled.symm.trans hthread)
        refine .inl ?_
        change FfiProcess.Opening _ i ((({ u with owner := some i } : FfiProcess ι).set i _).threads i)
        rw [set_threads_self]
        exact .inr ⟨rfl, hnone⟩
      · refine .inr ⟨_, tells_step ht hstep fun accepted hl hthread hnone => ?_⟩
        exact hopens ⟨hl, ⟨accepted, hthread⟩, hnone⟩
  exact hinv.2 i

end Threads

/-- What was pushed last is what is guarded, or was pushed in a section that is not over, or some
call has to push. -/
def Balanced {ι : Type} (k : Snapshot) (g : Globals) (t : ι → Telling) (last : Option GcsEvent) : Prop :=
  (∃ i, (t i).InDebt) ∨ (∃ i shown, (t i).pushed = some shown ∧ last = some shown) ∨
    (∀ i, (t i).pushed = none) ∧ last = some (k.build g)

def posted {ι : Type} : FfiStep ι → Option GcsEvent
  | .answer _ (.post event) _ => some event
  | _ => none

section Balance

variable {ι : Type} [DecidableEq ι] {C : Core} {k : Snapshot} {s s' : FfiProcess ι} {i : ι}
  {t : ι → Telling} {last : Option GcsEvent} {l : FfiStep ι}

omit [DecidableEq ι] in
/-- Where nobody else is inside, what a section gives back is settled or owed. -/
theorem Balanced.give {g g' : Globals} (h : Balanced k g t last)
    (hothers : ∀ j, j ≠ i → (t j).pushed = none) {found : GcsEvent} {pushed : Option GcsEvent}
    {owes : Bool} (hi : t i = .inside found pushed owes) (hfound : found = k.build g)
    (hmay : (t i).MayGive True (k.build g')) {t' : ι → Telling}
    (hsame : ∀ j, j ≠ i → t' j = t j) (hgive : t' i = (t i).give (k.build g')) :
    Balanced k g' t' last := by
  have hnone : ∀ j, (t' j).pushed = none := by
    intro j
    by_cases hj : j = i
    · subst hj
      rw [hgive, hi]
      cases pushed <;> rfl
    · rw [hsame j hj]
      exact hothers j hj
  have hdebts : ∀ j, j ≠ i → (t j).InDebt → Balanced k g' t' last := fun j hj hdebt =>
    .inl ⟨j, by rw [hsame j hj]; exact hdebt⟩
  cases pushed with
  | some shown =>
      rw [hi] at hmay
      obtain rfl : shown = k.build g' := hmay
      rcases h with ⟨j, hdebt⟩ | ⟨j, event, hevent, hlast⟩ | ⟨hnever, -⟩
      · refine hdebts j ?_ hdebt
        rintro rfl
        rw [hi] at hdebt
        cases hdebt.1
      · have hj : j = i := by
          by_contra hj
          cases (hothers j hj).symm.trans hevent
        subst hj
        rw [hi] at hevent
        exact .inr (.inr ⟨hnone, hlast.trans hevent.symm⟩)
      · have hpushed := hnever i
        rw [hi] at hpushed
        cases hpushed
  | none =>
      have hafter : t' i = .outside (owes || decide (k.build g' ≠ found)) := by
        rw [hgive, hi]
        rfl
      by_cases howed : (owes || decide (k.build g' ≠ found)) = true
      · refine .inl ⟨i, hnone i, ?_⟩
        rw [hafter]
        exact howed
      · rw [Bool.or_eq_true, decide_eq_true_eq, not_or, not_not] at howed
        rcases h with ⟨j, hdebt⟩ | ⟨j, event, hevent, -⟩ | ⟨-, hlast⟩
        · refine hdebts j ?_ hdebt
          rintro rfl
          rw [hi] at hdebt
          exact howed.1 hdebt.2
        · by_cases hj : j = i
          · subst hj
            rw [hi] at hevent
            cases hevent
          · cases (hothers j hj).symm.trans hevent
        · exact .inr (.inr ⟨hnone, by rw [hlast, howed.2, hfound]⟩)

omit [DecidableEq ι] in
theorem balanced_push {g : Globals} {found event : GcsEvent} {pushed : Option GcsEvent} {owes : Bool}
    (hi : t i = .inside found pushed owes) {t' : ι → Telling} (ht' : t' i = (t i).push (some event)) :
    Balanced k g t' (some event) := by
  refine .inr (.inl ⟨i, event, ?_, rfl⟩)
  rw [ht', hi]
  rfl

omit [DecidableEq ι] in
theorem Balanced.congr {g : Globals} (h : Balanced k g t last) {t' : ι → Telling}
    (hpushed : ∀ i, (t' i).pushed = (t i).pushed) (howes : ∀ i, (t' i).owes = (t i).owes) :
    Balanced k g t' last := by
  rcases h with ⟨i, hdebt⟩ | ⟨i, shown, hshown, hlast⟩ | ⟨hnever, hlast⟩
  · exact .inl ⟨i, (hpushed i).trans hdebt.1, (howes i).trans hdebt.2⟩
  · exact .inr (.inl ⟨i, shown, (hpushed i).trans hshown, hlast⟩)
  · exact .inr (.inr ⟨fun i => (hpushed i).trans (hnever i), hlast⟩)

theorem turn_same (i : ι) (t : Telling) (hunlock : ∀ j, l ≠ .unlock j) (hposted : posted l = none) :
    (turn k s' l i t).pushed = t.pushed ∧ (turn k s' l i t).owes = t.owes := by
  cases l with
  | enter j =>
      rw [turn]
      split
      · exact ⟨t.take_pushed _, t.take_owes _⟩
      · exact ⟨rfl, rfl⟩
  | lock j =>
      rw [turn]
      split
      · exact ⟨t.take_pushed _, t.take_owes _⟩
      · exact ⟨rfl, rfl⟩
  | unlock j => exact absurd rfl (hunlock j)
  | answer j e a =>
      cases e with
      | post event => cases hposted
      | _ => exact ⟨rfl, rfl⟩
  | _ => exact ⟨rfl, rfl⟩

/-- While a session is up, every step keeps the balance. -/
theorem Balanced.step (h : Balanced k s.globals t last)
    (htells : ∀ i, s.Tells k i (t i) (s.threads i)) (hstep : (ffiSystem C ι).step s l s')
    (hup : s'.globals.session ≠ none) :
    Balanced k s'.globals (fun i => turn k s' l i (t i)) (((posted l).bind k.read).or last) := by
  by_cases hunlock : ∃ i, l = .unlock i
  · obtain ⟨i, rfl⟩ := hunlock
    obtain ⟨call, g, next, pointer, pointer', hthread, howner, -, rfl⟩ := hstep
    obtain ⟨hat, hfollows, -⟩ := (htells i).follows hthread
    have hmay : (t i).MayGive True (k.build g) := by
      have hallows := hfollows.1
      cases hi : t i with
      | outside owes =>
          rw [hi] at hallows
          exact hallows
      | inside found pushed owes =>
          rw [hi] at hallows
          exact Telling.MayGive.mono hallows fun _ => trivial
    cases hi : t i with
    | outside owes =>
        rw [hi] at hmay
        exact hmay.elim
    | inside found pushed owes =>
        rw [hi] at hat
        have hglobals : ((s.release g).set i (.running call (next ()) pointer')).globals = g :=
          release_globals s g
        rw [hglobals]
        refine h.give (i := i) (fun j hj => ?_) hi hat.2 hmay (fun j hj => if_neg (Ne.symm hj)) ?_
        · have hatj := (htells j).at
          cases htj : t j with
          | outside owes => rfl
          | inside found pushed owes =>
              rw [htj] at hatj
              exact absurd (Option.some.inj (hatj.1.symm.trans howner)) hj
        · rw [turn, if_pos rfl, hglobals]
  · rw [not_exists] at hunlock
    have hglobals : s'.globals = s.globals := by
      rcases guarded_kept hstep hunlock with ⟨hglobals, -⟩ | ⟨-, hdown⟩
      · exact hglobals
      · exact absurd hdown hup
    rw [hglobals]
    cases hposted : posted l with
    | none =>
        exact h.congr (fun i => (turn_same i _ hunlock hposted).1)
          fun i => (turn_same i _ hunlock hposted).2
    | some event =>
        cases l with
        | answer i e a =>
            cases e with
            | post event' =>
                obtain rfl : event' = event := Option.some.inj hposted
                obtain ⟨call, next, pointer, hthread, -, -⟩ := hstep
                obtain ⟨-, hfollows, -⟩ := (htells i).follows hthread
                have hturn : turn k s' (.answer i (.post event') a) i (t i) =
                  (t i).push (k.read event') := if_pos rfl
                have hallows := hfollows.1
                cases hi : t i with
                | outside owes =>
                    rw [hi] at hallows
                    exact hallows.elim
                | inside found pushed owes =>
                    cases hread : k.read event' with
                    | some shown =>
                        rw [hread] at hturn
                        rw [Option.bind_some, hread, Option.some_or]
                        exact balanced_push hi hturn
                    | none =>
                        rw [Option.bind_some, hread, Option.none_or]
                        have hsame : ∀ j, turn k s' (.answer i (.post event') a) j (t j) = t j := by
                          intro j
                          rw [turn, hread, Telling.push_none, ite_self]
                        exact h.congr (fun j => by rw [hsame j]) fun j => by rw [hsame j]
            | _ => cases hposted
        | _ => cases hposted

end Balance

section Subscribed

variable {ι : Type} [DecidableEq ι] {C : Core} {k : Snapshot} {s s' : FfiProcess ι}

/-- No `gcs_init` that has opened a session is still running. -/
def InitReturned (s : FfiProcess ι) : Prop := ∀ i accepted program n,
  s.threads i ≠ .running (.init accepted) program (some n)

/-- No command and no `gcs_subscribe` has taken the mutex without having returned since. -/
def NoCommand (s : FfiProcess ι) : Prop := ∀ i call program pointer,
  s.threads i = .running call program pointer → ¬ call.MayTell

/-- The event that a step pushes: without a port it is dropped. -/
def pushes (s : FfiProcess ι) (l : FfiStep ι) : Option GcsEvent :=
  if s.dartPort = 0 then none else posted l

/-- The first step of the run accepts a `gcs_subscribe` on a session whose `gcs_init` has returned, and
that session stays up. -/
structure Subscribed (p : (ffiSystem C ι).Path) : Prop where
  reachable : (ffiSystem C ι).Reachable (p.state 0)
  returned : (p.state 0).InitReturned
  accepted : 0 < p.length ∧ ∃ i, p.label 0 = .subscribed i true
  up : ∀ n ≤ p.length, (p.state n).globals.session ≠ none

def pushed (p : (ffiSystem C ι).Path) (n : ℕ) : List GcsEvent :=
  (List.range n).filterMap fun m => (p.state m).pushes (p.label m)

theorem port_of_subscribing (h : (ffiSystem C ι).Reachable s) {i : ι} {handle : Handle}
    {topic : Bytes} {dartPort : ℤ} (hthread : s.threads i = .subscribing handle topic dartPort) :
    dartPort ≠ 0 := by
  have hinv : ∀ i handle topic dartPort, s.threads i = .subscribing handle topic dartPort →
      dartPort ≠ 0 := by
    refine h.invariant (I := fun s => ∀ i handle topic dartPort,
      s.threads i = .subscribing handle topic dartPort → dartPort ≠ 0) (fun s₀ h₀ => ?_)
        fun u l w hports hstep i handle topic dartPort hthread => ?_
    · obtain ⟨nodeUp, rfl⟩ := h₀
      exact nofun
    · rcases ffiSystem_threads hstep i with hsame | hmoves
      · exact hports i handle topic dartPort (hsame ▸ hthread)
      · rw [hthread] at hmoves
        generalize u.threads i = old at hmoves
        cases hmoves with
        | subscribing hfree hsession hport => exact hport
  exact hinv i handle topic dartPort hthread

theorem port_step (h : (ffiSystem C ι).Reachable s) {l : FfiStep ι}
    (hstep : (ffiSystem C ι).step s l s') (hup : s.globals.session ≠ none)
    (hup' : s'.globals.session ≠ none) (hport : s.dartPort ≠ 0) : s'.dartPort ≠ 0 := by
  cases (Sound.reachable h).sessionStep hstep with
  | kept hkept =>
      rcases hkept.dartPort with hsame | ⟨i, handle, topic, -, hthread⟩
      · exact hsame ▸ hport
      · exact port_of_subscribing h hthread
  | evicts i handle _ _ _ hs' =>
      subst hs'
      exact absurd (evict_session i handle) hup'
  | publishes _ _ _ hdown _ _ => exact absurd hdown hup

theorem Subscribed.port {p : (ffiSystem C ι).Path} (h : Subscribed p) {n : ℕ} (hn : n < p.length) :
    (p.state (n + 1)).dartPort ≠ 0 := by
  induction n with
  | zero =>
      obtain ⟨i, hl⟩ := h.accepted.2
      have hstep := p.step 0 hn
      rw [hl] at hstep
      obtain ⟨handle, topic, dartPort, hthread, hafter⟩ := hstep
      rw [if_pos rfl] at hafter
      rw [hafter]
      exact port_of_subscribing h.reachable hthread
  | succ n ih =>
      exact port_step (p.reachable h.reachable hn.le) (p.step (n + 1) hn) (h.up _ hn.le)
        (h.up _ hn) (ih (by omega))

theorem Subscribed.pushes_eq {p : (ffiSystem C ι).Path} (h : Subscribed p) {n : ℕ}
    (hn : n < p.length) : (p.state n).pushes (p.label n) = posted (p.label n) := by
  cases n with
  | zero =>
      obtain ⟨i, hl⟩ := h.accepted.2
      rw [hl]
      exact ite_self none
  | succ n => exact if_neg (h.port (by omega))

end Subscribed

end FfiProcess

namespace Snapshot

def latest (k : Snapshot) (events : List GcsEvent) : Option GcsEvent :=
  events.foldl (fun last event => (k.read event).or last) none

theorem latest_append (k : Snapshot) (events : List GcsEvent) (event : Option GcsEvent) :
    k.latest (events ++ event.toList) = (event.bind k.read).or (k.latest events) := by
  cases event with
  | none => rw [Option.toList_none, List.append_nil, Option.bind_none, Option.none_or]
  | some event => rw [latest, List.foldl_append, Option.toList_some]; rfl

end Snapshot

namespace FfiProcess

section Runs

variable {ι : Type} [DecidableEq ι] {C : Core} {p : (ffiSystem C ι).Path} {n : ℕ}

theorem pushed_succ : pushed p (n + 1) =
    pushed p n ++ ((p.state n).pushes (p.label n)).toList := by
  rw [pushed, List.range_succ, List.filterMap_append, ← pushed]
  congr 1

theorem Subscribed.tells (h : Subscribed p) (k : Snapshot) (i : ι) :
    ∃ t, (p.state 0).Tells k i t ((p.state 0).threads i) := by
  rcases tells_of_reachable (k := k) h.reachable i with hopening | htells
  · generalize hthread : (p.state 0).threads i = thread at hopening
    cases thread with
    | running call program pointer =>
        cases call with
        | init accepted =>
            rcases hopening with hpointer | ⟨-, hdown⟩
            · obtain ⟨n, rfl⟩ := Option.ne_none_iff_exists'.1 hpointer
              exact absurd hthread (h.returned i accepted program n)
            · exact absurd hdown (h.up 0 (Nat.zero_le _))
        | _ => exact hopening.elim
    | _ => exact hopening.elim
  · exact htells

/-- Right after it, `gcs_subscribe` owes both snapshots. -/
theorem Subscribed.balanced_one (h : Subscribed p) (k : Snapshot) : ∃ t : ι → Telling,
    (∀ i, (p.state 1).Tells k i (t i) ((p.state 1).threads i)) ∧
      Balanced k (p.state 1).globals t (k.latest (pushed p 1)) := by
  obtain ⟨hlength, i, hl⟩ := h.accepted
  choose t ht using h.tells k
  have hstep := p.step 0 hlength
  rw [hl] at hstep
  have hothers := fun j => tells_step (ht j) hstep fun _ hl => nomatch hl
  obtain ⟨handle, topic, dartPort, hthread, hafter⟩ := hstep
  rw [if_pos rfl] at hafter
  have howner : (p.state 0).owner = some i := by
    have htells := ht i
    rw [hthread] at htells
    exact htells.1
  refine ⟨Function.update t i (.inside (k.build (p.state 0).globals) none true), fun j => ?_,
    .inl ⟨i, ?_⟩⟩
  · by_cases hj : j = i
    · subst hj
      rw [Function.update_self, hafter, set_threads_self]
      exact ⟨⟨howner, rfl⟩, Core.tells_greet trivial true, fun hnot => absurd trivial hnot⟩
    · rw [Function.update_of_ne hj]
      exact hothers j
  · rw [Function.update_self]
    exact ⟨rfl, rfl⟩

theorem Subscribed.balanced (h : Subscribed p) (k : Snapshot) (hn : n < p.length) :
    ∃ t : ι → Telling, (∀ i, (p.state (n + 1)).Tells k i (t i) ((p.state (n + 1)).threads i)) ∧
      Balanced k (p.state (n + 1)).globals t (k.latest (pushed p (n + 1))) := by
  induction n with
  | zero => exact h.balanced_one k
  | succ n ih =>
      obtain ⟨t, ht, hbalanced⟩ := ih (by omega)
      have hstep := p.step (n + 1) hn
      refine ⟨fun i => turn k (p.state (n + 1 + 1)) (p.label (n + 1)) i (t i),
        fun i => tells_step (ht i) hstep fun _ _ _ => h.up (n + 1) hn.le, ?_⟩
      rw [pushed_succ, Snapshot.latest_append, h.pushes_eq hn]
      exact hbalanced.step ht hstep (h.up _ hn)

/-- When no command is in progress, what was pushed last is what is guarded. -/
theorem Subscribed.latest_eq (h : Subscribed p) (hquiet : (p.state p.length).NoCommand)
    (k : Snapshot) :
    k.latest (pushed p p.length) = some (k.build (p.state p.length).globals) := by
  obtain ⟨n, hn⟩ := Nat.exists_eq_succ_of_ne_zero h.accepted.1.ne'
  obtain ⟨t, ht, hbalanced⟩ := h.balanced k (n := n) (by omega)
  rw [hn] at hquiet ⊢
  have hclear : ∀ i, (t i).owes = false ∧ (t i).pushed = none := by
    intro i
    have htells := ht i
    generalize hthread : (p.state (n + 1)).threads i = thread at htells
    cases thread with
    | running call program pointer => exact htells.2.2 (hquiet i call program pointer hthread)
    | subscribing handle topic dartPort =>
        rw [htells.2]
        exact ⟨rfl, rfl⟩
    | _ =>
        rw [htells.2]
        exact ⟨rfl, rfl⟩
  rcases hbalanced with ⟨i, hdebt⟩ | ⟨i, shown, hshown, -⟩ | ⟨-, hlast⟩
  · exact absurd (hdebt.2.symm.trans (hclear i).1) nofun
  · exact absurd (hshown.symm.trans (hclear i).2) nofun
  · exact hlast

end Runs

end FfiProcess

inductive RailInput
  | pushed (event : GcsEvent)
  | selectRoom (roomTopic : Bytes)

def RailInput.event : RailInput → Option GcsEvent
  | pushed event => some event
  | selectRoom _ => none

namespace RailState

def handle (s : RailState) : RailInput → RailState
  | .pushed (.roomList roomTopic) => RailCubit.setRooms s roomTopic
  | .pushed (.spaceTree space room) => RailCubit.setTree s space room
  | .pushed _ => s
  | .selectRoom roomTopic => (RailCubit.selectRoom s roomTopic).getD s

structure ShowsTopics (s : RailState) (roomTopics : List Bytes) : Prop where
  rooms : s.rooms = roomTopics
  activeRoom : ∀ topic, s.activeRoom = some topic → topic ∈ s.rooms

structure ShowsTree (s : RailState) (space : List SpaceRecord) (room : List RoomRecord) : Prop where
  spaces : s.spaces = space.map fun record => ⟨record.id, record.name, record.isPublic,
    record.autoJoinRooms, RailCubit.roomsOf room record.id⟩
  standaloneRooms : s.standaloneRooms = RailCubit.roomsOutside space room

def Mirrors (s : RailState) (g : Globals) : Prop :=
  s.ShowsTopics g.roomTopics ∧ s.ShowsTree g.entities.spaces g.entities.rooms

theorem showsTopics_setRooms (s : RailState) (roomTopics : List Bytes) :
    (RailCubit.setRooms s roomTopics).ShowsTopics roomTopics := by
  refine ⟨RailCubit.setRooms_rooms s roomTopics, fun topic hactive => ?_⟩
  rw [RailCubit.setRooms_activeRoom, Option.filter_eq_some_iff] at hactive
  rw [RailCubit.setRooms_rooms]
  exact of_decide_eq_true hactive.2

theorem showsTree_setTree (s : RailState) (space : List SpaceRecord) (room : List RoomRecord) :
    (RailCubit.setTree s space room).ShowsTree space room :=
  ⟨RailCubit.setTree_spaces s space room, RailCubit.setTree_standaloneRooms s space room⟩

theorem selectRoom_cases (s : RailState) (roomTopic : Bytes) :
    s.handle (.selectRoom roomTopic) = s ∨ roomTopic ∈ s.rooms ∧
      s.handle (.selectRoom roomTopic) = { s with activeRoom := some roomTopic } := by
  cases hselect : RailCubit.selectRoom s roomTopic with
  | none =>
      refine .inl ?_
      rw [handle, hselect]
      rfl
  | some t =>
      obtain ⟨hmem, -, rfl⟩ := RailCubit.selectRoom_eq_some hselect
      refine .inr ⟨hmem, ?_⟩
      rw [handle, hselect]
      rfl

theorem ShowsTopics.handle {s : RailState} {roomTopics : List Bytes} (h : s.ShowsTopics roomTopics)
    {input : RailInput} (hinput : input.event.bind Snapshot.roomList.read = none) :
    (s.handle input).ShowsTopics roomTopics := by
  cases input with
  | selectRoom roomTopic =>
      rcases s.selectRoom_cases roomTopic with hsame | ⟨hmem, hselected⟩
      · rw [hsame]
        exact h
      · rw [hselected]
        refine ⟨h.rooms, fun topic hactive => ?_⟩
        obtain rfl : roomTopic = topic := Option.some.inj hactive
        exact hmem
  | pushed event =>
      cases event with
      | roomList topics => cases hinput
      | spaceTree space room => exact ⟨h.rooms, h.activeRoom⟩
      | _ => exact h

theorem ShowsTree.handle {s : RailState} {spaces : List SpaceRecord} {rooms : List RoomRecord}
    (h : s.ShowsTree spaces rooms) {input : RailInput}
    (hinput : input.event.bind Snapshot.spaceTree.read = none) :
    (s.handle input).ShowsTree spaces rooms := by
  cases input with
  | selectRoom roomTopic =>
      rcases s.selectRoom_cases roomTopic with hsame | ⟨-, hselected⟩
      · rw [hsame]
        exact h
      · rw [hselected]
        exact ⟨h.spaces, h.standaloneRooms⟩
  | pushed event =>
      cases event with
      | spaceTree space room => cases hinput
      | roomList topics =>
          change (RailCubit.setRooms s topics).ShowsTree spaces rooms
          rw [RailCubit.setRooms]
          split
          · exact ⟨h.spaces, h.standaloneRooms⟩
          · split_ifs <;> exact ⟨h.spaces, h.standaloneRooms⟩
      | _ => exact h

theorem latest_snoc (k : Snapshot) (inputs : List RailInput) (input : RailInput) :
    k.latest ((inputs ++ [input]).filterMap RailInput.event) =
      (input.event.bind k.read).or (k.latest (inputs.filterMap RailInput.event)) := by
  rw [List.filterMap_append, ← Snapshot.latest_append]
  congr 2

/-- Induction on the inputs from the last one: the rail shows the last room list. -/
theorem showsTopics_foldl (s : RailState) {inputs : List RailInput} {roomTopics : List Bytes}
    (h : Snapshot.roomList.latest (inputs.filterMap RailInput.event) =
      some (.roomList roomTopics)) : (inputs.foldl handle s).ShowsTopics roomTopics := by
  induction inputs using List.reverseRecOn with
  | nil => cases h
  | append_singleton inputs input ih =>
      rw [latest_snoc] at h
      rw [List.foldl_append, List.foldl_cons, List.foldl_nil]
      cases hread : input.event.bind Snapshot.roomList.read with
      | none =>
          rw [hread, Option.none_or] at h
          exact (ih h).handle hread
      | some event =>
          rw [hread, Option.some_or, Option.some.injEq] at h
          subst h
          cases input with
          | selectRoom roomTopic => cases hread
          | pushed event =>
              cases event with
              | roomList topics =>
                  cases hread
                  exact showsTopics_setRooms _ _
              | _ => cases hread

theorem showsTree_foldl (s : RailState) {inputs : List RailInput} {spaces : List SpaceRecord}
    {rooms : List RoomRecord}
    (h : Snapshot.spaceTree.latest (inputs.filterMap RailInput.event) =
      some (.spaceTree spaces rooms)) : (inputs.foldl handle s).ShowsTree spaces rooms := by
  induction inputs using List.reverseRecOn with
  | nil => cases h
  | append_singleton inputs input ih =>
      rw [latest_snoc] at h
      rw [List.foldl_append, List.foldl_cons, List.foldl_nil]
      cases hread : input.event.bind Snapshot.spaceTree.read with
      | none =>
          rw [hread, Option.none_or] at h
          exact (ih h).handle hread
      | some event =>
          rw [hread, Option.some_or, Option.some.injEq] at h
          subst h
          cases input with
          | selectRoom roomTopic => cases hread
          | pushed event =>
              cases event with
              | spaceTree space room =>
                  cases hread
                  exact showsTree_setTree _ _ _
              | _ => cases hread

end RailState

open FfiProcess

/-- Whenever no command is in progress after an accepted `gcs_subscribe`, the rail that has handled
the events pushed since, with any taps in between, mirrors the core. -/
theorem rail_mirrors {C : Core} {ι : Type} [DecidableEq ι] {p : (ffiSystem C ι).Path}
    (h : Subscribed p) (hquiet : (p.state p.length).NoCommand) (rail : RailState)
    {inputs : List RailInput} (hdelivered : inputs.filterMap RailInput.event = pushed p p.length) :
    (inputs.foldl RailState.handle rail).Mirrors (p.state p.length).globals := by
  constructor
  · apply RailState.showsTopics_foldl
    rw [hdelivered]
    exact h.latest_eq hquiet .roomList
  · apply RailState.showsTree_foldl
    rw [hdelivered]
    exact h.latest_eq hquiet .spaceTree

def firstSubscribe : FfiCall := .subscribe (some ⟨1, 1⟩) (some []) 7

section Greeting

variable (s : FfiProcess ℕ)

/-- The session after it has accepted the subscribe, with the rest of the call. -/
def greeting (owner : Option ℕ) (thread : FfiThread) : FfiProcess ℕ :=
  ({ s with owner := owner, dartPort := 7 } : FfiProcess ℕ).set 0 thread

def greetingEnd : Program Globals FfiResult := do
  postToDart (.readiness true)
  giveBack s.globals (.status .ok)

def greetingPath (C : Core) (hup : s.globals.session ≠ none) : (ffiSystem C ℕ).Path where
  length := 6
  state
    | 0 => ({ s with owner := some 0 } : FfiProcess ℕ).set 0 (.subscribing ⟨1, 1⟩ [] 7)
    | 1 => greeting s (some 0) (.running firstSubscribe (Core.greet s.globals) none)
    | 2 => greeting s (some 0) (.running firstSubscribe
        (postToDart (Core.buildRoomListEvent s.globals) >>= fun _ => greetingEnd s) none)
    | 3 => greeting s (some 0) (.running firstSubscribe (greetingEnd s) none)
    | 4 => greeting s (some 0) (.running firstSubscribe (giveBack s.globals (.status .ok)) none)
    | 5 => greeting s none (.running firstSubscribe (done (.status .ok)) none)
    | _ => greeting s none .idle
  label
    | 0 => .subscribed 0 true
    | 1 => .answer 0 (.post (Core.buildSpaceTreeEvent s.globals)) ()
    | 2 => .answer 0 (.post (Core.buildRoomListEvent s.globals)) ()
    | 3 => .answer 0 (.post (.readiness true)) ()
    | 4 => .unlock 0
    | _ => .finish 0
  step i hi := by
    have hanswer : ∀ {event : GcsEvent} {next : Unit → Program Globals FfiResult},
        (ffiSystem C ℕ).step
          (greeting s (some 0) (.running firstSubscribe (ask (.post event) next) none))
          (.answer 0 (.post event) ()) (greeting s (some 0) (.running firstSubscribe (next ()) none)) :=
      ⟨firstSubscribe, _, none, set_threads_self _ _ _, trivial, (set_set _ _).symm⟩
    interval_cases i
    · exact ⟨⟨1, 1⟩, [], 7, set_threads_self _ _ _, (set_set _ _).symm⟩
    · exact hanswer
    · exact hanswer
    · exact hanswer
    · let told := greeting s (some 0) (.running firstSubscribe (giveBack s.globals (.status .ok)) none)
      have hreleased : told.release s.globals = greeting s none
          (.running firstSubscribe (giveBack s.globals (.status .ok)) none) := release_of_up _ _ hup
      have hnext : greeting s none (.running firstSubscribe (done (.status .ok)) none) =
          (told.release s.globals).set 0 (.running firstSubscribe (done (.status .ok)) none) := by
        rw [hreleased]
        exact (set_set (s := { s with owner := none, dartPort := 7 }) _ _).symm
      exact ⟨firstSubscribe, s.globals, _, none, none, set_threads_self _ _ _, rfl, .ended rfl, hnext⟩
    · have hleaks : (FfiResult.status GcsStatus.ok).leaks = 0 := rfl
      have hstep := step_finish (C := C) (s := greeting s none .idle) (i := 0) firstSubscribe hleaks
        none
      rw [greeting, set_set, set_set] at hstep
      exact hstep

variable {s}

theorem subscribed_greetingPath {C : Core} (hs : (ffiSystem C ℕ).Reachable s)
    (hidle : ∀ i, s.threads i = .idle) (hfree : s.owner = none) (hsession : s.globals.session = some 1)
    (hup : s.globals.session ≠ none) : Subscribed (greetingPath s C hup) where
  reachable := by
    have hcall : Leads C s (s.set 0 (.called firstSubscribe)) :=
      Leads.step (l := .call 0 firstSubscribe) ⟨hidle 0, rfl⟩
    have hentered : (s.set 0 (.called firstSubscribe)).enter C 0 firstSubscribe =
        ({ s with owner := some 0 } : FfiProcess ℕ).set 0 (.subscribing ⟨1, 1⟩ [] 7) := by
      rw [firstSubscribe, FfiProcess.enter, if_pos ⟨hsession, by decide⟩]
      exact set_set (s := { s with owner := some 0 }) _ _
    have henter : Leads C (s.set 0 (.called firstSubscribe)) ((greetingPath s C hup).state 0) :=
      Leads.step (l := .enter 0) ⟨firstSubscribe, set_threads_self _ _ _, hfree, hentered.symm⟩
    exact (hcall.trans henter).reachable hs
  returned := by
    intro i accepted program n hthread
    by_cases hi : i = 0
    · subst hi
      cases (set_threads_self _ _ _).symm.trans hthread
    · cases ((set_threads_of_ne _ _ hi).trans (hidle i)).symm.trans hthread
  accepted := ⟨Nat.succ_pos 5, 0, rfl⟩
  up n hn := by
    change n ≤ 6 at hn
    interval_cases n <;> exact hup

theorem noCommand_greetingPath (C : Core) (hidle : ∀ i, s.threads i = .idle)
    (hup : s.globals.session ≠ none) : ((greetingPath s C hup).state 6).NoCommand := by
  intro i call program pointer hthread
  by_cases hi : i = 0
  · subst hi
    cases (set_threads_self _ _ _).symm.trans hthread
  · cases ((set_threads_of_ne _ _ hi).trans (hidle i)).symm.trans hthread

end Greeting

/-- The two smoke topics, one of them selected in between. -/
theorem rail_mirrors_greeting : ∃ rail : RailState, rail.Mirrors (startedGlobals 1) ∧
    rail.rooms = [kSmokeTopicA, kSmokeTopicB] ∧ rail.activeRoom = some kSmokeTopicA := by
  let C := protoCore (Messaging.plaintext (ofString "self"))
  let inputs : List RailInput := [.pushed (Core.buildSpaceTreeEvent (startedGlobals 1)),
    .pushed (Core.buildRoomListEvent (startedGlobals 1)), .selectRoom kSmokeTopicA,
    .pushed (.readiness true)]
  have hup : (firstSession ℕ).globals.session ≠ none := nofun
  have hsubscribed : Subscribed (greetingPath (firstSession ℕ) C hup) :=
    subscribed_greetingPath (reachable_firstSession C ℕ) (fun _ => rfl) rfl rfl hup
  refine ⟨inputs.foldl RailState.handle .initial,
    rail_mirrors hsubscribed (noCommand_greetingPath C (fun _ => rfl) hup) .initial ?_, rfl,
    by decide⟩
  rfl

end GcsChat
