import GcsChat.FfiRuns
import Mathlib.Data.Finset.Card

/-!
# Shutting down drains the windows

A call holds raw pointers exactly in its unlocked windows, and each of these windows is counted in
`g_inFlight`. The session whose pointers it holds is the one that is up, because a session is only
evicted when nothing is counted, and only evicted sessions are destroyed. A window that an exception
leaves stays counted.
-/

namespace GcsChat

open Interactive

/-- The session whose raw pointers the thread holds. -/
def FfiThread.pointer : FfiThread → Option ℕ
  | running _ _ pointer => pointer
  | _ => none

/-- The thread is in an unlocked window of a call, or in a section of the sink inside one. -/
def FfiThread.InWindow (t : FfiThread) : Prop := t.pointer ≠ none

def FfiThread.evicted : FfiThread → Option ℕ
  | tearingDown _ work => work.evicted
  | _ => none

/-- All objects of the session exist, and the archive worker runs. -/
structure SessionObjects.Up (o : SessionObjects) (address : ℕ) : Prop where
  address : o.address = address
  session : o.session = true
  messaging : o.messaging = true
  entities : o.entities = true
  shutDown : o.shutDown = false
  stopped : o.archive.stopped = false
  returned : o.archive.returned = false

theorem SessionObjects.up_built (address : ℕ) : (SessionObjects.built address).Up address :=
  ⟨rfl, rfl, rfl, rfl, rfl, rfl, rfl⟩

/-- Calls end outside every section, but for the exception that takes a callback out of its window. -/
def callEnds (call : FfiCall) : FfiResult → Mode → Prop
  | .threw, m => m = .window ∧ call.registeredBy ≠ none
  | _, m => m = .start ∨ m = .past

def Core.Writing (C : Core) (call : FfiCall) : Prop :=
  ∃ handle topic bytes command, call = .publish handle topic (some bytes) ∧
    C.parseCommand bytes = some command ∧ command.IsWrite

/-- What the call may ask with `g_mutex` held. -/
def Core.May (C : Core) (call : FfiCall) (e : Effect Globals) : Prop :=
  e.Quick ∨ C.Writing call ∧ ∃ key value, e = .put key value

section Calls

variable {C : Core} {P : Effect Globals → Prop} {call : FfiCall} {g : Globals}

theorem callEnds_of_returned {result : FfiResult} {m : Mode} (hleaks : result.leaks = 0) :
    callEnds call result m ↔ m = .start ∨ m = .past := by
  cases result with
  | threw => cases hleaks
  | _ => exact Iff.rfl

theorem callEnds_callbackResult {call : FfiCall} {n : ℕ} (hcall : call.registeredBy = some n)
    {returned : Option Unit} {m : Mode} (h : Core.CallbackEnds returned m) : callEnds call (Core.callbackResult returned) m := by
  cases returned with
  | none => exact ⟨h, Option.ne_none_iff_exists'.2 ⟨n, hcall⟩⟩
  | some _ => exact h

theorem follows_giveBack {m : Mode} (h : m.Holds g) {result : FfiResult} (hleaks : result.leaks = 0) :
    (giveBack g result).Follows (mutexDiscipline P) m (callEnds call) :=
  follows_unlock h ((callEnds_of_returned hleaks).2 (.inr rfl))

theorem holds_inside (g : Globals) : (Mode.inside false g).Holds g :=
  ⟨Nat.add_zero _, fun _ => rfl⟩

theorem begins_locked (hP : ∀ e : Effect Globals, e.Quick → P e)
    (hput : ∀ handle topic bytes command, call = .publish handle topic (some bytes) →
      C.Reaches g (handle.map (·.address)) topic bytes command → ∀ key value, P (.put key value))
    (tearingDown : Bool) :
    Begins P (C.locked g tearingDown call) (.inside false g) (callEnds call) := by
  cases call with
  | init configAccepted =>
      rw [Core.locked]
      split
      · exact .inl (follows_giveBack (holds_inside g) rfl)
      rw [Core.initLocked]
      split
      · exact .inl (follows_giveBack (holds_inside g) rfl)
      · next hnone =>
          exact .inr ⟨⟨g, rfl⟩, _, rfl, fun opened =>
            (Core.follows_opened hP (holds_inside g) hnone opened).bind fun r m' hm' =>
              follows_giveBack hm' rfl⟩
  | publish handle topic payload =>
      refine .inl ((Core.follows_publishLocked hP (holds_inside g) fun bytes command hbytes => ?_).bind
        fun r m' hm' => follows_giveBack hm' rfl)
      exact hput handle topic bytes command (by rw [hbytes])
  | _ => exact .inl (follows_giveBack (holds_inside g) rfl)

theorem follows_greet (hP : ∀ e : Effect Globals, e.Quick → P e) :
    (Core.greet g).Follows (mutexDiscipline P) (.inside false g) (callEnds call) :=
  follows_ask (holds_inside g) (.inl trivial) (hP _ trivial) fun _ =>
    follows_ask (holds_inside g) (.inl trivial) (hP _ trivial) fun _ =>
      follows_ask (holds_inside g) (.inl trivial) (hP _ trivial) fun _ =>
        follows_giveBack (holds_inside g) rfl

theorem follows_callback (hP : ∀ e : Effect Globals, e.Quick → P e) (call : FfiCall) :
    (C.callback call).Follows (mutexDiscipline P) .start (callEnds call) := by
  cases call with
  | live n topic data =>
      have hcall : (FfiCall.live n topic data).registeredBy = some n := rfl
      exact (Core.follows_liveCallback hP topic data).bind fun _ _ => callEnds_callbackResult hcall
  | heal n key value =>
      have hcall : (FfiCall.heal n key value).registeredBy = some n := rfl
      exact (Core.follows_healCallback hP key value).bind fun _ _ => callEnds_callbackResult hcall
  | _ => exact .inl rfl

end Calls

namespace FfiProcess

variable {ι : Type} {P : FfiCall → Effect Globals → Prop} {C : Core}

/-- The typestate of a call that runs on thread `i`. -/
def InMode (s : FfiProcess ι) (i : ι) (pointer : Option ℕ) : Mode → Prop
  | .start => s.owner ≠ some i ∧ pointer = none
  | .inside w found => s.owner = some i ∧ found = s.globals ∧ w = pointer.isSome
  | .window => s.owner ≠ some i ∧ pointer ≠ none
  | .past => s.owner ≠ some i ∧ pointer = none

variable (P) in
/-- A thread owns the mutex exactly when its call is in a section, and its call follows the
discipline from there. -/
def Fits (s : FfiProcess ι) (i : ι) : FfiThread → Prop
  | .running call program pointer => ∃ m, s.InMode i pointer m ∧ Begins (P call) program m (callEnds call)
  | .subscribing handle _ _ => s.owner = some i ∧ s.globals.session = some handle.address
  | _ => s.owner ≠ some i

variable (P) in
structure Sound (s : FfiProcess ι) : Prop where
  fits : ∀ i, s.Fits P i (s.threads i)
  counted : ∃ windows : Finset ι, (∀ i, i ∈ windows ↔ (s.threads i).InWindow) ∧
    s.globals.inFlight = windows.card + s.leaked
  pointers : ∀ i n, (s.threads i).pointer = some n → n = s.built ∧ s.globals.session ≠ none
  up : ∀ address, s.globals.session = some address → (s.objects s.built).Up address
  evicted : ∀ i n, (s.threads i).evicted = some n → n ≤ s.built ∧
    (n = s.built → s.globals.session = none)

section Frame

variable {s s' : FfiProcess ι}

theorem Fits.congr {i : ι} {t : FfiThread} (h : s.Fits P i t) (howner : s'.owner = s.owner)
    (hglobals : s'.globals = s.globals) : s'.Fits P i t := by
  cases t with
  | running call program pointer =>
      obtain ⟨m, hmode, hfollows⟩ := h
      refine ⟨m, ?_, hfollows⟩
      cases m <;> simpa only [InMode, howner, hglobals] using hmode
  | subscribing handle topic dartPort => simpa only [Fits, howner, hglobals] using h
  | _ => simpa only [Fits, howner] using h

theorem Fits.of_not_owner {i : ι} {t : FfiThread} (h : s.Fits P i t) (hfree : s.owner ≠ some i)
    (hfree' : s'.owner ≠ some i) : s'.Fits P i t := by
  cases t with
  | running call program pointer =>
      obtain ⟨m, hmode, hfollows⟩ := h
      refine ⟨m, ?_, hfollows⟩
      cases m with
      | inside w found => exact absurd hmode.1 hfree
      | _ => exact ⟨hfree', hmode.2⟩
  | subscribing handle topic dartPort => exact absurd h.1 hfree
  | _ => exact hfree'

/-- A step that leaves alone what `g_mutex` guards, its owner and the session that is up. -/
theorem Sound.frame (h : s.Sound P) (hglobals : s'.globals = s.globals) (howner : s'.owner = s.owner)
    (hbuilt : s'.built = s.built) (hleaked : s'.leaked = s.leaked)
    (hup : ∀ address, (s.objects s.built).Up address → s.globals.session = some address →
      (s'.objects s.built).Up address)
    (hthreads : ∀ j, s'.threads j = s.threads j ∨ (s'.Fits P j (s'.threads j) ∧
      (s'.threads j).pointer = (s.threads j).pointer ∧
        ∀ n, (s'.threads j).evicted = some n → (s.threads j).evicted = some n)) :
    s'.Sound P where
  fits j := by
    rcases hthreads j with hsame | hfits
    · rw [hsame]
      exact (h.fits j).congr howner hglobals
    · exact hfits.1
  counted := by
    obtain ⟨windows, hmem, hcard⟩ := h.counted
    refine ⟨windows, fun j => (hmem j).trans ?_, by rw [hglobals, hcard, hleaked]⟩
    have hpointer : (s'.threads j).pointer = (s.threads j).pointer := by
      rcases hthreads j with hsame | hfits
      · rw [hsame]
      · exact hfits.2.1
    rw [FfiThread.InWindow, FfiThread.InWindow, hpointer]
  pointers j n hn := by
    rw [hbuilt, hglobals]
    refine h.pointers j n ?_
    rcases hthreads j with hsame | hfits
    · rw [← hsame, hn]
    · rw [← hfits.2.1, hn]
  up address hsession := by
    rw [hglobals] at hsession
    rw [hbuilt]
    exact hup address (h.up address hsession) hsession
  evicted j n hn := by
    rw [hbuilt, hglobals]
    refine h.evicted j n ?_
    rcases hthreads j with hsame | hfits
    · rw [← hsame, hn]
    · exact hfits.2.2 n hn

theorem Sound.pointer_eq_none (h : s.Sound P) (hidle : s.globals.inFlight = 0) (j : ι) :
    (s.threads j).pointer = none := by
  obtain ⟨windows, hmem, hcard⟩ := h.counted
  have hempty : windows = ∅ := Finset.card_eq_zero.1 (by omega)
  by_contra hpointer
  have hj : j ∈ windows := (hmem j).2 hpointer
  rw [hempty] at hj
  exact absurd hj (Finset.notMem_empty j)

theorem Sound.inFlight_pos {i : ι} (h : s.Sound P) (hwindow : (s.threads i).InWindow) :
    0 < s.globals.inFlight := by
  obtain ⟨windows, hmem, hcard⟩ := h.counted
  have hpos := Finset.card_pos.2 ⟨i, (hmem i).2 hwindow⟩
  omega

theorem Sound.rest_answer {i : ι} (h : s.Sound P) {call : FfiCall} {e : Effect Globals}
    {next : e.Answer → Program Globals FfiResult} {pointer : Option ℕ}
    (hthread : s.threads i = .running call (ask e next) pointer) (a : e.Answer)
    (hanswers : s.Answers e a) :
    ∃ m, s.InMode i pointer m ∧ (next a).Follows (mutexDiscipline (P call)) m (callEnds call) := by
  have hlock : e ≠ .lock := by
    rintro rfl
    exact hanswers
  have hunlock : ∀ g, e ≠ .unlock g := by
    rintro g rfl
    exact hanswers
  have hfits := h.fits i
  rw [hthread] at hfits
  obtain ⟨m, hmode, ⟨hallows, hfollows⟩ | ⟨-, next', hinit, hfollows⟩⟩ := hfits
  · obtain ⟨hpossible, hafter⟩ := mutexDiscipline_after (P := P call) (m := m) hlock hunlock a
    refine ⟨m, hmode, ?_⟩
    have := hfollows a hpossible
    rwa [hafter] at this
  · cases hinit
    exact ⟨m, hmode, hfollows a⟩

theorem Sound.rest_lock {i : ι} (h : s.Sound P) {call : FfiCall}
    {next : Globals → Program Globals FfiResult} {pointer : Option ℕ}
    (hthread : s.threads i = .running call (ask .lock next) pointer) (hfree : s.owner = none) :
    (next s.globals).Follows (mutexDiscipline (P call)) (.inside pointer.isSome s.globals)
      (callEnds call) := by
  have hfits := h.fits i
  rw [hthread] at hfits
  obtain ⟨m, hmode, hbegins⟩ := hfits
  have hfollows := hbegins.follows nofun
  cases m with
  | start =>
      rw [hmode.2]
      exact hfollows.2 s.globals trivial
  | window =>
      have hwindow : (s.threads i).InWindow := by
        rw [hthread]
        exact hmode.2
      obtain ⟨n, hn⟩ := Option.ne_none_iff_exists'.1 hwindow
      have hsome : pointer.isSome = true := Option.isSome_iff_ne_none.2 hmode.2
      rw [hsome]
      exact hfollows.2 s.globals ⟨(h.pointers i n hn).2, h.inFlight_pos hwindow⟩
  | inside w found => exact absurd (hfree.symm.trans hmode.1) nofun
  | past => exact hfollows.1.elim

theorem Sound.rest_unlock {i : ι} (h : s.Sound P) {call : FfiCall} {g : Globals}
    {next : Unit → Program Globals FfiResult} {pointer : Option ℕ}
    (hthread : s.threads i = .running call (ask (.unlock g) next) pointer)
    (howner : s.owner = some i) :
    (s.globals.session ≠ none → g.session = s.globals.session) ∧
    (g.inFlight + pointer.isSome.toNat = s.globals.inFlight ∧
        (next ()).Follows (mutexDiscipline (P call)) .past (callEnds call) ∨
      g.inFlight + pointer.isSome.toNat = s.globals.inFlight + 1 ∧ g.session ≠ none ∧
        (next ()).Follows (mutexDiscipline (P call)) .window (callEnds call)) := by
  have hfits := h.fits i
  rw [hthread] at hfits
  obtain ⟨m, hmode, hbegins⟩ := hfits
  obtain ⟨hallows, hfollows⟩ := hbegins.follows nofun
  have hfollows := hfollows () (by cases m <;> trivial)
  cases m with
  | inside w found =>
      obtain ⟨-, rfl, rfl⟩ := hmode
      change (next ()).Follows _ (if g.inFlight + pointer.isSome.toNat = s.globals.inFlight then
        Mode.past else .window) (callEnds call) at hfollows
      refine ⟨hallows.1, hallows.2.imp (fun hlast => ⟨hlast, ?_⟩) fun ⟨hopen, hup⟩ =>
        ⟨hopen, hup, ?_⟩⟩
      · rwa [if_pos hlast] at hfollows
      · rwa [if_neg (by omega)] at hfollows
  | start => exact absurd howner hmode.1
  | window => exact absurd howner hmode.1
  | past => exact absurd howner hmode.1

/-- A call that has come to its end holds a pointer only if it is a callback and an exception has left
its window. -/
theorem Sound.finish {i : ι} (h : s.Sound P) {call : FfiCall} {result : FfiResult} {pointer : Option ℕ}
    (hthread : s.threads i = .running call (done result) pointer) :
    s.owner ≠ some i ∧ pointer.isSome.toNat = result.leaks ∧
      (call.registeredBy = none → pointer = none) := by
  have hfits := h.fits i
  rw [hthread] at hfits
  obtain ⟨m, hmode, hbegins⟩ := hfits
  have hends : callEnds call result m := hbegins.follows nofun
  cases result with
  | threw =>
      obtain ⟨rfl, hcallback⟩ := hends
      refine ⟨hmode.1, ?_, fun hnone => absurd hnone hcallback⟩
      rw [Option.isSome_iff_ne_none.2 hmode.2]
      rfl
  | _ =>
      have hnone : s.owner ≠ some i ∧ pointer = none := by
        rcases hends with rfl | rfl <;> exact hmode
      exact ⟨hnone.1, by rw [hnone.2]; rfl, fun _ => hnone.2⟩

end Frame

section Steps

variable [DecidableEq ι] {s s' : FfiProcess ι} {i : ι}

/-- A step of one thread that goes on as `t`, and changes nothing that the others look at. -/
theorem Sound.set (h : s.Sound P) (hglobals : s'.globals = s.globals) (howner : s'.owner = s.owner)
    (hbuilt : s'.built = s.built) (hleaked : s'.leaked = s.leaked) (hthreads : s'.threads = s.threads)
    (hup : ∀ address, (s.objects s.built).Up address → s.globals.session = some address →
      (s'.objects s.built).Up address) {t : FfiThread} (hfits : s.Fits P i t)
    (hpointer : t.pointer = (s.threads i).pointer)
    (hevicted : ∀ n, t.evicted = some n → (s.threads i).evicted = some n) :
    (s'.set i t).Sound P := by
  refine h.frame hglobals howner hbuilt hleaked hup fun j => ?_
  by_cases hj : j = i
  · subst hj
    rw [set_threads_self]
    exact .inr ⟨hfits.congr howner hglobals, hpointer, hevicted⟩
  · rw [set_threads_of_ne _ _ hj, hthreads]
    exact .inl rfl

theorem Sound.take (h : s.Sound P) (hfree : s.owner = none) {t : FfiThread}
    (hfits : ({ s with owner := some i } : FfiProcess ι).Fits P i t)
    (hpointer : t.pointer = (s.threads i).pointer) (hevicted : t.evicted = none) :
    (({ s with owner := some i } : FfiProcess ι).set i t).Sound P where
  fits j := by
    by_cases hj : j = i
    · subst hj
      rw [set_threads_self]
      exact hfits.congr rfl rfl
    · rw [set_threads_of_ne _ _ hj]
      refine (h.fits j).of_not_owner (by rw [hfree]; nofun) fun howner => hj ?_
      exact (Option.some.inj howner).symm
  counted := by
    obtain ⟨windows, hmem, hcard⟩ := h.counted
    refine ⟨windows, fun j => (hmem j).trans ?_, hcard⟩
    by_cases hj : j = i
    · subst hj
      rw [set_threads_self, FfiThread.InWindow, FfiThread.InWindow, hpointer]
    · rw [set_threads_of_ne _ _ hj]
  pointers j n hn := by
    by_cases hj : j = i
    · subst hj
      rw [set_threads_self, hpointer] at hn
      exact h.pointers j n hn
    · rw [set_threads_of_ne _ _ hj] at hn
      exact h.pointers j n hn
  up := h.up
  evicted j n hn := by
    by_cases hj : j = i
    · subst hj
      rw [set_threads_self, hevicted] at hn
      cases hn
    · rw [set_threads_of_ne _ _ hj] at hn
      exact h.evicted j n hn

theorem evicted_start (sdkBootedHere : Bool) (evicted : Option ℕ) (handle : Handle) :
    (FfiThread.tearingDown handle (.start sdkBootedHere evicted)).evicted = evicted := rfl

/-- A session is evicted when nothing is counted, so nobody points to it. -/
theorem Sound.evict (h : s.Sound P) (hfree : s.owner = none) (hidle : s.globals.inFlight = 0)
    (hpointer : (s.threads i).pointer = none) (handle : Handle) : (s.evict i handle).Sound P := by
  have hnone := h.pointer_eq_none hidle
  unfold FfiProcess.evict
  split
  · next hsession =>
      refine h.frame rfl rfl rfl rfl (fun _ hup _ => hup) fun j => ?_
      by_cases hj : j = i
      · subst hj
        rw [set_threads_self]
        refine .inr ⟨?_, hpointer.symm, fun n hn => nomatch hn⟩
        change s.owner ≠ some j
        rw [hfree]
        nofun
      · rw [set_threads_of_ne _ _ hj]
        exact .inl rfl
  · next address hsession =>
      obtain ⟨windows, -, hcard⟩ := h.counted
      refine ⟨fun j => ?_, ⟨∅, fun j => ?_, ?_⟩, fun j n hn => ?_, nofun, fun j n hn => ?_⟩
      · by_cases hj : j = i
        · subst hj
          rw [set_threads_self]
          change s.owner ≠ some j
          rw [hfree]
          nofun
        · rw [set_threads_of_ne _ _ hj]
          exact (h.fits j).of_not_owner (by rw [hfree]; nofun) (by
            change s.owner ≠ some j
            rw [hfree]
            nofun)
      · refine iff_of_false (Finset.notMem_empty j) fun hwindow => hwindow ?_
        by_cases hj : j = i
        · subst hj
          rw [set_threads_self]
          rfl
        · rw [set_threads_of_ne _ _ hj]
          exact hnone j
      · change s.globals.inFlight = 0 + s.leaked
        omega
      · by_cases hj : j = i
        · subst hj
          rw [set_threads_self] at hn
          cases hn
        · rw [set_threads_of_ne _ _ hj] at hn
          exact absurd (hn.symm.trans (hnone j)) nofun
      · by_cases hj : j = i
        · subst hj
          rw [set_threads_self, evicted_start] at hn
          exact ⟨(Option.some.inj hn).symm.le, fun _ => rfl⟩
        · rw [set_threads_of_ne _ _ hj] at hn
          exact ⟨(h.evicted j n hn).1, fun _ => rfl⟩

omit [DecidableEq ι] in
/-- The session that is up when the mutex is given back is the one with the highest number. -/
theorem Sound.up_release (h : s.Sound P) {g : Globals}
    (hkept : s.globals.session ≠ none → g.session = s.globals.session) {address : ℕ}
    (hg : g.session = some address) :
    ((s.release g).objects (s.release g).built).Up address := by
  by_cases hnone : s.globals.session = none
  · rw [release_of_opened s g hnone hg]
    change (Function.update s.objects (s.built + 1) (.built address) (s.built + 1)).Up address
    rw [Function.update_self]
    exact SessionObjects.up_built address
  · rw [release_of_up s g hnone]
    exact h.up address ((hkept hnone).symm.trans hg)

theorem exists_windows_set {windows : Finset ι} (hmem : ∀ j, j ∈ windows ↔ (s.threads j).InWindow)
    (hthreads : s'.threads = s.threads) (t : FfiThread) :
    ∃ windows' : Finset ι, (∀ j, j ∈ windows' ↔ ((s'.set i t).threads j).InWindow) ∧
      windows'.card + (s.threads i).pointer.isSome.toNat =
        windows.card + t.pointer.isSome.toNat := by
  have hother : ∀ j, j ≠ i → (j ∈ windows ↔ ((s'.set i t).threads j).InWindow) := by
    intro j hj
    rw [set_threads_of_ne _ _ hj, hthreads]
    exact hmem j
  have hwas : i ∈ windows ↔ (s.threads i).pointer.isSome := by
    rw [hmem i, FfiThread.InWindow, Option.isSome_iff_ne_none]
  cases hnow : t.pointer with
  | none =>
      refine ⟨windows.erase i, fun j => ?_, ?_⟩
      · by_cases hj : j = i
        · subst hj
          rw [set_threads_self, FfiThread.InWindow, hnow]
          simp
        · rw [Finset.mem_erase, ← hother j hj]
          exact and_iff_right hj
      · by_cases hi : i ∈ windows
        · rw [hwas.1 hi]
          exact Finset.card_erase_add_one hi
        · rw [Bool.eq_false_iff.2 fun hsome => hi (hwas.2 hsome), Finset.erase_eq_of_notMem hi]
          rfl
  | some n =>
      refine ⟨insert i windows, fun j => ?_, ?_⟩
      · by_cases hj : j = i
        · subst hj
          rw [set_threads_self, FfiThread.InWindow, hnow]
          simp
        · rw [Finset.mem_insert, ← hother j hj]
          exact or_iff_right hj
      · by_cases hi : i ∈ windows
        · rw [hwas.1 hi, Finset.insert_eq_of_mem hi]
          rfl
        · rw [Bool.eq_false_iff.2 fun hsome => hi (hwas.2 hsome), Finset.card_insert_of_notMem hi]
          rfl

theorem Sound.release (h : s.Sound P) {g : Globals} {t : FfiThread} (howner : s.owner = some i)
    (hkept : s.globals.session ≠ none → g.session = s.globals.session)
    (hcount : g.inFlight + (s.threads i).pointer.isSome.toNat =
      s.globals.inFlight + t.pointer.isSome.toNat)
    (hpointer : ∀ n, t.pointer = some n → n = (s.release g).built ∧ g.session ≠ none)
    (hfits : ((s.release g).set i t).Fits P i t) (hevicted : t.evicted = none) :
    ((s.release g).set i t).Sound P := by
  refine ⟨fun j => ?_, ?_, fun j n hn => ?_, fun address hg => ?_, fun j n hn => ?_⟩
  · by_cases hj : j = i
    · subst hj
      rw [set_threads_self]
      exact hfits
    · rw [set_threads_of_ne _ _ hj, release_threads]
      refine (h.fits j).of_not_owner (fun hown => hj ?_) ?_
      · exact (Option.some.inj (howner.symm.trans hown)).symm
      · change (s.release g).owner ≠ some j
        rw [release_owner]
        nofun
  · obtain ⟨windows, hmem, hcard⟩ := h.counted
    obtain ⟨windows', hmem', hcard'⟩ := exists_windows_set (i := i) hmem (release_threads s g) t
    refine ⟨windows', hmem', ?_⟩
    change (s.release g).globals.inFlight = windows'.card + (s.release g).leaked
    rw [release_globals, release_leaked]
    omega
  · change n = (s.release g).built ∧ (s.release g).globals.session ≠ none
    rw [release_globals]
    by_cases hj : j = i
    · subst hj
      rw [set_threads_self] at hn
      exact hpointer n hn
    · rw [set_threads_of_ne _ _ hj, release_threads] at hn
      obtain ⟨rfl, hup⟩ := h.pointers j n hn
      rw [release_of_up s g hup, hkept hup]
      exact ⟨rfl, hup⟩
  · change (s.release g).globals.session = some address at hg
    rw [release_globals] at hg
    exact h.up_release hkept hg
  · by_cases hj : j = i
    · subst hj
      rw [set_threads_self, hevicted] at hn
      cases hn
    · rw [set_threads_of_ne _ _ hj, release_threads] at hn
      obtain ⟨hle, hlast⟩ := h.evicted j n hn
      change n ≤ (s.release g).built ∧ (n = (s.release g).built → (s.release g).globals.session = none)
      refine ⟨hle.trans (built_le_release s g), fun hn => ?_⟩
      rw [release_globals]
      by_contra hup
      obtain ⟨address, hg⟩ := Option.ne_none_iff_exists'.1 hup
      by_cases hnone : s.globals.session = none
      · rw [release_of_opened s g hnone hg] at hn
        change n = s.built + 1 at hn
        omega
      · rw [release_of_up s g hnone] at hn
        exact hnone (hlast hn)

theorem Sound.lock (h : s.Sound P) {call : FfiCall} {next : Globals → Program Globals FfiResult}
    {pointer : Option ℕ} (hthread : s.threads i = .running call (ask .lock next) pointer)
    (hfree : s.owner = none) :
    (({ s with owner := some i } : FfiProcess ι).set i
      (.running call (next s.globals) pointer)).Sound P := by
  refine h.take hfree ⟨.inside pointer.isSome s.globals, ⟨rfl, rfl, rfl⟩,
    .inl (h.rest_lock hthread hfree)⟩ ?_ rfl
  rw [hthread]
  rfl

theorem Sound.unlock (h : s.Sound P) {call : FfiCall} {g : Globals}
    {next : Unit → Program Globals FfiResult} {pointer pointer' : Option ℕ}
    (hthread : s.threads i = .running call (ask (.unlock g) next) pointer)
    (howner : s.owner = some i) (hpointer : s.Repointed g pointer (next ()) pointer') :
    ((s.release g).set i (.running call (next ()) pointer')).Sound P := by
  obtain ⟨hkept, hrest⟩ := h.rest_unlock hthread howner
  have hfree : ((s.release g).set i (.running call (next ()) pointer')).owner ≠ some i := by
    change (s.release g).owner ≠ some i
    rw [release_owner]
    nofun
  have hwas : (s.threads i).pointer = pointer := by
    rw [hthread]
    rfl
  generalize next () = rest at hpointer hrest hfree
  rcases hrest with ⟨hlast, hfollows⟩ | ⟨hopen, hup, hfollows⟩
  · -- Nothing is allowed after the last section, so the call is at its end.
    cases hpointer with
    | ended hleaks =>
        refine h.release howner hkept ?_ nofun ⟨.past, ⟨hfree, rfl⟩, .inl hfollows⟩ rfl
        rw [hwas]
        exact hlast
    | threw => cases hfollows.1
    | kept _ => exact hfollows.1.elim
    | taken _ => exact hfollows.1.elim
  · cases hpointer with
    | ended hleaks => rcases (callEnds_of_returned hleaks).1 hfollows with hend | hend <;> cases hend
    | threw =>
        -- The exception leaves the window with the pointer still in hand.
        refine h.release howner hkept ?_ (fun n hn => ⟨(Option.some.inj hn).symm, hup⟩)
          ⟨.window, ⟨hfree, nofun⟩, .inl hfollows⟩ rfl
        rw [hwas]
        exact hopen
    | kept hsame =>
        have hsome : pointer ≠ none := by
          rintro rfl
          rw [hsame] at hopen
          exact absurd hopen (Nat.succ_ne_self _).symm
        refine h.release howner hkept ?_ (fun n hn => ?_)
          ⟨.window, ⟨hfree, hsome⟩, .inl hfollows⟩ rfl
        · rw [hwas, hsame]
          rfl
        · obtain ⟨hbuilt, hsession⟩ := h.pointers i n (hwas.trans hn)
          rw [release_of_up s g hsession, hbuilt]
          exact ⟨rfl, hup⟩
    | taken _ =>
        refine h.release howner hkept ?_ (fun n hn => ⟨(Option.some.inj hn).symm, hup⟩)
          ⟨.window, ⟨hfree, nofun⟩, .inl hfollows⟩ rfl
        rw [hwas]
        exact hopen

end Steps

section Unchanged

variable {s : FfiProcess ι}

theorem up_updateArchive {n k address : ℕ} {f : Archive → Archive}
    (hup : (s.objects k).Up address)
    (hstopped : n = k → (f (s.objects k).archive).stopped = false)
    (hreturned : n = k → (f (s.objects k).archive).returned = false) :
    ((s.updateArchive n f).objects k).Up address := by
  change (Function.update s.objects n _ k).Up address
  by_cases hk : n = k
  · subst hk
    rw [Function.update_self]
    exact ⟨hup.address, hup.session, hup.messaging, hup.entities, hup.shutDown, hstopped rfl,
      hreturned rfl⟩
  · rw [Function.update_of_ne (Ne.symm hk)]
    exact hup

theorem up_answered {k address : ℕ} (hup : (s.objects k).Up address) (pointer : Option ℕ)
    (e : Effect Globals) (a : e.Answer) : ((s.answered pointer e a).objects k).Up address := by
  cases e with
  | initSession =>
      cases a with
      | none =>
          rw [answered]
          split <;> exact hup
      | some address =>
          rw [answered]
          split <;> exact hup
  | subscribe topic => cases a <;> cases pointer <;> exact hup
  | enqueueArchive key value =>
      cases pointer with
      | none => exact hup
      | some n =>
          change ((s.updateArchive n (·.enqueue key value)).objects k).Up address
          exact up_updateArchive hup (fun _ => hup.stopped) fun _ => hup.returned
  | _ => exact hup

theorem objects_destroyed {k : ℕ} {work : Teardown} (hk : work.evicted ≠ some k) :
    (s.destroyed work).objects k = s.objects k := by
  obtain ⟨booted, evicted, stage⟩ := work
  cases evicted with
  | none => cases stage <;> rfl
  | some n =>
      have hne : k ≠ n := fun h => hk (congrArg some h.symm)
      cases stage with
      | sdkShutdown => rfl
      | relock => rfl
      | _ => exact Function.update_of_ne hne _ _

end Unchanged

section Steps

variable [DecidableEq ι] {s s' : FfiProcess ι} {i : ι}

theorem Sound.call (h : s.Sound P) (hP : ∀ call (e : Effect Globals), e.Quick → P call e) {call : FfiCall}
    (hstep : (ffiSystem C ι).step s (.call i call) s') : s'.Sound P := by
  obtain ⟨hidle, hcall⟩ := hstep
  have hfree : s.owner ≠ some i := by
    have := h.fits i
    rwa [hidle] at this
  have hcallback : (s.set i (.running call (C.callback call) none)).Sound P := by
    refine h.set rfl rfl rfl rfl rfl (fun _ hup _ => hup) ⟨.start, ⟨hfree, rfl⟩,
      .inl (follows_callback (hP call) call)⟩ ?_ nofun
    rw [hidle]
    rfl
  have hcalled : (s.set i (.called call)).Sound P := by
    refine h.set rfl rfl rfl rfl rfl (fun _ hup _ => hup) hfree ?_ nofun
    rw [hidle]
    rfl
  cases call with
  | live n topic data =>
      obtain ⟨-, rfl⟩ := hcall
      exact hcallback
  | heal n key value =>
      obtain ⟨-, -, rfl⟩ := hcall
      exact hcallback
  | _ =>
      obtain rfl := hcall
      exact hcalled

theorem Sound.enter (h : s.Sound P) (hP : ∀ call (e : Effect Globals), e.Quick → P call e)
    {call : FfiCall}
    (hput : ∀ handle topic bytes command, call = .publish handle topic (some bytes) →
      C.Reaches s.globals (handle.map (·.address)) topic bytes command →
        ∀ key value, P call (.put key value))
    (hthread : s.threads i = .called call) (hfree : s.owner = none) :
    (s.enter C i call).Sound P := by
  have hpointer : (s.threads i).pointer = none := by
    rw [hthread]
    rfl
  have hnot : s.owner ≠ some i := by
    rw [hfree]
    exact (Option.some_ne_none i).symm
  have hidle : (s.set i .idle).Sound P :=
    h.set rfl rfl rfl rfl rfl (fun _ hup _ => hup) hnot hpointer.symm fun n hn =>
      (Option.some_ne_none n hn.symm).elim
  have hlocked : (({ s with owner := some i } : FfiProcess ι).set i
      (.running call (C.locked s.globals s.tearingDown call) none)).Sound P :=
    h.take hfree ⟨.inside false s.globals, ⟨rfl, rfl, rfl⟩, begins_locked (hP call) hput _⟩
      hpointer.symm rfl
  cases call with
  | shutdown handle =>
      cases handle with
      | none => exact hidle
      | some handle =>
          rw [FfiProcess.enter]
          split
          · split
            · next hzero => exact h.evict hfree hzero hpointer handle
            · apply h.set
              iterate 5 rfl
              · exact fun _ hup _ => hup
              · exact hnot
              · exact hpointer.symm
              · exact fun n hn => (Option.some_ne_none n hn.symm).elim
          · exact hidle
  | subscribe handle topic dartPort =>
      cases handle with
      | none => exact hidle
      | some handle =>
          cases topic with
          | none => exact hidle
          | some topic =>
              rw [FfiProcess.enter]
              split
              · next haccepted => exact h.take hfree ⟨rfl, haccepted.1⟩ hpointer.symm rfl
              · exact hidle
  | _ => exact hlocked

theorem Sound.teardown (h : s.Sound P) {handle : Handle} {work : Teardown}
    (hthread : s.threads i = .tearingDown handle work) : (s.tearDown i handle work).Sound P := by
  have hfree : s.owner ≠ some i := by
    have := h.fits i
    rwa [hthread] at this
  have halike := alike_destroyed (s := s) work
  refine h.set halike.globals halike.owner halike.built halike.leaked halike.threads
    (fun address hup hsession => ?_) ?_ ?_ fun n hn => ?_
  · rw [objects_destroyed]
    · exact hup
    · intro hevicted
      have hnone := (h.evicted i s.built (by rw [hthread]; exact hevicted)).2 rfl
      exact absurd (hnone.symm.trans hsession) nofun
  · split <;> exact hfree
  · rw [hthread]
    split <;> rfl
  · rw [hthread]
    split at hn
    · cases hn
    · exact hn

theorem Sound.ends (h : s.Sound P) {call : FfiCall} {result : FfiResult} {pointer : Option ℕ}
    (hthread : s.threads i = .running call (done result) pointer) :
    (({ s with leaked := s.leaked + result.leaks } : FfiProcess ι).set i .idle).Sound P := by
  obtain ⟨hfree, hleaks, -⟩ := h.finish hthread
  have hidle : ∀ j n, ((s.set i .idle).threads j).pointer = some n →
      (s.threads j).pointer = some n := by
    intro j n hn
    by_cases hj : j = i
    · subst hj
      rw [set_threads_self] at hn
      cases hn
    · rwa [set_threads_of_ne _ _ hj] at hn
  refine ⟨fun j => ?_, ?_, fun j n hn => h.pointers j n (hidle j n hn), h.up, fun j n hn => ?_⟩
  · by_cases hj : j = i
    · subst hj
      rw [set_threads_self]
      exact hfree
    · rw [set_threads_of_ne _ _ hj]
      exact (h.fits j).congr rfl rfl
  · obtain ⟨windows, hmem, hcard⟩ := h.counted
    let left : FfiProcess ι := { s with leaked := s.leaked + result.leaks }
    have hsame : left.threads = s.threads := rfl
    obtain ⟨windows', hmem', hcard'⟩ := exists_windows_set (i := i) hmem hsame .idle
    refine ⟨windows', hmem', ?_⟩
    have hnone : FfiThread.idle.pointer.isSome.toNat = 0 := rfl
    have hwas : (s.threads i).pointer.isSome.toNat = result.leaks := by
      rw [hthread]
      exact hleaks
    change s.globals.inFlight = windows'.card + (s.leaked + result.leaks)
    omega
  · by_cases hj : j = i
    · subst hj
      rw [set_threads_self] at hn
      cases hn
    · rw [set_threads_of_ne _ _ hj] at hn
      exact h.evicted j n hn

variable (P C) in
/-- The writes to the catalog that the discipline has to allow for the step. -/
def Permits (s : FfiProcess ι) : FfiStep ι → Prop
  | .enter i => ∀ handle topic bytes command,
      s.threads i = .called (.publish handle topic (some bytes)) →
        C.Reaches s.globals (handle.map (·.address)) topic bytes command →
          ∀ key value, P (.publish handle topic (some bytes)) (.put key value)
  | _ => True

theorem Sound.step (h : s.Sound P) (hP : ∀ call (e : Effect Globals), e.Quick → P call e) {l : FfiStep ι}
    (hpermits : s.Permits P C l) (hstep : (ffiSystem C ι).step s l s') : s'.Sound P := by
  cases l with
  | call i call => exact h.call hP hstep
  | enter i =>
      obtain ⟨call, hthread, hfree, rfl⟩ := hstep
      refine h.enter hP (fun handle topic bytes command hcall => ?_) hthread hfree
      subst hcall
      exact hpermits handle topic bytes command hthread
  | subscribed i running =>
      obtain ⟨handle, topic, dartPort, hthread, rfl⟩ := hstep
      have howner : s.owner = some i := by
        have := h.fits i
        rw [hthread] at this
        exact this.1
      cases running with
      | true =>
          have hfits : Fits P ({ s with dartPort := dartPort } : FfiProcess ι) i
              (.running (.subscribe (some handle) (some topic) dartPort) (Core.greet s.globals)
                none) :=
            ⟨.inside false s.globals, ⟨howner, rfl, rfl⟩, .inl (follows_greet (hP _))⟩
          rw [if_pos rfl]
          apply h.set
          iterate 5 rfl
          · exact fun _ hup _ => hup
          · exact hfits
          · rw [hthread]
            rfl
          · exact nofun
      | false =>
          refine h.set rfl rfl rfl rfl rfl (fun _ hup _ => hup)
            ⟨.inside false s.globals, ⟨howner, rfl, rfl⟩, .inl (follows_giveBack (holds_inside _) rfl)⟩ ?_
              nofun
          rw [hthread]
          rfl
  | lock i =>
      obtain ⟨call, next, pointer, hthread, hfree, rfl⟩ := hstep
      exact h.lock hthread hfree
  | unlock i =>
      obtain ⟨call, g, next, pointer, pointer', hthread, howner, hpointer, rfl⟩ := hstep
      exact h.unlock hthread howner hpointer
  | answer i e a =>
      obtain ⟨call, next, pointer, hthread, hanswers, rfl⟩ := hstep
      have halike := alike_answered (s := s) pointer e a
      obtain ⟨m, hmode, hfollows⟩ := h.rest_answer hthread a hanswers
      refine h.set halike.globals halike.owner halike.built halike.leaked halike.threads
        (fun _ hup _ => up_answered hup pointer e a) ⟨m, hmode, .inl hfollows⟩ ?_ nofun
      rw [hthread]
      rfl
  | finish i =>
      obtain ⟨call, result, pointer, hthread, rfl⟩ := hstep
      exact h.ends hthread
  | drained i =>
      obtain ⟨handle, hthread, hfree, hzero, rfl⟩ := hstep
      refine h.evict hfree hzero ?_ handle
      rw [hthread]
      rfl
  | teardown i =>
      obtain ⟨handle, work, hthread, -, rfl⟩ := hstep
      exact h.teardown hthread
  | take n =>
      obtain ⟨item, rest, -, -, -, rfl⟩ := hstep
      exact h.frame rfl rfl rfl rfl (fun _ hup _ =>
        up_updateArchive hup (fun _ => hup.stopped) fun _ => hup.returned) fun j => .inl rfl
  | handOver n =>
      obtain ⟨item, -, rfl⟩ := hstep
      exact h.frame rfl rfl rfl rfl (fun _ hup _ =>
        up_updateArchive hup (fun _ => hup.stopped) fun _ => hup.returned) fun j => .inl rfl
  | workerReturn n =>
      obtain ⟨-, -, hstopped, -, rfl⟩ := hstep
      refine h.frame rfl rfl rfl rfl (fun _ hup _ =>
        up_updateArchive hup (fun _ => hup.stopped) fun hn => ?_) fun j => .inl rfl
      subst hn
      exact absurd (hup.stopped.symm.trans hstopped) nofun

theorem Sound.initial (h : (ffiSystem C ι).initial s) : s.Sound P := by
  obtain ⟨nodeUp, rfl⟩ := h
  exact ⟨fun _ => nofun, ⟨∅, fun _ => iff_of_false (Finset.notMem_empty _) fun h => h rfl, rfl⟩,
    nofun, nofun, nofun⟩

theorem Sound.step_may (h : s.Sound C.May) {l : FfiStep ι} (hstep : (ffiSystem C ι).step s l s') :
    s'.Sound C.May := by
  refine h.step (fun call e he => .inl he) ?_ hstep
  cases l with
  | enter i =>
      exact fun handle topic bytes command _ hreaches key value => .inr ⟨⟨handle, topic, bytes,
        command, rfl, hreaches.parses, hreaches.writes.isWrite⟩, key, value, rfl⟩
  | _ => exact trivial

theorem Sound.reachable (h : (ffiSystem C ι).Reachable s) : s.Sound C.May :=
  h.invariant (I := fun s => s.Sound C.May) (fun _ h₀ => Sound.initial (C := C) h₀)
    fun _ _ _ hu hstep => hu.step_may hstep

end Steps

/-- All that is asked outside the mutex through a raw pointer is asked in a window. -/
theorem Sound.inWindow {s : FfiProcess ι} (h : s.Sound P) {i : ι} {call : FfiCall}
    {e : Effect Globals} {next : e.Answer → Program Globals FfiResult} {pointer : Option ℕ}
    (hthread : s.threads i = .running call (ask e next) pointer) (howner : s.owner ≠ some i)
    (he : e.Unlocked) : (s.threads i).InWindow := by
  have hfits := h.fits i
  rw [hthread] at hfits ⊢
  obtain ⟨m, hmode, hbegins⟩ := hfits
  have hnot : ∀ next', ask e next ≠ ask .initSession next' := by
    intro next' hinit
    cases hinit
    exact he
  obtain ⟨hallows, -⟩ := hbegins.follows hnot
  cases m with
  | window => exact hmode.2
  | inside w found => exact absurd hmode.1 howner
  | past => exact hallows.elim
  | start => cases e <;> first | exact he.elim | exact hallows.elim

end FfiProcess

/-- In every reachable state `g_inFlight` is the number of threads in a window and of windows that an
exception has left, everything that is asked outside the mutex through a raw pointer is asked in a
window, and the session that a window points to is up with all its objects, so a call that takes the
mutex again finds it there. -/
theorem windows_up {C : Core} {ι : Type} [DecidableEq ι] {s : FfiProcess ι}
    (h : (ffiSystem C ι).Reachable s) :
    (∃ windows : Finset ι, (∀ i, i ∈ windows ↔ (s.threads i).InWindow) ∧
      s.globals.inFlight = windows.card + s.leaked) ∧
    (∀ i call e next pointer, s.threads i = .running call (ask e next) pointer →
      s.owner ≠ some i → e.Unlocked → (s.threads i).InWindow) ∧
    ∀ i n, (s.threads i).pointer = some n →
      ∃ address, s.globals.session = some address ∧ (s.objects n).Up address := by
  have hsound := FfiProcess.Sound.reachable h
  refine ⟨hsound.counted, fun i call e next pointer hthread howner he =>
    hsound.inWindow hthread howner he, fun i n hn => ?_⟩
  obtain ⟨rfl, hup⟩ := hsound.pointers i n hn
  obtain ⟨address, hsession⟩ := Option.ne_none_iff_exists'.1 hup
  exact ⟨address, hsession, hsound.up address hsession⟩

end GcsChat
