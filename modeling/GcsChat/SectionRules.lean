import GcsChat.FfiProcess
import GcsChat.Typestate

/-!
# What `g_mutex` keeps

A rule says what holds of all that `g_mutex` guards, and what each call may ask for. A call that takes
the mutex relies on the first and restores it before it gives the mutex back. Once every call alone
keeps the rule, so does the process, over any interleaving.
-/

namespace GcsChat

open ByteString Interactive

/-- What is guarded, what a call may ask for, and what the ids and the times it gets are. -/
structure SectionRule where
  guards : Globals → Prop
  asks : FfiCall → Effect Globals → Prop
  id : Bytes → Prop
  time : ℤ → Prop

namespace SectionRule

variable (R : SectionRule)

def Relies : (e : Effect Globals) → e.Answer → Prop
  | .lock, g => R.guards g
  | .nextId _, id => R.id id
  | .nowMs, now => R.time now
  | _, _ => True

def Restores : Effect Globals → Prop
  | .unlock g => R.guards g
  | _ => True

def discipline (call : FfiCall) : Discipline (Effect Globals) Effect.Answer Unit where
  allows _ e := R.asks call e ∧ R.Restores e
  possible _ e a := R.Relies e a
  after _ _ _ := ()

/-- The program keeps the rule of the call, and ends as `Q` says. -/
def Keeps {α : Type} (call : FfiCall) (p : Program Globals α) (Q : α → Prop) : Prop :=
  p.Follows (R.discipline call) () fun a _ => Q a

variable {R} {call : FfiCall} {α β : Type} {Q : α → Prop}

theorem keeps_ask {e : Effect Globals} {next : e.Answer → Program Globals α}
    (he : R.asks call e ∧ R.Restores e) (hnext : ∀ a, R.Relies e a → R.Keeps call (next a) Q) :
    R.Keeps call (ask e next) Q := ⟨he, hnext⟩

theorem Keeps.bind {P : β → Prop} {p : Program Globals β} {f : β → Program Globals α}
    (hp : R.Keeps call p P) (hf : ∀ b, P b → R.Keeps call (f b) Q) : R.Keeps call (p >>= f) Q :=
  Follows.bind hp fun b _ hb => hf b hb

/-- A program that leaves the mutex alone has nothing to restore. -/
theorem keeps_of_asksOnly {P : Effect Globals → Prop} {p : Program Globals α} (hp : p.AsksOnly P)
    (hP : ∀ e, P e → R.asks call e ∧ R.Restores e) : R.Keeps call p fun _ => True :=
  (follows_of_asksOnly hp fun e he => ⟨hP e he, fun _ => rfl⟩).mono fun _ _ _ => trivial

variable (R) in
/-- Each call of the core keeps the rule, whenever it may start. -/
structure Sound (C : Core) : Prop where
  fresh : ∀ n, R.guards { Globals.fresh with inFlight := n }
  locked : ∀ g tearingDown call, R.guards g →
    R.Keeps call (C.locked g tearingDown call) fun _ => True
  greet : ∀ g call, R.guards g → R.Keeps call (Core.greet g) fun _ => True
  giveBack : ∀ g call result, R.guards g → R.Keeps call (giveBack g result) fun _ => True
  callback : ∀ call, R.Keeps call (C.callback call) fun _ => True

end SectionRule

def FfiThread.Obeys (R : SectionRule) : FfiThread → Prop
  | running call program _ => R.Keeps call program fun _ => True
  | _ => True

namespace FfiProcess

variable {ι : Type} {R : SectionRule} {C : Core}

structure Obeys (R : SectionRule) (s : FfiProcess ι) : Prop where
  globals : R.guards s.globals
  threads : ∀ i, (s.threads i).Obeys R

/-- The ids that are minted and the times of the clock are as the rule says. -/
def Supplies (R : SectionRule) (_ : FfiProcess ι) : FfiStep ι → Prop
  | .answer _ (.nextId _) id => R.id id
  | .answer _ .nowMs now => R.time now
  | _ => True

theorem Obeys.initial (hR : R.Sound C) {s : FfiProcess ι} (h : ∃ nodeUp, s = .fresh ι nodeUp) :
    s.Obeys R := by
  obtain ⟨nodeUp, rfl⟩ := h
  exact ⟨hR.fresh 0, fun _ => trivial⟩

theorem Obeys.rest {s : FfiProcess ι} (h : s.Obeys R) {i : ι} {call : FfiCall}
    {program : Program Globals FfiResult} {pointer : Option ℕ}
    (hthread : s.threads i = .running call program pointer) :
    R.Keeps call program fun _ => True := by
  have hkeeps := h.threads i
  rw [hthread] at hkeeps
  exact hkeeps

variable [DecidableEq ι] {s s' : FfiProcess ι}

/-- One thread goes on, with what is guarded still as it was or restored. -/
theorem Obeys.set {u : FfiProcess ι} (h : s.Obeys R) (hthreads : u.threads = s.threads)
    (hglobals : R.guards u.globals) {i : ι} {t : FfiThread} (ht : t.Obeys R) :
    (u.set i t).Obeys R := by
  refine ⟨hglobals, fun j => ?_⟩
  by_cases hji : j = i
  · subst hji
    rw [set_threads_self]
    exact ht
  · rw [set_threads_of_ne _ _ hji, hthreads]
    exact h.threads j

theorem Obeys.evict (h : s.Obeys R) (hR : R.Sound C) (i : ι) (handle : Handle) :
    (s.evict i handle).Obeys R := by
  unfold FfiProcess.evict
  split
  · apply h.set
    · rfl
    · exact h.globals
    · exact trivial
  · apply h.set
    · rfl
    · exact hR.fresh _
    · exact trivial

theorem Obeys.enter (h : s.Obeys R) (hR : R.Sound C) (i : ι) (call : FfiCall) :
    (s.enter C i call).Obeys R := by
  have hidle : (s.set i .idle).Obeys R := h.set rfl h.globals trivial
  have hlocked := fun call => hR.locked s.globals s.tearingDown call h.globals
  cases call with
  | shutdown handle =>
      cases handle with
      | none => exact hidle
      | some handle =>
          rw [FfiProcess.enter]
          split_ifs
          · exact h.evict hR i handle
          · apply h.set
            · rfl
            · exact h.globals
            · exact trivial
          · exact hidle
  | subscribe handle topic dartPort =>
      cases handle with
      | none => exact hidle
      | some handle =>
          cases topic with
          | none => exact hidle
          | some topic =>
              rw [FfiProcess.enter]
              split_ifs
              · apply h.set
                · rfl
                · exact h.globals
                · exact trivial
              · exact hidle
  | _ =>
      apply h.set
      · rfl
      · exact h.globals
      · exact hlocked _

theorem Obeys.step (h : s.Obeys R) (hR : R.Sound C) {l : FfiStep ι}
    (hstep : (ffiSystem C ι).step s l s') (hl : s.Supplies R l) : s'.Obeys R := by
  cases l with
  | call i call =>
      obtain ⟨-, hcall⟩ := hstep
      cases call with
      | live n topic data =>
          obtain ⟨-, rfl⟩ := hcall
          apply h.set
          · rfl
          · exact h.globals
          · exact hR.callback _
      | heal n key value =>
          obtain ⟨-, -, rfl⟩ := hcall
          apply h.set
          · rfl
          · exact h.globals
          · exact hR.callback _
      | _ =>
          obtain rfl := hcall
          apply h.set
          · rfl
          · exact h.globals
          · exact trivial
  | enter i =>
      obtain ⟨call, -, -, rfl⟩ := hstep
      exact h.enter hR i call
  | subscribed i running =>
      obtain ⟨handle, topic, dartPort, -, rfl⟩ := hstep
      cases running with
      | true =>
          apply h.set
          · rfl
          · exact h.globals
          · exact hR.greet _ _ h.globals
      | false =>
          apply h.set
          · rfl
          · exact h.globals
          · exact hR.giveBack _ _ _ h.globals
  | lock i =>
      obtain ⟨call, next, pointer, hthread, -, rfl⟩ := hstep
      apply h.set
      · rfl
      · exact h.globals
      · exact (h.rest hthread).2 s.globals h.globals
  | unlock i =>
      obtain ⟨call, g, next, pointer, pointer', hthread, -, -, rfl⟩ := hstep
      obtain ⟨⟨-, hg⟩, hnext⟩ := h.rest hthread
      refine h.set (release_threads s g) ?_ (hnext () trivial)
      rw [release_globals]
      exact hg
  | answer i e a =>
      obtain ⟨call, next, pointer, hthread, hanswers, rfl⟩ := hstep
      have halike := alike_answered (s := s) pointer e a
      have hrelies : R.Relies e a := by
        cases e with
        | lock => exact hanswers.elim
        | nextId idPrefix => exact hl
        | nowMs => exact hl
        | _ => trivial
      refine h.set halike.threads ?_ ((h.rest hthread).2 a hrelies)
      rw [halike.globals]
      exact h.globals
  | finish i =>
      obtain ⟨call, result, pointer, -, rfl⟩ := hstep
      apply h.set
      · rfl
      · exact h.globals
      · exact trivial
  | drained i =>
      obtain ⟨handle, -, -, -, rfl⟩ := hstep
      exact h.evict hR i handle
  | teardown i =>
      obtain ⟨handle, work, -, -, rfl⟩ := hstep
      have halike := alike_destroyed (s := s) work
      refine h.set halike.threads ?_ ?_
      · rw [halike.globals]
        exact h.globals
      · split <;> trivial
  | take n =>
      obtain ⟨item, rest, -, -, -, rfl⟩ := hstep
      exact ⟨h.globals, h.threads⟩
  | handOver n =>
      obtain ⟨item, -, rfl⟩ := hstep
      exact ⟨h.globals, h.threads⟩
  | workerReturn n =>
      obtain ⟨-, -, -, -, rfl⟩ := hstep
      exact ⟨h.globals, h.threads⟩

/-- In any interleaving the guarded state is as the rule says, and no call breaks it. -/
theorem Obeys.of_reachable (hR : R.Sound C)
    (h : ((ffiSystem C ι).restrict (Supplies R)).Reachable s) : s.Obeys R :=
  h.invariant (I := fun s => s.Obeys R) (fun _ h₀ => .initial hR h₀)
    fun _ _ _ hu hstep => hu.step hR hstep.1 hstep.2

end FfiProcess

end GcsChat
