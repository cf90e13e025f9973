import Mathlib.Tactic

/-!
# Labelled transition systems

Finite runs with their labels, reachable states, and the induction rules that carry a fact from
one step to a whole run. `restrict` keeps the steps that meet a condition, so a run of the
restricted system is a run all of whose steps meet it. A natural-number measure that every step
decreases bounds the length of every run and excludes infinite ones.
-/

universe u v

structure TransitionSystem (σ : Type u) (Λ : Type v) where
  initial : σ → Prop
  step : σ → Λ → σ → Prop

namespace TransitionSystem

variable {σ : Type u} {Λ : Type v} (S : TransitionSystem σ Λ)

inductive Run : σ → List Λ → σ → Prop
  | nil (s : σ) : Run s [] s
  | snoc {s t w : σ} {ls : List Λ} {l : Λ} : Run s ls t → S.step t l w → Run s (ls ++ [l]) w

def Reachable (s : σ) : Prop := ∃ s₀ ls, S.initial s₀ ∧ S.Run s₀ ls s

/-- The same system, allowed only the steps that meet the condition. -/
def restrict (P : σ → Λ → Prop) : TransitionSystem σ Λ where
  initial := S.initial
  step s l t := S.step s l t ∧ P s l

/-- Some infinite sequence of steps starts here. -/
def Diverges (s : σ) : Prop :=
  ∃ f : ℕ → σ, f 0 = s ∧ ∀ n, ∃ l, S.step (f n) l (f (n + 1))

variable {S}

theorem Run.single {s t : σ} {l : Λ} (h : S.step s l t) : S.Run s [l] t :=
  Run.snoc (Run.nil s) h

theorem Run.append {s t w : σ} {ls ms : List Λ} (h : S.Run s ls t) (h' : S.Run t ms w) :
    S.Run s (ls ++ ms) w := by
  induction h' with
  | nil => simpa using h
  | snoc _ hstep ih =>
      rw [← List.append_assoc]
      exact Run.snoc ih hstep

theorem Run.invariant {I : σ → Prop} (hstep : ∀ s l t, I s → S.step s l t → I t)
    {s t : σ} {ls : List Λ} (h : S.Run s ls t) (hs : I s) : I t := by
  induction h with
  | nil => exact hs
  | snoc _ hlast ih => exact hstep _ _ _ ih hlast

theorem Reachable.initial {s : σ} (h : S.initial s) : S.Reachable s := ⟨s, [], h, Run.nil s⟩

theorem Reachable.step {s t : σ} {l : Λ} (h : S.Reachable s) (hstep : S.step s l t) :
    S.Reachable t := by
  obtain ⟨s₀, ls, h₀, hrun⟩ := h
  exact ⟨s₀, ls ++ [l], h₀, hrun.snoc hstep⟩

theorem Reachable.run {s t : σ} {ls : List Λ} (h : S.Reachable s) (hrun : S.Run s ls t) :
    S.Reachable t := by
  obtain ⟨s₀, ms, h₀, hrun₀⟩ := h
  exact ⟨s₀, ms ++ ls, h₀, hrun₀.append hrun⟩

/-- A fact of the initial states that every step preserves holds in every reachable state. -/
theorem Reachable.invariant {I : σ → Prop} (hinit : ∀ s, S.initial s → I s)
    (hstep : ∀ s l t, I s → S.step s l t → I t) {s : σ} (h : S.Reachable s) : I s := by
  obtain ⟨s₀, ls, h₀, hrun⟩ := h
  exact hrun.invariant hstep (hinit s₀ h₀)

theorem Run.of_restrict {P : σ → Λ → Prop} {s t : σ} {ls : List Λ}
    (h : (S.restrict P).Run s ls t) : S.Run s ls t := by
  induction h with
  | nil => exact Run.nil s
  | snoc _ hstep ih => exact ih.snoc hstep.1

theorem Reachable.of_restrict {P : σ → Λ → Prop} {s : σ} (h : (S.restrict P).Reachable s) :
    S.Reachable s := by
  obtain ⟨s₀, ls, h₀, hrun⟩ := h
  exact ⟨s₀, ls, h₀, hrun.of_restrict⟩

theorem Run.restrict {P : σ → Λ → Prop} {s t : σ} {ls : List Λ} (h : S.Run s ls t)
    (hP : ∀ u, ∀ l ∈ ls, P u l) : (S.restrict P).Run s ls t := by
  induction h with
  | nil => exact Run.nil s
  | snoc _ hstep ih =>
      exact (ih fun u l hl => hP u l (List.mem_append_left _ hl)).snoc
        ⟨hstep, hP _ _ (List.mem_append_right _ List.mem_cons_self)⟩

theorem Run.restrict_of_forall {P Q : σ → Λ → Prop} {s t : σ} {ls : List Λ}
    (h : (S.restrict P).Run s ls t) (hPQ : ∀ u, ∀ l ∈ ls, P u l → Q u l) :
    (S.restrict Q).Run s ls t := by
  induction h with
  | nil => exact Run.nil s
  | snoc _ hstep ih =>
      exact (ih fun u l hl => hPQ u l (List.mem_append_left _ hl)).snoc
        ⟨hstep.1, hPQ _ _ (List.mem_append_right _ List.mem_cons_self) hstep.2⟩

/-- What the steps cost is paid by what they gain and by the measure they start from. -/
theorem Run.cost_add_measure_le {I : σ → Prop} {μ : σ → ℕ} {cost gain : Λ → ℕ}
    (hstep : ∀ s l t, I s → S.step s l t → I t ∧ cost l + μ t ≤ gain l + μ s)
    {s t : σ} {ls : List Λ} (h : S.Run s ls t) (hs : I s) :
    (ls.map cost).sum + μ t ≤ (ls.map gain).sum + μ s := by
  induction h with
  | nil => simp
  | snoc hrun hlast ih =>
      have hI := hrun.invariant (fun s l t hI hst => (hstep s l t hI hst).1) hs
      have hμ := (hstep _ _ _ hI hlast).2
      simp only [List.map_append, List.map_cons, List.map_nil, List.sum_append, List.sum_cons,
        List.sum_nil]
      omega

theorem Run.eq_of_nil {s t : σ} {ls : List Λ} (h : S.Run s ls t) (hls : ls = []) : s = t := by
  cases h with
  | nil => rfl
  | snoc _ _ => simp at hls

theorem Run.exists_first {s t : σ} {ls : List Λ} (h : S.Run s ls t) (hls : ls ≠ []) :
    ∃ l w ms, S.step s l w ∧ S.Run w ms t := by
  induction h with
  | nil => exact absurd rfl hls
  | @snoc u w ks l hrun hlast ih =>
      by_cases hks : ks = []
      · obtain rfl := hrun.eq_of_nil hks
        exact ⟨l, w, [], hlast, Run.nil w⟩
      · obtain ⟨l', w', ms, hfirst, hrest⟩ := ih hks
        exact ⟨l', w', ms ++ [l], hfirst, hrest.snoc hlast⟩

/-- A run with its states written down. -/
structure Path (S : TransitionSystem σ Λ) where
  length : ℕ
  state : ℕ → σ
  label : ℕ → Λ
  step : ∀ i < length, S.step (state i) (label i) (state (i + 1))

theorem Path.reachable (p : Path S) (h : S.Reachable (p.state 0)) {n : ℕ} (hn : n ≤ p.length) :
    S.Reachable (p.state n) := by
  induction n with
  | zero => exact h
  | succ n ih => exact (ih (by omega)).step (p.step n hn)

def Path.single {s t : σ} {l : Λ} (h : S.step s l t) : Path S where
  length := 1
  state
    | 0 => s
    | _ + 1 => t
  label _ := l
  step i hi := by
    obtain rfl : i = 0 := by omega
    exact h

def Path.snoc (p : Path S) {l : Λ} {t : σ} (h : S.step (p.state p.length) l t) : Path S where
  length := p.length + 1
  state i := if i ≤ p.length then p.state i else t
  label i := if i < p.length then p.label i else l
  step i hi := by
    rcases Nat.lt_succ_iff_lt_or_eq.1 hi with hlt | rfl
    · rw [if_pos hlt.le, if_pos hlt, if_pos (Nat.succ_le_iff.2 hlt)]
      exact p.step i hlt
    · rw [if_pos le_rfl, if_neg (lt_irrefl _), if_neg (by omega)]
      exact h

/-- The path `q` goes on where `p` ends, over the labels `ls` to `t`, by steps that meet the condition. -/
structure Path.Extends (p q : Path S) (P : σ → Λ → Prop) (ls : List Λ) (t : σ) : Prop where
  length : q.length = p.length + ls.length
  state : ∀ n ≤ p.length, q.state n = p.state n
  label : ∀ n < p.length, q.label n = p.label n
  last : q.state q.length = t
  allowed : ∀ n < q.length, p.length ≤ n → P (q.state n) (q.label n)
  sum : ∀ f : Λ → ℕ, ∑ n ∈ Finset.range q.length, f (q.label n) =
    ∑ n ∈ Finset.range p.length, f (p.label n) + (ls.map f).sum

theorem Path.exists_extends (p : Path S) {P : σ → Λ → Prop} {s t : σ} {ls : List Λ}
    (h : (S.restrict P).Run s ls t) (hs : p.state p.length = s) : ∃ q, p.Extends q P ls t := by
  induction h with
  | nil =>
      refine ⟨p, rfl, fun _ _ => rfl, fun _ _ => rfl, hs, fun n hn hle => ?_, fun _ => rfl⟩
      exact absurd hn (Nat.not_lt_of_le hle)
  | @snoc w t ls l _ hlast ih =>
      obtain ⟨q, hq⟩ := ih
      have hstep : S.step (q.state q.length) l t := by
        rw [hq.last]
        exact hlast.1
      have hlength := hq.length
      refine ⟨q.snoc hstep, ?_, fun n hn => ?_, fun n hn => ?_, ?_, fun n hn hle => ?_, fun f => ?_⟩
      · change q.length + 1 = _
        rw [List.length_append, hlength]
        rfl
      · exact (if_pos (by omega)).trans (hq.state n hn)
      · exact (if_pos (by omega)).trans (hq.label n hn)
      · exact if_neg (Nat.not_succ_le_self _)
      · change P (if n ≤ q.length then q.state n else t) (if n < q.length then q.label n else l)
        rcases Nat.lt_succ_iff_lt_or_eq.1 hn with hlt | rfl
        · rw [if_pos hlt.le, if_pos hlt]
          exact hq.allowed n hlt hle
        · rw [if_pos le_rfl, if_neg (lt_irrefl _), hq.last]
          exact hlast.2
      · change ∑ n ∈ Finset.range (q.length + 1), f (if n < q.length then q.label n else l) = _
        have hbefore : ∑ n ∈ Finset.range q.length, f (if n < q.length then q.label n else l) =
            ∑ n ∈ Finset.range q.length, f (q.label n) :=
          Finset.sum_congr rfl fun n hn => by rw [if_pos (Finset.mem_range.1 hn)]
        rw [Finset.sum_range_succ, hbefore, hq.sum, if_neg (lt_irrefl _), List.map_append,
          List.sum_append, ← Nat.add_assoc]
        rfl

theorem Path.forall_le_iff (p : Path S) {R : σ → σ → Prop} {P : σ → Λ → Prop}
    (hrefl : ∀ s, R s s) (htrans : ∀ s t w, R s t → R t w → R s w)
    (hstep : ∀ s l t, S.step s l t → (R s t ↔ P s l)) :
    (∀ i j, i ≤ j → j ≤ p.length → R (p.state i) (p.state j)) ↔
      ∀ i < p.length, P (p.state i) (p.label i) := by
  constructor
  · intro h i hi
    exact (hstep _ _ _ (p.step i hi)).1 (h i (i + 1) (Nat.le_succ i) hi)
  · intro h i j hij
    induction j, hij using Nat.le_induction with
    | base => exact fun _ => hrefl _
    | succ j _ ih =>
        intro hj
        exact htrans _ _ _ (ih (by omega)) ((hstep _ _ _ (p.step j hj)).2 (h j hj))

/-- States from which one can always move on to another such state give an infinite run. -/
theorem diverges_of_progress {Q : σ → Prop}
    (hQ : ∀ s, Q s → ∃ ls t, ls ≠ [] ∧ S.Run s ls t ∧ Q t) {s : σ} (hs : Q s) : S.Diverges s := by
  have hnext : ∀ w : {w // ∃ ls t, S.Run w ls t ∧ Q t},
      ∃ w' : {w // ∃ ls t, S.Run w ls t ∧ Q t}, ∃ l, S.step w.1 l w'.1 := by
    rintro ⟨w, ls, t, hrun, ht⟩
    by_cases hls : ls = []
    · obtain rfl := hrun.eq_of_nil hls
      obtain ⟨ms, u, hms, hmrun, hu⟩ := hQ w ht
      obtain ⟨l, w', ks, hfirst, hrest⟩ := hmrun.exists_first hms
      exact ⟨⟨w', ks, u, hrest, hu⟩, l, hfirst⟩
    · obtain ⟨l, w', ks, hfirst, hrest⟩ := hrun.exists_first hls
      exact ⟨⟨w', ks, t, hrest, ht⟩, l, hfirst⟩
  choose next hstep using hnext
  refine ⟨fun n => (next^[n] ⟨s, [], s, Run.nil s, hs⟩).1, rfl, fun n => ?_⟩
  simp only [Function.iterate_succ_apply']
  exact hstep _

theorem not_diverges_of_measure {I : σ → Prop} {μ : σ → ℕ}
    (hstep : ∀ s l t, I s → S.step s l t → I t ∧ μ t < μ s) {s : σ} (hs : I s) :
    ¬ S.Diverges s := by
  rintro ⟨f, rfl, hf⟩
  have hbound : ∀ n, I (f n) ∧ n + μ (f n) ≤ μ (f 0) := by
    intro n
    induction n with
    | zero => exact ⟨hs, by omega⟩
    | succ n ih =>
        obtain ⟨l, hl⟩ := hf n
        obtain ⟨hI, hμ⟩ := hstep _ _ _ ih.1 hl
        exact ⟨hI, by omega⟩
  have := (hbound (μ (f 0) + 1)).2
  omega

end TransitionSystem
