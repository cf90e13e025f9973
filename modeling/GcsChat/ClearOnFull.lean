import Mathlib.Data.Finset.Card
import Mathlib.Data.Finset.Image
import Mathlib.Tactic

/-!
# Bounded sets that are cleared when full

A set with a capacity that makes room by forgetting everything: `enter` empties a full set and
then inserts, `touch` does so only for an element that is not held. As long as the elements seen
since the start fit the capacity nothing is forgotten. A sequence whose windows of one more than
the capacity are distinct defeats the set: every access is a miss.
-/

namespace ClearOnFull

variable {α : Type*} [DecidableEq α] (cap : ℕ)

def makeRoom (s : Finset α) : Finset α := if cap ≤ s.card then ∅ else s

/-- Clear when full, then insert. -/
def enter (s : Finset α) (x : α) : Finset α := insert x (makeRoom cap s)

/-- Admit an element unless it is held already. -/
def touch (s : Finset α) (x : α) : Finset α := if x ∈ s then s else enter cap s x

def enterAll (s : Finset α) (xs : List α) : Finset α := xs.foldl (enter cap) s

variable {cap}

@[simp] theorem mem_enter_self (s : Finset α) (x : α) : x ∈ enter cap s x :=
  Finset.mem_insert_self _ _

@[simp] theorem mem_touch_self (s : Finset α) (x : α) : x ∈ touch cap s x := by
  unfold touch
  split_ifs with h
  · exact h
  · exact mem_enter_self s x

omit [DecidableEq α] in
theorem makeRoom_subset (s : Finset α) : makeRoom cap s ⊆ s := by
  unfold makeRoom
  split_ifs
  · exact Finset.empty_subset s
  · exact Finset.Subset.refl s

theorem enter_subset (s : Finset α) (x : α) : enter cap s x ⊆ insert x s :=
  Finset.insert_subset_insert x (makeRoom_subset s)

theorem enter_of_card_lt {s : Finset α} (h : s.card < cap) (x : α) :
    enter cap s x = insert x s := by
  rw [enter, makeRoom, if_neg (not_le.2 h)]

theorem enter_of_full {s : Finset α} (h : cap ≤ s.card) (x : α) : enter cap s x = {x} := by
  rw [enter, makeRoom, if_pos h, insert_empty_eq]

theorem touch_of_mem {s : Finset α} {x : α} (h : x ∈ s) : touch cap s x = s := if_pos h

theorem touch_of_notMem {s : Finset α} {x : α} (h : x ∉ s) : touch cap s x = enter cap s x :=
  if_neg h

theorem card_enter_le (hcap : 0 < cap) (s : Finset α) (x : α) : (enter cap s x).card ≤ cap := by
  by_cases h : s.card < cap
  · rw [enter_of_card_lt h]
    exact (Finset.card_insert_le x s).trans h
  · rw [enter_of_full (not_lt.1 h), Finset.card_singleton]
    exact hcap

theorem touch_of_card_insert_le {s : Finset α} {x : α} (h : (insert x s).card ≤ cap) :
    touch cap s x = insert x s := by
  by_cases hx : x ∈ s
  · rw [touch_of_mem hx, Finset.insert_eq_of_mem hx]
  · rw [touch_of_notMem hx, enter_of_card_lt]
    rw [Finset.card_insert_of_notMem hx] at h
    exact h

theorem enter_of_card_insert_lt {s : Finset α} {x : α} (h : (insert x s).card < cap) :
    enter cap s x = insert x s :=
  enter_of_card_lt ((Finset.card_le_card (Finset.subset_insert x s)).trans_lt h) x

theorem enterAll_subset (s : Finset α) (xs : List α) : enterAll cap s xs ⊆ s ∪ xs.toFinset := by
  induction xs generalizing s with
  | nil => simp [enterAll]
  | cons x xs ih =>
      have hstep := ih (enter cap s x)
      have hx : enter cap s x ⊆ insert x s := enter_subset s x
      simp only [enterAll, List.foldl_cons, List.toFinset_cons] at hstep ⊢
      refine hstep.trans fun y hy => ?_
      simp only [Finset.mem_union, Finset.mem_insert] at hy ⊢
      rcases hy with hy | hy
      · rcases Finset.mem_insert.1 (hx hy) with h | h
        · exact Or.inr (Or.inl h)
        · exact Or.inl h
      · exact Or.inr (Or.inr hy)

theorem enterAll_of_card_lt {s : Finset α} {xs : List α} (h : (s ∪ xs.toFinset).card < cap) :
    enterAll cap s xs = s ∪ xs.toFinset := by
  induction xs generalizing s with
  | nil => simp [enterAll]
  | cons x xs ih =>
      have hun : insert x s ∪ xs.toFinset = s ∪ (x :: xs).toFinset := by
        rw [List.toFinset_cons, Finset.union_insert, Finset.insert_union]
      have hle : (insert x s).card < cap :=
        (Finset.card_le_card (Finset.subset_union_left.trans hun.subset)).trans_lt h
      rw [← hun] at h ⊢
      rw [← ih h, enterAll, List.foldl_cons, enter_of_card_insert_lt hle]
      rfl

theorem enterAll_append (s : Finset α) (xs ys : List α) :
    enterAll cap s (xs ++ ys) = enterAll cap (enterAll cap s xs) ys := List.foldl_append

theorem card_enterAll_le (hcap : 0 < cap) {s : Finset α} (hs : s.card ≤ cap) (xs : List α) :
    (enterAll cap s xs).card ≤ cap := by
  induction xs generalizing s with
  | nil => exact hs
  | cons x xs ih => exact ih (card_enter_le hcap s x)

omit [DecidableEq α] in
theorem card_makeRoom_lt (hcap : 0 < cap) (s : Finset α) : (makeRoom cap s).card < cap := by
  unfold makeRoom
  split_ifs with h
  · exact hcap
  · exact not_le.1 h

omit [DecidableEq α] in
theorem makeRoom_of_card_lt {s : Finset α} (h : s.card < cap) : makeRoom cap s = s :=
  if_neg (not_le.2 h)

theorem enter_makeRoom (hcap : 0 < cap) (s : Finset α) (x : α) :
    enter cap (makeRoom cap s) x = enter cap s x := by
  rw [enter, makeRoom_of_card_lt (card_makeRoom_lt hcap s), enter]

/-- An element that does not come again survives as long as the set does not fill up before the
last one is admitted. -/
theorem mem_enterAll_iff_of_notMem {s : Finset α} {x : α} {xs : List α} (hx : x ∈ s)
    (hxs : x ∉ xs) :
    x ∈ enterAll cap s xs ↔ xs = [] ∨ (s ∪ xs.dropLast.toFinset).card < cap := by
  induction xs generalizing s with
  | nil => exact iff_of_true hx (.inl rfl)
  | cons y ys ih =>
      have hne : x ≠ y := fun h => hxs (h ▸ List.mem_cons_self)
      have hys : x ∉ ys := fun h => hxs (List.mem_cons_of_mem y h)
      have hle : s.card ≤ (s ∪ (y :: ys).dropLast.toFinset).card :=
        Finset.card_le_card Finset.subset_union_left
      rw [enterAll, List.foldl_cons, or_iff_right (List.cons_ne_nil y ys)]
      by_cases hfull : s.card < cap
      · rw [enter_of_card_lt hfull]
        refine (ih (Finset.mem_insert_of_mem hx) hys).trans ?_
        cases ys with
        | nil => simpa using hfull
        | cons z zs =>
            rw [or_iff_right (List.cons_ne_nil z zs), List.dropLast_cons_of_ne_nil
              (List.cons_ne_nil z zs), List.toFinset_cons, Finset.union_insert,
              Finset.insert_union]
      · rw [enter_of_full (not_lt.1 hfull)]
        refine iff_of_false (fun hmem => ?_) fun h => hfull (hle.trans_lt h)
        have hsub : x ∈ {y} ∪ ys.toFinset := enterAll_subset _ _ hmem
        simp only [Finset.mem_union, Finset.mem_singleton, List.mem_toFinset] at hsub
        exact hsub.elim hne hys

/-- A batch is held as a whole exactly when no element that does not come again in it is followed
by enough others to fill the set before the last one is admitted. -/
theorem forall_mem_enterAll_iff (hcap : 0 < cap) (s : Finset α) (xs : List α) :
    (∀ x ∈ xs, x ∈ enterAll cap s xs) ↔
      ∀ early x late, xs = early ++ x :: late → x ∉ late →
        (makeRoom cap (enterAll cap s early) ∪ (x :: late).dropLast.toFinset).card < cap := by
  have hcut : ∀ early x late, xs = early ++ x :: late → x ∉ late →
      (x ∈ enterAll cap s xs ↔
        (makeRoom cap (enterAll cap s early) ∪ (x :: late).dropLast.toFinset).card < cap) := by
    rintro early x late rfl hlate
    rw [enterAll_append, enterAll, List.foldl_cons]
    refine (mem_enterAll_iff_of_notMem (mem_enter_self _ x) hlate).trans ?_
    cases late with
    | nil => simpa using card_makeRoom_lt hcap _
    | cons y ys =>
        rw [or_iff_right (List.cons_ne_nil y ys), List.dropLast_cons_of_ne_nil
          (List.cons_ne_nil y ys), List.toFinset_cons, Finset.union_insert, enter,
          Finset.insert_union]
  constructor
  · intro h early x late hxs hlate
    apply (hcut early x late hxs hlate).1
    exact h x (hxs ▸ List.mem_append_right early List.mem_cons_self)
  · intro h x hx
    obtain ⟨late, early, hsplit, hlate⟩ :=
      List.eq_append_cons_of_mem (List.mem_reverse.2 hx)
    have hxs : xs = early.reverse ++ x :: late.reverse := by
      have := congrArg List.reverse hsplit
      simpa using this
    have hnot : x ∉ late.reverse := fun hmem => hlate (List.mem_reverse.1 hmem)
    exact (hcut _ x _ hxs hnot).2 (h _ x _ hxs hnot)

theorem enterAll_of_card_dropLast_lt {s : Finset α} {xs : List α}
    (h : (s ∪ xs.dropLast.toFinset).card < cap) : enterAll cap s xs = s ∪ xs.toFinset := by
  rcases List.eq_nil_or_concat xs with rfl | ⟨ys, y, rfl⟩
  · simp [enterAll]
  · rw [List.concat_eq_append, List.dropLast_concat] at h
    rw [List.concat_eq_append, enterAll_append, enterAll_of_card_lt h, enterAll, List.foldl_cons,
      List.foldl_nil, enter_of_card_lt h, List.toFinset_append, ← Finset.union_assoc]
    simp

theorem forall_mem_enterAll_iff_of_nodup (hcap : 0 < cap) (s : Finset α) {xs : List α}
    (hxs : xs.Nodup) :
    (∀ x ∈ xs, x ∈ enterAll cap s xs) ↔
      (makeRoom cap s ∪ xs.dropLast.toFinset).card < cap := by
  cases xs with
  | nil =>
      refine iff_of_true (fun x hx => absurd hx List.not_mem_nil) ?_
      simpa using card_makeRoom_lt hcap s
  | cons x xs =>
      constructor
      · intro h
        exact (forall_mem_enterAll_iff hcap s (x :: xs)).1 h [] x xs rfl
          (List.nodup_cons.1 hxs).1
      · intro h y hy
        have hsame : enterAll cap s (x :: xs) = enterAll cap (makeRoom cap s) (x :: xs) := by
          rw [enterAll, List.foldl_cons, enterAll, List.foldl_cons, enter_makeRoom hcap]
        rw [hsame, enterAll_of_card_dropLast_lt h]
        exact Finset.mem_union_right _ (List.mem_toFinset.2 hy)

section Recent

variable (a : ℕ → α)

/-- The last `r` of the first `n` accesses. -/
def recent (n r : ℕ) : Finset α := (Finset.Ico (n - r) n).image a

def DistinctWindows (cap : ℕ) : Prop := ∀ i j, i < j → j ≤ i + cap → a i ≠ a j

variable {a}

theorem card_recent (h : DistinctWindows a cap) {n r : ℕ} (hn : r ≤ n) (hr : r ≤ cap) :
    (recent a n r).card = r := by
  have hinj : Set.InjOn a (Finset.Ico (n - r) n : Finset ℕ) := by
    intro i hi j hj he
    simp only [Finset.coe_Ico, Set.mem_Ico] at hi hj
    rcases lt_trichotomy i j with hlt | heq | hlt
    · exact absurd he (h i j hlt (by omega))
    · exact heq
    · exact absurd he.symm (h j i hlt (by omega))
  rw [recent, Finset.card_image_of_injOn hinj, Nat.card_Ico]
  omega

theorem notMem_recent (h : DistinctWindows a cap) {n r : ℕ} (hr : r ≤ cap) :
    a n ∉ recent a n r := by
  simp only [recent, Finset.mem_image, Finset.mem_Ico, not_exists, not_and]
  intro j hj
  exact h j n hj.2 (by omega)

/-- The set always holds exactly a run of the latest accesses, too short for the next one. -/
theorem enter_recent (hcap : 0 < cap) (h : DistinctWindows a cap) {n r : ℕ} (hn : r ≤ n)
    (hr : r ≤ cap) :
    ∃ r', r' ≤ n + 1 ∧ r' ≤ cap ∧ enter cap (recent a n r) (a n) = recent a (n + 1) r' := by
  have hcard := card_recent h hn hr
  by_cases hfull : r = cap
  · refine ⟨1, by omega, hcap, ?_⟩
    rw [enter_of_full (by omega), recent, Nat.add_sub_cancel, Nat.Ico_succ_singleton,
      Finset.image_singleton]
  · refine ⟨r + 1, by omega, by omega, ?_⟩
    have hico : Finset.Ico (n + 1 - (r + 1)) (n + 1) = insert n (Finset.Ico (n - r) n) := by
      ext i
      simp only [Finset.mem_Ico, Finset.mem_insert]
      omega
    rw [enter_of_card_lt (by omega), recent, recent, hico, Finset.image_insert]

end Recent

end ClearOnFull
