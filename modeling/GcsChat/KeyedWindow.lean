import Mathlib.Data.List.DropRight
import Mathlib.Tactic.SplitIfs

/-!
# The window of a list updated by key

A list is updated in place by key, and a holder keeps its last `n` entries only. Updating the window
is updating the list, except when the entry to replace is no longer in the window.
-/

namespace KeyedWindow

section Window

variable {α : Type*} {n : ℕ} {l r : List α}

theorem length_rtake (l : List α) (n : ℕ) : (l.rtake n).length = min n l.length := by
  rw [List.rtake, List.length_drop]
  omega

theorem rdrop_append_rtake (l : List α) (n : ℕ) : l.rdrop n ++ l.rtake n = l :=
  List.take_append_drop _ _

theorem rtake_of_length_le (h : l.length ≤ n) : l.rtake n = l := by
  rw [List.rtake, Nat.sub_eq_zero_of_le h, List.drop_zero]

theorem rtake_append_of_le_length (l : List α) (h : n ≤ r.length) :
    (l ++ r).rtake n = r.rtake n := by
  have hcut : (l ++ r).length - n = l.length + (r.length - n) := by
    rw [List.length_append]
    omega
  rw [List.rtake, hcut, List.drop_length_add_append, List.rtake]

theorem rtake_rtake_append (l r : List α) (n : ℕ) : (l.rtake n ++ r).rtake n = (l ++ r).rtake n := by
  by_cases hlong : n ≤ l.length
  · have hsplit : l ++ r = l.rdrop n ++ (l.rtake n ++ r) := by
      rw [← List.append_assoc, rdrop_append_rtake]
    have hfull : n ≤ (l.rtake n ++ r).length := by
      rw [List.length_append, length_rtake]
      omega
    rw [hsplit, rtake_append_of_le_length _ hfull]
  · rw [rtake_of_length_le (Nat.le_of_not_le hlong)]

theorem length_rtake_of_rdrop_ne_nil (h : l.rdrop n ≠ []) : (l.rtake n).length = n := by
  rw [length_rtake]
  apply Nat.min_eq_left
  by_contra hshort
  apply h
  rw [List.rdrop, Nat.sub_eq_zero_of_le (Nat.le_of_not_le hshort), List.take_zero]

end Window

section Upsert

variable {α κ : Type*} [DecidableEq κ] (key : α → κ) {x : α} {l r : List α} {n : ℕ}

/-- Replaces the first entry with the key of `x`, or adds `x` at the end. -/
def upsertOn (x : α) : List α → List α
  | [] => [x]
  | y :: rest => if key y = key x then x :: rest else y :: upsertOn x rest

variable {key}

theorem upsertOn_of_new (h : key x ∉ l.map key) : upsertOn key x l = l ++ [x] := by
  induction l with
  | nil => rfl
  | cons y rest ih =>
      rw [List.map_cons, List.mem_cons, not_or] at h
      rw [upsertOn, if_neg (Ne.symm h.1), ih h.2, List.cons_append]

theorem upsertOn_append_of_new (h : key x ∉ l.map key) :
    upsertOn key x (l ++ r) = l ++ upsertOn key x r := by
  induction l with
  | nil => rfl
  | cons y rest ih =>
      rw [List.map_cons, List.mem_cons, not_or] at h
      rw [List.cons_append, upsertOn, if_neg (Ne.symm h.1), ih h.2, List.cons_append]

theorem upsertOn_append_of_known (h : key x ∈ l.map key) :
    upsertOn key x (l ++ r) = upsertOn key x l ++ r := by
  induction l with
  | nil => exact absurd h List.not_mem_nil
  | cons y rest ih =>
      rw [List.cons_append, upsertOn, upsertOn]
      split_ifs with hy
      · rfl
      · rw [ih ((List.mem_cons.1 h).resolve_left (Ne.symm hy)), List.cons_append]

theorem map_key_upsertOn (h : key x ∈ l.map key) : (upsertOn key x l).map key = l.map key := by
  induction l with
  | nil => exact absurd h List.not_mem_nil
  | cons y rest ih =>
      rw [upsertOn]
      split_ifs with hy
      · rw [List.map_cons, List.map_cons, hy]
      · rw [List.map_cons, List.map_cons, ih ((List.mem_cons.1 h).resolve_left (Ne.symm hy))]

theorem length_upsertOn (h : key x ∈ l.map key) : (upsertOn key x l).length = l.length := by
  rw [← List.length_map key, map_key_upsertOn h, List.length_map]

theorem length_le_upsertOn : l.length ≤ (upsertOn key x l).length := by
  by_cases h : key x ∈ l.map key
  · exact (length_upsertOn h).ge
  · rw [upsertOn_of_new h, List.length_append]
    exact Nat.le_add_right _ _

theorem upsertOn_eq_self_iff (h : key x ∈ l.map key) :
    upsertOn key x l = l ↔ l.find? (fun y => key y = key x) = some x := by
  induction l with
  | nil => exact absurd h List.not_mem_nil
  | cons y rest ih =>
      rw [upsertOn, List.find?_cons]
      split_ifs with hy
      · simp only [hy, decide_true, List.cons.injEq, and_true, Option.some.injEq]
        exact eq_comm
      · simp only [hy, decide_false, List.cons.injEq, true_and]
        exact ih ((List.mem_cons.1 h).resolve_left (Ne.symm hy))

/-- No entry with the key of `x` was dropped from the window, or the window shows `x` already. -/
def Showable (key : α → κ) (n : ℕ) (x : α) (l : List α) : Prop :=
  key x ∉ (l.rdrop n).map key ∨ (l.rtake n).find? (fun y => key y = key x) = some x

theorem rtake_upsertOn_of_dropped (h : key x ∈ (l.rdrop n).map key) :
    (upsertOn key x l).rtake n = l.rtake n := by
  have hfull : (l.rtake n).length = n := by
    apply length_rtake_of_rdrop_ne_nil
    rintro hnil
    rw [hnil] at h
    exact List.not_mem_nil h
  calc (upsertOn key x l).rtake n
      = (upsertOn key x (l.rdrop n ++ l.rtake n)).rtake n := by rw [rdrop_append_rtake]
    _ = (l.rtake n).rtake n := by
        rw [upsertOn_append_of_known h, rtake_append_of_le_length _ hfull.ge]
    _ = l.rtake n := rtake_of_length_le hfull.le

theorem rtake_upsertOn_of_not_dropped (h : key x ∉ (l.rdrop n).map key) :
    (upsertOn key x l).rtake n = (upsertOn key x (l.rtake n)).rtake n := by
  have hsplit : upsertOn key x l = l.rdrop n ++ upsertOn key x (l.rtake n) := by
    rw [← upsertOn_append_of_new h, rdrop_append_rtake]
  rw [hsplit]
  by_cases hnil : l.rdrop n = []
  · rw [hnil, List.nil_append]
  · apply rtake_append_of_le_length
    exact (length_rtake_of_rdrop_ne_nil hnil).ge.trans length_le_upsertOn

/-- The window of an updated list is the updated window exactly when the entry can be shown. -/
theorem rtake_upsertOn_rtake_iff (hn : 0 < n) :
    (upsertOn key x (l.rtake n)).rtake n = (upsertOn key x l).rtake n ↔ Showable key n x l := by
  by_cases hdropped : key x ∈ (l.rdrop n).map key
  · rw [rtake_upsertOn_of_dropped hdropped, Showable, or_iff_right (not_not_intro hdropped)]
    by_cases hshown : key x ∈ (l.rtake n).map key
    · have hshort : (upsertOn key x (l.rtake n)).length ≤ n := by
        rw [length_upsertOn hshown, length_rtake]
        exact Nat.min_le_left _ _
      rw [rtake_of_length_le hshort, upsertOn_eq_self_iff hshown]
    · -- `x` goes to the end of a window without its key, and the window of the list has no `x`.
      have habsent : x ∉ l.rtake n := fun hx => hshown (List.mem_map_of_mem hx)
      obtain ⟨m, rfl⟩ := Nat.exists_eq_add_one_of_ne_zero hn.ne'
      rw [upsertOn_of_new hshown, List.rtake_concat_succ]
      constructor
      · intro heq
        exact absurd (heq ▸ List.mem_append_right _ List.mem_cons_self) habsent
      · intro hfind
        exact absurd (List.mem_of_find?_eq_some hfind) habsent
  · exact iff_of_true (rtake_upsertOn_of_not_dropped hdropped).symm (.inl hdropped)

end Upsert

end KeyedWindow
