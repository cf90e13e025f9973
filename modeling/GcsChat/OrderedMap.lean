import Mathlib.Data.List.Sort
import Mathlib.Tactic

/-!
# Ordered maps in the manner of `std::map`

A map is its list of entries in strictly increasing key order, the order in which `std::map`
iterates. The order is a field, so every value of the type is a well-formed map. `emplace` keeps
an entry that is already there, `insertOrAssign` overwrites it.
-/

universe u v

structure OrderedMap (κ : Type u) (ν : Type v) [LinearOrder κ] where
  entries : List (κ × ν)
  sorted : entries.Pairwise (fun a b => a.1 < b.1)

namespace OrderedMap

variable {κ : Type u} {ν : Type v} [LinearOrder κ]

instance [DecidableEq ν] : DecidableEq (OrderedMap κ ν) := fun m m' =>
  decidable_of_iff (m.entries = m'.entries) (by cases m; cases m'; simp)

def empty : OrderedMap κ ν := ⟨[], List.Pairwise.nil⟩

def lookup (k : κ) : List (κ × ν) → Option ν
  | [] => none
  | e :: rest => if e.1 = k then some e.2 else lookup k rest

def find? (m : OrderedMap κ ν) (k : κ) : Option ν := lookup k m.entries

def insertSorted (k : κ) (v : ν) : List (κ × ν) → List (κ × ν)
  | [] => [(k, v)]
  | e :: rest =>
    if k < e.1 then (k, v) :: e :: rest
    else if k = e.1 then (k, v) :: rest
    else e :: insertSorted k v rest

theorem key_insertSorted {k : κ} {v : ν} {l : List (κ × ν)} {e : κ × ν}
    (h : e ∈ insertSorted k v l) : e = (k, v) ∨ e ∈ l := by
  induction l with
  | nil => simpa [insertSorted] using h
  | cons e' rest ih =>
      simp only [insertSorted] at h
      split_ifs at h
      · simpa using h
      · rcases List.mem_cons.1 h with h | h
        · exact Or.inl h
        · exact Or.inr (List.mem_cons_of_mem _ h)
      · rcases List.mem_cons.1 h with h | h
        · exact Or.inr (h ▸ List.mem_cons_self)
        · exact (ih h).imp_right (List.mem_cons_of_mem _)

theorem sorted_insertSorted (k : κ) (v : ν) {l : List (κ × ν)}
    (h : l.Pairwise (fun a b => a.1 < b.1)) :
    (insertSorted k v l).Pairwise (fun a b => a.1 < b.1) := by
  induction l with
  | nil => simp [insertSorted]
  | cons e rest ih =>
      obtain ⟨hhead, htail⟩ := List.pairwise_cons.1 h
      simp only [insertSorted]
      split_ifs with hlt heq
      · refine List.pairwise_cons.2 ⟨fun e' he' => ?_, h⟩
        rcases List.mem_cons.1 he' with rfl | he'
        · exact hlt
        · exact hlt.trans (hhead e' he')
      · exact List.pairwise_cons.2 ⟨fun e' he' => heq ▸ hhead e' he', htail⟩
      · refine List.pairwise_cons.2 ⟨fun e' he' => ?_, ih htail⟩
        rcases key_insertSorted he' with rfl | he'
        · exact lt_of_le_of_ne (not_lt.1 hlt) (Ne.symm heq)
        · exact hhead e' he'

def insertOrAssign (m : OrderedMap κ ν) (k : κ) (v : ν) : OrderedMap κ ν :=
  ⟨insertSorted k v m.entries, sorted_insertSorted k v m.sorted⟩

def emplace (m : OrderedMap κ ν) (k : κ) (v : ν) : OrderedMap κ ν :=
  if (m.find? k).isSome then m else m.insertOrAssign k v

def values (m : OrderedMap κ ν) : List ν := m.entries.map Prod.snd

@[simp] theorem find?_empty (k : κ) : (empty : OrderedMap κ ν).find? k = none := rfl

theorem lookup_insertSorted (k j : κ) (v : ν) (l : List (κ × ν)) :
    lookup j (insertSorted k v l) = if j = k then some v else lookup j l := by
  induction l with
  | nil => simp [insertSorted, lookup, eq_comm]
  | cons e rest ih =>
      by_cases hj : j = k
      · subst hj
        simp only [if_true] at ih
        simp only [insertSorted, if_true]
        split_ifs with hlt heq
        · simp [lookup]
        · simp [lookup]
        · simp [lookup, ih, Ne.symm heq]
      · simp only [insertSorted, if_neg hj]
        split_ifs with hlt heq
        · simp [lookup, Ne.symm hj]
        · simp [lookup, ← heq, Ne.symm hj]
        · simp [lookup, ih, hj]

@[simp] theorem find?_insertOrAssign (m : OrderedMap κ ν) (k j : κ) (v : ν) :
    (m.insertOrAssign k v).find? j = if j = k then some v else m.find? j :=
  lookup_insertSorted k j v m.entries

theorem find?_emplace (m : OrderedMap κ ν) (k j : κ) (v : ν) :
    (m.emplace k v).find? j = if j = k ∧ m.find? k = none then some v else m.find? j := by
  unfold emplace
  cases h : m.find? k with
  | none => simp
  | some w => simp

theorem lookup_eq_some_iff {k : κ} {v : ν} {l : List (κ × ν)}
    (h : l.Pairwise (fun a b => a.1 < b.1)) : lookup k l = some v ↔ (k, v) ∈ l := by
  induction l with
  | nil => simp [lookup]
  | cons e rest ih =>
      obtain ⟨hhead, htail⟩ := List.pairwise_cons.1 h
      simp only [lookup, List.mem_cons]
      split_ifs with hk
      · constructor
        · intro hv
          exact Or.inl (Prod.ext hk.symm (Option.some.inj hv).symm)
        · rintro (he | hm)
          · rw [← he]
          · exact absurd hk (hhead _ hm).ne
      · rw [ih htail]
        refine ⟨Or.inr, fun hor => hor.resolve_left ?_⟩
        rintro rfl
        exact hk rfl

theorem find?_eq_some_iff (m : OrderedMap κ ν) {k : κ} {v : ν} :
    m.find? k = some v ↔ (k, v) ∈ m.entries := lookup_eq_some_iff m.sorted

theorem mem_values_iff (m : OrderedMap κ ν) {v : ν} :
    v ∈ m.values ↔ ∃ k, m.find? k = some v := by
  simp only [values, List.mem_map, Prod.exists, exists_eq_right, find?_eq_some_iff]

theorem entries_nodup (m : OrderedMap κ ν) : m.entries.Nodup :=
  m.sorted.imp (fun h he => absurd (congrArg Prod.fst he) h.ne)

theorem keys_nodup (m : OrderedMap κ ν) : (m.entries.map Prod.fst).Nodup :=
  List.pairwise_map.2 (m.sorted.imp fun h => h.ne)

def All (P : κ → ν → Prop) (m : OrderedMap κ ν) : Prop := ∀ k v, m.find? k = some v → P k v

theorem all_empty {P : κ → ν → Prop} : (empty : OrderedMap κ ν).All P :=
  fun _ _ h => (Option.some_ne_none _ h.symm).elim

theorem All.insertOrAssign {P : κ → ν → Prop} {m : OrderedMap κ ν} (h : m.All P) {k : κ} {v : ν}
    (hv : P k v) : (m.insertOrAssign k v).All P := by
  intro j w hw
  rw [find?_insertOrAssign] at hw
  split at hw
  · next hj =>
      cases hw
      exact hj ▸ hv
  · exact h j w hw

theorem All.emplace {P : κ → ν → Prop} {m : OrderedMap κ ν} (h : m.All P) {k : κ} {v : ν}
    (hv : P k v) : (m.emplace k v).All P := by
  intro j w hw
  rw [find?_emplace] at hw
  split at hw
  · next hj =>
      cases hw
      exact hj.1 ▸ hv
  · exact h j w hw

theorem All.exists_of_mem_values {P : κ → ν → Prop} {m : OrderedMap κ ν} (h : m.All P) {v : ν}
    (hv : v ∈ m.values) : ∃ k, P k v := by
  obtain ⟨k, hk⟩ := (mem_values_iff m).1 hv
  exact ⟨k, h k v hk⟩

/-- Where every key can be read off its value, no two values have the same. -/
theorem All.nodup_values {f : ν → κ} {m : OrderedMap κ ν} (h : m.All fun k v => f v = k) :
    (m.values.map f).Nodup := by
  have hkeys : m.values.map f = m.entries.map Prod.fst := by
    rw [values, List.map_map]
    refine List.map_congr_left fun entry hentry => ?_
    exact h entry.1 entry.2 ((find?_eq_some_iff m).2 hentry)
  rw [hkeys]
  exact m.keys_nodup

/-- Maps with the same lookups are the same map, entry order included. -/
theorem ext_find? {m m' : OrderedMap κ ν} (h : ∀ k, m.find? k = m'.find? k) : m = m' := by
  have hmem : ∀ e, e ∈ m.entries ↔ e ∈ m'.entries := by
    rintro ⟨k, v⟩
    rw [← find?_eq_some_iff, ← find?_eq_some_iff, h k]
  have hperm : m.entries.Perm m'.entries :=
    (List.perm_ext_iff_of_nodup m.entries_nodup m'.entries_nodup).2 hmem
  have heq : m.entries = m'.entries :=
    hperm.eq_of_pairwise (fun a b _ _ hab hba => absurd hab (not_lt.2 hba.le)) m.sorted m'.sorted
  cases m; cases m'; simpa using heq

end OrderedMap
