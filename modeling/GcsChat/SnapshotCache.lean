import Mathlib.Data.List.Lemmas
import Mathlib.Data.List.Nodup
import Mathlib.Data.List.Perm.Basic
import Mathlib.Data.List.Range

/-!
# Caches of live holders

A list of items is drawn through holders that are kept from one drawing to the next: one for each
key, made from the first item that needs it, brought up to date from every later list and closed
when its key is gone. Drawing through the holders shows what drawing the items themselves would, and
every holder is closed exactly once.
-/

/-- How holders with values in `σ` stand for the items in `α`. -/
structure HolderKind (α κ σ ν : Type*) where
  key : α → κ
  seed : α → σ
  reconcile : α → σ → σ
  view : α → σ → ν
  view_reconcile : ∀ a v, view a (reconcile a v) = view a (seed a)

/-- What is shown of an item drawn from its own snapshot. -/
def HolderKind.plainView {α κ σ ν : Type*} (K : HolderKind α κ σ ν) (a : α) : ν :=
  K.view a (K.seed a)

structure Holder (κ σ : Type*) where
  key : κ
  serial : ℕ
  value : σ
  deriving DecidableEq

/-- The holders that are kept, how many were ever made, and the numbers of those that were
closed. -/
structure SnapshotCache (κ σ : Type*) where
  held : List (Holder κ σ)
  created : ℕ
  closed : List ℕ
  deriving DecidableEq

namespace SnapshotCache

variable {α κ σ ν : Type*}

def empty : SnapshotCache κ σ := ⟨[], 0, []⟩

def keys (c : SnapshotCache κ σ) : List κ := c.held.map Holder.key

def serials (c : SnapshotCache κ σ) : List ℕ := c.held.map Holder.serial

variable [DecidableEq κ] (K : HolderKind α κ σ ν)

def holder? (c : SnapshotCache κ σ) (k : κ) : Option (Holder κ σ) :=
  c.held.find? fun h => h.key = k

def seedHolder (c : SnapshotCache κ σ) (a : α) : Holder κ σ := ⟨K.key a, c.created, K.seed a⟩

/-- The holder of the item, which is made if there is none. -/
def obtainHolder (c : SnapshotCache κ σ) (a : α) : SnapshotCache κ σ × Holder κ σ :=
  match c.holder? (K.key a) with
  | some h => (c, h)
  | none =>
      ({ c with held := c.held ++ [c.seedHolder K a], created := c.created + 1 },
        c.seedHolder K a)

def reconcileHolder (a : α) (h : Holder κ σ) : Holder κ σ :=
  if h.key = K.key a then { h with value := K.reconcile a h.value } else h

/-- Items without a holder are passed over. -/
def reconcile (c : SnapshotCache κ σ) (a : α) : SnapshotCache κ σ :=
  { c with held := c.held.map (reconcileHolder K a) }

def reconcileAll (c : SnapshotCache κ σ) (l : List α) : SnapshotCache κ σ := l.foldl (reconcile K) c

/-- Closes and drops the holders whose key is not live any more. -/
def release (c : SnapshotCache κ σ) (live : List κ) : SnapshotCache κ σ :=
  { c with
    held := c.held.filter (·.key ∈ live)
    closed := c.closed ++ (c.held.filter (·.key ∉ live)).map Holder.serial }

def closeAll (c : SnapshotCache κ σ) : SnapshotCache κ σ :=
  { c with held := [], closed := c.closed ++ c.serials }

section Holders

variable {c : SnapshotCache κ σ} {a : α} {h : Holder κ σ}

@[simp] theorem reconcileHolder_key : (reconcileHolder K a h).key = h.key := by
  unfold reconcileHolder
  split <;> rfl

@[simp] theorem reconcileHolder_serial : (reconcileHolder K a h).serial = h.serial := by
  unfold reconcileHolder
  split <;> rfl

theorem reconcileHolder_value (hkey : h.key = K.key a) :
    (reconcileHolder K a h).value = K.reconcile a h.value := by
  rw [reconcileHolder, if_pos hkey]

theorem reconcileHolder_of_ne (hkey : h.key ≠ K.key a) : reconcileHolder K a h = h := if_neg hkey

@[simp] theorem keys_reconcile : (c.reconcile K a).keys = c.keys := by
  rw [keys, reconcile, List.map_map]
  exact List.map_congr_left fun _ _ => reconcileHolder_key K

@[simp] theorem serials_reconcile : (c.reconcile K a).serials = c.serials := by
  rw [serials, reconcile, List.map_map]
  exact List.map_congr_left fun _ _ => reconcileHolder_serial K

theorem key_of_holder? {k : κ} (hfound : c.holder? k = some h) : h ∈ c.held ∧ h.key = k :=
  ⟨List.mem_of_find?_eq_some hfound, by simpa using List.find?_some hfound⟩

theorem notMem_keys_of_holder? {k : κ} (hfound : c.holder? k = none) : k ∉ c.keys := by
  intro hk
  obtain ⟨h, hmem, hkey⟩ := List.mem_map.1 hk
  have hnot := List.find?_eq_none.1 hfound h hmem
  exact hnot (decide_eq_true hkey)

end Holders

/-- One holder for each key, and every holder ever made is either kept or closed, and closed only
once. -/
structure Accounted (c : SnapshotCache κ σ) : Prop where
  keyed : c.keys.Nodup
  serials : (c.closed ++ c.serials).Perm (List.range c.created)

namespace Accounted

variable {c : SnapshotCache κ σ} {a : α}

omit [DecidableEq κ] in
theorem empty : (SnapshotCache.empty : SnapshotCache κ σ).Accounted :=
  ⟨List.nodup_nil, List.Perm.refl _⟩

theorem obtainHolder (h : c.Accounted) (a : α) : (c.obtainHolder K a).1.Accounted := by
  unfold SnapshotCache.obtainHolder
  split
  · exact h
  · next hnone =>
      constructor
      · have hnew := notMem_keys_of_holder? hnone
        rw [keys, List.map_append]
        exact h.keyed.append (List.nodup_singleton _)
          (List.disjoint_singleton.2 hnew)
      · rw [SnapshotCache.serials, List.map_append, ← List.append_assoc, List.range_succ]
        exact h.serials.append_right _

theorem reconcile (h : c.Accounted) (a : α) : (c.reconcile K a).Accounted := by
  constructor
  · rw [keys_reconcile]
    exact h.keyed
  · rw [serials_reconcile]
    exact h.serials

theorem reconcileAll (h : c.Accounted) (l : List α) : (c.reconcileAll K l).Accounted := by
  induction l generalizing c with
  | nil => exact h
  | cons a rest ih => exact ih (h.reconcile K a)

theorem release (h : c.Accounted) (live : List κ) : (c.release live).Accounted := by
  constructor
  · exact h.keyed.sublist (List.filter_sublist.map _)
  · have hsplit : ((c.held.filter fun x => x.key ∉ live) ++
        c.held.filter fun x => x.key ∈ live).Perm c.held := by
      have hparts := List.filter_append_perm (fun x : Holder κ σ => decide (x.key ∉ live)) c.held
      simpa using hparts
    have hserials := (hsplit.map Holder.serial).append_left c.closed
    rw [List.map_append, ← List.append_assoc] at hserials
    exact hserials.trans h.serials

omit [DecidableEq κ] in
theorem closeAll (h : c.Accounted) : c.closeAll.Accounted := by
  constructor
  · exact List.nodup_nil
  · rw [SnapshotCache.serials, SnapshotCache.closeAll, List.map_nil, List.append_nil]
    exact h.serials

end Accounted

theorem keys_obtainHolder_subset (c : SnapshotCache κ σ) (a : α) :
    (c.obtainHolder K a).1.keys ⊆ K.key a :: c.keys := by
  unfold obtainHolder
  split
  · exact List.subset_cons_self _ _
  · intro k hk
    rw [keys, List.map_append, List.mem_append] at hk
    exact hk.elim (List.mem_cons_of_mem _) fun hnew => List.mem_cons.2 (.inl (List.mem_singleton.1 hnew))

theorem keys_reconcileAll (c : SnapshotCache κ σ) (l : List α) :
    (c.reconcileAll K l).keys = c.keys := by
  induction l generalizing c with
  | nil => rfl
  | cons a rest ih => exact (ih (c.reconcile K a)).trans (keys_reconcile K)

theorem keys_release_subset (c : SnapshotCache κ σ) (live : List κ) :
    (c.release live).keys ⊆ live := by
  intro k hk
  obtain ⟨h, hmem, rfl⟩ := List.mem_map.1 hk
  exact of_decide_eq_true (List.mem_filter.1 hmem).2

/-- Nothing is kept but what is live. -/
structure Managed (c : SnapshotCache κ σ) (live : List κ) : Prop extends c.Accounted where
  live : c.keys ⊆ live

namespace Managed

variable {K} {c : SnapshotCache κ σ} {live : List κ} {a : α}

omit [DecidableEq κ] in
theorem empty (live : List κ) : (SnapshotCache.empty : SnapshotCache κ σ).Managed live :=
  ⟨.empty, List.nil_subset _⟩

theorem obtainHolder (h : c.Managed live) (ha : K.key a ∈ live) :
    (c.obtainHolder K a).1.Managed live := by
  refine ⟨h.toAccounted.obtainHolder K a, fun k hk => ?_⟩
  rcases List.mem_cons.1 (keys_obtainHolder_subset K c a hk) with rfl | hold
  · exact ha
  · exact h.live hold

theorem update (h : c.Accounted) (live : List κ) (l : List α) :
    ((c.release live).reconcileAll K l).Managed live := by
  refine ⟨(h.release live).reconcileAll K l, ?_⟩
  rw [keys_reconcileAll]
  exact keys_release_subset c live

omit [DecidableEq κ] in
theorem closeAll (h : c.Accounted) : c.closeAll.Managed [] := ⟨h.closeAll, List.nil_subset _⟩

omit [DecidableEq κ] in
/-- When nothing is live, every holder that was ever made is closed. -/
theorem closed_perm (h : c.Managed []) : c.closed.Perm (List.range c.created) := by
  have hnone : c.held = [] := List.map_eq_nil_iff.1 (List.subset_nil.1 h.live)
  have hserials := h.serials
  rwa [SnapshotCache.serials, hnone, List.map_nil, List.append_nil] at hserials

end Managed

/-- The holders show of the items what the items themselves say. -/
def Current (c : SnapshotCache κ σ) (items : List α) : Prop :=
  ∀ h ∈ c.held, ∀ a ∈ items, h.key = K.key a → K.view a h.value = K.plainView a

namespace Current

variable {K} {c : SnapshotCache κ σ} {items : List α} {a : α}

omit [DecidableEq κ] in
theorem empty (items : List α) : (SnapshotCache.empty : SnapshotCache κ σ).Current K items :=
  fun _ hmem => absurd hmem List.not_mem_nil

omit [DecidableEq κ] in
theorem closeAll (c : SnapshotCache κ σ) (items : List α) : c.closeAll.Current K items :=
  fun _ hmem => absurd hmem List.not_mem_nil

theorem obtainHolder (h : c.Current K items) (hkeys : (items.map K.key).Nodup) (ha : a ∈ items) :
    (c.obtainHolder K a).1.Current K items := by
  unfold SnapshotCache.obtainHolder
  split
  · exact h
  · intro x hx b hb hkey
    rcases List.mem_append.1 hx with hold | hnew
    · exact h x hold b hb hkey
    · obtain rfl := List.mem_singleton.1 hnew
      have hsame : a = b := List.inj_on_of_nodup_map hkeys ha hb hkey
      rw [← hsame]
      rfl

/-- What is drawn through the holder of an item is what the item says. -/
theorem view_obtainHolder (h : c.Current K items) (ha : a ∈ items) :
    K.view a (c.obtainHolder K a).2.value = K.plainView a := by
  unfold SnapshotCache.obtainHolder
  split
  · next x hfound =>
      obtain ⟨hmem, hkey⟩ := key_of_holder? hfound
      exact h x hmem a ha hkey
  · rfl

theorem reconcile (h : c.Current K items) (hnew : K.key a ∉ items.map K.key) :
    (c.reconcile K a).Current K (a :: items) := by
  intro x hx b hb hkey
  obtain ⟨y, hy, rfl⟩ := List.mem_map.1 hx
  rw [reconcileHolder_key] at hkey
  rcases List.mem_cons.1 hb with rfl | hrest
  · rw [reconcileHolder_value K hkey]
    exact K.view_reconcile b y.value
  · have hne : y.key ≠ K.key a := by
      intro hya
      exact hnew (hya.symm.trans hkey ▸ List.mem_map_of_mem hrest)
    rw [reconcileHolder_of_ne K hne]
    exact h y hy b hrest hkey

theorem reconcileAll_append {before : List α} (l : List α) (h : c.Current K before)
    (hkeys : ((before ++ l).map K.key).Nodup) : (c.reconcileAll K l).Current K (before ++ l) := by
  induction l generalizing c before with
  | nil =>
      rw [List.append_nil]
      exact h
  | cons a rest ih =>
      have hnew : K.key a ∉ before.map K.key := by
        intro hmem
        rw [List.map_append, List.map_cons, List.nodup_append] at hkeys
        exact hkeys.2.2 _ hmem _ List.mem_cons_self rfl
      have hstep : (c.reconcile K a).Current K (before ++ [a]) := by
        intro x hx b hb
        exact h.reconcile hnew x hx b (by simpa [or_comm] using hb)
      rw [List.append_cons] at hkeys ⊢
      exact ih hstep hkeys

/-- Whatever the holders showed before, they show the new items once all are reconciled. -/
theorem reconcileAll (c : SnapshotCache κ σ) (hkeys : (items.map K.key).Nodup) :
    (c.reconcileAll K items).Current K items := by
  have hnothing : c.Current K [] := fun _ _ _ hb => absurd hb List.not_mem_nil
  exact reconcileAll_append items hnothing hkeys

end Current

end SnapshotCache
