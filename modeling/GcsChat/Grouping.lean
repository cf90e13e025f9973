import Mathlib.Data.List.Perm.Basic

/-!
# Grouping a list by keys

Every element of a list has a key. Some keys have a group, which keeps the order of the list, and
the elements whose key has none are left over. With distinct keys the groups and the rest are a
rearrangement of the list, so nothing is lost and nothing is in two places.
-/

namespace Grouping

variable {α κ : Type*} [DecidableEq κ] (key : α → κ)

def group (l : List α) (k : κ) : List α := l.filter fun a => key a = k

def leftOver (l : List α) (keys : List κ) : List α := l.filter fun a => key a ∉ keys

variable {key} {l : List α} {keys : List κ} {k : κ} {a : α}

@[simp] theorem mem_group : a ∈ group key l k ↔ a ∈ l ∧ key a = k := by
  simp [group]

@[simp] theorem leftOver_nil : leftOver key l [] = l := by
  simp [leftOver]

theorem group_append_leftOver_cons_perm (hk : k ∉ keys) :
    (group key l k ++ leftOver key l (k :: keys)).Perm (leftOver key l keys) := by
  have hgroup : (leftOver key l keys).filter (fun a => key a = k) = group key l k := by
    rw [leftOver, group, List.filter_filter]
    refine List.filter_congr fun a _ => ?_
    by_cases ha : key a = k
    · simp [ha, hk]
    · simp [ha]
  have hrest : (leftOver key l keys).filter (fun a => !decide (key a = k)) =
      leftOver key l (k :: keys) := by
    rw [leftOver, leftOver, List.filter_filter]
    refine List.filter_congr fun a _ => ?_
    simp [not_or]
  rw [← hgroup, ← hrest]
  exact List.filter_append_perm _ _

/-- Induction on the keys, each of which moves its group from the rest to the front. -/
theorem flatMap_group_append_leftOver_perm (hkeys : keys.Nodup) :
    (keys.flatMap (group key l) ++ leftOver key l keys).Perm l := by
  induction keys with
  | nil => simp
  | cons k keys ih =>
      obtain ⟨hk, hkeys⟩ := List.nodup_cons.1 hkeys
      have hswap : (group key l k ++ keys.flatMap (group key l) ++ leftOver key l (k :: keys)).Perm
          (keys.flatMap (group key l) ++ (group key l k ++ leftOver key l (k :: keys))) := by
        rw [← List.append_assoc]
        exact List.perm_append_comm.append_right _
      rw [List.flatMap_cons]
      exact hswap.trans (((group_append_leftOver_cons_perm hk).append_left _).trans (ih hkeys))

end Grouping
