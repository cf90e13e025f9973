import Mathlib.Logic.Relation
import Mathlib.Order.WellFounded

/-!
# Ranked wait-for relations

When everybody waits for parties of a lower rank only, nobody waits for himself, however indirectly,
and following the waits from anyone leads to a party that waits for nobody.
-/

namespace WaitGraph

variable {α : Type} {r : α → α → Prop} {rank : α → ℕ}

theorem not_transGen_self (h : ∀ a b, r a b → rank b < rank a) (a : α) :
    ¬ Relation.TransGen r a a := by
  have hrank : ∀ b c, Relation.TransGen r b c → rank c < rank b := by
    intro b c hbc
    induction hbc with
    | single hstep => exact h _ _ hstep
    | tail _ hstep ih => exact (h _ _ hstep).trans ih
  exact fun hcycle => (hrank a a hcycle).false

theorem exists_end (h : ∀ a b, r a b → rank b < rank a) (a : α) :
    ∃ b, Relation.ReflTransGen r a b ∧ ∀ c, ¬ r b c := by
  induction hn : rank a using Nat.strong_induction_on generalizing a with
  | _ n ih =>
      by_cases hwaits : ∃ b, r a b
      · obtain ⟨b, hab⟩ := hwaits
        obtain ⟨c, hbc, hend⟩ := ih (rank b) (hn ▸ h a b hab) b rfl
        exact ⟨c, .head hab hbc, hend⟩
      · exact ⟨a, .refl, fun c hac => hwaits ⟨c, hac⟩⟩

end WaitGraph
