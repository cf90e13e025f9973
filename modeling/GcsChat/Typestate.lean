import GcsChat.Interactive

/-!
# Typestates of programs

A typestate says which questions a program may ask now, which answers have to be reckoned with, and
where each of them leads. A program that follows the discipline from one typestate on never asks
anything else, whatever it is answered; that is shown once, piece by piece, and holds of the rest of
the program after each of its steps.
-/

/-- A discipline over the typestates `M` for programs over the questions `E`. -/
structure Discipline (E : Type) (Answer : E → Type) (M : Type) where
  allows : M → E → Prop
  possible : M → (e : E) → Answer e → Prop
  after : M → (e : E) → Answer e → M

namespace Interactive

variable {E : Type} {Answer : E → Type} {M α β : Type}

/-- From `m` on the program asks what the discipline allows, and ends as `Q` says. -/
def Follows (D : Discipline E Answer M) : Interactive E Answer α → M → (α → M → Prop) → Prop
  | done a, m, Q => Q a m
  | ask e next, m, Q => D.allows m e ∧
      ∀ a, D.possible m e a → (next a).Follows D (D.after m e a) Q

section Follows

variable {D : Discipline E Answer M} {p : Interactive E Answer α} {m m' : M}
  {Q R : α → M → Prop}

theorem Follows.mono (h : p.Follows D m Q) (hQR : ∀ a m', Q a m' → R a m') :
    p.Follows D m R := by
  induction p generalizing m with
  | done a => exact hQR a m h
  | ask e next ih => exact ⟨h.1, fun a ha => ih a (h.2 a ha)⟩

/-- A program in two parts follows when the second does from wherever the first ends. -/
theorem Follows.bind {Q : β → M → Prop} {f : α → Interactive E Answer β}
    (hp : p.Follows D m R) (hf : ∀ a m', R a m' → (f a).Follows D m' Q) :
    (p >>= f).Follows D m Q := by
  induction p generalizing m with
  | done a => exact hf a m hp
  | ask e next ih => exact ⟨hp.1, fun a ha => ih a (hp.2 a ha)⟩

theorem Follows.and_returns {P : α → Prop} (h : p.Follows D m Q) (hp : p.Returns P) :
    p.Follows D m fun a m' => Q a m' ∧ P a := by
  induction p generalizing m with
  | done a => exact ⟨h, hp⟩
  | ask e next ih => exact ⟨h.1, fun a ha => ih a (h.2 a ha) (hp a)⟩

theorem follows_of_asksOnly {P : E → Prop} (hp : p.AsksOnly P)
    (hP : ∀ e, P e → D.allows m e ∧ ∀ a, D.after m e a = m) :
    p.Follows D m fun _ m' => m' = m := by
  induction p with
  | done a => exact rfl
  | ask e next ih =>
      obtain ⟨hallows, hafter⟩ := hP e hp.1
      refine ⟨hallows, fun a _ => ?_⟩
      rw [hafter a]
      exact ih a (hp.2 a)

end Follows

end Interactive
