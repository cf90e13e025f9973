import GcsChat.Interactive

/-!
# What holds throughout a program

`Throughout` says of a program and a state that `I` relates them, that it relates what is left of the
program to the state after each question, and that the program ends as `Q` says. Asked from one
question to the next it is a condition on the text of the program.
-/

namespace Interactive

variable {E : Type} {Answer : E → Type} {α ω : Type}

def Throughout (W : World E Answer ω) (I : Interactive E Answer α → ω → Prop) (Q : α → ω → Prop) :
    Interactive E Answer α → ω → Prop
  | done a, w => I (done a) w ∧ Q a w
  | ask e next, w => I (ask e next) w ∧ ∀ a u, W w e a u → (next a).Throughout W I Q u

variable {W : World E Answer ω} {I : Interactive E Answer α → ω → Prop} {Q : α → ω → Prop}
  {p q : Interactive E Answer α} {w w' : ω} {tr : Trace E Answer} {a : α}

theorem Throughout.here (h : p.Throughout W I Q w) : I p w := by
  cases p with
  | done a => exact h.1
  | ask e next => exact h.1

theorem Throughout.steps (h : p.Throughout W I Q w) (hsteps : Steps W p w tr q w') :
    q.Throughout W I Q w' := by
  induction hsteps with
  | nil => exact h
  | cons a ha _ ih => exact ih (h.2 a _ ha)

theorem Throughout.ends (h : p.Throughout W I Q w) (hends : Ends W p w tr a w') : Q a w' :=
  (h.steps hends).2

theorem Throughout.next {e : E} {next : Answer e → Interactive E Answer α}
    (h : (ask e next).Throughout W I Q w) {b : Answer e} (hb : W w e b w') :
    (next b).Throughout W I Q w' := h.2 b w' hb

theorem Throughout.mono {R : α → ω → Prop} (h : p.Throughout W I Q w)
    (hQR : ∀ a u, Q a u → R a u) : p.Throughout W I R w := by
  induction p generalizing w with
  | done a => exact ⟨h.1, hQR a w h.2⟩
  | ask e next ih => exact ⟨h.1, fun a u ha => ih a (h.2 a u ha)⟩

/-- What holds of every program that asks some questions only, once it holds of the states. -/
theorem Throughout.of_asksOnly {P : E → Prop} {J : ω → Prop}
    (h : p.Throughout W (fun _ => J) Q w) (hp : p.AsksOnly P)
    (hI : ∀ (q : Interactive E Answer α) u, q.AsksOnly P → J u → I q u) :
    p.Throughout W I Q w := by
  induction p generalizing w with
  | done a => exact ⟨hI _ w hp h.1, h.2⟩
  | ask e next ih => exact ⟨hI _ w hp h.1, fun a u ha => ih a (h.2 a u ha) (hp.2 a)⟩

end Interactive
