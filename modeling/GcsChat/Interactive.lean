import Mathlib.Tactic

/-!
# Programs that ask their surroundings

A program asks one thing after the other, and what it does next depends on the answers. A world
says which answers are possible and what a question does to its state. `Steps` is what has happened
after some of the questions, so a program that is stopped half way is covered like one that ends.
-/

inductive Interactive (E : Type) (Answer : E → Type) (α : Type)
  | done (a : α)
  | ask (e : E) (next : Answer e → Interactive E Answer α)

namespace Interactive

variable {E : Type} {Answer : E → Type} {α β γ ω : Type}

def bind : Interactive E Answer α → (α → Interactive E Answer β) → Interactive E Answer β
  | done a, f => f a
  | ask e next, f => ask e fun a => (next a).bind f

instance : Monad (Interactive E Answer) where
  pure := done
  bind := bind

@[simp] theorem pure_eq_done (a : α) : (pure a : Interactive E Answer α) = done a := rfl

@[simp] theorem done_bind (a : α) (f : α → Interactive E Answer β) : done a >>= f = f a := rfl

@[simp] theorem ask_bind (e : E) (next : Answer e → Interactive E Answer α)
    (f : α → Interactive E Answer β) : ask e next >>= f = ask e fun a => next a >>= f := rfl

theorem bind_assoc (p : Interactive E Answer α) (f : α → Interactive E Answer β)
    (g : β → Interactive E Answer γ) : p >>= f >>= g = p >>= fun a => f a >>= g := by
  induction p with
  | done a => rfl
  | ask e next ih => exact congrArg (ask e) (funext ih)

/-- Which answers a question may get, and the state after it. -/
def World (E : Type) (Answer : E → Type) (ω : Type) : Type :=
  ω → (e : E) → Answer e → ω → Prop

abbrev Trace (E : Type) (Answer : E → Type) : Type := List (Σ e, Answer e)

/-- Some of the questions are asked, from one program and state to the next. -/
inductive Steps (W : World E Answer ω) :
    Interactive E Answer α → ω → Trace E Answer → Interactive E Answer α → ω → Prop
  | nil (p : Interactive E Answer α) (w : ω) : Steps W p w [] p w
  | cons {e : E} {next : Answer e → Interactive E Answer α} {q : Interactive E Answer α}
      {w w' w'' : ω} {tr : Trace E Answer} (a : Answer e) (h : W w e a w')
      (hrest : Steps W (next a) w' tr q w'') : Steps W (ask e next) w (⟨e, a⟩ :: tr) q w''

def Ends (W : World E Answer ω) (p : Interactive E Answer α) (w : ω) (tr : Trace E Answer) (a : α)
    (w' : ω) : Prop := Steps W p w tr (done a) w'

variable {W : World E Answer ω} {p q r : Interactive E Answer α} {w w' w'' : ω}
  {tr tr' : Trace E Answer} {a b : α}

theorem Steps.append (h : Steps W p w tr q w') (h' : Steps W q w' tr' r w'') :
    Steps W p w (tr ++ tr') r w'' := by
  induction h with
  | nil => exact h'
  | cons a ha _ ih => exact .cons a ha (ih h')

theorem steps_done_iff : Steps W (done a) w tr q w' ↔ tr = [] ∧ q = done a ∧ w' = w := by
  constructor
  · intro h
    cases h
    exact ⟨rfl, rfl, rfl⟩
  · rintro ⟨rfl, rfl, rfl⟩
    exact .nil _ _

theorem steps_ask_iff {e : E} {next : Answer e → Interactive E Answer α} :
    Steps W (ask e next) w tr q w' ↔ (tr = [] ∧ q = ask e next ∧ w' = w) ∨
      ∃ a u tr', W w e a u ∧ Steps W (next a) u tr' q w' ∧ tr = ⟨e, a⟩ :: tr' := by
  constructor
  · intro h
    cases h with
    | nil => exact .inl ⟨rfl, rfl, rfl⟩
    | cons a ha hrest => exact .inr ⟨a, _, _, ha, hrest, rfl⟩
  · rintro (⟨rfl, rfl, rfl⟩ | ⟨a, u, tr', ha, hrest, rfl⟩)
    · exact .nil _ _
    · exact .cons a ha hrest

@[simp] theorem ends_done_iff : Ends W (done a) w tr b w' ↔ tr = [] ∧ b = a ∧ w' = w := by
  rw [Ends, steps_done_iff, done.injEq]

theorem ends_ask_iff {e : E} {next : Answer e → Interactive E Answer α} :
    Ends W (ask e next) w tr b w' ↔
      ∃ a u tr', W w e a u ∧ Ends W (next a) u tr' b w' ∧ tr = ⟨e, a⟩ :: tr' := by
  constructor
  · intro h
    cases h with
    | cons a ha hrest => exact ⟨a, _, _, ha, hrest, rfl⟩
  · rintro ⟨a, u, tr', ha, hrest, rfl⟩
    exact .cons a ha hrest

theorem ends_ask_bind_iff {e : E} {f : Answer e → Interactive E Answer α} :
    Ends W (ask e done >>= f) w tr b w' ↔
      ∃ a u tr', W w e a u ∧ Ends W (f a) u tr' b w' ∧ tr = ⟨e, a⟩ :: tr' := ends_ask_iff

theorem Ends.cons {e : E} {next : Answer e → Interactive E Answer α} (a : Answer e)
    (h : W w e a w') (hrest : Ends W (next a) w' tr b w'') :
    Ends W (ask e next) w (⟨e, a⟩ :: tr) b w'' := Steps.cons a h hrest

/-- A program that waits to go on with `f` is either still inside `p` or past it. -/
theorem Steps.bind_cases {f : α → Interactive E Answer β} {q : Interactive E Answer β}
    (h : Steps W (p >>= f) w tr q w') :
    (∃ p', Steps W p w tr p' w' ∧ q = p' >>= f) ∨
      ∃ a tr₁ tr₂ u, Ends W p w tr₁ a u ∧ Steps W (f a) u tr₂ q w' ∧ tr = tr₁ ++ tr₂ := by
  induction p generalizing w tr with
  | done a => exact Or.inr ⟨a, [], tr, w, .nil _ _, h, rfl⟩
  | ask e next ih =>
      cases h with
      | nil => exact Or.inl ⟨ask e next, .nil _ _, rfl⟩
      | cons a ha hrest =>
          rcases ih a hrest with ⟨p', hp, hq⟩ | ⟨b, tr₁, tr₂, u, hp, hf, rfl⟩
          · exact Or.inl ⟨p', .cons a ha hp, hq⟩
          · exact Or.inr ⟨b, _, tr₂, u, .cons a ha hp, hf, rfl⟩

theorem Steps.bind {f : α → Interactive E Answer β} (h : Steps W p w tr q w') :
    Steps W (p >>= f) w tr (q >>= f) w' := by
  induction h with
  | nil => exact .nil _ _
  | cons a ha _ ih => exact .cons a ha ih

theorem Ends.bind {f : α → Interactive E Answer β} {q : Interactive E Answer β}
    (h : Ends W p w tr a w') (h' : Steps W (f a) w' tr' q w'') :
    Steps W (p >>= f) w (tr ++ tr') q w'' := (Steps.bind h).append h'

theorem ends_bind_iff {f : α → Interactive E Answer β} {c : β} :
    Ends W (p >>= f) w tr c w' ↔
      ∃ a tr₁ tr₂ u, Ends W p w tr₁ a u ∧ Ends W (f a) u tr₂ c w' ∧ tr = tr₁ ++ tr₂ := by
  constructor
  · intro h
    rcases Steps.bind_cases h with ⟨p', hp, hq⟩ | hpast
    · cases p' with
      | done a =>
          refine ⟨a, tr, [], w', hp, ?_, by simp⟩
          rw [Ends, hq]
          exact .nil _ _
      | ask e next => cases hq
    · exact hpast
  · rintro ⟨a, tr₁, tr₂, u, hp, hf, rfl⟩
    exact Ends.bind hp hf

theorem exists_ends_of_answers (h : ∀ w e, ∃ a w', W w e a w') (p : Interactive E Answer α)
    (w : ω) : ∃ tr a w', Ends W p w tr a w' := by
  induction p generalizing w with
  | done a => exact ⟨[], a, w, .nil _ _⟩
  | ask e next ih =>
      obtain ⟨a, u, hu⟩ := h w e
      obtain ⟨tr, b, w', hends⟩ := ih a u
      exact ⟨_, b, w', .cons a hu hends⟩

def AsksOnly (P : E → Prop) : Interactive E Answer α → Prop
  | done _ => True
  | ask e next => P e ∧ ∀ a, (next a).AsksOnly P

theorem AsksOnly.bind {P : E → Prop} {f : α → Interactive E Answer β} (hp : p.AsksOnly P)
    (hf : ∀ a, (f a).AsksOnly P) : (p >>= f).AsksOnly P := by
  induction p with
  | done a => exact hf a
  | ask e next ih => exact ⟨hp.1, fun a => ih a (hp.2 a)⟩

theorem AsksOnly.mono {P R : E → Prop} (hp : p.AsksOnly P)
    (hPR : ∀ e, P e → R e) : p.AsksOnly R := by
  induction p with
  | done a => trivial
  | ask e next ih => exact ⟨hPR e hp.1, fun a => ih a (hp.2 a)⟩

theorem Steps.asks {P : E → Prop} (h : Steps W p w tr q w') (hp : p.AsksOnly P) :
    ∀ x ∈ tr, P x.1 := by
  induction h with
  | nil => exact List.forall_mem_nil _
  | cons a _ _ ih => exact List.forall_mem_cons.2 ⟨hp.1, ih (hp.2 a)⟩

theorem Steps.asksOnly {P : E → Prop} (h : Steps W p w tr q w') (hp : p.AsksOnly P) :
    q.AsksOnly P := by
  induction h with
  | nil => exact hp
  | cons a _ _ ih => exact ih (hp.2 a)

/-- A program that waits with a question `p` never asks is past `p`. -/
theorem Steps.bind_past {P : E → Prop} {f : α → Interactive E Answer β} {e : E}
    {next : Answer e → Interactive E Answer β} (h : Steps W (p >>= f) w tr (ask e next) w')
    (hp : p.AsksOnly P) (he : ¬ P e) :
    ∃ a tr₁ tr₂ u, Ends W p w tr₁ a u ∧ Steps W (f a) u tr₂ (ask e next) w' ∧
      tr = tr₁ ++ tr₂ := by
  rcases h.bind_cases with ⟨p', hsteps, hq⟩ | hpast
  · cases p' with
    | done a => exact ⟨a, tr, [], w', hsteps, hq ▸ .nil _ _, by simp⟩
    | ask e' next' =>
        obtain rfl : e = e' := (ask.inj hq).1
        exact absurd (hsteps.asksOnly hp).1 he
  · exact hpast

def Returns (P : α → Prop) : Interactive E Answer α → Prop
  | done a => P a
  | ask _ next => ∀ a, (next a).Returns P

theorem returns_of_forall {P : α → Prop} (h : ∀ a, P a) (p : Interactive E Answer α) :
    p.Returns P := by
  induction p with
  | done a => exact h a
  | ask e next ih => exact ih

theorem Returns.mono {P Q : α → Prop} (hp : p.Returns P) (hPQ : ∀ a, P a → Q a) : p.Returns Q := by
  induction p with
  | done a => exact hPQ a hp
  | ask e next ih => exact fun a => ih a (hp a)

theorem Returns.bind {P : α → Prop} {Q : β → Prop} {f : α → Interactive E Answer β}
    (hp : p.Returns P) (hf : ∀ a, P a → (f a).Returns Q) : (p >>= f).Returns Q := by
  induction p with
  | done a => exact hf a hp
  | ask e next ih => exact fun a => ih a (hp a)

theorem Returns.of_ends {P : α → Prop} (hp : p.Returns P) (h : Ends W p w tr a w') : P a := by
  induction p generalizing w tr with
  | done b =>
      obtain ⟨-, rfl, -⟩ := ends_done_iff.1 h
      exact hp
  | ask e next ih =>
      obtain ⟨b, u, tr', -, hrest, -⟩ := ends_ask_iff.1 h
      exact ih b (hp b) hrest

end Interactive
