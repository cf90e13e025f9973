import GcsChat.Interactive

/-!
# Two programs side by side

Some questions are settled: both programs ask them in the same order and get the same answers. All
others each program asks for itself. A lockstep of two programs relates what they end with, whatever
the answers are.
-/

namespace Interactive

variable {E : Type} {Answer : E → Type} {α β γ δ ω υ : Type}

/-- The two programs can be run side by side, and what they end with is related by `R`. -/
inductive Lockstep (W : World E Answer ω) (settled : E → Prop) (R : α → ω → β → ω → Prop) :
    Interactive E Answer α → ω → Interactive E Answer β → ω → Prop
  | done {a : α} {b : β} {w v : ω} (h : R a w b v) : Lockstep W settled R (done a) w (done b) v
  | both {e : E} {next : Answer e → Interactive E Answer α} {next' : Answer e → Interactive E Answer β}
      {w v : ω} (he : settled e) (h : ∀ a w' v', W w e a w' → W v e a v' →
        Lockstep W settled R (next a) w' (next' a) v') :
      Lockstep W settled R (ask e next) w (ask e next') v
  | left {e : E} {next : Answer e → Interactive E Answer α} {q : Interactive E Answer β}
      {w v : ω} (he : ¬ settled e) (h : ∀ a w', W w e a w' → Lockstep W settled R (next a) w' q v) :
      Lockstep W settled R (ask e next) w q v
  | right {e : E} {p : Interactive E Answer α} {next : Answer e → Interactive E Answer β}
      {w v : ω} (he : ¬ settled e) (h : ∀ a v', W v e a v' → Lockstep W settled R p w (next a) v') :
      Lockstep W settled R p w (ask e next) v

section Settled

variable (settled : E → Prop) [DecidablePred settled]

def settledPart (tr : Trace E Answer) : Trace E Answer := tr.filter fun x => settled x.1

variable {settled} {W : World E Answer ω} {R : α → ω → β → ω → Prop} {p : Interactive E Answer α}
  {q : Interactive E Answer β} {w w' v v' : ω} {tr tr' : Trace E Answer} {a : α} {b : β}

theorem settledPart_cons_of_pos {e : E} (he : settled e) (a : Answer e) :
    settledPart settled (⟨e, a⟩ :: tr) = ⟨e, a⟩ :: settledPart settled tr :=
  List.filter_cons_of_pos (by simpa using he)

theorem settledPart_cons_of_neg {e : E} (he : ¬ settled e) (a : Answer e) :
    settledPart settled (⟨e, a⟩ :: tr) = settledPart settled tr :=
  List.filter_cons_of_neg (by simpa using he)

theorem Lockstep.ends (h : Lockstep W settled R p w q v) (hp : Ends W p w tr a w')
    (hq : Ends W q v tr' b v') (hsame : settledPart settled tr = settledPart settled tr') :
    R a w' b v' := by
  induction h generalizing tr tr' with
  | done h =>
      obtain ⟨-, rfl, rfl⟩ := ends_done_iff.1 hp
      obtain ⟨-, rfl, rfl⟩ := ends_done_iff.1 hq
      exact h
  | both he _ ih =>
      obtain ⟨c, u, tr₁, hc, hp', rfl⟩ := ends_ask_iff.1 hp
      obtain ⟨d, x, tr₂, hd, hq', rfl⟩ := ends_ask_iff.1 hq
      rw [settledPart_cons_of_pos he, settledPart_cons_of_pos he, List.cons.injEq] at hsame
      obtain rfl : c = d := by simpa using hsame.1
      exact ih c u x hc hd hp' hq' hsame.2
  | left he _ ih =>
      obtain ⟨c, u, tr₁, hc, hp', rfl⟩ := ends_ask_iff.1 hp
      exact ih c u hc hp' hq ((settledPart_cons_of_neg he c).symm.trans hsame)
  | right he _ ih =>
      obtain ⟨c, u, tr₂, hc, hq', rfl⟩ := ends_ask_iff.1 hq
      exact ih c u hc hp hq' (hsame.trans (settledPart_cons_of_neg he c))

end Settled

section Rules

variable {W : World E Answer ω} {settled : E → Prop} {R : α → ω → β → ω → Prop}
  {S : γ → ω → δ → ω → Prop} {p : Interactive E Answer α} {q : Interactive E Answer β} {w v : ω}

theorem Lockstep.bind {f : α → Interactive E Answer γ} {g : β → Interactive E Answer δ}
    (h : Lockstep W settled R p w q v)
    (hfg : ∀ a w b v, R a w b v → Lockstep W settled S (f a) w (g b) v) :
    Lockstep W settled S (p >>= f) w (q >>= g) v := by
  induction h with
  | done h => exact hfg _ _ _ _ h
  | both he _ ih => exact .both he ih
  | left he _ ih => exact .left he ih
  | right he _ ih => exact .right he ih

/-- A program that asks settled questions only, of which the world keeps no trace, is in lockstep
with itself. -/
theorem Lockstep.self (hp : p.AsksOnly settled)
    (hW : ∀ e, settled e → ∀ w a w', W w e a w' → w' = w) :
    Lockstep W settled (fun a w' b v' => a = b ∧ w' = w ∧ v' = v) p w p v := by
  induction p with
  | done a => exact .done ⟨rfl, rfl, rfl⟩
  | ask e next ih =>
      refine .both hp.1 fun a w' v' hw hv => ?_
      obtain rfl := hW e hp.1 w a w' hw
      obtain rfl := hW e hp.1 v a v' hv
      exact ih a (hp.2 a)

/-- Two programs that ask nothing settled run each for itself. -/
theorem Lockstep.apart (hp : p.AsksOnly fun e => ¬ settled e) (hq : q.AsksOnly fun e => ¬ settled e)
    (h : ∀ tr a w' tr' b v', Ends W p w tr a w' → Ends W q v tr' b v' → R a w' b v') :
    Lockstep W settled R p w q v := by
  induction p generalizing w with
  | done a =>
      induction q generalizing v with
      | done b => exact .done (h [] a w [] b v (.nil _ _) (.nil _ _))
      | ask e next ih =>
          refine .right hq.1 fun c v' hv => ih c (hq.2 c) fun tr a w' tr' b u hp hends => ?_
          exact h tr a w' _ b u hp (hends.cons c hv)
  | ask e next ih =>
      refine .left hp.1 fun c w' hw => ih c (hp.2 c) fun tr a u tr' b v' hends hq => ?_
      exact h _ a u tr' b v' (hends.cons c hw) hq

end Rules

section Logging

variable (W : World E Answer ω) (note : (Σ e, Answer e) → Option υ)

/-- The world also writes down what `note` picks from each question and its answer. -/
def World.logging : World E Answer (ω × List υ) :=
  fun w e a w' => W w.1 e a w'.1 ∧ w'.2 = w.2 ++ (note ⟨e, a⟩).toList

variable {W note} {p : Interactive E Answer α} {w w' : ω} {log log' : List υ}
  {tr : Trace E Answer} {a : α}

theorem ends_logging_iff : Ends (W.logging note) p (w, log) tr a (w', log') ↔
    Ends W p w tr a w' ∧ log' = log ++ tr.filterMap note := by
  induction p generalizing w log tr with
  | done b =>
      rw [ends_done_iff, ends_done_iff]
      constructor
      · rintro ⟨rfl, rfl, heq⟩
        cases heq
        exact ⟨⟨rfl, rfl, rfl⟩, (List.append_nil _).symm⟩
      · rintro ⟨⟨rfl, rfl, rfl⟩, rfl⟩
        exact ⟨rfl, rfl, by simp⟩
  | ask e next ih =>
      have hstep : ∀ b tr', log ++ (note ⟨e, b⟩).toList ++ tr'.filterMap note =
          log ++ (⟨e, b⟩ :: tr' : Trace E Answer).filterMap note := by
        intro b tr'
        rw [List.append_assoc, List.filterMap_cons]
        cases note ⟨e, b⟩ <;> rfl
      constructor
      · intro h
        obtain ⟨b, ⟨u, log₁⟩, tr', ⟨hb, hlog₁⟩, hrest, rfl⟩ := ends_ask_iff.1 h
        obtain ⟨hends, rfl⟩ := (ih b).1 hrest
        obtain rfl : log₁ = _ := hlog₁
        exact ⟨hends.cons b hb, hstep b tr'⟩
      · rintro ⟨h, rfl⟩
        obtain ⟨b, u, tr', hb, hrest, rfl⟩ := ends_ask_iff.1 h
        refine ends_ask_iff.2 ⟨b, (u, _), tr', ⟨hb, rfl⟩, (ih b).2 ⟨hrest, ?_⟩, rfl⟩
        exact (hstep b tr').symm

end Logging

end Interactive
