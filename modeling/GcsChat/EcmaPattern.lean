import Mathlib.Data.List.Basic
import Mathlib.Tactic.SplitIfs

/-!
# Byte patterns

The ECMAScript patterns that are a sequence of bytes and dots, each of them once or starred, as
`std::regex` reads and fully matches them on strings of `char`.
-/

namespace EcmaPattern

/-- Line feed and carriage return, which a dot does not match. -/
def isLineTerminator (c : UInt8) : Bool := c == 10 || c == 13

inductive Atom
  | literal (b : UInt8)
  | dot
  deriving DecidableEq

inductive Item
  | once (a : Atom)
  | star (a : Atom)
  deriving DecidableEq

abbrev Pattern := List Item

def Atom.accepts : Atom → UInt8 → Bool
  | .literal b, c => c == b
  | .dot, c => !isLineTerminator c

/-- The bytes that are not literals, the dot included: `$ ( ) * + . ? [ \ ] ^ { | }`. -/
def isSyntaxCharacter (c : UInt8) : Bool :=
  [36, 40, 41, 42, 43, 46, 63, 91, 92, 93, 94, 123, 124, 125].contains c

def readAtom (c : UInt8) : Option Atom :=
  if c == 46 then some .dot else if isSyntaxCharacter c then none else some (.literal c)

def readPattern : List UInt8 → Option Pattern
  | [] => some []
  | c :: 42 :: rest => do
      let a ← readAtom c
      let p ← readPattern rest
      return .star a :: p
  | c :: rest => do
      let a ← readAtom c
      let p ← readPattern rest
      return .once a :: p

/-- Some bytes that `ok` accepts, and then what `next` matches. -/
def matchStar (ok : UInt8 → Bool) (next : List UInt8 → Bool) : List UInt8 → Bool
  | [] => next []
  | c :: rest => next (c :: rest) || ok c && matchStar ok next rest

def fullMatch : Pattern → List UInt8 → Bool
  | [], w => w.isEmpty
  | .once _ :: _, [] => false
  | .once a :: p, c :: rest => a.accepts c && fullMatch p rest
  | .star a :: p, w => matchStar a.accepts (fullMatch p) w

def literals (bs : List UInt8) : Pattern := bs.map fun b => .once (.literal b)

theorem matchStar_iff {ok : UInt8 → Bool} {next : List UInt8 → Bool} {w : List UInt8} :
    matchStar ok next w = true ↔
      ∃ taken rest, w = taken ++ rest ∧ (∀ c ∈ taken, ok c = true) ∧ next rest = true := by
  induction w with
  | nil =>
      rw [matchStar]
      constructor
      · exact fun h => ⟨[], [], rfl, fun c hc => absurd hc List.not_mem_nil, h⟩
      · rintro ⟨taken, rest, hw, -, h⟩
        rw [(List.append_eq_nil_iff.1 hw.symm).2] at h
        exact h
  | cons c w ih =>
      rw [matchStar, Bool.or_eq_true, Bool.and_eq_true, ih]
      constructor
      · rintro (h | ⟨hc, taken, rest, rfl, htaken, h⟩)
        · exact ⟨[], c :: w, rfl, fun c hc => absurd hc List.not_mem_nil, h⟩
        · exact ⟨c :: taken, rest, rfl, List.forall_mem_cons.2 ⟨hc, htaken⟩, h⟩
      · rintro ⟨taken, rest, hw, htaken, h⟩
        cases taken with
        | nil =>
            rw [List.nil_append] at hw
            exact .inl (hw ▸ h)
        | cons d taken =>
            obtain ⟨rfl, rfl⟩ := List.cons.inj hw
            obtain ⟨hc, htaken⟩ := List.forall_mem_cons.1 htaken
            exact .inr ⟨hc, taken, rest, rfl, htaken, h⟩

theorem fullMatch_literals_append (bs : List UInt8) (p : Pattern) (w : List UInt8) :
    fullMatch (literals bs ++ p) (bs ++ w) = fullMatch p w := by
  induction bs with
  | nil => rfl
  | cons b bs ih =>
      rw [literals, List.map_cons, List.cons_append, List.cons_append, fullMatch, Atom.accepts,
        beq_self_eq_true, Bool.true_and]
      exact ih

theorem fullMatch_star_dot_iff {w : List UInt8} :
    fullMatch [.star .dot] w = true ↔ ∀ c ∈ w, isLineTerminator c = false := by
  rw [fullMatch, matchStar_iff]
  constructor
  · rintro ⟨taken, rest, rfl, htaken, hrest⟩ c hc
    rw [List.isEmpty_iff.1 hrest, List.append_nil] at hc
    have haccepted := htaken c hc
    rw [Atom.accepts, Bool.not_eq_true'] at haccepted
    exact haccepted
  · intro h
    refine ⟨w, [], (List.append_nil w).symm, fun c hc => ?_, rfl⟩
    rw [Atom.accepts, h c hc]
    rfl

end EcmaPattern
