import Mathlib.Data.List.Lex
import Mathlib.Tactic

/-!
# Byte strings with the searching operations of `std::string`

A byte string is a list of bytes, compared byte by byte as `std::string` compares its unsigned
characters. `find`, `rfind` and `endsWith` are the searches the standard library offers; the
lemmas below say what they return on a string put together from known pieces.
-/

namespace ByteString

abbrev Bytes := List UInt8

instance instLinearOrderUInt8 : LinearOrder UInt8 where
  le_refl _ := UInt8.le_refl _
  le_trans _ _ _ := UInt8.le_trans
  lt_iff_le_not_ge a b := by
    simp only [UInt8.lt_iff_toNat_lt, UInt8.le_iff_toNat_le]
    omega
  le_antisymm _ _ := UInt8.le_antisymm
  le_total := UInt8.le_total
  toDecidableLE := inferInstance

instance instLawfulBEqBytes : LawfulBEq Bytes := inferInstance

/-- The UTF-8 bytes of a literal. -/
def ofString (s : String) : Bytes := s.toList.flatMap String.utf8EncodeChar

/-- Position of the first occurrence of `pat`, as `std::string::find`. -/
def find (pat : Bytes) : Bytes → Option ℕ
  | [] => if pat <+: [] then some 0 else none
  | c :: cs => if pat <+: c :: cs then some 0 else (find pat cs).map (· + 1)

/-- Position of the last occurrence of a byte, as `std::string::rfind`. -/
def rfind (c : UInt8) : Bytes → Option ℕ
  | [] => none
  | x :: xs => match rfind c xs with
    | some i => some (i + 1)
    | none => if x = c then some 0 else none

def endsWith (value suffix : Bytes) : Bool :=
  decide (suffix.length ≤ value.length) && value.drop (value.length - suffix.length) == suffix

theorem endsWith_iff (value suffix : Bytes) : endsWith value suffix = true ↔ suffix <:+ value := by
  simp only [endsWith, Bool.and_eq_true, decide_eq_true_eq, beq_iff_eq]
  constructor
  · rintro ⟨_, hdrop⟩
    exact hdrop ▸ List.drop_suffix _ _
  · intro h
    exact ⟨h.length_le, (List.suffix_iff_eq_drop.1 h).symm⟩

@[simp] theorem find_append_self (pat rest : Bytes) : find pat (pat ++ rest) = some 0 := by
  cases h : pat ++ rest with
  | nil => simp [find, List.append_eq_nil_iff.1 h]
  | cons c cs =>
      have hp : pat <+: c :: cs := h ▸ List.prefix_append pat rest
      rw [find, if_pos hp]

theorem find_eq_none_iff {pat b : Bytes} : find pat b = none ↔ ¬ pat <:+: b := by
  induction b with
  | nil => simp [find]
  | cons c cs ih =>
      rw [find, List.infix_cons_iff, not_or]
      by_cases hp : pat <+: c :: cs
      · rw [if_pos hp]
        simp [hp]
      · rw [if_neg hp, Option.map_eq_none_iff, ih]
        exact (and_iff_right hp).symm

theorem find_cons_of_not_isPrefix {pat : Bytes} {c : UInt8} {cs : Bytes} (h : ¬ pat <+: c :: cs) :
    find pat (c :: cs) = (find pat cs).map (· + 1) := by
  rw [find, if_neg h]

theorem exists_framing_of_find {pat b : Bytes} (hpat : pat ≠ []) {n : ℕ} (h : find pat b = some n) :
    ∃ framing rest, ¬ pat <:+: framing ∧ b = framing ++ (pat ++ rest) := by
  have hnil : ¬ pat <:+: [] := fun hin => hpat (List.infix_nil.1 hin)
  induction b generalizing n with
  | nil =>
      rw [find] at h
      split at h
      · next hprefix => exact absurd hprefix.isInfix hnil
      · cases h
  | cons c cs ih =>
      by_cases hprefix : pat <+: c :: cs
      · obtain ⟨rest, hrest⟩ := hprefix
        exact ⟨[], rest, hnil, hrest.symm⟩
      · rw [find_cons_of_not_isPrefix hprefix, Option.map_eq_some_iff] at h
        obtain ⟨m, hm, -⟩ := h
        obtain ⟨framing, rest, hframing, rfl⟩ := ih hm
        refine ⟨c :: framing, rest, fun hin => ?_, rfl⟩
        rcases List.infix_cons_iff.1 hin with hstart | hlater
        · exact hprefix (hstart.trans (List.prefix_append (c :: framing) (pat ++ rest)))
        · exact hframing hlater

/-- No proper beginning of the pattern is also one of its ends. -/
def Borderless (pat : Bytes) : Prop := ∀ n < pat.length, pat.take n <:+ pat → n = 0

instance (pat : Bytes) : Decidable (Borderless pat) :=
  inferInstanceAs (Decidable (∀ n < pat.length, pat.take n <:+ pat → n = 0))

/-- What precedes a pattern cannot bring its first occurrence forward, unless it has one itself. -/
theorem find_append_append {pat : Bytes} (hpat : Borderless pat) {framing : Bytes}
    (h : ¬ pat <:+: framing) (rest : Bytes) :
    find pat (framing ++ (pat ++ rest)) = some framing.length := by
  induction framing with
  | nil => exact find_append_self pat rest
  | cons c cs ih =>
      have hnot : ¬ pat <+: c :: cs ++ (pat ++ rest) := by
        intro hp
        by_cases hlong : pat.length ≤ (c :: cs).length
        · exact h (List.prefix_of_prefix_length_le hp (List.prefix_append _ _) hlong).isInfix
        · -- the occurrence ends inside the pattern, with a beginning of the pattern
          obtain ⟨border, rfl⟩ : c :: cs <+: pat :=
            List.prefix_of_prefix_length_le (List.prefix_append _ _) hp (by omega)
          have hborder : border <+: c :: cs ++ border :=
            List.prefix_of_prefix_length_le ((List.prefix_append_right_inj (c :: cs)).1 hp)
              (List.prefix_append _ rest) (List.suffix_append _ _).length_le
          rw [List.length_append] at hlong
          have hempty := hpat border.length (by simp) (by
            rw [← List.prefix_iff_eq_take.1 hborder]
            exact List.suffix_append _ _)
          omega
      rw [List.cons_append] at hnot ⊢
      rw [find_cons_of_not_isPrefix hnot, ih fun hin => h (hin.trans (List.suffix_cons c cs).isInfix)]
      rfl

theorem rfind_of_notMem {c : UInt8} {xs : Bytes} (h : c ∉ xs) : rfind c xs = none := by
  induction xs with
  | nil => rfl
  | cons x xs ih =>
      have hx : x ≠ c := fun he => h (he ▸ List.mem_cons_self)
      simp [rfind, ih (fun hm => h (List.mem_cons_of_mem x hm)), hx]

theorem rfind_of_mem {c : UInt8} {xs : Bytes} (h : c ∈ xs) :
    ∃ i < xs.length, rfind c xs = some i := by
  induction xs with
  | nil => exact absurd h List.not_mem_nil
  | cons x xs ih =>
      rw [rfind]
      by_cases hmem : c ∈ xs
      · obtain ⟨i, hi, hlast⟩ := ih hmem
        rw [hlast]
        exact ⟨i + 1, Nat.succ_lt_succ hi, rfl⟩
      · have hx : x = c := ((List.mem_cons.1 h).resolve_right hmem).symm
        rw [rfind_of_notMem hmem]
        exact ⟨0, Nat.succ_pos _, if_pos hx⟩

theorem rfind_append_cons (xs : Bytes) {c : UInt8} {ys : Bytes} (h : c ∉ ys) :
    rfind c (xs ++ c :: ys) = some xs.length := by
  induction xs with
  | nil => simp [rfind, rfind_of_notMem h]
  | cons x xs ih => simp only [List.cons_append, rfind, ih, List.length_cons]

theorem eq_of_append_cons_eq {c : UInt8} {a b x y : Bytes} (hx : c ∉ x) (hy : c ∉ y)
    (h : a ++ c :: x = b ++ c :: y) : a = b ∧ x = y := by
  have hlen : a.length = b.length := by
    have hr := congrArg (rfind c) h
    rw [rfind_append_cons a hx, rfind_append_cons b hy] at hr
    exact Option.some.inj hr
  obtain ⟨hab, hcons⟩ := List.append_inj h hlen
  exact ⟨hab, (List.cons.inj hcons).2⟩

theorem eq_of_cons_suffix_append_cons {c : UInt8} {a x y : Bytes} (hx : c ∉ x) (hy : c ∉ y)
    (h : c :: y <:+ a ++ c :: x) : y = x := by
  obtain ⟨t, ht⟩ := h
  exact (eq_of_append_cons_eq hy hx ht).2

/-- A pair of bytes that reaches into `a` from behind without being its end reaches in by one. -/
theorem eq_singleton_of_append_eq {a rest base : Bytes} {c d : UInt8}
    (h : a ++ rest = base ++ [c, d]) (hshort : base.length < a.length) (hnot : ¬ [c, d] <:+ a) :
    rest = [d] := by
  rcases List.append_eq_append_iff.1 h with ⟨overlap, hbase, -⟩ | ⟨cut, ha, hpair⟩
  · rw [hbase, List.length_append] at hshort
    omega
  · cases cut with
    | nil =>
        rw [ha, List.append_nil] at hshort
        omega
    | cons x xs =>
        obtain ⟨rfl, hrest⟩ := List.cons.inj hpair
        cases xs with
        | nil => exact hrest.symm
        | cons y ys =>
            obtain ⟨rfl, htail⟩ := List.cons.inj hrest
            obtain ⟨rfl, -⟩ := List.append_eq_nil_iff.1 htail.symm
            exact absurd ⟨base, ha.symm⟩ hnot

theorem eq_of_append_singleton_isPrefix {c : UInt8} {a b y : Bytes} (ha : c ∉ a) (hb : c ∉ b)
    (h : a ++ [c] <+: b ++ c :: y) : a = b := by
  induction a generalizing b with
  | nil =>
      cases b with
      | nil => rfl
      | cons x xs =>
          have hx : c = x := (List.cons_prefix_cons.1 h).1
          exact absurd (hx ▸ List.mem_cons_self) hb
  | cons x xs ih =>
      cases b with
      | nil =>
          have hx : x = c := (List.cons_prefix_cons.1 h).1
          exact absurd (hx ▸ List.mem_cons_self) ha
      | cons z zs =>
          obtain ⟨hxz, htail⟩ := List.cons_prefix_cons.1 h
          rw [hxz, ih (fun hm => ha (List.mem_cons_of_mem x hm))
            (fun hm => hb (List.mem_cons_of_mem z hm)) htail]

def ValidUtf8 (b : Bytes) : Prop := b.toByteArray.IsValidUTF8

instance (b : Bytes) : Decidable (ValidUtf8 b) :=
  decidable_of_iff (b.toByteArray.validateUTF8 = true) ByteArray.validateUTF8_eq_true_iff

theorem ValidUtf8.append {a b : Bytes} (ha : ValidUtf8 a) (hb : ValidUtf8 b) :
    ValidUtf8 (a ++ b) := by
  unfold ValidUtf8 at *
  rw [List.toByteArray_append]
  exact ha.append hb

theorem validUtf8_ofString (s : String) : ValidUtf8 (ofString s) :=
  ⟨s.toList, rfl⟩

theorem validUtf8_nil : ValidUtf8 [] := validUtf8_ofString ""

def utf8 (cs : List Char) : Bytes := cs.flatMap String.utf8EncodeChar

theorem and_0xC0_eq_0x80_iff (b : UInt8) : b &&& 0xC0 = 0x80 ↔ 128 ≤ b.toNat ∧ b.toNat < 192 := by
  have hnat : ∀ n < 256, n &&& 192 = 128 ↔ 128 ≤ n ∧ n < 192 := by decide +kernel
  rw [← hnat b.toNat b.toNat_lt, ← UInt8.toNat_inj, UInt8.toNat_and]
  rfl

theorem exists_utf8EncodeChar_eq (c : Char) : ∃ lead rest, String.utf8EncodeChar c = lead :: rest ∧
    lead &&& 0xC0 ≠ 0x80 ∧ ∀ b ∈ rest, b &&& 0xC0 = 0x80 := by
  have hlead : ∀ n < 256, n < 128 ∨ 192 ≤ n → UInt8.ofNat n &&& 0xC0 ≠ 0x80 := by
    intro n hn hrange
    rw [Ne, and_0xC0_eq_0x80_iff, UInt8.toNat_ofNat_of_lt' hn]
    omega
  have hrest : ∀ n, UInt8.ofNat (n % 64 + 128) &&& 0xC0 = 0x80 := by
    intro n
    have hlt : n % 64 + 128 < 256 := by omega
    rw [and_0xC0_eq_0x80_iff, UInt8.toNat_ofNat_of_lt' hlt]
    omega
  rw [String.utf8EncodeChar]
  split_ifs with hone htwo hthree
  · exact ⟨_, [], rfl, hlead _ (by omega) (by omega), List.forall_mem_nil _⟩
  · exact ⟨_, [_], rfl, hlead _ (by omega) (by omega), List.forall_mem_singleton.2 (hrest _)⟩
  · refine ⟨_, [_, _], rfl, hlead _ (by omega) (by omega), ?_⟩
    simp only [List.forall_mem_cons]
    exact ⟨hrest _, hrest _, List.forall_mem_nil _⟩
  · refine ⟨_, [_, _, _], rfl, hlead _ (by omega) (by omega), ?_⟩
    simp only [List.forall_mem_cons]
    exact ⟨hrest _, hrest _, hrest _, List.forall_mem_nil _⟩

/-- There are as many bytes that begin a character as there are characters. -/
theorem countP_utf8 (cs : List Char) :
    (utf8 cs).countP (fun b => b &&& 0xC0 != 0x80) = cs.length := by
  induction cs with
  | nil => rfl
  | cons c cs ih =>
      obtain ⟨lead, rest, hencode, hlead, hrest⟩ := exists_utf8EncodeChar_eq c
      have hnone : rest.countP (fun b => b &&& 0xC0 != 0x80) = 0 := by
        rw [List.countP_eq_zero]
        intro b hb
        simp [hrest b hb]
      rw [utf8, List.flatMap_cons, hencode, List.countP_append, ← utf8, ih, List.countP_cons, hnone,
        if_pos (bne_iff_ne.2 hlead), List.length_cons]
      omega

end ByteString
