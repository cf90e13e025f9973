import GcsChat.ProtoWire

/-!
# Messages over the protobuf wire format

`MessageCodec` is what a program may rely on when it serializes and parses a message type. A
`Schema` describes a message type field by field: the field numbers, how each field type is
written and read back, and where fields the type does not know are kept. Every schema gives a
codec; a known number with a foreign wire type counts as unknown, an invalid value fails the
parse, and a repeated singular field overwrites.
-/

namespace ProtoSchema

open ByteString ProtoWire

/-- Serialization that can be undone on the valid values, and parsing that yields only those. -/
structure MessageCodec (α : Type*) (Valid : α → Prop) where
  serialize : α → Bytes
  parse : Bytes → Option α
  parse_serialize : ∀ m, Valid m → parse (serialize m) = some m
  valid_of_parse : ∀ b m, parse b = some m → Valid m

/-- The bytes are what the value is written as, and are read as the value. -/
def MessageCodec.Carries {α : Type*} {Valid : α → Prop} (codec : MessageCodec α Valid) (b : Bytes)
    (m : α) : Prop := codec.serialize m = b ∧ codec.parse b = some m

theorem MessageCodec.carries_serialize {α : Type*} {Valid : α → Prop} (codec : MessageCodec α Valid)
    {m : α} (h : Valid m) : codec.Carries (codec.serialize m) m := ⟨rfl, codec.parse_serialize m h⟩

inductive Absorbed (τ : Type)
  | mismatch
  | invalid
  | value (v : τ)

def absorbAll {τ : Type} (absorb : τ → WireValue → Absorbed τ) : τ → List WireValue → Option τ
  | t, [] => some t
  | t, x :: xs => match absorb t x with
    | .value t' => absorbAll absorb t' xs
    | .mismatch => none
    | .invalid => none

structure FieldType (τ : Type) where
  initial : τ
  Valid : τ → Prop
  emit : τ → List WireValue
  absorb : τ → WireValue → Absorbed τ
  valid_initial : Valid initial
  valid_absorb : ∀ t x t', Valid t → x.WellFormed → absorb t x = .value t' → Valid t'
  mismatch_absorb : ∀ t t' x, absorb t x = .mismatch → absorb t' x = .mismatch
  wellFormed_emit : ∀ t, Valid t → ∀ x ∈ emit t, x.WellFormed
  absorb_emit : ∀ t, Valid t → absorbAll absorb initial (emit t) = some t

structure FieldSpec (α : Type) where
  number : ℕ
  carrier : Type
  type : FieldType carrier
  get : α → carrier
  set : α → carrier → α

structure Schema (α : Type) where
  specs : List (FieldSpec α)
  initial : α
  unknown : α → List WireField
  addUnknown : α → WireField → α
  number_valid : ∀ s ∈ specs, 0 < s.number ∧ s.number < 2 ^ 29
  numbers_distinct : specs.Pairwise (fun s t => s.number ≠ t.number)
  get_initial : ∀ s ∈ specs, s.get initial = s.type.initial
  get_set : ∀ s ∈ specs, ∀ m v, s.get (s.set m v) = v
  get_set_ne : ∀ s ∈ specs, ∀ t ∈ specs, s.number ≠ t.number → ∀ m v, s.get (t.set m v) = s.get m
  unknown_set : ∀ s ∈ specs, ∀ m v, unknown (s.set m v) = unknown m
  get_addUnknown : ∀ s ∈ specs, ∀ m f, s.get (addUnknown m f) = s.get m
  unknown_addUnknown : ∀ m f, unknown (addUnknown m f) = unknown m ++ [f]
  unknown_initial : unknown initial = []
  ext_get : ∀ m m', (∀ s ∈ specs, s.get m = s.get m') → unknown m = unknown m' → m = m'

namespace Schema

variable {α : Type} (S : Schema α)

def acceptField (m : α) (f : WireField) : Option α :=
  match S.specs.find? (fun s => s.number = f.number) with
  | none => some (S.addUnknown m f)
  | some s => match s.type.absorb (s.get m) f.value with
    | .mismatch => some (S.addUnknown m f)
    | .invalid => none
    | .value v => some (s.set m v)

def fields (m : α) : List WireField :=
  S.specs.flatMap (fun s => (s.type.emit (s.get m)).map (WireField.mk s.number)) ++ S.unknown m

def serialize (m : α) : Bytes := encode (S.fields m)

def parse (b : Bytes) : Option α := (decode b).bind fun fs => fs.foldlM S.acceptField S.initial

def Valid (m : α) : Prop :=
  (∀ s ∈ S.specs, s.type.Valid (s.get m)) ∧
    ∀ f ∈ S.unknown m, f.WellFormed ∧ ∀ m', S.acceptField m' f = some (S.addUnknown m' f)

variable {S}

theorem eq_of_number_eq {s t : FieldSpec α} (hs : s ∈ S.specs) (ht : t ∈ S.specs)
    (h : s.number = t.number) : s = t := by
  have hnodup : (S.specs.map FieldSpec.number).Nodup := List.pairwise_map.2 S.numbers_distinct
  exact List.inj_on_of_nodup_map hnodup hs ht h

theorem find?_eq_some {s : FieldSpec α} (h : s ∈ S.specs) :
    S.specs.find? (fun t => t.number = s.number) = some s := by
  cases hfind : S.specs.find? (fun t => t.number = s.number) with
  | none => simpa using List.find?_eq_none.1 hfind s h
  | some t =>
      have ht : t ∈ S.specs := List.mem_of_find?_eq_some hfind
      have hnum : t.number = s.number := by simpa using List.find?_some hfind
      rw [eq_of_number_eq ht h hnum]

theorem set_get {s : FieldSpec α} (h : s ∈ S.specs) (m : α) : s.set m (s.get m) = m := by
  apply S.ext_get
  · intro t ht
    by_cases hn : t.number = s.number
    · obtain rfl := eq_of_number_eq ht h hn
      exact S.get_set t ht m _
    · exact S.get_set_ne t ht s h hn m _
  · exact S.unknown_set s h m _

theorem set_set {s : FieldSpec α} (h : s ∈ S.specs) (m : α) (v w : s.carrier) :
    s.set (s.set m v) w = s.set m w := by
  apply S.ext_get
  · intro t ht
    by_cases hn : t.number = s.number
    · obtain rfl := eq_of_number_eq ht h hn
      rw [S.get_set t ht, S.get_set t ht]
    · rw [S.get_set_ne t ht s h hn, S.get_set_ne t ht s h hn, S.get_set_ne t ht s h hn]
  · rw [S.unknown_set s h, S.unknown_set s h, S.unknown_set s h]

theorem acceptField_value {s : FieldSpec α} (h : s ∈ S.specs) {m : α} {x : WireValue}
    {v : s.carrier} (hx : s.type.absorb (s.get m) x = .value v) :
    S.acceptField m ⟨s.number, x⟩ = some (s.set m v) := by
  simp only [acceptField, find?_eq_some h, hx]

/-- The values of one field, read back one after the other, leave the others alone. -/
theorem foldlM_values {s : FieldSpec α} (h : s ∈ S.specs) (xs : List WireValue) (m : α)
    {v : s.carrier} (hxs : absorbAll s.type.absorb (s.get m) xs = some v) :
    (xs.map (WireField.mk s.number)).foldlM S.acceptField m = some (s.set m v) := by
  induction xs generalizing m with
  | nil =>
      have hv : s.get m = v := Option.some.inj hxs
      simp [← hv, set_get h]
  | cons x xs ih =>
      cases hx : s.type.absorb (s.get m) x with
      | mismatch => simp [absorbAll, hx] at hxs
      | invalid => simp [absorbAll, hx] at hxs
      | value w =>
          have hrest : absorbAll s.type.absorb (s.get (s.set m w)) xs = some v := by
            rw [S.get_set s h]
            simpa [absorbAll, hx] using hxs
          simp only [List.map_cons, List.foldlM_cons, acceptField_value h hx]
          change (xs.map (WireField.mk s.number)).foldlM S.acceptField (s.set m w) = _
          rw [ih _ hrest, set_set h]

theorem foldlM_specs (m : α) (hvalid : ∀ s ∈ S.specs, s.type.Valid (s.get m))
    (l : List (FieldSpec α)) (hl : ∀ s ∈ l, s ∈ S.specs)
    (hdist : l.Pairwise (fun s t => s.number ≠ t.number)) (m₀ : α)
    (hinit : ∀ s ∈ l, s.get m₀ = s.type.initial) :
    ∃ r, (l.flatMap fun s => (s.type.emit (s.get m)).map (WireField.mk s.number)).foldlM
        S.acceptField m₀ = some r ∧ (∀ s ∈ l, s.get r = s.get m) ∧
      (∀ s ∈ S.specs, (∀ t ∈ l, s.number ≠ t.number) → s.get r = s.get m₀) ∧
      S.unknown r = S.unknown m₀ := by
  induction l generalizing m₀ with
  | nil => exact ⟨m₀, rfl, by simp, fun _ _ _ => rfl, rfl⟩
  | cons s l ih =>
      have hs := hl s List.mem_cons_self
      obtain ⟨hhead, htail⟩ := List.pairwise_cons.1 hdist
      have hemit := s.type.absorb_emit (s.get m) (hvalid s hs)
      rw [← hinit s List.mem_cons_self] at hemit
      have hfold := foldlM_values hs _ m₀ hemit
      have hsub : ∀ t ∈ l, t ∈ S.specs := fun t ht => hl t (List.mem_cons_of_mem s ht)
      obtain ⟨r, hr, hget, hother, hunk⟩ := ih hsub htail (s.set m₀ (s.get m)) (by
        intro t ht
        rw [S.get_set_ne t (hsub t ht) s hs (hhead t ht).symm]
        exact hinit t (List.mem_cons_of_mem s ht))
      refine ⟨r, ?_, ?_, ?_, ?_⟩
      · rw [List.flatMap_cons, List.foldlM_append, hfold]
        exact hr
      · intro t ht
        rcases List.mem_cons.1 ht with rfl | ht
        · rw [hother t hs hhead, S.get_set t hs]
        · exact hget t ht
      · intro t ht hne
        rw [hother t ht (fun u hu => hne u (List.mem_cons_of_mem s hu)),
          S.get_set_ne t ht s hs (hne s List.mem_cons_self)]
      · rw [hunk, S.unknown_set s hs]

theorem foldlM_unknown (fs : List WireField)
    (hfs : ∀ f ∈ fs, ∀ m, S.acceptField m f = some (S.addUnknown m f)) (m : α) :
    ∃ r, fs.foldlM S.acceptField m = some r ∧ (∀ s ∈ S.specs, s.get r = s.get m) ∧
      S.unknown r = S.unknown m ++ fs := by
  induction fs generalizing m with
  | nil => exact ⟨m, rfl, fun _ _ => rfl, by simp⟩
  | cons f fs ih =>
      obtain ⟨r, hr, hget, hunk⟩ :=
        ih (fun g hg => hfs g (List.mem_cons_of_mem f hg)) (S.addUnknown m f)
      refine ⟨r, ?_, ?_, ?_⟩
      · rw [List.foldlM_cons, hfs f List.mem_cons_self]
        exact hr
      · intro s hs
        rw [hget s hs, S.get_addUnknown s hs]
      · rw [hunk, S.unknown_addUnknown, List.append_assoc, List.singleton_append]

theorem wellFormed_fields {m : α} (h : S.Valid m) : ∀ f ∈ S.fields m, f.WellFormed := by
  intro f hf
  rcases List.mem_append.1 hf with hf | hf
  · obtain ⟨s, hs, hf⟩ := List.mem_flatMap.1 hf
    obtain ⟨x, hx, rfl⟩ := List.mem_map.1 hf
    obtain ⟨hpos, hlt⟩ := S.number_valid s hs
    exact ⟨hpos, hlt, s.type.wellFormed_emit _ (h.1 s hs) x hx⟩
  · exact (h.2 f hf).1

/-- A valid message survives the round trip, fields it does not know included. -/
theorem parse_serialize {m : α} (h : S.Valid m) : S.parse (S.serialize m) = some m := by
  rw [parse, serialize, decode_encode (wellFormed_fields h), Option.bind_some, fields,
    List.foldlM_append]
  obtain ⟨r, hr, hget, _, hunk⟩ :=
    foldlM_specs m h.1 S.specs (fun _ hs => hs) S.numbers_distinct S.initial S.get_initial
  obtain ⟨w, hw, hgetw, hunkw⟩ := foldlM_unknown (S.unknown m) (fun f hf => (h.2 f hf).2) r
  rw [hr]
  refine hw.trans (congrArg some (S.ext_get w m (fun s hs => ?_) ?_))
  · rw [hgetw s hs, hget s hs]
  · rw [hunkw, hunk, S.unknown_initial, List.nil_append]

theorem valid_initial : S.Valid S.initial := by
  refine ⟨fun s hs => ?_, ?_⟩
  · rw [S.get_initial s hs]
    exact s.type.valid_initial
  · rw [S.unknown_initial]
    simp

theorem valid_addUnknown {m : α} {f : WireField} (hm : S.Valid m) (hf : f.WellFormed)
    (hun : ∀ m', S.acceptField m' f = some (S.addUnknown m' f)) : S.Valid (S.addUnknown m f) := by
  refine ⟨fun s hs => ?_, fun g hg => ?_⟩
  · rw [S.get_addUnknown s hs]
    exact hm.1 s hs
  · rw [S.unknown_addUnknown] at hg
    rcases List.mem_append.1 hg with hg | hg
    · exact hm.2 g hg
    · rw [List.mem_singleton.1 hg]
      exact ⟨hf, hun⟩

theorem valid_acceptField {m m' : α} {f : WireField} (hm : S.Valid m) (hf : f.WellFormed)
    (h : S.acceptField m f = some m') : S.Valid m' := by
  unfold acceptField at h
  cases hfind : S.specs.find? (fun s => s.number = f.number) with
  | none =>
      rw [hfind] at h
      rw [← Option.some.inj h]
      exact valid_addUnknown hm hf (fun w => by rw [acceptField, hfind])
  | some s =>
      have hs : s ∈ S.specs := List.mem_of_find?_eq_some hfind
      simp only [hfind] at h
      cases hx : s.type.absorb (s.get m) f.value with
      | mismatch =>
          rw [hx] at h
          rw [← Option.some.inj h]
          refine valid_addUnknown hm hf (fun w => ?_)
          rw [acceptField, hfind]
          simp only [s.type.mismatch_absorb _ (s.get w) _ hx]
      | invalid => rw [hx] at h; cases h
      | value v =>
          rw [hx] at h
          rw [← Option.some.inj h]
          refine ⟨fun t ht => ?_, ?_⟩
          · by_cases hn : t.number = s.number
            · obtain rfl := eq_of_number_eq ht hs hn
              rw [S.get_set t hs]
              exact t.type.valid_absorb _ _ _ (hm.1 t hs) hf.2.2 hx
            · rw [S.get_set_ne t ht s hs hn]
              exact hm.1 t ht
          · rw [S.unknown_set s hs]
            exact hm.2

theorem valid_of_parse {b : Bytes} {m : α} (h : S.parse b = some m) : S.Valid m := by
  obtain ⟨fs, hfs, hfold⟩ := Option.bind_eq_some_iff.1 h
  have hwf := wellFormed_of_decode hfs
  have hgen : ∀ m₀, S.Valid m₀ → fs.foldlM S.acceptField m₀ = some m → S.Valid m := by
    clear hfold hfs
    induction fs with
    | nil =>
        intro m₀ h₀ he
        exact Option.some.inj he ▸ h₀
    | cons f fs ih =>
        intro m₀ h₀ he
        rw [List.foldlM_cons] at he
        obtain ⟨m₁, h₁, hrest⟩ := Option.bind_eq_some_iff.1 he
        exact ih (fun g hg => hwf g (List.mem_cons_of_mem f hg)) m₁
          (valid_acceptField h₀ (hwf f List.mem_cons_self) h₁) hrest
  exact hgen S.initial valid_initial hfold

variable (S)

def codec : MessageCodec α S.Valid where
  serialize := S.serialize
  parse := S.parse
  parse_serialize _ := parse_serialize
  valid_of_parse _ _ := valid_of_parse

end Schema

def stringType : FieldType Bytes where
  initial := []
  Valid := ValidUtf8
  emit b := if b = [] then [] else [.bytes b]
  absorb _ x := match x with
    | .bytes b => if ValidUtf8 b then .value b else .invalid
    | _ => .mismatch
  valid_initial := validUtf8_nil
  valid_absorb _ x t' _ _ h := by
    split at h
    · split_ifs at h with hb
      cases h
      exact hb
    · cases h
  mismatch_absorb _ _ _ h := h
  wellFormed_emit t _ x hx := by
    split_ifs at hx
    · cases hx
    · rw [List.mem_singleton.1 hx]
      trivial
  absorb_emit t ht := by
    split_ifs with h
    · rw [h]
      rfl
    · simp only [absorbAll, if_pos ht]

def repeatedStringType : FieldType (List Bytes) where
  initial := []
  Valid bs := ∀ b ∈ bs, ValidUtf8 b
  emit bs := bs.map .bytes
  absorb bs x := match x with
    | .bytes b => if ValidUtf8 b then .value (bs ++ [b]) else .invalid
    | _ => .mismatch
  valid_initial := by simp
  valid_absorb bs x t' hbs _ h := by
    split at h
    · split_ifs at h with hb
      cases h
      intro b' hb'
      rcases List.mem_append.1 hb' with hm | hm
      · exact hbs b' hm
      · rw [List.mem_singleton.1 hm]
        exact hb
    · cases h
  mismatch_absorb t t' x h := by
    cases x with
    | bytes b => simp only at h; split_ifs at h
    | _ => rfl
  wellFormed_emit bs _ x hx := by
    obtain ⟨b, _, rfl⟩ := List.mem_map.1 hx
    trivial
  absorb_emit bs hbs := by
    suffices h : ∀ acc, absorbAll (fun bs x => match x with
        | WireValue.bytes b => if ValidUtf8 b then Absorbed.value (bs ++ [b]) else .invalid
        | _ => .mismatch) acc (bs.map .bytes) = some (acc ++ bs) by
      simpa using h []
    induction bs with
    | nil => simp [absorbAll]
    | cons b bs ih =>
        intro acc
        simp only [List.map_cons, absorbAll, if_pos (hbs b List.mem_cons_self)]
        rw [ih (fun c hc => hbs c (List.mem_cons_of_mem b hc)), List.append_assoc,
          List.singleton_append]

/-- A type carried by a varint. Zero is the default and is not written. -/
def varintType {τ : Type} (toNat : τ → ℕ) (ofNat : ℕ → τ) (Valid : τ → Prop)
    (hlt : ∀ t, Valid t → toNat t < 2 ^ 64) (hleft : ∀ t, Valid t → ofNat (toNat t) = t)
    (hvalid : ∀ n < 2 ^ 64, Valid (ofNat n)) : FieldType τ where
  initial := ofNat 0
  Valid := Valid
  emit t := if toNat t = 0 then [] else [.varint (toNat t)]
  absorb _ x := match x with
    | .varint n => .value (ofNat n)
    | _ => .mismatch
  valid_initial := hvalid 0 (by norm_num)
  valid_absorb _ x t' _ hx h := by
    cases x with
    | varint n => cases h; exact hvalid n hx
    | _ => cases h
  mismatch_absorb _ _ _ h := h
  wellFormed_emit t ht x hx := by
    split_ifs at hx
    · cases hx
    · rw [List.mem_singleton.1 hx]
      exact hlt t ht
  absorb_emit t ht := by
    split_ifs with h
    · rw [absorbAll, ← h, hleft t ht]
    · simp only [absorbAll, hleft t ht]

def boolType : FieldType Bool :=
  varintType (fun b => if b then 1 else 0) (fun n => n != 0) (fun _ => True)
    (by rintro (_ | _) _ <;> norm_num) (by rintro (_ | _) _ <;> rfl) (fun _ _ => trivial)

/-- Two's complement on 64 bits. -/
def int64Type : FieldType ℤ :=
  varintType (fun t => (t % 2 ^ 64).toNat)
    (fun n => if n < 2 ^ 63 then (n : ℤ) else (n : ℤ) - 2 ^ 64)
    (fun t => -2 ^ 63 ≤ t ∧ t < 2 ^ 63)
    (fun t _ => by omega)
    (fun t ht => by split_ifs <;> omega)
    (fun n hn => by split_ifs <;> omega)

/-- An open enumeration: the varint is narrowed to 32 bits and sign extended. -/
def narrowEnum (n : ℕ) : ℕ :=
  if n % 2 ^ 32 < 2 ^ 31 then n % 2 ^ 32 else n % 2 ^ 32 + (2 ^ 64 - 2 ^ 32)

end ProtoSchema
