import GcsChat.ProtoSchema

/-!
# Embedded messages and oneofs

A repeated field of sub-messages, messages of one or two fields, and a `oneof` whose payloads are
messages. The payload that comes last decides what a `oneof` holds; the same payload again is merged
into what is there. Every valid value survives the round trip.
-/

namespace ProtoSchema

open ByteString ProtoWire

section RepeatedMessage

variable {α : Type} {Valid : α → Prop} (C : MessageCodec α Valid)

/-- Each occurrence is a message of its own. -/
def absorbMessage (ms : List α) : WireValue → Absorbed (List α)
  | .bytes b => match C.parse b with
    | some m => .value (ms ++ [m])
    | none => .invalid
  | _ => .mismatch

variable {C} in
theorem absorbMessage_eq_value {ms ms' : List α} {x : WireValue}
    (h : absorbMessage C ms x = .value ms') : ∃ m, Valid m ∧ ms' = ms ++ [m] := by
  cases x with
  | bytes b =>
      rw [absorbMessage] at h
      cases hm : C.parse b with
      | none =>
          rw [hm] at h
          cases h
      | some m =>
          rw [hm] at h
          cases h
          exact ⟨m, C.valid_of_parse b m hm, rfl⟩
  | _ => cases h

theorem absorbMessage_mismatch (ms ms' : List α) (x : WireValue)
    (h : absorbMessage C ms x = .mismatch) : absorbMessage C ms' x = .mismatch := by
  cases x with
  | bytes b =>
      rw [absorbMessage] at h
      cases hm : C.parse b with
      | none =>
          rw [hm] at h
          cases h
      | some m =>
          rw [hm] at h
          cases h
  | _ => rfl

theorem absorbAll_messages {ms : List α} (hms : ∀ m ∈ ms, Valid m) (acc : List α) :
    absorbAll (absorbMessage C) acc (ms.map fun m => .bytes (C.serialize m)) = some (acc ++ ms) := by
  induction ms generalizing acc with
  | nil => rw [List.append_nil]; rfl
  | cons m ms ih =>
      have hparse := C.parse_serialize m (hms m List.mem_cons_self)
      rw [List.map_cons, absorbAll, absorbMessage, hparse]
      exact (ih (fun w hw => hms w (List.mem_cons_of_mem m hw)) (acc ++ [m])).trans
        (by rw [List.append_assoc, List.singleton_append])

def repeatedMessageType : FieldType (List α) where
  initial := []
  Valid ms := ∀ m ∈ ms, Valid m
  emit ms := ms.map fun m => .bytes (C.serialize m)
  absorb := absorbMessage C
  valid_initial := List.forall_mem_nil _
  valid_absorb ms x ms' hms _ h := by
    obtain ⟨m, hm, rfl⟩ := absorbMessage_eq_value h
    exact List.forall_mem_append.2 ⟨hms, List.forall_mem_singleton.2 hm⟩
  mismatch_absorb := absorbMessage_mismatch C
  wellFormed_emit ms _ x hx := by
    obtain ⟨m, _, rfl⟩ := List.mem_map.1 hx
    trivial
  absorb_emit ms hms := absorbAll_messages C hms []

end RepeatedMessage

def oneFieldSchema {τ : Type} (type : FieldType τ) : Schema (τ × List WireField) where
  specs := [⟨1, τ, type, Prod.fst, fun m v => (v, m.2)⟩]
  initial := (type.initial, [])
  unknown := Prod.snd
  addUnknown m f := (m.1, m.2 ++ [f])
  number_valid := by simp
  numbers_distinct := by simp
  get_initial := by simp
  get_set := by simp
  get_set_ne := by simp
  unknown_set := by simp
  get_addUnknown := by simp
  unknown_addUnknown _ _ := rfl
  unknown_initial := rfl
  ext_get m m' hget hunknown := Prod.ext (hget _ List.mem_cons_self) hunknown

def twoFieldSchema {σ τ : Type} (first : FieldType σ) (second : FieldType τ) :
    Schema ((σ × τ) × List WireField) where
  specs :=
    [⟨1, σ, first, (·.1.1), fun m v => ((v, m.1.2), m.2)⟩,
     ⟨2, τ, second, (·.1.2), fun m v => ((m.1.1, v), m.2)⟩]
  initial := ((first.initial, second.initial), [])
  unknown := Prod.snd
  addUnknown m f := (m.1, m.2 ++ [f])
  number_valid := by simp
  numbers_distinct := by simp
  get_initial := by simp
  get_set := by simp
  get_set_ne := by simp
  unknown_set := by simp
  get_addUnknown := by simp
  unknown_addUnknown _ _ := rfl
  unknown_initial := rfl
  ext_get m m' hget hunknown :=
    Prod.ext (Prod.ext (hget _ List.mem_cons_self)
      (hget _ (List.mem_cons_of_mem _ List.mem_cons_self))) hunknown

theorem valid_oneField {τ : Type} {type : FieldType τ} {t : τ} (h : type.Valid t) :
    (oneFieldSchema type).Valid (t, []) :=
  ⟨List.forall_mem_singleton.2 h, List.forall_mem_nil _⟩

theorem valid_twoField {σ τ : Type} {first : FieldType σ} {second : FieldType τ} {s : σ} {t : τ}
    (hs : first.Valid s) (ht : second.Valid t) :
    (twoFieldSchema first second).Valid ((s, t), []) :=
  ⟨List.forall_mem_cons.2 ⟨hs, List.forall_mem_singleton.2 ht⟩, List.forall_mem_nil _⟩

/-- One payload of a `oneof`: its number, its message type, and how a value holds such a message. -/
structure Alternative (ε : Type) where
  number : ℕ
  body : Type
  schema : Schema body
  wrap : body → ε
  unwrap : ε → Option body

structure Oneof (ε : Type) where
  alternatives : List (Alternative ε)
  number_valid : ∀ a ∈ alternatives, 0 < a.number ∧ a.number < 2 ^ 29
  numbers_distinct : alternatives.Pairwise fun a b => a.number ≠ b.number
  wrap_unwrap : ∀ a ∈ alternatives, ∀ e b, a.unwrap e = some b → a.wrap b = e
  exists_unwrap : ∀ e, ∃ a ∈ alternatives, ∃ b, a.unwrap e = some b
  unwrap_unique : ∀ a ∈ alternatives, ∀ a' ∈ alternatives, ∀ e b b',
    a.unwrap e = some b → a'.unwrap e = some b' → a.number = a'.number

namespace Alternative

variable {ε : Type} (a : Alternative ε)

/-- The payload that is there already is merged into, any other one is replaced. -/
def merge (held : Option ε) (bytes : Bytes) : Option ε :=
  ((decode bytes).bind fun fs =>
    fs.foldlM a.schema.acceptField ((held.bind a.unwrap).getD a.schema.initial)).map a.wrap

def field (e : ε) : Option WireField :=
  (a.unwrap e).map fun b => ⟨a.number, .bytes (a.schema.serialize b)⟩

end Alternative

namespace Oneof

variable {ε : Type} (O : Oneof ε)

def acceptField (held : Option ε) (f : WireField) : Option (Option ε) :=
  match O.alternatives.find? (fun a => a.number = f.number), f.value with
  | some a, .bytes bytes => (a.merge held bytes).map some
  | _, _ => some held

def fields (e : ε) : List WireField := O.alternatives.filterMap (·.field e)

def serialize (e : ε) : Bytes := encode (O.fields e)

/-- `none` inside is a message whose payload is not set. -/
def parse (b : Bytes) : Option (Option ε) := (decode b).bind fun fs => fs.foldlM O.acceptField none

def Valid (e : ε) : Prop := ∀ a ∈ O.alternatives, ∀ b, a.unwrap e = some b → a.schema.Valid b

variable {O}

theorem find?_eq_some {a : Alternative ε} (ha : a ∈ O.alternatives) :
    O.alternatives.find? (fun a' => a'.number = a.number) = some a := by
  have hnodup : (O.alternatives.map Alternative.number).Nodup :=
    List.pairwise_map.2 O.numbers_distinct
  cases hfind : O.alternatives.find? (fun a' => a'.number = a.number) with
  | none => simpa using List.find?_eq_none.1 hfind a ha
  | some a' =>
      have hmem : a' ∈ O.alternatives := List.mem_of_find?_eq_some hfind
      have hnumber : a'.number = a.number := by simpa using List.find?_some hfind
      rw [List.inj_on_of_nodup_map hnodup hmem ha hnumber]

theorem fields_eq {a : Alternative ε} (ha : a ∈ O.alternatives) {e : ε} {b : a.body}
    (hb : a.unwrap e = some b) : O.fields e = [⟨a.number, .bytes (a.schema.serialize b)⟩] := by
  obtain ⟨before, after, hsplit⟩ := List.append_of_mem ha
  have hfield : a.field e = some ⟨a.number, .bytes (a.schema.serialize b)⟩ := by
    rw [Alternative.field, hb]
    rfl
  have hother : ∀ a' ∈ O.alternatives, a'.number ≠ a.number → a'.field e = none := by
    intro a' ha' hne
    cases hb' : a'.unwrap e with
    | none =>
        rw [Alternative.field, hb']
        rfl
    | some b' => exact absurd (O.unwrap_unique a' ha' a ha e b' b hb' hb) hne
  have hdistinct := O.numbers_distinct
  rw [hsplit, List.pairwise_append] at hdistinct
  have hbefore : before.filterMap (·.field e) = [] := by
    rw [List.filterMap_eq_nil_iff]
    intro a' ha'
    apply hother a' (by rw [hsplit]; exact List.mem_append_left _ ha')
    exact hdistinct.2.2 a' ha' a List.mem_cons_self
  have hafter : after.filterMap (·.field e) = [] := by
    rw [List.filterMap_eq_nil_iff]
    intro a' ha'
    apply hother a' (by
      rw [hsplit]
      exact List.mem_append_right _ (List.mem_cons_of_mem a ha'))
    exact ((List.pairwise_cons.1 hdistinct.2.1).1 a' ha').symm
  rw [fields, hsplit, List.filterMap_append, List.filterMap_cons, hfield, hbefore, hafter,
    List.nil_append]

/-- What is merged into nothing is what was serialized. -/
theorem merge_serialize {a : Alternative ε} (ha : a ∈ O.alternatives) {e : ε} {b : a.body}
    (hb : a.unwrap e = some b) (hvalid : a.schema.Valid b) :
    a.merge none (a.schema.serialize b) = some e := by
  have hparse : (decode (a.schema.serialize b)).bind
      (fun fs => fs.foldlM a.schema.acceptField a.schema.initial) = some b :=
    Schema.parse_serialize hvalid
  rw [Alternative.merge, Option.bind_none, Option.getD_none, hparse, Option.map_some,
    O.wrap_unwrap a ha e b hb]

theorem parse_serialize {e : ε} (h : O.Valid e) : O.parse (O.serialize e) = some (some e) := by
  obtain ⟨a, ha, b, hb⟩ := O.exists_unwrap e
  have hnumber := O.number_valid a ha
  have hfields := fields_eq ha hb
  have hwellFormed : ∀ f ∈ O.fields e, f.WellFormed := by
    rw [hfields]
    exact List.forall_mem_singleton.2 ⟨hnumber.1, hnumber.2, trivial⟩
  rw [parse, serialize, decode_encode hwellFormed, Option.bind_some, hfields, List.foldlM_cons]
  simp only [acceptField, find?_eq_some ha, merge_serialize ha hb (h a ha b hb), Option.map_some]
  rfl

end Oneof

end ProtoSchema
