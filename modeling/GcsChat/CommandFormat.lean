import GcsChat.Session

/-!
# The wire format of commands

`GcsCommand` of `gcs_chat.proto`: a `oneof` of five sub-messages of strings and flags. The field that
comes last decides which command it is; the same field again is merged into what is there.
-/

namespace GcsChat

open ByteString ProtoWire ProtoSchema Interactive

namespace GcsCommand

def fieldNumber : GcsCommand → ℕ
  | payloadNotSet => 0
  | joinTopic _ => 1
  | sendText _ _ => 2
  | createSpace _ _ _ => 3
  | createRoom _ _ => 4
  | updateSpace _ _ _ _ => 5

def initial : ℕ → Option GcsCommand
  | 1 => some (joinTopic [])
  | 2 => some (sendText [] [])
  | 3 => some (createSpace [] false false)
  | 4 => some (createRoom [] [])
  | 5 => some (updateSpace [] [] false false)
  | _ => none

def absorbInto {τ : Type} (type : FieldType τ) (old : τ) (set : τ → GcsCommand)
    (command : GcsCommand) (v : WireValue) : Option GcsCommand :=
  match type.absorb old v with
  | .mismatch => some command
  | .invalid => none
  | .value t => some (set t)

def acceptSubfield (command : GcsCommand) (f : WireField) : Option GcsCommand :=
  match command, f.number with
  | joinTopic t, 1 => absorbInto stringType t joinTopic command f.value
  | sendText t x, 1 => absorbInto stringType t (sendText · x) command f.value
  | sendText t x, 2 => absorbInto stringType x (sendText t) command f.value
  | createSpace n p a, 1 => absorbInto stringType n (createSpace · p a) command f.value
  | createSpace n p a, 2 => absorbInto boolType p (createSpace n · a) command f.value
  | createSpace n p a, 3 => absorbInto boolType a (createSpace n p) command f.value
  | createRoom n s, 1 => absorbInto stringType n (createRoom · s) command f.value
  | createRoom n s, 2 => absorbInto stringType s (createRoom n) command f.value
  | updateSpace s n p a, 1 => absorbInto stringType s (updateSpace · n p a) command f.value
  | updateSpace s n p a, 2 => absorbInto stringType n (updateSpace s · p a) command f.value
  | updateSpace s n p a, 3 => absorbInto boolType p (updateSpace s n · a) command f.value
  | updateSpace s n p a, 4 => absorbInto boolType a (updateSpace s n p) command f.value
  | _, _ => some command

def mergeBody (command : GcsCommand) (body : Bytes) : Option GcsCommand :=
  (decode body).bind fun fs => fs.foldlM acceptSubfield command

def acceptField (command : GcsCommand) (f : WireField) : Option GcsCommand :=
  match initial f.number, f.value with
  | some empty, .bytes body =>
      mergeBody (if command.fieldNumber = f.number then command else empty) body
  | _, _ => some command

def parse (b : Bytes) : Option GcsCommand :=
  (decode b).bind fun fs => fs.foldlM acceptField payloadNotSet

def subfields : GcsCommand → List WireField
  | payloadNotSet => []
  | joinTopic t => (stringType.emit t).map (.mk 1)
  | sendText t x => (stringType.emit t).map (.mk 1) ++ (stringType.emit x).map (.mk 2)
  | createSpace n p a => (stringType.emit n).map (.mk 1) ++ (boolType.emit p).map (.mk 2) ++
      (boolType.emit a).map (.mk 3)
  | createRoom n s => (stringType.emit n).map (.mk 1) ++ (stringType.emit s).map (.mk 2)
  | updateSpace s n p a => (stringType.emit s).map (.mk 1) ++ (stringType.emit n).map (.mk 2) ++
      (boolType.emit p).map (.mk 3) ++ (boolType.emit a).map (.mk 4)

def serialize (command : GcsCommand) : Bytes :=
  match command with
  | payloadNotSet => []
  | _ => encode [⟨command.fieldNumber, .bytes (encode command.subfields)⟩]

def Valid : GcsCommand → Prop
  | payloadNotSet => True
  | joinTopic t => ValidUtf8 t
  | sendText t x => ValidUtf8 t ∧ ValidUtf8 x
  | createSpace n _ _ => ValidUtf8 n
  | createRoom n s => ValidUtf8 n ∧ ValidUtf8 s
  | updateSpace s n _ _ => ValidUtf8 s ∧ ValidUtf8 n

/-- A field that is written reads back over its default, whatever else is set. -/
theorem foldlM_emit {τ : Type} (type : FieldType τ) {t : τ} (ht : type.Valid t) (number : ℕ)
    (set : τ → GcsCommand)
    (haccept : ∀ u v, acceptSubfield (set u) ⟨number, v⟩ = absorbInto type u set (set u) v) :
    ((type.emit t).map (WireField.mk number)).foldlM acceptSubfield (set type.initial) =
      some (set t) := by
  suffices h : ∀ (xs : List WireValue) u, absorbAll type.absorb u xs = some t →
      (xs.map (WireField.mk number)).foldlM acceptSubfield (set u) = some (set t) from
    h _ _ (type.absorb_emit t ht)
  intro xs
  induction xs with
  | nil =>
      intro u hu
      cases hu
      rfl
  | cons x xs ih =>
      intro u hu
      rw [List.map_cons, List.foldlM_cons, haccept, absorbInto]
      cases hx : type.absorb u x with
      | value u' =>
          rw [absorbAll, hx] at hu
          exact ih u' hu
      | mismatch => rw [absorbAll, hx] at hu; cases hu
      | invalid => rw [absorbAll, hx] at hu; cases hu

theorem wellFormed_emit {τ : Type} (type : FieldType τ) {t : τ} (ht : type.Valid t) {number : ℕ}
    (hnumber : 0 < number ∧ number < 2 ^ 29) :
    ∀ f ∈ (type.emit t).map (WireField.mk number), f.WellFormed := by
  intro f hf
  obtain ⟨x, hx, rfl⟩ := List.mem_map.1 hf
  exact ⟨hnumber.1, hnumber.2, type.wellFormed_emit t ht x hx⟩

theorem wellFormed_subfields {command : GcsCommand} (h : command.Valid) :
    ∀ f ∈ command.subfields, f.WellFormed := by
  have hstring : ∀ {b : Bytes} {n : ℕ}, ValidUtf8 b → 0 < n ∧ n < 2 ^ 29 →
      ∀ f ∈ (stringType.emit b).map (WireField.mk n), f.WellFormed :=
    fun hb hn => wellFormed_emit stringType hb hn
  have hbool : ∀ {b : Bool} {n : ℕ}, 0 < n ∧ n < 2 ^ 29 →
      ∀ f ∈ (boolType.emit b).map (WireField.mk n), f.WellFormed :=
    fun hn => wellFormed_emit boolType trivial hn
  cases command with
  | payloadNotSet => exact fun f hf => nomatch hf
  | joinTopic t => exact hstring h (by decide)
  | sendText t x =>
      exact List.forall_mem_append.2 ⟨hstring h.1 (by decide), hstring h.2 (by decide)⟩
  | createSpace n p a =>
      exact List.forall_mem_append.2 ⟨List.forall_mem_append.2
        ⟨hstring h (by decide), hbool (by decide)⟩, hbool (by decide)⟩
  | createRoom n s =>
      exact List.forall_mem_append.2 ⟨hstring h.1 (by decide), hstring h.2 (by decide)⟩
  | updateSpace s n p a =>
      exact List.forall_mem_append.2 ⟨List.forall_mem_append.2 ⟨List.forall_mem_append.2
        ⟨hstring h.1 (by decide), hstring h.2 (by decide)⟩, hbool (by decide)⟩, hbool (by decide)⟩

theorem foldlM_subfields {command empty : GcsCommand} (h : command.Valid)
    (hempty : initial command.fieldNumber = some empty) :
    command.subfields.foldlM acceptSubfield empty = some command := by
  have hstring : ∀ {b : Bytes} (n : ℕ) (set : Bytes → GcsCommand), ValidUtf8 b →
      (∀ u v, acceptSubfield (set u) ⟨n, v⟩ = absorbInto stringType u set (set u) v) →
      ((stringType.emit b).map (WireField.mk n)).foldlM acceptSubfield (set []) = some (set b) :=
    fun n set hb hset => foldlM_emit stringType hb n set hset
  have hbool : ∀ {b : Bool} (n : ℕ) (set : Bool → GcsCommand),
      (∀ u v, acceptSubfield (set u) ⟨n, v⟩ = absorbInto boolType u set (set u) v) →
      ((boolType.emit b).map (WireField.mk n)).foldlM acceptSubfield (set false) = some (set b) :=
    fun n set hset => foldlM_emit boolType trivial n set hset
  cases command with
  | payloadNotSet => cases hempty
  | joinTopic t =>
      cases hempty
      exact hstring 1 joinTopic h fun _ _ => rfl
  | sendText t x =>
      cases hempty
      rw [subfields, List.foldlM_append, hstring 1 (sendText · []) h.1 fun _ _ => rfl]
      exact hstring 2 (sendText t) h.2 fun _ _ => rfl
  | createSpace n p a =>
      cases hempty
      rw [subfields, List.foldlM_append, List.foldlM_append,
        hstring 1 (createSpace · false false) h fun _ _ => rfl]
      exact (congrArg (· >>= _) (hbool 2 (createSpace n · false) fun _ _ => rfl)).trans
        (hbool 3 (createSpace n p) fun _ _ => rfl)
  | createRoom n s =>
      cases hempty
      rw [subfields, List.foldlM_append, hstring 1 (createRoom · []) h.1 fun _ _ => rfl]
      exact hstring 2 (createRoom n) h.2 fun _ _ => rfl
  | updateSpace s n p a =>
      cases hempty
      rw [subfields, List.foldlM_append, List.foldlM_append, List.foldlM_append,
        hstring 1 (updateSpace · [] false false) h.1 fun _ _ => rfl]
      have hname := hstring 2 (updateSpace s · false false) h.2 fun _ _ => rfl
      have hpublic := hbool (b := p) 3 (updateSpace s n · false) fun _ _ => rfl
      have hjoin := hbool (b := a) 4 (updateSpace s n p) fun _ _ => rfl
      exact (congrArg (· >>= _) ((congrArg (· >>= _) hname).trans hpublic)).trans hjoin

theorem fieldNumber_pos {command : GcsCommand} (h : command ≠ payloadNotSet) :
    0 < command.fieldNumber := by
  cases command with
  | payloadNotSet => exact absurd rfl h
  | _ => exact Nat.succ_pos _

theorem fieldNumber_le (command : GcsCommand) : command.fieldNumber ≤ 5 := by
  cases command <;> simp [fieldNumber]

theorem exists_initial {command : GcsCommand} (h : command ≠ payloadNotSet) :
    ∃ empty, initial command.fieldNumber = some empty := by
  cases command with
  | payloadNotSet => exact absurd rfl h
  | _ => exact ⟨_, rfl⟩

theorem serialize_eq {command : GcsCommand} (h : command ≠ payloadNotSet) :
    command.serialize = encode [⟨command.fieldNumber, .bytes (encode command.subfields)⟩] := by
  cases command with
  | payloadNotSet => exact absurd rfl h
  | _ => rfl

/-- What the shell writes is the command that the core reads. -/
theorem parse_serialize {command : GcsCommand} (h : command.Valid) :
    parse command.serialize = some command := by
  by_cases hset : command = payloadNotSet
  · rw [hset]
    rfl
  have hpos := fieldNumber_pos hset
  have hle := fieldNumber_le command
  obtain ⟨empty, hempty⟩ := exists_initial hset
  have hfield : ∀ f ∈ [WireField.mk command.fieldNumber (.bytes (encode command.subfields))],
      f.WellFormed := List.forall_mem_singleton.2 ⟨hpos, hle.trans_lt (by norm_num), trivial⟩
  have hfresh : payloadNotSet.fieldNumber ≠ command.fieldNumber := hpos.ne
  rw [serialize_eq hset, parse, decode_encode hfield]
  simp only [Option.bind_some, List.foldlM_cons, List.foldlM_nil, acceptField, hempty, if_neg hfresh,
    mergeBody, decode_encode (wellFormed_subfields h), foldlM_subfields h hempty]
  rfl

end GcsCommand

/-- The core with the wire format itself. -/
def protoCore (messaging : Messaging) : Core where
  messaging := messaging
  codecs := protoCodecs
  parseCommand := GcsCommand.parse

end GcsChat
