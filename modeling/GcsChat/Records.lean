import GcsChat.ProtoSchema

/-!
# The records of `gcs_chat.proto`

The record types the core reads and writes, with the field numbers of the schema, and the events
it pushes. Strings are byte strings; a record is `Valid` when its strings are UTF-8 and its
numbers fit their types, which is what protobuf asks of a record it can serialize and read back.
-/

namespace GcsChat

open ByteString ProtoWire ProtoSchema

inductive MessageRole
  | unspecified
  | userSelf
  | userPeer
  | assistant
  | system
  | unrecognized (value : ℕ)
  deriving DecidableEq

inductive MessageState
  | unspecified
  | pending
  | streaming
  | thinking
  | complete
  | error
  | unrecognized (value : ℕ)
  deriving DecidableEq

def MessageRole.number : MessageRole → ℕ
  | .unspecified => 0
  | .userSelf => 1
  | .userPeer => 2
  | .assistant => 3
  | .system => 4
  | .unrecognized v => v

def MessageRole.ofNumber (n : ℕ) : MessageRole :=
  match narrowEnum n with
  | 0 => .unspecified
  | 1 => .userSelf
  | 2 => .userPeer
  | 3 => .assistant
  | 4 => .system
  | v => .unrecognized v

def MessageState.number : MessageState → ℕ
  | .unspecified => 0
  | .pending => 1
  | .streaming => 2
  | .thinking => 3
  | .complete => 4
  | .error => 5
  | .unrecognized v => v

def MessageState.ofNumber (n : ℕ) : MessageState :=
  match narrowEnum n with
  | 0 => .unspecified
  | 1 => .pending
  | 2 => .streaming
  | 3 => .thinking
  | 4 => .complete
  | 5 => .error
  | v => .unrecognized v

theorem narrowEnum_lt (n : ℕ) : narrowEnum n < 2 ^ 64 := by
  unfold narrowEnum
  split_ifs <;> omega

theorem narrowEnum_narrowEnum (n : ℕ) : narrowEnum (narrowEnum n) = narrowEnum n := by
  unfold narrowEnum
  split_ifs <;> omega

def MessageRole.Canonical (r : MessageRole) : Prop := ∃ n, r = MessageRole.ofNumber n

def MessageState.Canonical (s : MessageState) : Prop := ∃ n, s = MessageState.ofNumber n

theorem MessageRole.number_ofNumber (n : ℕ) : (MessageRole.ofNumber n).number = narrowEnum n := by
  unfold MessageRole.ofNumber
  split <;> simp_all [MessageRole.number]

theorem MessageState.number_ofNumber (n : ℕ) :
    (MessageState.ofNumber n).number = narrowEnum n := by
  unfold MessageState.ofNumber
  split <;> simp_all [MessageState.number]

def messageRoleType : FieldType MessageRole :=
  varintType MessageRole.number MessageRole.ofNumber MessageRole.Canonical
    (by rintro _ ⟨n, rfl⟩; rw [MessageRole.number_ofNumber]; exact narrowEnum_lt n)
    (by
      rintro _ ⟨n, rfl⟩
      rw [MessageRole.number_ofNumber, MessageRole.ofNumber, MessageRole.ofNumber,
        narrowEnum_narrowEnum])
    (fun n _ => ⟨n, rfl⟩)

def messageStateType : FieldType MessageState :=
  varintType MessageState.number MessageState.ofNumber MessageState.Canonical
    (by rintro _ ⟨n, rfl⟩; rw [MessageState.number_ofNumber]; exact narrowEnum_lt n)
    (by
      rintro _ ⟨n, rfl⟩
      rw [MessageState.number_ofNumber, MessageState.ofNumber, MessageState.ofNumber,
        narrowEnum_narrowEnum])
    (fun n _ => ⟨n, rfl⟩)

structure ChatMessageState where
  id : Bytes
  roomTopic : Bytes
  role : MessageRole
  state : MessageState
  text : Bytes
  timestamp : ℤ
  sender : Bytes
  deleted : Bool
  deletedAtMs : ℤ
  unknownFields : List WireField
  deriving DecidableEq

structure SpaceRecord where
  id : Bytes
  name : Bytes
  isPublic : Bool
  autoJoinRooms : Bool
  createdAtMs : ℤ
  updatedAtMs : ℤ
  deleted : Bool
  deletedAtMs : ℤ
  unknownFields : List WireField
  deriving DecidableEq

structure RoomRecord where
  id : Bytes
  name : Bytes
  parentSpaceId : Bytes
  createdAtMs : ℤ
  updatedAtMs : ℤ
  deleted : Bool
  deletedAtMs : ℤ
  unknownFields : List WireField
  deriving DecidableEq

structure EntityManifest where
  spaceId : List Bytes
  roomId : List Bytes
  unknownFields : List WireField
  deriving DecidableEq

def chatMessageSchema : Schema ChatMessageState where
  specs :=
    [⟨1, Bytes, stringType, (·.id), fun m v => { m with id := v }⟩,
     ⟨2, Bytes, stringType, (·.roomTopic), fun m v => { m with roomTopic := v }⟩,
     ⟨3, MessageRole, messageRoleType, (·.role), fun m v => { m with role := v }⟩,
     ⟨4, MessageState, messageStateType, (·.state), fun m v => { m with state := v }⟩,
     ⟨5, Bytes, stringType, (·.text), fun m v => { m with text := v }⟩,
     ⟨6, ℤ, int64Type, (·.timestamp), fun m v => { m with timestamp := v }⟩,
     ⟨7, Bytes, stringType, (·.sender), fun m v => { m with sender := v }⟩,
     ⟨8, Bool, boolType, (·.deleted), fun m v => { m with deleted := v }⟩,
     ⟨9, ℤ, int64Type, (·.deletedAtMs), fun m v => { m with deletedAtMs := v }⟩]
  initial := ⟨[], [], .unspecified, .unspecified, [], 0, [], false, 0, []⟩
  unknown := (·.unknownFields)
  addUnknown m f := { m with unknownFields := m.unknownFields ++ [f] }
  number_valid := by simp
  numbers_distinct := by simp
  get_initial := by
    simp only [List.forall_mem_cons]
    exact ⟨rfl, rfl, rfl, rfl, rfl, rfl, rfl, rfl, rfl, by simp⟩
  get_set := by simp
  get_set_ne := by simp
  unknown_set := by simp
  get_addUnknown := by simp
  unknown_addUnknown _ _ := rfl
  unknown_initial := rfl
  ext_get := by
    rintro ⟨⟩ ⟨⟩
    simp_all

def spaceSchema : Schema SpaceRecord where
  specs :=
    [⟨1, Bytes, stringType, (·.id), fun r v => { r with id := v }⟩,
     ⟨2, Bytes, stringType, (·.name), fun r v => { r with name := v }⟩,
     ⟨3, Bool, boolType, (·.isPublic), fun r v => { r with isPublic := v }⟩,
     ⟨4, Bool, boolType, (·.autoJoinRooms), fun r v => { r with autoJoinRooms := v }⟩,
     ⟨5, ℤ, int64Type, (·.createdAtMs), fun r v => { r with createdAtMs := v }⟩,
     ⟨6, ℤ, int64Type, (·.updatedAtMs), fun r v => { r with updatedAtMs := v }⟩,
     ⟨7, Bool, boolType, (·.deleted), fun r v => { r with deleted := v }⟩,
     ⟨8, ℤ, int64Type, (·.deletedAtMs), fun r v => { r with deletedAtMs := v }⟩]
  initial := ⟨[], [], false, false, 0, 0, false, 0, []⟩
  unknown := (·.unknownFields)
  addUnknown r f := { r with unknownFields := r.unknownFields ++ [f] }
  number_valid := by simp
  numbers_distinct := by simp
  get_initial := by
    simp only [List.forall_mem_cons]
    exact ⟨rfl, rfl, rfl, rfl, rfl, rfl, rfl, rfl, by simp⟩
  get_set := by simp
  get_set_ne := by simp
  unknown_set := by simp
  get_addUnknown := by simp
  unknown_addUnknown _ _ := rfl
  unknown_initial := rfl
  ext_get := by
    rintro ⟨⟩ ⟨⟩
    simp_all

def roomSchema : Schema RoomRecord where
  specs :=
    [⟨1, Bytes, stringType, (·.id), fun r v => { r with id := v }⟩,
     ⟨2, Bytes, stringType, (·.name), fun r v => { r with name := v }⟩,
     ⟨3, Bytes, stringType, (·.parentSpaceId), fun r v => { r with parentSpaceId := v }⟩,
     ⟨4, ℤ, int64Type, (·.createdAtMs), fun r v => { r with createdAtMs := v }⟩,
     ⟨5, ℤ, int64Type, (·.updatedAtMs), fun r v => { r with updatedAtMs := v }⟩,
     ⟨6, Bool, boolType, (·.deleted), fun r v => { r with deleted := v }⟩,
     ⟨7, ℤ, int64Type, (·.deletedAtMs), fun r v => { r with deletedAtMs := v }⟩]
  initial := ⟨[], [], [], 0, 0, false, 0, []⟩
  unknown := (·.unknownFields)
  addUnknown r f := { r with unknownFields := r.unknownFields ++ [f] }
  number_valid := by simp
  numbers_distinct := by simp
  get_initial := by
    simp only [List.forall_mem_cons]
    exact ⟨rfl, rfl, rfl, rfl, rfl, rfl, rfl, by simp⟩
  get_set := by simp
  get_set_ne := by simp
  unknown_set := by simp
  get_addUnknown := by simp
  unknown_addUnknown _ _ := rfl
  unknown_initial := rfl
  ext_get := by
    rintro ⟨⟩ ⟨⟩
    simp_all

def manifestSchema : Schema EntityManifest where
  specs :=
    [⟨1, List Bytes, repeatedStringType, (·.spaceId), fun m v => { m with spaceId := v }⟩,
     ⟨2, List Bytes, repeatedStringType, (·.roomId), fun m v => { m with roomId := v }⟩]
  initial := ⟨[], [], []⟩
  unknown := (·.unknownFields)
  addUnknown m f := { m with unknownFields := m.unknownFields ++ [f] }
  number_valid := by simp
  numbers_distinct := by simp
  get_initial := by
    simp only [List.forall_mem_cons]
    exact ⟨rfl, rfl, by simp⟩
  get_set := by simp
  get_set_ne := by simp
  unknown_set := by simp
  get_addUnknown := by simp
  unknown_addUnknown _ _ := rfl
  unknown_initial := rfl
  ext_get := by
    rintro ⟨⟩ ⟨⟩
    simp_all

structure MessageHistory where
  roomTopic : Bytes
  message : List ChatMessageState
  deriving DecidableEq

/-- The envelope of every event pushed to the shell. -/
inductive GcsEvent
  | message (m : ChatMessageState)
  | roomList (roomTopic : List Bytes)
  | readiness (ready : Bool)
  | error (message : Bytes)
  | spaceTree (space : List SpaceRecord) (room : List RoomRecord)
  | messageHistory (h : MessageHistory)
  deriving DecidableEq

/-- The serializers and parsers the core is built with, one for each record type. -/
structure Codecs where
  message : MessageCodec ChatMessageState chatMessageSchema.Valid
  space : MessageCodec SpaceRecord spaceSchema.Valid
  room : MessageCodec RoomRecord roomSchema.Valid
  manifest : MessageCodec EntityManifest manifestSchema.Valid

def protoCodecs : Codecs where
  message := chatMessageSchema.codec
  space := spaceSchema.codec
  room := roomSchema.codec
  manifest := manifestSchema.codec

def IsInt64 (t : ℤ) : Prop := -2 ^ 63 ≤ t ∧ t < 2 ^ 63

theorem isInt64_zero : IsInt64 0 := by constructor <;> decide

/-- A message the core builds itself: no unknown fields, a role and a state of the taxonomy. -/
theorem ChatMessageState.valid {m : ChatMessageState} (hid : ValidUtf8 m.id)
    (htopic : ValidUtf8 m.roomTopic) (htext : ValidUtf8 m.text) (hsender : ValidUtf8 m.sender)
    (hrole : m.role.Canonical) (hstate : m.state.Canonical) (ht : IsInt64 m.timestamp)
    (hd : IsInt64 m.deletedAtMs) (hu : m.unknownFields = []) : chatMessageSchema.Valid m := by
  refine ⟨?_, by simp [chatMessageSchema, hu]⟩
  simp only [chatMessageSchema, List.forall_mem_cons]
  exact ⟨hid, htopic, hrole, hstate, htext, ht, hsender, trivial, hd, by simp⟩

theorem spaceSchema_valid_iff {r : SpaceRecord} : spaceSchema.Valid r ↔
    (ValidUtf8 r.id ∧ ValidUtf8 r.name ∧ IsInt64 r.createdAtMs ∧ IsInt64 r.updatedAtMs ∧
      IsInt64 r.deletedAtMs) ∧ ∀ f ∈ r.unknownFields, f.WellFormed ∧
        ∀ r', spaceSchema.acceptField r' f = some (spaceSchema.addUnknown r' f) := by
  unfold Schema.Valid
  refine and_congr ?_ Iff.rfl
  simp only [spaceSchema, List.forall_mem_cons]
  constructor
  · rintro ⟨hid, hname, _, _, hc, hu, _, hd, _⟩
    exact ⟨hid, hname, hc, hu, hd⟩
  · rintro ⟨hid, hname, hc, hu, hd⟩
    exact ⟨hid, hname, trivial, trivial, hc, hu, trivial, hd, by simp⟩

theorem roomSchema_valid_iff {r : RoomRecord} : roomSchema.Valid r ↔
    (ValidUtf8 r.id ∧ ValidUtf8 r.name ∧ ValidUtf8 r.parentSpaceId ∧ IsInt64 r.createdAtMs ∧
      IsInt64 r.updatedAtMs ∧ IsInt64 r.deletedAtMs) ∧ ∀ f ∈ r.unknownFields, f.WellFormed ∧
        ∀ r', roomSchema.acceptField r' f = some (roomSchema.addUnknown r' f) := by
  unfold Schema.Valid
  refine and_congr ?_ Iff.rfl
  simp only [roomSchema, List.forall_mem_cons]
  constructor
  · rintro ⟨hid, hname, hp, hc, hu, _, hd, _⟩
    exact ⟨hid, hname, hp, hc, hu, hd⟩
  · rintro ⟨hid, hname, hp, hc, hu, hd⟩
    exact ⟨hid, hname, hp, hc, hu, trivial, hd, by simp⟩

theorem manifestSchema_valid_iff {m : EntityManifest} : manifestSchema.Valid m ↔
    ((∀ b ∈ m.spaceId, ValidUtf8 b) ∧ ∀ b ∈ m.roomId, ValidUtf8 b) ∧
      ∀ f ∈ m.unknownFields, f.WellFormed ∧
        ∀ m', manifestSchema.acceptField m' f = some (manifestSchema.addUnknown m' f) := by
  unfold Schema.Valid
  refine and_congr ?_ Iff.rfl
  simp only [manifestSchema, List.forall_mem_cons]
  constructor
  · rintro ⟨hs, hr, _⟩
    exact ⟨hs, hr⟩
  · rintro ⟨hs, hr⟩
    exact ⟨hs, hr, by simp⟩

end GcsChat
