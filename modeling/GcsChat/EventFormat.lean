import GcsChat.ProtoOneof
import GcsChat.Records

/-!
# The wire format of events

`GcsEvent` of `gcs_chat.proto`, what `PostToDart` serializes and `_dispatch` of the shell reads back:
a `oneof` of six messages, some of which hold the records of the core.
-/

namespace GcsChat

open ByteString ProtoWire ProtoSchema

def roomListSchema : Schema (List Bytes × List WireField) := oneFieldSchema repeatedStringType

def readinessSchema : Schema (Bool × List WireField) := oneFieldSchema boolType

def errorNoticeSchema : Schema (Bytes × List WireField) := oneFieldSchema stringType

def spaceTreeSchema : Schema ((List SpaceRecord × List RoomRecord) × List WireField) :=
  twoFieldSchema (repeatedMessageType spaceSchema.codec) (repeatedMessageType roomSchema.codec)

def messageHistorySchema : Schema ((Bytes × List ChatMessageState) × List WireField) :=
  twoFieldSchema stringType (repeatedMessageType chatMessageSchema.codec)

namespace GcsEvent

def message? : GcsEvent → Option ChatMessageState
  | message m => some m
  | _ => none

def roomList? : GcsEvent → Option (List Bytes × List WireField)
  | roomList roomTopic => some (roomTopic, [])
  | _ => none

def readiness? : GcsEvent → Option (Bool × List WireField)
  | readiness ready => some (ready, [])
  | _ => none

def error? : GcsEvent → Option (Bytes × List WireField)
  | error notice => some (notice, [])
  | _ => none

def spaceTree? : GcsEvent → Option ((List SpaceRecord × List RoomRecord) × List WireField)
  | spaceTree space room => some ((space, room), [])
  | _ => none

def messageHistory? : GcsEvent → Option ((Bytes × List ChatMessageState) × List WireField)
  | messageHistory h => some ((h.roomTopic, h.message), [])
  | _ => none

/-- The payloads of `GcsEvent`. What is unknown inside an event that is not a record is dropped. -/
def payloads : List (Alternative GcsEvent) :=
  [⟨1, ChatMessageState, chatMessageSchema, message, message?⟩,
   ⟨2, List Bytes × List WireField, roomListSchema, fun m => roomList m.1, roomList?⟩,
   ⟨3, Bool × List WireField, readinessSchema, fun m => readiness m.1, readiness?⟩,
   ⟨4, Bytes × List WireField, errorNoticeSchema, fun m => error m.1, error?⟩,
   ⟨5, (List SpaceRecord × List RoomRecord) × List WireField, spaceTreeSchema,
      fun m => spaceTree m.1.1 m.1.2, spaceTree?⟩,
   ⟨6, (Bytes × List ChatMessageState) × List WireField, messageHistorySchema,
      fun m => messageHistory ⟨m.1.1, m.1.2⟩, messageHistory?⟩]

def fieldNumber : GcsEvent → ℕ
  | message _ => 1
  | roomList _ => 2
  | readiness _ => 3
  | error _ => 4
  | spaceTree _ _ => 5
  | messageHistory _ => 6

/-- A payload reads back from the events that hold it, and only the one numbered alike does. -/
theorem unwrap_payloads : ∀ a ∈ payloads, ∀ e b, a.unwrap e = some b →
    a.wrap b = e ∧ a.number = e.fieldNumber := by
  simp only [payloads, List.forall_mem_cons]
  refine ⟨?_, ?_, ?_, ?_, ?_, ?_, List.forall_mem_nil _⟩ <;>
    · intro e b hb
      cases e <;> cases hb
      exact ⟨rfl, rfl⟩

def wireFormat : Oneof GcsEvent where
  alternatives := payloads
  number_valid := by simp [payloads]
  numbers_distinct := by simp [payloads]
  wrap_unwrap a ha e b hb := (unwrap_payloads a ha e b hb).1
  exists_unwrap e := by
    cases e <;> simp [payloads, message?, roomList?, readiness?, error?, spaceTree?, messageHistory?]
  unwrap_unique a ha a' ha' e b b' hb hb' :=
    (unwrap_payloads a ha e b hb).2.trans (unwrap_payloads a' ha' e b' hb').2.symm

def serialize (event : GcsEvent) : Bytes := wireFormat.serialize event

/-- `none` inside is an event whose payload is not set. -/
def parse (bytes : Bytes) : Option (Option GcsEvent) := wireFormat.parse bytes

def Valid : GcsEvent → Prop
  | message m => chatMessageSchema.Valid m
  | roomList roomTopic => ∀ topic ∈ roomTopic, ValidUtf8 topic
  | readiness _ => True
  | error notice => ValidUtf8 notice
  | spaceTree space room => (∀ r ∈ space, spaceSchema.Valid r) ∧ ∀ r ∈ room, roomSchema.Valid r
  | messageHistory h => ValidUtf8 h.roomTopic ∧ ∀ m ∈ h.message, chatMessageSchema.Valid m

theorem valid_wireFormat {event : GcsEvent} (h : event.Valid) : wireFormat.Valid event := by
  change ∀ a ∈ payloads, ∀ b, a.unwrap event = some b → a.schema.Valid b
  simp only [payloads, List.forall_mem_cons]
  refine ⟨?_, ?_, ?_, ?_, ?_, ?_, List.forall_mem_nil _⟩ <;> intro b hb <;> cases event <;> cases hb
  · exact h
  · exact valid_oneField h
  · exact valid_oneField trivial
  · exact valid_oneField h
  · exact valid_twoField h.1 h.2
  · exact valid_twoField h.1 h.2

/-- What the core pushes is the event that the shell reads. -/
theorem parse_serialize {event : GcsEvent} (h : event.Valid) :
    parse event.serialize = some (some event) :=
  Oneof.parse_serialize (valid_wireFormat h)

example : (error [104, 105]).serialize = [34, 4, 10, 2, 104, 105] := by decide

end GcsEvent

end GcsChat
