import GcsChat.Effects
import GcsChat.MessageKeys
import GcsChat.OrderedMap

/-!
# The entity catalog

`gcs_entity_store.cpp`: spaces and rooms, one record under its own key each, and the manifest that
lists their ids because the store cannot be enumerated. The two maps are the value of the store
object; every operation returns them with its result.
-/

namespace GcsChat

open ByteString ProtoSchema Interactive

def kSpacesKeyPrefix : Bytes := ofString "gcs/entities/spaces/"
def kRoomsKeyPrefix : Bytes := ofString "gcs/entities/rooms/"
def kManifestKey : Bytes := ofString "gcs/index/manifest"
def kSpaceIdPrefix : Bytes := ofString "space-"
def kRoomIdPrefix : Bytes := ofString "room-"
def kRoomTopicPrefix : Bytes := ofString "gcs/chat/"

namespace EntityManifest

def empty : EntityManifest := ⟨[], [], []⟩

def ids (m : EntityManifest) (isSpaceId : Bool) : List Bytes :=
  if isSpaceId then m.spaceId else m.roomId

def add (m : EntityManifest) (isSpaceId : Bool) (id : Bytes) : EntityManifest :=
  if isSpaceId then { m with spaceId := m.spaceId ++ [id] }
  else { m with roomId := m.roomId ++ [id] }

/-- The union step of `AppendToManifest`. -/
def insert (m : EntityManifest) (isSpaceId : Bool) (id : Bytes) : EntityManifest :=
  if id ∈ m.ids isSpaceId then m else m.add isSpaceId id

end EntityManifest

structure EntityStore where
  mSpaces : OrderedMap Bytes SpaceRecord
  mRooms : OrderedMap Bytes RoomRecord

namespace EntityStore

def fresh : EntityStore := ⟨.empty, .empty⟩

def emplaceSpace (e : EntityStore) (space : SpaceRecord) : EntityStore :=
  { e with mSpaces := e.mSpaces.emplace space.id space }

def emplaceRoom (e : EntityStore) (room : RoomRecord) : EntityStore :=
  { e with mRooms := e.mRooms.emplace room.id room }

def assignSpace (e : EntityStore) (space : SpaceRecord) : EntityStore :=
  { e with mSpaces := e.mSpaces.insertOrAssign space.id space }

@[simp] theorem emplaceSpace_mRooms (e : EntityStore) (space : SpaceRecord) :
    (e.emplaceSpace space).mRooms = e.mRooms := rfl

@[simp] theorem emplaceRoom_mSpaces (e : EntityStore) (room : RoomRecord) :
    (e.emplaceRoom room).mSpaces = e.mSpaces := rfl

@[simp] theorem assignSpace_mRooms (e : EntityStore) (space : SpaceRecord) :
    (e.assignSpace space).mRooms = e.mRooms := rfl

@[simp] theorem assignSpace_mSpaces (e : EntityStore) (space : SpaceRecord) :
    (e.assignSpace space).mSpaces = e.mSpaces.insertOrAssign space.id space := rfl

@[simp] theorem emplaceSpace_mSpaces (e : EntityStore) (space : SpaceRecord) :
    (e.emplaceSpace space).mSpaces = e.mSpaces.emplace space.id space := rfl

@[simp] theorem emplaceRoom_mRooms (e : EntityStore) (room : RoomRecord) :
    (e.emplaceRoom room).mRooms = e.mRooms.emplace room.id room := rfl

section Operations

variable {G : Type} (codecs : Codecs) (e : EntityStore)

/-- `AppendToManifest`: what cannot be read or parsed counts as an empty manifest. -/
def appendToManifest (isSpaceId : Bool) (id : Bytes) : Program G Bool := do
  let stored ← CoreSession.get kManifestKey
  let manifest := (stored.bind codecs.manifest.parse).getD .empty
  CoreSession.put kManifestKey (codecs.manifest.serialize (manifest.insert isSpaceId id))

/-- The manifest first, then the record. -/
def writeEntity (isSpaceId : Bool) (id key record : Bytes) : Program G Bool := do
  let manifestOk ← appendToManifest codecs isSpaceId id
  if manifestOk then CoreSession.put key record else pure false

def loadRecords {α : Type} (parse : Bytes → Option α) (idOf : α → Bytes) (keyPrefix : Bytes) :
    List Bytes → OrderedMap Bytes α → Program G (OrderedMap Bytes α)
  | [], m => pure m
  | id :: rest, m => do
      let recordBytes ← CoreSession.get (keyPrefix ++ id)
      match recordBytes.bind parse with
      | none => loadRecords parse idOf keyPrefix rest m
      | some record => loadRecords parse idOf keyPrefix rest (m.emplace (idOf record) record)

/-- `LoadFromStore` clears both maps and always succeeds. -/
def loadFromStore : Program G EntityStore := do
  let manifestBytes ← CoreSession.get kManifestKey
  match manifestBytes.bind codecs.manifest.parse with
  | none => pure fresh
  | some manifest => do
      let spaces ← loadRecords codecs.space.parse (·.id) kSpacesKeyPrefix manifest.spaceId .empty
      let rooms ← loadRecords codecs.room.parse (·.id) kRoomsKeyPrefix manifest.roomId .empty
      pure ⟨spaces, rooms⟩

def newSpace (id name : Bytes) (isPublic autoJoinRooms : Bool) (nowMs : ℤ) : SpaceRecord where
  id := id
  name := name
  isPublic := isPublic
  autoJoinRooms := autoJoinRooms
  createdAtMs := nowMs
  updatedAtMs := nowMs
  deleted := false
  deletedAtMs := 0
  unknownFields := []

def newRoom (id name parentSpaceId : Bytes) (nowMs : ℤ) : RoomRecord where
  id := id
  name := name
  parentSpaceId := parentSpaceId
  createdAtMs := nowMs
  updatedAtMs := nowMs
  deleted := false
  deletedAtMs := 0
  unknownFields := []

def isValidParentSpace (id : Bytes) : Bool :=
  match e.mSpaces.find? id with
  | none => false
  | some space => !space.deleted

def createSpace (name : Bytes) (isPublic autoJoinRooms : Bool) :
    Program G (EntityStore × Option SpaceRecord) := do
  let id ← nextId kSpaceIdPrefix
  let now ← nowMs
  let record := newSpace id name isPublic autoJoinRooms now
  let ok ← writeEntity codecs true id (kSpacesKeyPrefix ++ id) (codecs.space.serialize record)
  if ok then pure (e.emplaceSpace record, some record) else pure (e, none)

def createRoom (name parentSpaceId : Bytes) : Program G (EntityStore × Option RoomRecord) :=
  if parentSpaceId ≠ [] ∧ ¬ e.isValidParentSpace parentSpaceId then pure (e, none)
  else do
    let id ← nextId kRoomIdPrefix
    let now ← nowMs
    let record := newRoom id name parentSpaceId now
    let ok ← writeEntity codecs false id (kRoomsKeyPrefix ++ id) (codecs.room.serialize record)
    if ok then pure (e.emplaceRoom record, some record) else pure (e, none)

/-- The fields that `UpdateSpace` keeps from the stored record or stamps itself. -/
def updatedSpace (desired existing : SpaceRecord) (nowMs : ℤ) : SpaceRecord :=
  { desired with
    createdAtMs := existing.createdAtMs
    deleted := existing.deleted
    deletedAtMs := existing.deletedAtMs
    updatedAtMs := nowMs }

def updateSpace (desired : SpaceRecord) : Program G (EntityStore × Option SpaceRecord) :=
  match e.mSpaces.find? desired.id with
  | none => pure (e, none)
  | some existing =>
      if existing.deleted then pure (e, none)
      else do
        let now ← nowMs
        let updated := updatedSpace desired existing now
        let ok ← CoreSession.put (kSpacesKeyPrefix ++ updated.id)
          (codecs.space.serialize updated)
        if ok then pure (e.assignSpace updated, some updated) else pure (e, none)

end Operations

section Views

variable (e : EntityStore)

def spaces : List SpaceRecord := e.mSpaces.values.filter fun space => !space.deleted

def rooms : List RoomRecord := e.mRooms.values.filter fun room => !room.deleted

def derivedTopic (room : RoomRecord) : Option Bytes :=
  if room.parentSpaceId = [] then none
  else match e.mSpaces.find? room.parentSpaceId with
    | none => none
    | some parent =>
        if parent.deleted || !parent.autoJoinRooms then none
        else some (kRoomTopicPrefix ++ room.id)

def derivedJoinedTopics : List Bytes := e.rooms.filterMap e.derivedTopic

end Views

end EntityStore

end GcsChat
