import GcsChat.EntityStore
import GcsChat.MessagingProgram

/-!
# The session behind the FFI

`gcs_core_ffi.cpp`: `gcs_init` and the command arms of `gcs_publish` over what `g_mutex` guards. The
mutex is given up in two places only, around the live subscribe and around `SendMessage`. A null
pointer is `none`; the session is its address, and the entity catalog and the messaging component
exist when it does.
-/

namespace GcsChat

open ByteString ProtoSchema Interactive

def kCommandTopic : Bytes := ofString "gcs/command"
def kMaxEntityNameLength : ℕ := 64
def kMaxTopicLength : ℕ := 128
def kMaxMessageTextLength : ℕ := 4096
def kMaxInt : ℕ := 2 ^ 31 - 1

structure Globals where
  session : Option ℕ
  entities : EntityStore
  roomTopics : List Bytes
  derivedTopics : List Bytes
  explicitTopics : List Bytes
  inFlight : ℕ

def Globals.fresh : Globals := ⟨none, .fresh, [], [], [], 0⟩

inductive GcsCommand
  | joinTopic (roomTopic : Bytes)
  | sendText (roomTopic text : Bytes)
  | createSpace (name : Bytes) (isPublic autoJoinRooms : Bool)
  | createRoom (name parentSpaceId : Bytes)
  | updateSpace (spaceId name : Bytes) (isPublic autoJoinRooms : Bool)
  | payloadNotSet

inductive GcsStatus
  | ok
  | errorGeneric
  | errorInvalidArgument
  | errorNotRunning
  deriving DecidableEq

/-- The components of a session, and the parser of its commands. -/
structure Core where
  messaging : Messaging
  codecs : Codecs
  parseCommand : Bytes → Option GcsCommand

/-- `Utf8CodePointCount`: the bytes that do not continue a code point. -/
def utf8CodePointCount (text : Bytes) : ℕ := text.countP fun byte => byte &&& 0xC0 != 0x80

namespace Core

variable (C : Core)

def buildRoomListEvent (g : Globals) : GcsEvent := .roomList g.roomTopics

def buildSpaceTreeEvent (g : Globals) : GcsEvent := .spaceTree g.entities.spaces g.entities.rooms

def postErrorNotice (message : Bytes) : Program Globals Unit := postToDart (.error message)

def pushMessageHistory (roomTopic : Bytes) : Program Globals Unit := do
  let history ← C.messaging.queryHistoryProgram roomTopic
  match history with
  | none => pure ()
  | some batch => postToDart (.messageHistory batch)

def reject (g : Globals) (notice : Bytes) : Program Globals (Globals × GcsStatus) := do
  postErrorNotice notice
  pure (g, .errorInvalidArgument)

def failWith (g : Globals) (notice : Bytes) : Program Globals (Globals × GcsStatus) := do
  postErrorNotice notice
  pure (g, .errorGeneric)

/-- Listen first, then broadcast. -/
def joinBothWays (topic : Bytes) : Program Globals Bool := do
  let listenOk ← CoreSession.addListenTopic topic
  if listenOk then CoreSession.addBroadcastTopic topic else pure false

/-- `SubscribeLive` once the subscribe has returned. -/
def resumeLive (roomTopic : Bytes) (liveOk : Bool) : Program Globals (Globals × Bool) := do
  let g ← lockMutex
  let g := { g with inFlight := g.inFlight - 1 }
  if liveOk then pure (g, true)
  else do
    postErrorNotice (ofString "live subscribe failed for room '" ++ roomTopic ++ ofString "'")
    pure (g, false)

/-- The blocking subscribe runs without `g_mutex`. -/
def subscribeLive (g : Globals) (roomTopic : Bytes) : Program Globals (Globals × Bool) := do
  unlockMutex { g with inFlight := g.inFlight + 1 }
  let liveOk ← CoreSession.subscribe roomTopic
  resumeLive roomTopic liveOk

def pushBackAbsent (topics : List Bytes) (topic : Bytes) : List Bytes :=
  if topic ∈ topics then topics else topics ++ [topic]

def addDerived (g : Globals) (topic : Bytes) : Globals :=
  { g with
    derivedTopics := g.derivedTopics ++ [topic]
    roomTopics := pushBackAbsent g.roomTopics topic }

/-- The first loop of `RefreshDerivedJoins`, over the snapshot. -/
def registerDerived : List Bytes → Globals → Program Globals Globals
  | [], g => pure g
  | topic :: rest, g =>
      if topic ∈ g.derivedTopics then registerDerived rest g
      else do
        let joined ← joinBothWays topic
        if joined then do
          let g := addDerived g topic
          C.pushMessageHistory topic
          let subscribed ← subscribeLive g topic
          registerDerived rest subscribed.1
        else registerDerived rest g

/-- The second loop: a topic that left the snapshot leaves the derived topics, and the room topics
unless it was joined explicitly. -/
def evictUnderived (derived : List Bytes) (g : Globals) : Globals :=
  { g with
    derivedTopics := g.derivedTopics.filter (· ∈ derived)
    roomTopics := g.derivedTopics.foldl (fun roomTopics topic =>
      if topic ∈ derived ∨ topic ∈ g.explicitTopics then roomTopics
      else roomTopics.filter (· ≠ topic)) g.roomTopics }

theorem mem_derivedTopics_evictUnderived {derived : List Bytes} {g : Globals} {topic : Bytes} :
    topic ∈ (evictUnderived derived g).derivedTopics ↔ topic ∈ g.derivedTopics ∧ topic ∈ derived := by
  simp [evictUnderived]

/-- Explicit membership outranks derivation. -/
theorem mem_roomTopics_evictUnderived {derived : List Bytes} {g : Globals} {topic : Bytes} :
    topic ∈ (evictUnderived derived g).roomTopics ↔ topic ∈ g.roomTopics ∧
      (topic ∈ g.derivedTopics → topic ∈ derived ∨ topic ∈ g.explicitTopics) := by
  suffices h : ∀ (topics rooms : List Bytes), topic ∈ topics.foldl (fun roomTopics topic =>
      if topic ∈ derived ∨ topic ∈ g.explicitTopics then roomTopics
      else roomTopics.filter (· ≠ topic)) rooms ↔
        topic ∈ rooms ∧ (topic ∈ topics → topic ∈ derived ∨ topic ∈ g.explicitTopics) from
    h g.derivedTopics g.roomTopics
  intro topics
  induction topics with
  | nil => simp
  | cons t rest ih =>
      intro rooms
      rw [List.foldl_cons, ih]
      by_cases hkeep : t ∈ derived ∨ t ∈ g.explicitTopics
      · rw [if_pos hkeep]
        refine and_congr_right fun _ => ⟨fun h hmem => ?_, fun h hmem => h (.tail _ hmem)⟩
        rcases List.mem_cons.1 hmem with rfl | hmem
        · exact hkeep
        · exact h hmem
      · rw [if_neg hkeep, List.mem_filter, decide_eq_true_eq]
        constructor
        · rintro ⟨⟨hroom, hne⟩, h⟩
          exact ⟨hroom, fun hmem => h ((List.mem_cons.1 hmem).resolve_left hne)⟩
        · rintro ⟨hroom, h⟩
          refine ⟨⟨hroom, fun heq => ?_⟩, fun hmem => h (.tail _ hmem)⟩
          exact hkeep (heq ▸ h (heq ▸ .head _))

theorem mem_pushBackAbsent {topics : List Bytes} {topic other : Bytes} :
    other ∈ pushBackAbsent topics topic ↔ other ∈ topics ∨ other = topic := by
  unfold pushBackAbsent
  split
  · next hmem => exact ⟨.inl, fun h => h.elim id fun h => h ▸ hmem⟩
  · simp

def refreshDerivedJoins (g : Globals) : Program Globals Globals := do
  let derived := g.entities.derivedJoinedTopics
  let g ← C.registerDerived derived g
  pure (evictUnderived derived g)

/-- The checks on a room topic that `join_topic` and `send_text` share. -/
def topicRejection (arm : Bytes) (roomTopic : Bytes) : Option Bytes :=
  if roomTopic = [] then some (arm ++ ofString " rejected: room_topic is empty")
  else if kMaxTopicLength < roomTopic.length then
    some (arm ++ ofString " rejected: room_topic exceeds maximum length")
  else if !isValidRoomTopicShape roomTopic then
    some (arm ++ ofString " rejected: room_topic must be 'gcs/chat/<id>' with no additional '/'")
  else none

/-- The checks on an entity name that `create_space` and `create_room` share. -/
def nameRejection (arm : Bytes) (name : Bytes) : Option Bytes :=
  if name = [] then some (arm ++ ofString " rejected: name is empty")
  else if kMaxEntityNameLength < utf8CodePointCount name then
    some (arm ++ ofString " rejected: name exceeds maximum length")
  else none

def joinTopic (g : Globals) (roomTopic : Bytes) : Program Globals (Globals × GcsStatus) :=
  match topicRejection (ofString "join_topic") roomTopic with
  | some notice => reject g notice
  | none => do
      let joined ← joinBothWays roomTopic
      if joined then do
        let alreadyJoined := decide (roomTopic ∈ g.roomTopics)
        let g := { g with
          roomTopics := pushBackAbsent g.roomTopics roomTopic
          explicitTopics := pushBackAbsent g.explicitTopics roomTopic }
        postToDart (buildRoomListEvent g)
        C.pushMessageHistory roomTopic
        if alreadyJoined then pure (g, .ok)
        else do
          let subscribed ← subscribeLive g roomTopic
          pure (subscribed.1, if subscribed.2 then .ok else .errorGeneric)
      else failWith g (ofString "join_topic failed for room '" ++ roomTopic ++ ofString "'")

def sendText (g : Globals) (roomTopic text : Bytes) : Program Globals (Globals × GcsStatus) :=
  match topicRejection (ofString "send_text") roomTopic with
  | some notice => reject g notice
  | none =>
      if roomTopic ∉ g.roomTopics then
        reject g (ofString "send_text rejected: room '" ++ roomTopic ++
          ofString "' is not joined")
      else if kMaxMessageTextLength < text.length then
        reject g (ofString "send_text rejected: text exceeds maximum length")
      else do
        unlockMutex { g with inFlight := g.inFlight + 1 }
        let sendOk ← C.messaging.sendMessageProgram roomTopic text
        let g ← lockMutex
        let g := { g with inFlight := g.inFlight - 1 }
        if sendOk then pure (g, .ok)
        else failWith g (ofString "send_text failed for room '" ++ roomTopic ++ ofString "'")

def createSpace (g : Globals) (name : Bytes) (isPublic autoJoinRooms : Bool) :
    Program Globals (Globals × GcsStatus) :=
  match nameRejection (ofString "create_space") name with
  | some notice => reject g notice
  | none => do
      let created ← g.entities.createSpace C.codecs name isPublic autoJoinRooms
      let g := { g with entities := created.1 }
      if created.2.isSome then do
        postToDart (buildSpaceTreeEvent g)
        pure (g, .ok)
      else failWith g (ofString "create_space store write failed for '" ++ name ++ ofString "'")

/-- What follows a change of the catalog that may change the derived joins. -/
def publishCatalog (g : Globals) : Program Globals (Globals × GcsStatus) := do
  let g ← C.refreshDerivedJoins g
  postToDart (buildSpaceTreeEvent g)
  postToDart (buildRoomListEvent g)
  pure (g, .ok)

def createRoom (g : Globals) (name parentSpaceId : Bytes) : Program Globals (Globals × GcsStatus) :=
  match nameRejection (ofString "create_room") name with
  | some notice => reject g notice
  | none =>
      if parentSpaceId ≠ [] ∧ ¬ g.entities.isValidParentSpace parentSpaceId then
        reject g (ofString "create_room rejected: parent space '" ++ parentSpaceId ++
          ofString "' not found")
      else do
        let created ← g.entities.createRoom C.codecs name parentSpaceId
        let g := { g with entities := created.1 }
        if created.2.isSome then C.publishCatalog g
        else failWith g (ofString "create_room store write failed for '" ++ name ++ ofString "'")

def desiredSpace (spaceId name : Bytes) (isPublic autoJoinRooms : Bool) : SpaceRecord where
  id := spaceId
  name := name
  isPublic := isPublic
  autoJoinRooms := autoJoinRooms
  createdAtMs := 0
  updatedAtMs := 0
  deleted := false
  deletedAtMs := 0
  unknownFields := []

def updateSpace (g : Globals) (spaceId name : Bytes) (isPublic autoJoinRooms : Bool) :
    Program Globals (Globals × GcsStatus) :=
  if spaceId = [] ∨ name = [] then
    reject g (ofString "update_space rejected: space_id and name must be non-empty")
  else if kMaxEntityNameLength < utf8CodePointCount name then
    reject g (ofString "update_space rejected: name exceeds maximum length")
  else do
    let updated ← g.entities.updateSpace C.codecs (desiredSpace spaceId name isPublic autoJoinRooms)
    let g := { g with entities := updated.1 }
    if updated.2.isSome then C.publishCatalog g
    else failWith g (ofString "update_space failed for '" ++ spaceId ++ ofString "'")

def runCommand (g : Globals) : GcsCommand → Program Globals (Globals × GcsStatus)
  | .joinTopic roomTopic => C.joinTopic g roomTopic
  | .sendText roomTopic text => C.sendText g roomTopic text
  | .createSpace name isPublic autoJoinRooms => C.createSpace g name isPublic autoJoinRooms
  | .createRoom name parentSpaceId => C.createRoom g name parentSpaceId
  | .updateSpace spaceId name isPublic autoJoinRooms =>
      C.updateSpace g spaceId name isPublic autoJoinRooms
  | .payloadNotSet => reject g (ofString "GcsCommand payload not set")

def publishLocked (g : Globals) (session : Option ℕ) (topic payload : Option Bytes) :
    Program Globals (Globals × GcsStatus) :=
  match topic, payload with
  | some topic, some payload =>
      if g.session = none ∨ session ≠ g.session ∨ payload = [] ∨ kMaxInt < payload.length then
        pure (g, .errorInvalidArgument)
      else do
        let running ← CoreSession.isRunning
        if !running then pure (g, .errorNotRunning)
        else if topic ≠ kCommandTopic then pure (g, .errorInvalidArgument)
        else match C.parseCommand payload with
          | none => reject g (ofString "GcsCommand parse failed")
          | some command => C.runCommand g command
  | _, _ => pure (g, .errorInvalidArgument)

def gcsPublish (session : Option ℕ) (topic payload : Option Bytes) : Program Globals GcsStatus :=
  withMutex fun g => C.publishLocked g session topic payload

/-- Pre-joins topics; the flag says whether any of them joined both ways. -/
def joinSmokeTopics : List Bytes → Globals → Bool → Program Globals (Globals × Bool)
  | [], g, joinedAny => pure (g, joinedAny)
  | topic :: rest, g, joinedAny => do
      let joined ← joinBothWays topic
      if joined then joinSmokeTopics rest { g with roomTopics := g.roomTopics ++ [topic] } true
      else joinSmokeTopics rest g joinedAny

/-- `gcs_init` once `CoreSession::Initialize` has succeeded. -/
def startSession (g : Globals) (session : ℕ) : Program Globals (Globals × Option ℕ) := do
  let joined ← joinSmokeTopics [kSmokeTopicA, kSmokeTopicB] g false
  let g := joined.1
  if joined.2 then do
    let _ ← CoreSession.registerNewElementCallback
    let entities ← EntityStore.loadFromStore C.codecs
    let g ← C.refreshDerivedJoins { g with session := some session, entities := entities }
    pure (g, some session)
  else pure (g, none)

/-- `gcs_init` from the check for a session on; `initSession` stands for the node boot and
`CoreSession::Initialize`. -/
def initLocked (g : Globals) : Program Globals (Globals × Option ℕ) :=
  match g.session with
  | some session => pure (g, some session)
  | none => do
      let opened ← CoreSession.initSession
      match opened with
      | none => pure (g, none)
      | some session => C.startSession g session

def gcsInit : Program Globals (Option ℕ) := withMutex C.initLocked

/-- The bridge into the receive funnel, on the thread of the callback. An exception of the funnel
leaves the callback as well, and what follows the funnel is skipped. -/
def receiveCallback (funnel : Program Globals (Option Unit)) : Program Globals (Option Unit) := do
  let disabled ← receivingDisabled
  if disabled then pure (some ())
  else do
    let g ← lockMutex
    if g.session = none then do
      unlockMutex g
      pure (some ())
    else do
      unlockMutex { g with inFlight := g.inFlight + 1 }
      let returned ← funnel
      if returned.isSome then do
        let g ← lockMutex
        unlockMutex { g with inFlight := g.inFlight - 1 }
        pure (some ())
      else pure none

def liveCallback (topic data : Bytes) : Program Globals (Option Unit) :=
  receiveCallback do
    C.messaging.applyMessageProgram topic data
    pure (some ())

def healCallback (key value : Bytes) : Program Globals (Option Unit) :=
  receiveCallback (C.messaging.onMessageArrivedProgram key value)

end Core

end GcsChat
