import GcsChat.CatalogMirror
import GcsChat.CatalogRuns
import GcsChat.CommandFormat
import GcsChat.EventFormat
import GcsChat.FfiRuns
import GcsChat.SectionRules

/-!
# What leaves the core can be read

The core writes events for the shell, messages for the peers and records for its own next start. In
any interleaving of the calls of the FFI and its callbacks, each of these is read back, where it goes,
as what was written.
-/

namespace GcsChat

open ByteString ProtoWire ProtoSchema Interactive

namespace EntityStore

structure Valid (e : EntityStore) : Prop where
  space : e.mSpaces.All fun _ r => spaceSchema.Valid r
  room : e.mRooms.All fun _ r => roomSchema.Valid r

theorem valid_fresh : fresh.Valid := ⟨OrderedMap.all_empty, OrderedMap.all_empty⟩

variable {e : EntityStore}

theorem Valid.assignSpace (h : e.Valid) {r : SpaceRecord} (hr : spaceSchema.Valid r) :
    (e.assignSpace r).Valid where
  space := by
    rw [assignSpace_mSpaces]
    exact h.space.insertOrAssign hr
  room := h.room

theorem Valid.emplaceSpace (h : e.Valid) {r : SpaceRecord} (hr : spaceSchema.Valid r) :
    (e.emplaceSpace r).Valid where
  space := by
    rw [emplaceSpace_mSpaces]
    exact h.space.emplace hr
  room := h.room

theorem Valid.emplaceRoom (h : e.Valid) {r : RoomRecord} (hr : roomSchema.Valid r) :
    (e.emplaceRoom r).Valid where
  space := h.space
  room := by
    rw [emplaceRoom_mRooms]
    exact h.room.emplace hr

theorem Valid.mem_spaces (h : e.Valid) {r : SpaceRecord} (hr : r ∈ e.spaces) :
    spaceSchema.Valid r := (h.space.exists_of_mem_values (List.mem_of_mem_filter hr)).choose_spec

theorem Valid.mem_rooms (h : e.Valid) {r : RoomRecord} (hr : r ∈ e.rooms) :
    roomSchema.Valid r := (h.room.exists_of_mem_values (List.mem_of_mem_filter hr)).choose_spec

theorem Valid.derivedJoinedTopics (h : e.Valid) :
    ∀ topic ∈ e.derivedJoinedTopics, ValidUtf8 topic := by
  intro topic htopic
  obtain ⟨room, hroom, -, hderived⟩ := mem_derivedJoinedTopics.1 htopic
  obtain ⟨-, hvalid⟩ := h.room.exists_of_mem_values hroom
  rw [(of_derivedTopic hderived).2]
  exact (validUtf8_ofString _).append (roomSchema_valid_iff.1 hvalid).1.1

end EntityStore

structure Globals.Valid (g : Globals) : Prop where
  entities : g.entities.Valid
  topics : ∀ topic ∈ g.roomTopics, ValidUtf8 topic

theorem Globals.valid_fresh : Globals.fresh.Valid :=
  ⟨EntityStore.valid_fresh, List.forall_mem_nil _⟩

theorem Globals.Valid.pushBackAbsent {g : Globals} (h : g.Valid) {topic : Bytes}
    (htopic : ValidUtf8 topic) : ∀ t ∈ Core.pushBackAbsent g.roomTopics topic, ValidUtf8 t := by
  intro t ht
  rcases Core.mem_pushBackAbsent.1 ht with hold | rfl
  · exact h.topics t hold
  · exact htopic

theorem Messaging.valid_withRole (M : Messaging) {msg : ChatMessageState}
    (h : chatMessageSchema.Valid msg) : chatMessageSchema.Valid (M.withRole msg) := by
  obtain ⟨hspecs, hunknown⟩ := h
  refine ⟨?_, hunknown⟩
  simp only [chatMessageSchema, List.forall_mem_cons] at hspecs ⊢
  obtain ⟨hid, htopic, -, hstate, htext, htime, hsender, -, hdeleted, -⟩ := hspecs
  refine ⟨hid, htopic, ?_, hstate, htext, htime, hsender, trivial, hdeleted, List.forall_mem_nil _⟩
  change (M.withRole msg).role.Canonical
  rw [withRole, roleFor]
  split
  · exact ⟨1, (by decide : MessageRole.userSelf = .ofNumber 1)⟩
  · exact ⟨2, (by decide : MessageRole.userPeer = .ofNumber 2)⟩

namespace GcsCommand

theorem valid_absorbInto {τ : Type} {type : FieldType τ} {old : τ} {set : τ → GcsCommand}
    {command command' : GcsCommand} {v : WireValue} (hv : v.WellFormed) (hold : type.Valid old)
    (hcommand : command.Valid) (h : absorbInto type old set command v = some command')
    (hset : ∀ t, type.Valid t → (set t).Valid) : command'.Valid := by
  rw [absorbInto] at h
  cases hx : type.absorb old v with
  | mismatch =>
      rw [hx] at h
      cases h
      exact hcommand
  | invalid =>
      rw [hx] at h
      cases h
  | value t =>
      rw [hx] at h
      cases h
      exact hset t (type.valid_absorb _ _ _ hold hv hx)

theorem valid_acceptSubfield {command command' : GcsCommand} {f : WireField} (hf : f.WellFormed)
    (hcommand : command.Valid) (h : acceptSubfield command f = some command') : command'.Valid := by
  have hv := hf.2.2
  unfold acceptSubfield at h
  split at h
  · exact valid_absorbInto hv hcommand hcommand h fun _ ht => ht
  · exact valid_absorbInto hv hcommand.1 hcommand h fun _ ht => ⟨ht, hcommand.2⟩
  · exact valid_absorbInto hv hcommand.2 hcommand h fun _ ht => ⟨hcommand.1, ht⟩
  · exact valid_absorbInto hv hcommand hcommand h fun _ ht => ht
  · exact valid_absorbInto hv trivial hcommand h fun _ _ => hcommand
  · exact valid_absorbInto hv trivial hcommand h fun _ _ => hcommand
  · exact valid_absorbInto hv hcommand.1 hcommand h fun _ ht => ⟨ht, hcommand.2⟩
  · exact valid_absorbInto hv hcommand.2 hcommand h fun _ ht => ⟨hcommand.1, ht⟩
  · exact valid_absorbInto hv hcommand.1 hcommand h fun _ ht => ⟨ht, hcommand.2⟩
  · exact valid_absorbInto hv hcommand.2 hcommand h fun _ ht => ⟨hcommand.1, ht⟩
  · exact valid_absorbInto hv trivial hcommand h fun _ _ => hcommand
  · exact valid_absorbInto hv trivial hcommand h fun _ _ => hcommand
  · cases h
    exact hcommand

theorem valid_foldlM {accept : GcsCommand → WireField → Option GcsCommand}
    (haccept : ∀ c c' f, f.WellFormed → c.Valid → accept c f = some c' → c'.Valid)
    {fs : List WireField} (hfs : ∀ f ∈ fs, f.WellFormed) {command command' : GcsCommand}
    (hcommand : command.Valid) (h : fs.foldlM accept command = some command') : command'.Valid := by
  induction fs generalizing command with
  | nil =>
      cases h
      exact hcommand
  | cons f fs ih =>
      rw [List.foldlM_cons] at h
      obtain ⟨middle, hmiddle, hrest⟩ := Option.bind_eq_some_iff.1 h
      exact ih (fun g hg => hfs g (List.mem_cons_of_mem f hg))
        (haccept command middle f (hfs f List.mem_cons_self) hcommand hmiddle) hrest

theorem valid_initial {n : ℕ} {empty : GcsCommand} (h : initial n = some empty) : empty.Valid := by
  unfold initial at h
  split at h <;> cases h
  · exact validUtf8_nil
  · exact ⟨validUtf8_nil, validUtf8_nil⟩
  · exact validUtf8_nil
  · exact ⟨validUtf8_nil, validUtf8_nil⟩
  · exact ⟨validUtf8_nil, validUtf8_nil⟩

theorem valid_acceptField {command command' : GcsCommand} {f : WireField}
    (hcommand : command.Valid) (h : acceptField command f = some command') : command'.Valid := by
  unfold acceptField at h
  split at h
  · next empty body hempty hbody =>
      rw [mergeBody] at h
      obtain ⟨fs, hfs, hfold⟩ := Option.bind_eq_some_iff.1 h
      refine valid_foldlM (fun c c' f hf hc hc' => valid_acceptSubfield hf hc hc')
        (wellFormed_of_decode hfs) ?_ hfold
      split
      · exact hcommand
      · exact valid_initial hempty
  · cases h
    exact hcommand

/-- The parser of commands yields nothing but UTF-8. -/
theorem valid_of_parse {bytes : Bytes} {command : GcsCommand} (h : parse bytes = some command) :
    command.Valid := by
  obtain ⟨fs, hfs, hfold⟩ := Option.bind_eq_some_iff.1 h
  have hunset : payloadNotSet.Valid := trivial
  exact valid_foldlM (fun c c' f _ hc hc' => valid_acceptField hc hc') (wellFormed_of_decode hfs)
    hunset hfold

end GcsCommand

def FfiCall.Commands (C : Core) (call : FfiCall) (command : GcsCommand) : Prop :=
  ∃ handle payload, call = .publish handle (some kCommandTopic) (some payload) ∧
    C.parseCommand payload = some command

def FfiCall.Brings (topic data : Bytes) : FfiCall → Prop
  | live _ topic' data' => topic' = topic ∧ data' = data
  | heal _ key value => roomTopicFromKey key = some topic ∧ value = data
  | _ => False

def GcsCommand.creates : GcsCommand → Option Bool
  | createSpace _ _ _ => some true
  | createRoom _ _ => some false
  | _ => none

/-- The data is the message of the `send_text`, sealed for its room, and opens there to that message. -/
inductive Core.Sends (C : Core) (call : FfiCall) (topic id data : Bytes) : Prop
  | sent (text : Bytes) (now : ℤ) (random : Bytes) (hcall : call.Commands C (.sendText topic text))
      (hsealed : C.messaging.sealed random topic (C.messaging.codec.serialize
        (C.messaging.completeMessage topic text id now)) = some data)
      (hopen : C.messaging.openMessage topic data =
        some (C.messaging.completeMessage topic text id now))

/-- The value carries, under its key, what the command writes to the catalog: the manifest with an id
more, or the record of a space or a room with the fields of the command. -/
inductive Core.Records (C : Core) (call : FfiCall) : Bytes → Bytes → Prop
  | manifest {value : Bytes} (command : GcsCommand) (hcall : call.Commands C command)
      (isSpaceId : Bool) (hcreates : command.creates = some isSpaceId) (stored : Option Bytes)
      (id : Bytes) (h : C.codecs.manifest.Carries value
        ((readManifest C.codecs stored).insert isSpaceId id)) : C.Records call kManifestKey value
  | newSpace {value name : Bytes} {isPublic autoJoinRooms : Bool}
      (hcall : call.Commands C (.createSpace name isPublic autoJoinRooms)) (id : Bytes) (now : ℤ)
      (h : C.codecs.space.Carries value (EntityStore.newSpace id name isPublic autoJoinRooms now)) :
      C.Records call (kSpacesKeyPrefix ++ id) value
  | newRoom {value name parentSpaceId : Bytes}
      (hcall : call.Commands C (.createRoom name parentSpaceId)) (id : Bytes) (now : ℤ)
      (h : C.codecs.room.Carries value (EntityStore.newRoom id name parentSpaceId now)) :
      C.Records call (kRoomsKeyPrefix ++ id) value
  | updatedSpace {value spaceId name : Bytes} {isPublic autoJoinRooms : Bool}
      (hcall : call.Commands C (.updateSpace spaceId name isPublic autoJoinRooms))
      (existing : SpaceRecord) (now : ℤ) (h : C.codecs.space.Carries value (EntityStore.updatedSpace
        (Core.desiredSpace spaceId name isPublic autoJoinRooms) existing now)) :
      C.Records call (kSpacesKeyPrefix ++ spaceId) value

/-- What goes out with a question is what the call has to write, and is read back as that where it
goes: the events in the shell, the messages by whoever has the room, the records at the next start. -/
def Core.Legible (C : Core) (call : FfiCall) : Effect Globals → Prop
  | .post event => GcsEvent.parse event.serialize = some (some event)
  | .publish topic data => ∃ id, C.Sends call topic id data
  | .putTopics key value topics => ∃ topic id, C.Sends call topic id value ∧
      key = buildKey topic id ∧ topics = [topic]
  | .enqueueArchive key value => ∃ topic msg, call.Brings topic value ∧
      C.messaging.openMessage topic value = some msg ∧ key = buildKey msg.roomTopic msg.id
  | .put key value => C.Records call key value
  | _ => True

/-- What is guarded is valid and everything that goes out legible; the ids are text and the clock fits
its type. -/
def Core.wireRule (C : Core) : SectionRule where
  guards := Globals.Valid
  asks := C.Legible
  id := ValidUtf8
  time := IsInt64

/-- The program writes nothing illegible, and ends as `Q` says. -/
abbrev Core.Writes {α : Type} (C : Core) (call : FfiCall) (p : Program Globals α) (Q : α → Prop) :
    Prop := C.wireRule.Keeps call p Q

/-- What the core is built with: a sender that is text, a seam that undoes itself, and a parser that
yields valid commands. -/
structure Core.Sane (C : Core) : Prop where
  sender : ValidUtf8 C.messaging.sender
  crypto : C.messaging.crypto.DecryptUndoesEncrypt
  parseCommand : ∀ bytes command, C.parseCommand bytes = some command → command.Valid

theorem sane_protoCore {M : Messaging} (hsender : ValidUtf8 M.sender)
    (hcrypto : M.crypto.DecryptUndoesEncrypt) : (protoCore M).Sane where
  sender := hsender
  crypto := hcrypto
  parseCommand _ _ h := GcsCommand.valid_of_parse h

namespace Core

theorem writes_ask {C : Core} {call : FfiCall} {α : Type} {Q : α → Prop} {e : Effect Globals}
    {next : e.Answer → Program Globals α} (he : C.Legible call e ∧ C.wireRule.Restores e)
    (hnext : ∀ a, C.wireRule.Relies e a → C.Writes call (next a) Q) : C.Writes call (ask e next) Q :=
  SectionRule.keeps_ask he hnext

section Messages

variable {C : Core} (hC : C.Sane) {call : FfiCall}

theorem writes_sinkMessage {msg : ChatMessageState} (h : chatMessageSchema.Valid msg) :
    C.Writes call (C.messaging.sinkMessage msg) fun _ => True :=
  writes_ask ⟨trivial, trivial⟩ fun _ hg =>
    writes_ask ⟨GcsEvent.parse_serialize (C.messaging.valid_withRole h), trivial⟩ fun _ _ =>
      writes_ask ⟨trivial, hg⟩ fun _ _ => trivial

theorem valid_of_openMessage {topic data : Bytes} {msg : ChatMessageState}
    (h : C.messaging.openMessage topic data = some msg) : chatMessageSchema.Valid msg := by
  obtain ⟨plain, -, hparse⟩ := Option.bind_eq_some_iff.1 h
  exact C.messaging.codec.valid_of_parse plain msg hparse

include hC in
theorem writes_sendMessageProgram {topic text : Bytes} (htopic : ValidUtf8 topic)
    (htext : ValidUtf8 text) (hcall : call.Commands C (.sendText topic text)) :
    C.Writes call (C.messaging.sendMessageProgram topic text) fun _ => True := by
  refine writes_ask ⟨trivial, trivial⟩ fun id hid => writes_ask ⟨trivial, trivial⟩ fun now hnow =>
    writes_ask ⟨trivial, trivial⟩ fun _ _ => ?_
  let msg := C.messaging.completeMessage topic text id now
  have hvalid : ∀ state : MessageState, state.Canonical →
      chatMessageSchema.Valid { msg with state := state } := fun state hstate =>
    ChatMessageState.valid hid htopic htext hC.sender
      ⟨1, (by decide : MessageRole.userSelf = .ofNumber 1)⟩ hstate hnow isInt64_zero rfl
  have hpending := hvalid .pending ⟨1, (by decide : MessageState.pending = .ofNumber 1)⟩
  have hcomplete := hvalid .complete ⟨4, (by decide : MessageState.complete = .ofNumber 4)⟩
  have herror := hvalid .error ⟨5, (by decide : MessageState.error = .ofNumber 5)⟩
  have hfail : C.Writes call (do
      C.messaging.sinkMessage { msg with state := .error }
      pure false) fun _ => True :=
    (writes_sinkMessage herror).bind fun _ _ => trivial
  refine (writes_sinkMessage hpending).bind fun _ _ => writes_ask ⟨trivial, trivial⟩ fun random _ => ?_
  dsimp only [Interactive.bind]
  cases hsealed : C.messaging.sealed random topic (C.messaging.codec.serialize msg) with
  | none => exact hfail
  | some payload =>
      have hopen : C.messaging.openMessage topic payload = some msg :=
        Messaging.openMessage_sealed hC.crypto hcomplete hsealed
      have hsends : C.Sends call topic id payload := .sent text now random hcall hsealed hopen
      refine writes_ask ⟨⟨id, hsends⟩, trivial⟩ fun publishOk _ => ?_
      cases publishOk with
      | false => exact hfail
      | true =>
          refine writes_ask ⟨⟨topic, id, hsends, rfl, rfl⟩, trivial⟩ fun putOk _ => ?_
          cases putOk with
          | false => exact hfail
          | true => exact (writes_sinkMessage hcomplete).bind fun _ _ => trivial

theorem writes_applyMessageProgram {topic data : Bytes} (hcall : call.Brings topic data) :
    C.Writes call (C.messaging.applyMessageProgram topic data) fun _ => True := by
  unfold Messaging.applyMessageProgram
  cases hopen : C.messaging.openMessage topic data with
  | none => exact trivial
  | some msg =>
      refine writes_ask ⟨trivial, trivial⟩ fun unseen _ => ?_
      cases unseen with
      | false => exact trivial
      | true =>
          exact (writes_sinkMessage (valid_of_openMessage hopen)).bind fun _ _ =>
            writes_ask ⟨⟨topic, msg, hcall, hopen, rfl⟩, trivial⟩ fun _ _ => trivial

theorem writes_onMessageArrivedProgram (n : ℕ) (key value : Bytes) :
    C.Writes (.heal n key value) (C.messaging.onMessageArrivedProgram key value) fun _ => True := by
  unfold Messaging.onMessageArrivedProgram
  cases htopic : roomTopicFromKey key with
  | none => exact trivial
  | some topic =>
      change C.Writes _ (if topic = [] then _ else _) _
      split
      · exact trivial
      · have hcall : (FfiCall.heal n key value).Brings topic value := ⟨htopic, rfl⟩
        exact (writes_applyMessageProgram hcall).bind fun _ _ => trivial

theorem writes_pushMessageHistory {topic : Bytes} (htopic : ValidUtf8 topic) :
    C.Writes call (C.pushMessageHistory topic) fun _ => True := by
  refine writes_ask ⟨trivial, trivial⟩ fun scan _ => ?_
  cases scan with
  | none => exact trivial
  | some entries =>
      refine writes_ask ⟨trivial, trivial⟩ fun _ _ => writes_ask ⟨?_, trivial⟩ fun _ _ => trivial
      apply GcsEvent.parse_serialize
      refine ⟨htopic, fun msg hmsg => ?_⟩
      obtain ⟨entry, -, m, hopen, rfl⟩ := Messaging.mem_historyMessages.1 hmsg
      exact C.messaging.valid_withRole (valid_of_openMessage hopen)

end Messages

section Catalog

variable {C : Core} {call : FfiCall} {command : GcsCommand} {e : EntityStore}

theorem writes_appendToManifest (hcall : call.Commands C command) {isSpaceId : Bool}
    (hcreates : command.creates = some isSpaceId) {id : Bytes} (hid : ValidUtf8 id) :
    C.Writes call (EntityStore.appendToManifest C.codecs isSpaceId id) fun _ => True := by
  refine writes_ask ⟨trivial, trivial⟩ fun stored _ => writes_ask ⟨?_, trivial⟩ fun _ _ => trivial
  have hvalid := EntityManifest.valid_insert (valid_readManifest C.codecs stored) isSpaceId hid
  exact .manifest command hcall isSpaceId hcreates stored id
    (C.codecs.manifest.carries_serialize hvalid)

theorem writes_writeEntity (hcall : call.Commands C command) {isSpaceId : Bool}
    (hcreates : command.creates = some isSpaceId) {id key record : Bytes} (hid : ValidUtf8 id)
    (hrecord : C.Records call key record) :
    C.Writes call (EntityStore.writeEntity C.codecs isSpaceId id key record) fun _ => True := by
  refine (writes_appendToManifest hcall hcreates hid).bind fun ok _ => ?_
  cases ok with
  | false => exact trivial
  | true => exact writes_ask ⟨hrecord, trivial⟩ fun _ _ => trivial

theorem writes_createSpace (he : e.Valid) {name : Bytes} (hname : ValidUtf8 name)
    {isPublic autoJoinRooms : Bool}
    (hcall : call.Commands C (.createSpace name isPublic autoJoinRooms)) :
    C.Writes call (e.createSpace C.codecs name isPublic autoJoinRooms) fun created => created.1.Valid := by
  refine writes_ask ⟨trivial, trivial⟩ fun id hid => writes_ask ⟨trivial, trivial⟩ fun now hnow => ?_
  have hvalid := valid_newSpace hid hname isPublic autoJoinRooms hnow
  refine (writes_writeEntity hcall rfl hid
    (.newSpace hcall id now (C.codecs.space.carries_serialize hvalid))).bind fun ok _ => ?_
  cases ok with
  | false => exact he
  | true => exact he.emplaceSpace hvalid

theorem writes_createRoom (he : e.Valid) {name parentSpaceId : Bytes} (hname : ValidUtf8 name)
    (hparent : ValidUtf8 parentSpaceId) (hcall : call.Commands C (.createRoom name parentSpaceId)) :
    C.Writes call (e.createRoom C.codecs name parentSpaceId) fun created => created.1.Valid := by
  rw [EntityStore.createRoom]
  split
  · exact he
  refine writes_ask ⟨trivial, trivial⟩ fun id hid => writes_ask ⟨trivial, trivial⟩ fun now hnow => ?_
  have hvalid := valid_newRoom hid hname hparent hnow
  refine (writes_writeEntity hcall rfl hid
    (.newRoom hcall id now (C.codecs.room.carries_serialize hvalid))).bind fun ok _ => ?_
  cases ok with
  | false => exact he
  | true => exact he.emplaceRoom hvalid

theorem writes_updateSpace (he : e.Valid) {spaceId name : Bytes} {isPublic autoJoinRooms : Bool}
    (hdesired : spaceSchema.Valid (desiredSpace spaceId name isPublic autoJoinRooms))
    (hcall : call.Commands C (.updateSpace spaceId name isPublic autoJoinRooms)) :
    C.Writes call (e.updateSpace C.codecs (desiredSpace spaceId name isPublic autoJoinRooms))
      fun updated => updated.1.Valid := by
  rw [EntityStore.updateSpace]
  cases hfind : e.mSpaces.find? (desiredSpace spaceId name isPublic autoJoinRooms).id with
  | none => exact he
  | some existing =>
      change C.Writes call (if existing.deleted then _ else _) _
      split
      · exact he
      refine writes_ask ⟨trivial, trivial⟩ fun now hnow => ?_
      have hvalid := valid_updatedSpace hdesired (he.space _ _ hfind) hnow
      have hrecord := C.codecs.space.carries_serialize hvalid
      refine writes_ask ⟨.updatedSpace hcall existing now hrecord, trivial⟩ fun ok _ => ?_
      cases ok with
      | false => exact he
      | true => exact he.assignSpace hvalid

/-- Records that were parsed are valid, whatever they were stored under. -/
theorem writes_loadRecords {α : Type} {parse : Bytes → Option α} {idOf : α → Bytes}
    {keyPrefix : Bytes} {V : α → Prop} (hparse : ∀ b r, parse b = some r → V r) (ids : List Bytes)
    {m : OrderedMap Bytes α} (hm : m.All fun _ r => V r) :
    C.Writes call (EntityStore.loadRecords parse idOf keyPrefix ids m)
      fun loaded => loaded.All fun _ r => V r := by
  induction ids generalizing m with
  | nil => exact hm
  | cons id rest ih =>
      refine writes_ask ⟨trivial, trivial⟩ fun bytes _ => ?_
      dsimp only [Interactive.bind]
      cases hrecord : bytes.bind parse with
      | none => exact ih hm
      | some record =>
          obtain ⟨b, -, hb⟩ := Option.bind_eq_some_iff.1 hrecord
          exact ih (hm.emplace (hparse b record hb))

theorem writes_loadFromStore :
    C.Writes call (EntityStore.loadFromStore C.codecs) EntityStore.Valid := by
  refine writes_ask ⟨trivial, trivial⟩ fun bytes _ => ?_
  dsimp only [Interactive.bind]
  cases bytes.bind C.codecs.manifest.parse with
  | none => exact EntityStore.valid_fresh
  | some manifest =>
      refine (writes_loadRecords C.codecs.space.valid_of_parse manifest.spaceId
        EntityStore.valid_fresh.space).bind fun spaces hspaces => ?_
      exact (writes_loadRecords C.codecs.room.valid_of_parse manifest.roomId
        EntityStore.valid_fresh.room).bind fun rooms hrooms => ⟨hspaces, hrooms⟩

end Catalog

section Calls

variable {C : Core} (hC : C.Sane) {call : FfiCall} {g : Globals}

abbrev WritesBack {α : Type} (C : Core) (call : FfiCall) (p : Program Globals (Globals × α)) :
    Prop := C.Writes call p fun r => r.1.Valid

theorem writes_postErrorNotice {notice : Bytes} (h : ValidUtf8 notice) :
    C.Writes call (postErrorNotice notice) fun _ => True :=
  writes_ask ⟨GcsEvent.parse_serialize h, trivial⟩ fun _ _ => trivial

theorem writes_reject (hg : g.Valid) {notice : Bytes} (h : ValidUtf8 notice) :
    WritesBack C call (reject g notice) :=
  (writes_postErrorNotice h).bind fun _ _ => hg

theorem writes_failWith (hg : g.Valid) {notice : Bytes} (h : ValidUtf8 notice) :
    WritesBack C call (failWith g notice) :=
  (writes_postErrorNotice h).bind fun _ _ => hg

theorem validUtf8_notice (before : String) {name : Bytes} (h : ValidUtf8 name) (after : String) :
    ValidUtf8 (ofString before ++ name ++ ofString after) :=
  ((validUtf8_ofString before).append h).append (validUtf8_ofString after)

theorem writes_joinBothWays (topic : Bytes) : C.Writes call (joinBothWays topic) fun _ => True := by
  refine writes_ask ⟨trivial, trivial⟩ fun listenOk _ => ?_
  cases listenOk with
  | false => exact trivial
  | true => exact writes_ask ⟨trivial, trivial⟩ fun _ _ => trivial

theorem writes_subscribeLive (hg : g.Valid) {topic : Bytes} (htopic : ValidUtf8 topic) :
    WritesBack C call (subscribeLive g topic) := by
  refine writes_ask ⟨trivial, hg.entities, hg.topics⟩ fun _ _ =>
    writes_ask ⟨trivial, trivial⟩ fun liveOk _ => writes_ask ⟨trivial, trivial⟩ fun g' hg' => ?_
  have hback : ({ g' with inFlight := g'.inFlight - 1 } : Globals).Valid := ⟨hg'.entities, hg'.topics⟩
  cases liveOk with
  | true => exact hback
  | false => exact (writes_postErrorNotice (validUtf8_notice _ htopic _)).bind fun _ _ => hback

theorem writes_registerDerived {topics : List Bytes} (htopics : ∀ topic ∈ topics, ValidUtf8 topic)
    (hg : g.Valid) : C.Writes call (C.registerDerived topics g) Globals.Valid := by
  induction topics generalizing g with
  | nil => exact hg
  | cons topic rest ih =>
      obtain ⟨htopic, hrest⟩ := List.forall_mem_cons.1 htopics
      rw [registerDerived]
      split
      · exact ih hrest hg
      refine (writes_joinBothWays topic).bind fun joined _ => ?_
      cases joined with
      | false => exact ih hrest hg
      | true =>
          have hadded : (addDerived g topic).Valid := ⟨hg.entities, hg.pushBackAbsent htopic⟩
          exact (writes_pushMessageHistory htopic).bind fun _ _ =>
            (writes_subscribeLive hadded htopic).bind fun r hr => ih hrest hr

theorem writes_refreshDerivedJoins (hg : g.Valid) :
    C.Writes call (C.refreshDerivedJoins g) Globals.Valid := by
  refine (writes_registerDerived hg.entities.derivedJoinedTopics hg).bind fun g' hg' => ?_
  exact ⟨hg'.entities, fun topic htopic => hg'.topics topic (mem_roomTopics_evictUnderived.1 htopic).1⟩

theorem writes_spaceTree (hg : g.Valid) {α : Type} {Q : α → Prop} {next : Unit → Program Globals α}
    (hnext : C.Writes call (next ()) Q) : C.Writes call (ask (.post (buildSpaceTreeEvent g)) next) Q :=
  writes_ask ⟨GcsEvent.parse_serialize
    ⟨fun _ hr => hg.entities.mem_spaces hr, fun _ hr => hg.entities.mem_rooms hr⟩, trivial⟩
    fun _ _ => hnext

theorem writes_roomList (hg : g.Valid) {α : Type} {Q : α → Prop} {next : Unit → Program Globals α}
    (hnext : C.Writes call (next ()) Q) : C.Writes call (ask (.post (buildRoomListEvent g)) next) Q :=
  writes_ask ⟨GcsEvent.parse_serialize hg.topics, trivial⟩ fun _ _ => hnext

theorem writes_publishCatalog (hg : g.Valid) : WritesBack C call (C.publishCatalog g) :=
  (writes_refreshDerivedJoins hg).bind fun _ hg' => writes_spaceTree hg' (writes_roomList hg' hg')

theorem validUtf8_topicRejection {arm : String} {roomTopic notice : Bytes}
    (h : topicRejection (ofString arm) roomTopic = some notice) : ValidUtf8 notice := by
  unfold topicRejection at h
  split_ifs at h <;> cases h <;> exact (validUtf8_ofString _).append (validUtf8_ofString _)

theorem validUtf8_nameRejection {arm : String} {name notice : Bytes}
    (h : nameRejection (ofString arm) name = some notice) : ValidUtf8 notice := by
  unfold nameRejection at h
  split_ifs at h <;> cases h <;> exact (validUtf8_ofString _).append (validUtf8_ofString _)

theorem writes_joinTopic (hg : g.Valid) {topic : Bytes} (htopic : ValidUtf8 topic) :
    WritesBack C call (C.joinTopic g topic) := by
  rw [joinTopic]
  split
  · next notice hnotice => exact writes_reject hg (validUtf8_topicRejection hnotice)
  refine (writes_joinBothWays topic).bind fun joined _ => ?_
  cases joined with
  | false => exact writes_failWith hg (validUtf8_notice _ htopic _)
  | true =>
      have hjoined : ({ g with
          roomTopics := pushBackAbsent g.roomTopics topic
          explicitTopics := pushBackAbsent g.explicitTopics topic } : Globals).Valid :=
        ⟨hg.entities, hg.pushBackAbsent htopic⟩
      refine writes_roomList hjoined ((writes_pushMessageHistory htopic).bind fun _ _ => ?_)
      cases decide (topic ∈ g.roomTopics) with
      | true => exact hjoined
      | false => exact (writes_subscribeLive hjoined htopic).bind fun _ hr => hr

include hC in
theorem writes_sendText (hg : g.Valid) {topic text : Bytes} (htopic : ValidUtf8 topic)
    (htext : ValidUtf8 text) (hcall : call.Commands C (.sendText topic text)) :
    WritesBack C call (C.sendText g topic text) := by
  rw [sendText]
  split
  · next notice hnotice => exact writes_reject hg (validUtf8_topicRejection hnotice)
  split
  · exact writes_reject hg (validUtf8_notice _ htopic _)
  split
  · exact writes_reject hg (validUtf8_ofString _)
  refine writes_ask ⟨trivial, hg.entities, hg.topics⟩ fun _ _ =>
    (writes_sendMessageProgram hC htopic htext hcall).bind fun sendOk _ =>
      writes_ask ⟨trivial, trivial⟩ fun g' hg' => ?_
  have hback : ({ g' with inFlight := g'.inFlight - 1 } : Globals).Valid := ⟨hg'.entities, hg'.topics⟩
  cases sendOk with
  | true => exact hback
  | false => exact writes_failWith hback (validUtf8_notice _ htopic _)

theorem Valid.withEntities (hg : g.Valid) {e : EntityStore} (he : e.Valid) :
    ({ g with entities := e } : Globals).Valid := ⟨he, hg.topics⟩

theorem writes_createSpaceArm (hg : g.Valid) {name : Bytes} (hname : ValidUtf8 name)
    {isPublic autoJoinRooms : Bool}
    (hcall : call.Commands C (.createSpace name isPublic autoJoinRooms)) :
    WritesBack C call (C.createSpace g name isPublic autoJoinRooms) := by
  rw [createSpace]
  split
  · next notice hnotice => exact writes_reject hg (validUtf8_nameRejection hnotice)
  refine (writes_createSpace hg.entities hname hcall).bind fun created hcreated => ?_
  have hwritten := Valid.withEntities hg hcreated
  dsimp only
  split
  · exact writes_spaceTree hwritten hwritten
  · exact writes_failWith hwritten (validUtf8_notice _ hname _)

theorem writes_createRoomArm (hg : g.Valid) {name parentSpaceId : Bytes} (hname : ValidUtf8 name)
    (hparent : ValidUtf8 parentSpaceId) (hcall : call.Commands C (.createRoom name parentSpaceId)) :
    WritesBack C call (C.createRoom g name parentSpaceId) := by
  rw [createRoom]
  split
  · next notice hnotice => exact writes_reject hg (validUtf8_nameRejection hnotice)
  split
  · exact writes_reject hg (validUtf8_notice _ hparent _)
  refine (writes_createRoom hg.entities hname hparent hcall).bind fun created hcreated => ?_
  have hwritten := Valid.withEntities hg hcreated
  dsimp only
  split
  · exact writes_publishCatalog hwritten
  · exact writes_failWith hwritten (validUtf8_notice _ hname _)

theorem writes_updateSpaceArm (hg : g.Valid) {spaceId name : Bytes} (hspaceId : ValidUtf8 spaceId)
    (hname : ValidUtf8 name) {isPublic autoJoinRooms : Bool}
    (hcall : call.Commands C (.updateSpace spaceId name isPublic autoJoinRooms)) :
    WritesBack C call (C.updateSpace g spaceId name isPublic autoJoinRooms) := by
  rw [updateSpace]
  split
  · exact writes_reject hg (validUtf8_ofString _)
  split
  · exact writes_reject hg (validUtf8_ofString _)
  have hdesired : spaceSchema.Valid (desiredSpace spaceId name isPublic autoJoinRooms) :=
    spaceSchema_valid_iff.2 ⟨⟨hspaceId, hname, isInt64_zero, isInt64_zero, isInt64_zero⟩,
      List.forall_mem_nil _⟩
  refine (writes_updateSpace hg.entities hdesired hcall).bind fun updated hupdated => ?_
  have hwritten := Valid.withEntities hg hupdated
  dsimp only
  split
  · exact writes_publishCatalog hwritten
  · exact writes_failWith hwritten (validUtf8_notice _ hspaceId _)

include hC in
theorem writes_runCommand (hg : g.Valid) {command : GcsCommand} (h : command.Valid)
    (hcall : call.Commands C command) :
    WritesBack C call (C.runCommand g command) := by
  cases command with
  | joinTopic topic => exact writes_joinTopic hg h
  | sendText topic text => exact writes_sendText hC hg h.1 h.2 hcall
  | createSpace name isPublic autoJoinRooms => exact writes_createSpaceArm hg h hcall
  | createRoom name parentSpaceId => exact writes_createRoomArm hg h.1 h.2 hcall
  | updateSpace spaceId name isPublic autoJoinRooms => exact writes_updateSpaceArm hg h.1 h.2 hcall
  | payloadNotSet => exact writes_reject hg (validUtf8_ofString _)

include hC in
theorem writes_publishLocked (hg : g.Valid) (handle : Option Handle) (topic payload : Option Bytes) :
    WritesBack C (.publish handle topic payload)
      (C.publishLocked g (handle.map (·.address)) topic payload) := by
  cases topic with
  | none => exact hg
  | some topic =>
      cases payload with
      | none => exact hg
      | some bytes =>
          rw [publishLocked]
          split
          · exact hg
          refine writes_ask ⟨trivial, trivial⟩ fun running _ => ?_
          cases running with
          | false => exact hg
          | true =>
              change WritesBack C _ (if topic ≠ kCommandTopic then _ else _)
              split
              · exact hg
              next htopic =>
              cases hparse : C.parseCommand bytes with
              | none => exact writes_reject hg (validUtf8_ofString _)
              | some command =>
                  have hcall : (FfiCall.publish handle (some topic) (some bytes)).Commands C command :=
                    ⟨handle, bytes, by rw [not_not.1 htopic], hparse⟩
                  exact writes_runCommand hC hg (hC.parseCommand bytes command hparse) hcall

theorem writes_joinSmokeTopics {topics : List Bytes} (htopics : ∀ topic ∈ topics, ValidUtf8 topic)
    (hg : g.Valid) (joinedAny : Bool) : WritesBack C call (joinSmokeTopics topics g joinedAny) := by
  induction topics generalizing g joinedAny with
  | nil => exact hg
  | cons topic rest ih =>
      obtain ⟨htopic, hrest⟩ := List.forall_mem_cons.1 htopics
      refine (writes_joinBothWays topic).bind fun joined _ => ?_
      cases joined with
      | false => exact ih hrest hg joinedAny
      | true =>
          have hjoined : ({ g with roomTopics := g.roomTopics ++ [topic] } : Globals).Valid :=
            ⟨hg.entities,
              List.forall_mem_append.2 ⟨hg.topics, List.forall_mem_singleton.2 htopic⟩⟩
          exact ih hrest hjoined true

theorem writes_initLocked (hg : g.Valid) : WritesBack C call (C.initLocked g) := by
  rw [initLocked]
  split
  · exact hg
  refine writes_ask ⟨trivial, trivial⟩ fun opened _ => ?_
  cases opened with
  | none => exact hg
  | some session =>
      have hsmoke : ∀ topic ∈ [kSmokeTopicA, kSmokeTopicB], ValidUtf8 topic :=
        List.forall_mem_cons.2 ⟨validUtf8_ofString _,
          List.forall_mem_singleton.2 (validUtf8_ofString _)⟩
      refine (writes_joinSmokeTopics hsmoke hg false).bind fun joined hjoined => ?_
      dsimp only
      split
      · refine writes_ask ⟨trivial, trivial⟩ fun _ _ => writes_loadFromStore.bind fun e he => ?_
        have hloaded : ({ joined.1 with session := some session, entities := e } : Globals).Valid :=
          ⟨he, hjoined.topics⟩
        exact (writes_refreshDerivedJoins hloaded).bind fun _ hg' => hg'
      · exact hjoined

theorem writes_giveBack (hg : g.Valid) (result : FfiResult) :
    C.Writes call (giveBack g result) fun _ => True :=
  writes_ask ⟨trivial, hg⟩ fun _ _ => trivial

include hC in
theorem writes_locked (hg : g.Valid) (tearingDown : Bool) (call : FfiCall) :
    C.Writes call (C.locked g tearingDown call) fun _ => True := by
  cases call with
  | init configAccepted =>
      rw [locked]
      split
      · exact writes_giveBack hg _
      · exact (writes_initLocked hg).bind fun r hr => writes_giveBack hr _
  | publish handle topic payload =>
      exact (writes_publishLocked hC hg handle topic payload).bind fun r hr => writes_giveBack hr _
  | _ => exact writes_giveBack hg _

theorem writes_greet (hg : g.Valid) : C.Writes call (greet g) fun _ => True :=
  writes_spaceTree hg (writes_roomList hg
    (writes_ask ⟨GcsEvent.parse_serialize trivial, trivial⟩ fun _ _ => writes_giveBack hg _))

theorem writes_receiveCallback {funnel : Program Globals (Option Unit)}
    (hfunnel : C.Writes call funnel fun _ => True) : C.Writes call (receiveCallback funnel) fun _ => True := by
  refine writes_ask ⟨trivial, trivial⟩ fun disabled _ => ?_
  cases disabled with
  | true => exact trivial
  | false =>
      refine writes_ask ⟨trivial, trivial⟩ fun g hg => ?_
      change C.Writes call (if g.session = none then _ else _) _
      split
      · exact writes_ask ⟨trivial, hg⟩ fun _ _ => trivial
      refine writes_ask ⟨trivial, hg.entities, hg.topics⟩ fun _ _ => hfunnel.bind fun returned _ => ?_
      cases returned with
      | none => exact trivial
      | some _ =>
          exact writes_ask ⟨trivial, trivial⟩ fun g' hg' =>
            writes_ask ⟨trivial, hg'.entities, hg'.topics⟩ fun _ _ => trivial

theorem writes_callback (call : FfiCall) : C.Writes call (C.callback call) fun _ => True := by
  cases call with
  | live n topic data =>
      refine (writes_receiveCallback ?_).bind fun _ _ => trivial
      have hcall : (FfiCall.live n topic data).Brings topic data := ⟨rfl, rfl⟩
      exact (writes_applyMessageProgram hcall).bind fun _ _ => trivial
  | heal n key value =>
      exact (writes_receiveCallback (writes_onMessageArrivedProgram n key value)).bind
        fun _ _ => trivial
  | _ => exact trivial

include hC in
theorem sound_wireRule : C.wireRule.Sound C where
  fresh _ := ⟨EntityStore.valid_fresh, List.forall_mem_nil _⟩
  locked _ tearingDown call hg := writes_locked hC hg tearingDown call
  greet _ _ hg := writes_greet hg
  giveBack _ _ result hg := writes_giveBack hg result
  callback call := writes_callback call

end Calls

end Core

/-- Thread `i` is in the call and about to ask the question. -/
def FfiProcess.Asks {ι : Type} (s : FfiProcess ι) (i : ι) (call : FfiCall) (e : Effect Globals) : Prop :=
  ∃ next pointer, s.threads i = .running call (ask e next) pointer

/-- In any interleaving of the calls and the callbacks, everything that the core pushes, publishes,
archives or stores is what its call has to write, and is read back as that where it goes. -/
theorem legible_of_reachable {M : Messaging} (hsender : ValidUtf8 M.sender)
    (hcrypto : M.crypto.DecryptUndoesEncrypt) {ι : Type} [DecidableEq ι] {s : FfiProcess ι}
    (h : ((ffiSystem (protoCore M) ι).restrict
      (FfiProcess.Supplies (protoCore M).wireRule)).Reachable s) {i : ι} {call : FfiCall}
    {e : Effect Globals} (hasks : s.Asks i call e) : (protoCore M).Legible call e := by
  obtain ⟨next, pointer, hthread⟩ := hasks
  have hsound := Core.sound_wireRule (sane_protoCore hsender hcrypto)
  exact ((FfiProcess.Obeys.of_reachable hsound h).rest hthread).1.1

namespace FfiProcess

section Supplies

variable {ι : Type} {R : SectionRule} {s u : FfiProcess ι} {i : ι} {l : FfiStep ι}

theorem supplies_of_routine (h : l.Routine) : u.Supplies R l := by
  cases l with
  | answer j e a => cases e <;> first | exact h.elim | exact trivial
  | _ => exact trivial

theorem supplies_of_initAlone (h : InitAlone s i u l) : u.Supplies R l := by
  cases l with
  | answer j e a => exact supplies_of_routine (h.answer j e a rfl)
  | _ => exact trivial

theorem allowsCall_supplies (call : FfiCall) (n : ℕ) : AllowsCall (Supplies R) i call n :=
  ⟨fun _ => trivial, fun _ _ _ => trivial, fun _ _ _ _ _ => trivial, fun _ _ => supplies_of_routine⟩

variable [DecidableEq ι] {C : Core}

/-- `create_space` mints an id, writes the manifest and comes to write the record. -/
theorem leads_creating (hidle : s.threads i = .idle) (hfree : s.owner = none) {handle : Handle}
    (hsession : s.globals.session = some handle.address) {name bytes : Bytes}
    {isPublic autoJoinRooms : Bool}
    (hparse : C.parseCommand bytes = some (.createSpace name isPublic autoJoinRooms)) (hbytes : bytes ≠ [])
    (hlength : bytes.length ≤ kMaxInt)
    (hname : Core.nameRejection (ofString "create_space") name = none) {id : Bytes} {now : ℤ}
    (hid : R.id id) (hnow : R.time now) :
    ∃ next, LeadsIn C (Supplies R) s (({ s with owner := some i } : FfiProcess ι).set i
      (.running (.publish (some handle) (some kCommandTopic) (some bytes))
        (ask (.put (kSpacesKeyPrefix ++ id) (C.codecs.space.serialize
          (EntityStore.newSpace id name isPublic autoJoinRooms now))) next) none)) := by
  let call := FfiCall.publish (some handle) (some kCommandTopic) (some bytes)
  let held : FfiProcess ι := { s with owner := some i }
  let manifest := (readManifest C.codecs none).insert true id
  let record := EntityStore.newSpace id name isPublic autoJoinRooms now
  let written (ok : Bool) : Program Globals (EntityStore × Option SpaceRecord) :=
    if ok then pure (s.globals.entities.emplaceSpace record, some record)
    else pure (s.globals.entities, none)
  let created (result : EntityStore × Option SpaceRecord) : Program Globals (Globals × GcsStatus) :=
    let g := { s.globals with entities := result.1 }
    if result.2.isSome then do
      postToDart (Core.buildSpaceTreeEvent g)
      pure (g, .ok)
    else Core.failWith g (ofString "create_space store write failed for '" ++ name ++ ofString "'")
  let giving (result : Globals × GcsStatus) : Program Globals FfiResult :=
    giveBack result.1 (.status result.2)
  have hcommand := leads_command hidle hfree hsession hparse hbytes hlength
    (allowsCall_supplies (R := R) call s.built)
  have hasked : Steps (answerWorld ι none)
      (C.runCommand s.globals (.createSpace name isPublic autoJoinRooms) >>= giving) held
      [⟨.nextId kSpaceIdPrefix, id⟩, ⟨.nowMs, now⟩, ⟨.get kManifestKey, none⟩,
        ⟨.put kManifestKey (C.codecs.manifest.serialize manifest), true⟩]
      (ask (.put (kSpacesKeyPrefix ++ id) (C.codecs.space.serialize record))
        fun ok => (written ok >>= created) >>= giving) held := by
    change Steps _ (C.createSpace s.globals name isPublic autoJoinRooms >>= _) _ _ _ _
    rw [Core.createSpace, hname]
    refine steps_ask_iff.2 (.inr ⟨id, held, _, ⟨trivial, rfl⟩, ?_, rfl⟩)
    refine steps_ask_iff.2 (.inr ⟨now, held, _, ⟨trivial, rfl⟩, ?_, rfl⟩)
    refine steps_ask_iff.2 (.inr ⟨none, held, _, ⟨trivial, rfl⟩, ?_, rfl⟩)
    refine steps_ask_iff.2 (.inr ⟨true, held, _, ⟨trivial, rfl⟩, ?_, rfl⟩)
    exact .nil _ _
  refine ⟨_, hcommand.trans (leads_steps call hasked fun u p e a _ hmem => ?_)⟩
  simp only [List.mem_cons, List.not_mem_nil, or_false] at hmem
  rcases hmem with h | h | h | h <;> cases h
  · exact hid
  · exact hnow
  · exact trivial
  · exact trivial

end Supplies

end FfiProcess

/-- A component whose seam turns the bytes around. -/
def Messaging.reversing (sender : Bytes) : Messaging :=
  { Messaging.plaintext sender with
    crypto := ⟨some fun _ _ plain => some plain.reverse, some fun _ envelope => some envelope.reverse,
      true⟩ }

theorem Messaging.decryptUndoesEncrypt_reversing (sender : Bytes) :
    (reversing sender).crypto.DecryptUndoesEncrypt := by
  intro encrypt hencrypt decrypt hdecrypt random roomTopic plain envelope h
  cases hencrypt
  cases hdecrypt
  cases h
  exact congrArg some (List.reverse_reverse plain)

def aliceCore : Core := protoCore (Messaging.reversing (ofString "alice"))

def helloCall : FfiCall := .publish (some ⟨1, 1⟩) (some kCommandTopic)
  (some (GcsCommand.sendText kSmokeTopicA (ofString "hello")).serialize)

def helloData : Bytes := (aliceCore.messaging.codec.serialize (aliceCore.messaging.completeMessage
  kSmokeTopicA (ofString "hello") (nextMessageId 0 0 0) 0)).reverse

/-- A message that another node has sent to the other room. -/
def hiMessage : ChatMessageState :=
  (Messaging.reversing (ofString "bob")).completeMessage kSmokeTopicB (ofString "hi")
    (nextMessageId 0 1 0) 0

def hiKey : Bytes := buildKey kSmokeTopicB hiMessage.id

def hiData : Bytes := (aliceCore.messaging.codec.serialize hiMessage).reverse

def hiCall : FfiCall := .heal 1 (slash :: hiKey) hiData

def workCall : FfiCall := .publish (some ⟨1, 1⟩) (some kCommandTopic)
  (some (GcsCommand.createSpace (ofString "work") true false).serialize)

def workId : Bytes := mintId kSpaceIdPrefix 0 2 0

def workData : Bytes :=
  aliceCore.codecs.space.serialize (EntityStore.newSpace workId (ofString "work") true false 0)

theorem openMessage_hiData : aliceCore.messaging.openMessage kSmokeTopicB hiData = some hiMessage := by
  have hvalid : chatMessageSchema.Valid hiMessage :=
    Messaging.valid_completeMessage (validUtf8_ofString _) (validUtf8_ofString _)
      (validUtf8_ofString _) (validUtf8_mintId (validUtf8_ofString _) 0 1 0) isInt64_zero
  have hsealed : aliceCore.messaging.sealed [] kSmokeTopicB
      (aliceCore.messaging.codec.serialize hiMessage) = some hiData := rfl
  exact Messaging.openMessage_sealed (Messaging.decryptUndoesEncrypt_reversing _) hvalid hsealed

namespace FfiProcess

/-- Thread 0 publishes a message, thread 1 archives one, and thread 2 stores a space. -/
theorem exists_threeCalls : ∃ s : FfiProcess ℕ,
    ((ffiSystem aliceCore ℕ).restrict (Supplies aliceCore.wireRule)).Reachable s ∧
      s.Asks 0 helloCall (.publish kSmokeTopicA helloData) ∧
      s.Asks 1 hiCall (.enqueueArchive hiKey hiData) ∧
      s.Asks 2 workCall (.put (kSpacesKeyPrefix ++ workId) workData) := by
  let P : FfiProcess ℕ → FfiStep ℕ → Prop := Supplies aliceCore.wireRule
  let handle : Handle := ⟨1, 1⟩
  have hfirst : ((ffiSystem aliceCore ℕ).restrict P).Reachable (firstSession ℕ) :=
    restrict_firstSession 0 fun _ _ => supplies_of_initAlone
  have hsession : (firstSession ℕ).globals.session = some handle.address := rfl
  have hvalid : (GcsCommand.sendText kSmokeTopicA (ofString "hello")).Valid :=
    ⟨validUtf8_ofString _, validUtf8_ofString _⟩
  have hsealed : aliceCore.messaging.sealed [] kSmokeTopicA (aliceCore.messaging.codec.serialize
      (aliceCore.messaging.completeMessage kSmokeTopicA (ofString "hello") (nextMessageId 0 0 0) 0)) =
      some helloData := rfl
  obtain ⟨publish, -, hpublish, -⟩ := leads_sending (C := aliceCore) (P := P) (s := firstSession ℕ)
    (i := 0) rfl rfl hsession (GcsCommand.parse_serialize hvalid) (by decide) (by decide) (by decide)
    List.mem_cons_self (by decide) hsealed (allowsCall_supplies _ _)
    (fun _ => validUtf8_mintId (validUtf8_ofString _) 0 0 0) fun _ => isInt64_zero
  let publishing : FfiThread :=
    .running helloCall (ask (.publish kSmokeTopicA helloData) publish) (some 1)
  let opened : FfiProcess ℕ := { firstSession ℕ with globals := { startedGlobals 1 with inFlight := 1 } }
  let sending : FfiProcess ℕ := opened.set 0 publishing
  have hhi : roomTopicFromKey (slash :: hiKey) = some kSmokeTopicB :=
    roomTopicFromKey_cons_buildKey _ (isKeySegment_nextMessageId 0 1 0)
  have hidle : sending.threads 1 = .idle := set_threads_of_ne _ _ (by decide)
  have hfunnel : Funnels aliceCore hiCall
      (returning (aliceCore.messaging.applyMessageProgram kSmokeTopicB hiData)) :=
    funnels_heal 1 hhi (by decide)
  have hopen := leads_open (P := P) hfunnel ⟨hidle, List.mem_cons_self, rfl, rfl⟩ rfl rfl
    (Option.some_ne_none 1) (allowsCall_supplies _ _)
  let archiving : FfiThread :=
    .running hiCall (ask (.enqueueArchive hiKey hiData) fun _ => closing .void) (some 1)
  let healing : FfiProcess ℕ :=
    ({ sending with globals := { startedGlobals 1 with inFlight := 2 } } : FfiProcess ℕ).set 1 archiving
  have hpush : LeadsIn aliceCore P sending healing :=
    hopen.trans (leads_pushed openMessage_hiData rfl (Option.some_ne_none 1) (allowsCall_supplies _ _))
  have hidle' : healing.threads 2 = .idle :=
    (set_threads_of_ne sending _ (by decide)).trans (set_threads_of_ne opened _ (by decide))
  have hup : healing.globals.session = some handle.address := rfl
  have hwork : (GcsCommand.createSpace (ofString "work") true false).Valid := validUtf8_ofString _
  obtain ⟨record, hcreate⟩ := leads_creating (R := aliceCore.wireRule) (C := aliceCore) (i := 2)
    hidle' rfl hup (GcsCommand.parse_serialize hwork) (by decide) (by decide) (by decide)
    (validUtf8_mintId (validUtf8_ofString _) 0 2 0) isInt64_zero
  have harchiving : healing.threads 1 = archiving := set_threads_self _ _ _
  have hpublishing : healing.threads 0 = publishing :=
    (set_threads_of_ne sending _ (by decide)).trans (set_threads_self opened 0 publishing)
  refine ⟨_, (hpublish.trans (hpush.trans hcreate)).restrict_reachable hfirst,
    ⟨publish, some 1, ?_⟩, ⟨fun _ => closing .void, some 1, ?_⟩, ⟨record, none, set_threads_self _ _ _⟩⟩
  · refine Eq.trans ?_ hpublishing
    exact set_threads_of_ne _ _ (by decide)
  · refine Eq.trans ?_ harchiving
    exact set_threads_of_ne _ _ (by decide)

end FfiProcess

/-- Three calls are under way at once, and each of the three writes is legible. -/
theorem legible_threeCalls : ∃ s : FfiProcess ℕ,
    (s.Asks 0 helloCall (.publish kSmokeTopicA helloData) ∧
      aliceCore.Legible helloCall (.publish kSmokeTopicA helloData)) ∧
    (s.Asks 1 hiCall (.enqueueArchive hiKey hiData) ∧
      aliceCore.Legible hiCall (.enqueueArchive hiKey hiData)) ∧
    (s.Asks 2 workCall (.put (kSpacesKeyPrefix ++ workId) workData) ∧
      aliceCore.Legible workCall (.put (kSpacesKeyPrefix ++ workId) workData)) := by
  obtain ⟨s, hreachable, hpublish, harchive, hput⟩ := FfiProcess.exists_threeCalls
  have hsender : ValidUtf8 (Messaging.reversing (ofString "alice")).sender := validUtf8_ofString _
  have hcrypto := Messaging.decryptUndoesEncrypt_reversing (ofString "alice")
  exact ⟨s, ⟨hpublish, legible_of_reachable hsender hcrypto hreachable hpublish⟩,
    ⟨harchive, legible_of_reachable hsender hcrypto hreachable harchive⟩,
    ⟨hput, legible_of_reachable hsender hcrypto hreachable hput⟩⟩

end GcsChat
