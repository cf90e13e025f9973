import GcsChat.PushDiscipline
import GcsChat.SectionRules

/-!
# Each record is filed under its id

The catalog is loaded from the store, and a command adds or replaces one record. The key of a record
is its own id each time, so no two spaces of the catalog have one id, and no two rooms.
-/

namespace GcsChat

open ByteString Interactive

namespace EntityStore

structure Filed (e : EntityStore) : Prop where
  space : e.mSpaces.All fun k r => r.id = k
  room : e.mRooms.All fun k r => r.id = k

theorem filed_fresh : fresh.Filed := ⟨OrderedMap.all_empty, OrderedMap.all_empty⟩

variable {e : EntityStore}

theorem Filed.assignSpace (h : e.Filed) (r : SpaceRecord) : (e.assignSpace r).Filed where
  space := by
    rw [assignSpace_mSpaces]
    exact h.space.insertOrAssign rfl
  room := h.room

theorem Filed.emplaceSpace (h : e.Filed) (r : SpaceRecord) : (e.emplaceSpace r).Filed where
  space := by
    rw [emplaceSpace_mSpaces]
    exact h.space.emplace rfl
  room := h.room

theorem Filed.emplaceRoom (h : e.Filed) (r : RoomRecord) : (e.emplaceRoom r).Filed where
  space := h.space
  room := by
    rw [emplaceRoom_mRooms]
    exact h.room.emplace rfl

theorem Filed.nodup_spaces (h : e.Filed) : (e.spaces.map (·.id)).Nodup :=
  h.space.nodup_values.sublist (List.filter_sublist.map _)

theorem Filed.nodup_rooms (h : e.Filed) : (e.rooms.map (·.id)).Nodup :=
  h.room.nodup_values.sublist (List.filter_sublist.map _)

/-- A record is loaded under its own id, wherever the store has it. -/
theorem files_loadRecords {G α : Type} {parse : Bytes → Option α} {idOf : α → Bytes}
    {keyPrefix : Bytes} (ids : List Bytes) {m : OrderedMap Bytes α} (hm : m.All fun k r => idOf r = k) :
    (loadRecords parse idOf keyPrefix ids m : Program G _).Returns
      fun loaded => loaded.All fun k r => idOf r = k := by
  induction ids generalizing m with
  | nil => exact hm
  | cons id rest ih =>
      intro bytes
      dsimp only [Interactive.bind]
      cases bytes.bind parse with
      | none => exact ih hm
      | some record => exact ih (hm.emplace rfl)

theorem files_loadFromStore {G : Type} (codecs : Codecs) :
    (loadFromStore codecs : Program G EntityStore).Returns Filed := by
  intro bytes
  dsimp only [Interactive.bind]
  cases bytes.bind codecs.manifest.parse with
  | none => exact filed_fresh
  | some manifest =>
      refine (files_loadRecords manifest.spaceId OrderedMap.all_empty).bind fun spaces hspaces => ?_
      exact (files_loadRecords manifest.roomId OrderedMap.all_empty).bind fun rooms hrooms =>
        ⟨hspaces, hrooms⟩

end EntityStore

def filing : SectionRule where
  guards g := g.entities.Filed
  asks _ _ := True
  id _ := True
  time _ := True

theorem Effect.Plain.restores {e : Effect Globals} (h : e.Plain) (R : SectionRule) :
    R.Restores e := by
  cases e with
  | unlock g => exact h.elim
  | _ => trivial

theorem Effect.Recalls.restores {e : Effect Globals} (h : e.Recalls) (R : SectionRule) :
    R.Restores e := by
  cases e with
  | unlock g => exact h.elim
  | _ => trivial

namespace Core

section Calls

variable {C : Core} {call : FfiCall} {g : Globals} {α : Type} {Q : α → Prop}

abbrev EndsFiled {α : Type} (call : FfiCall) (p : Program Globals (Globals × α)) : Prop :=
  filing.Keeps call p fun r => r.1.entities.Filed

theorem files_ask {e : Effect Globals} {next : e.Answer → Program Globals α}
    (he : filing.Restores e) (hnext : ∀ a, filing.Relies e a → filing.Keeps call (next a) Q) :
    filing.Keeps call (ask e next) Q := SectionRule.keeps_ask ⟨trivial, he⟩ hnext

theorem files_plainly {p : Program Globals α} (hp : p.AsksOnly Effect.Plain) :
    filing.Keeps call p fun _ => True :=
  SectionRule.keeps_of_asksOnly hp fun _ he => ⟨trivial, he.restores filing⟩

theorem files_writes {P : α → Prop} {p : Program Globals α} (hp : p.AsksOnly Effect.Stores)
    (hreturns : p.Returns P) : filing.Keeps call p P :=
  (Follows.and_returns (files_plainly (hp.mono fun _ => Effect.Stores.plain)) hreturns).mono
    fun _ _ h => h.2

theorem files_pushMessageHistory (topic : Bytes) :
    filing.Keeps call (C.pushMessageHistory topic) fun _ => True :=
  SectionRule.keeps_of_asksOnly (recalls_pushMessageHistory topic) fun _ he =>
    ⟨trivial, he.restores filing⟩

theorem files_reject (hg : g.entities.Filed) (notice : Bytes) : EndsFiled call (reject g notice) :=
  files_ask trivial fun _ _ => hg

theorem files_failWith (hg : g.entities.Filed) (notice : Bytes) :
    EndsFiled call (failWith g notice) := files_ask trivial fun _ _ => hg

theorem files_subscribeLive (hg : g.entities.Filed) (topic : Bytes) :
    EndsFiled call (subscribeLive g topic) := by
  refine files_ask hg fun _ _ => files_ask trivial fun liveOk _ => files_ask trivial fun g' hg' => ?_
  cases liveOk with
  | true => exact hg'
  | false => exact files_ask trivial fun _ _ => hg'

theorem files_registerDerived (topics : List Bytes) (hg : g.entities.Filed) :
    filing.Keeps call (C.registerDerived topics g) fun g' => g'.entities.Filed := by
  induction topics generalizing g with
  | nil => exact hg
  | cons topic rest ih =>
      rw [registerDerived]
      split
      · exact ih hg
      refine (files_plainly (plain_joinBothWays topic)).bind fun joined _ => ?_
      cases joined with
      | false => exact ih hg
      | true =>
          have hadded : (addDerived g topic).entities.Filed := hg
          exact (files_pushMessageHistory topic).bind fun _ _ =>
            (files_subscribeLive hadded topic).bind fun _ hr => ih hr

theorem files_refreshDerivedJoins (hg : g.entities.Filed) :
    filing.Keeps call (C.refreshDerivedJoins g) fun g' => g'.entities.Filed :=
  (files_registerDerived _ hg).bind fun _ hg' => hg'

theorem files_publishCatalog (hg : g.entities.Filed) : EndsFiled call (C.publishCatalog g) :=
  (files_refreshDerivedJoins hg).bind fun _ hg' =>
    files_ask trivial fun _ _ => files_ask trivial fun _ _ => hg'

theorem files_joinTopic (hg : g.entities.Filed) (topic : Bytes) :
    EndsFiled call (C.joinTopic g topic) := by
  rw [joinTopic]
  split
  · exact files_reject hg _
  refine (files_plainly (plain_joinBothWays topic)).bind fun joined _ => ?_
  cases joined with
  | false => exact files_failWith hg _
  | true =>
      refine files_ask trivial fun _ _ => (files_pushMessageHistory topic).bind fun _ _ => ?_
      cases decide (topic ∈ g.roomTopics) with
      | true => exact hg
      | false => exact (files_subscribeLive (g := g.joined topic) hg topic).bind fun _ hr => hr

theorem files_sinkMessage (msg : ChatMessageState) :
    filing.Keeps call (C.messaging.sinkMessage msg) fun _ => True :=
  files_ask trivial fun _ hg => files_ask trivial fun _ _ => files_ask hg fun _ _ => trivial

theorem files_sendMessageProgram (topic text : Bytes) :
    filing.Keeps call (C.messaging.sendMessageProgram topic text) fun _ => True :=
  sendMessageProgram_rule (K := fun p => filing.Keeps call p fun _ => True) (fun _ => trivial)
    (fun hp hf => hp.bind fun a _ => hf a)
    (fun he hnext => files_ask (he.plain.restores filing) fun a _ => hnext a) files_sinkMessage topic
    text

theorem files_sendText (hg : g.entities.Filed) (topic text : Bytes) :
    EndsFiled call (C.sendText g topic text) := by
  rw [sendText]
  split
  · exact files_reject hg _
  split
  · exact files_reject hg _
  split
  · exact files_reject hg _
  refine files_ask hg fun _ _ => (files_sendMessageProgram topic text).bind fun sendOk _ =>
    files_ask trivial fun g' hg' => ?_
  cases sendOk with
  | true => exact hg'
  | false => exact files_failWith (g := { g' with inFlight := g'.inFlight - 1 }) hg' _

theorem files_createSpace (hg : g.entities.Filed) (name : Bytes) (isPublic autoJoinRooms : Bool) :
    EndsFiled call (C.createSpace g name isPublic autoJoinRooms) := by
  rw [createSpace]
  split
  · exact files_reject hg _
  refine (files_writes (stores_createSpace C.codecs g.entities name isPublic autoJoinRooms)
    (returns_createSpace C.codecs g.entities name isPublic autoJoinRooms)).bind ?_
  rintro created (rfl | ⟨space, rfl⟩)
  · exact files_failWith hg _
  · exact files_ask trivial fun _ _ => hg.emplaceSpace space

theorem files_createRoom (hg : g.entities.Filed) (name parentSpaceId : Bytes) :
    EndsFiled call (C.createRoom g name parentSpaceId) := by
  rw [createRoom]
  split
  · exact files_reject hg _
  split
  · exact files_reject hg _
  refine (files_writes (stores_createRoom C.codecs g.entities name parentSpaceId)
    (returns_createRoom C.codecs g.entities name parentSpaceId)).bind ?_
  rintro created (rfl | ⟨room, rfl⟩)
  · exact files_failWith hg _
  · exact files_publishCatalog (g := { g with entities := g.entities.emplaceRoom room })
      (hg.emplaceRoom room)

theorem files_updateSpace (hg : g.entities.Filed) (spaceId name : Bytes)
    (isPublic autoJoinRooms : Bool) :
    EndsFiled call (C.updateSpace g spaceId name isPublic autoJoinRooms) := by
  rw [updateSpace]
  split
  · exact files_reject hg _
  split
  · exact files_reject hg _
  let desired := desiredSpace spaceId name isPublic autoJoinRooms
  refine (files_writes (stores_updateSpace C.codecs g.entities desired)
    (returns_updateSpace C.codecs g.entities desired)).bind ?_
  rintro updated (rfl | ⟨space, rfl⟩)
  · exact files_failWith hg _
  · exact files_publishCatalog (g := { g with entities := g.entities.assignSpace space })
      (hg.assignSpace space)

theorem files_runCommand (hg : g.entities.Filed) (command : GcsCommand) :
    EndsFiled call (C.runCommand g command) := by
  cases command with
  | joinTopic topic => exact files_joinTopic hg topic
  | sendText topic text => exact files_sendText hg topic text
  | createSpace name isPublic autoJoinRooms => exact files_createSpace hg _ _ _
  | createRoom name parentSpaceId => exact files_createRoom hg _ _
  | updateSpace spaceId name isPublic autoJoinRooms => exact files_updateSpace hg _ _ _ _
  | payloadNotSet => exact files_reject hg _

theorem files_publishLocked (hg : g.entities.Filed) (session : Option ℕ)
    (topic payload : Option Bytes) : EndsFiled call (C.publishLocked g session topic payload) := by
  cases topic with
  | none => exact hg
  | some topic =>
      cases payload with
      | none => exact hg
      | some bytes =>
          rw [publishLocked]
          split
          · exact hg
          refine files_ask trivial fun running _ => ?_
          cases running with
          | false => exact hg
          | true =>
              change EndsFiled call (if topic ≠ kCommandTopic then _ else _)
              split
              · exact hg
              cases C.parseCommand bytes with
              | none => exact files_reject hg _
              | some command => exact files_runCommand hg command

theorem files_joinSmokeTopics (topics : List Bytes) (hg : g.entities.Filed) (joinedAny : Bool) :
    EndsFiled call (joinSmokeTopics topics g joinedAny) := by
  induction topics generalizing g joinedAny with
  | nil => exact hg
  | cons topic rest ih =>
      refine (files_plainly (plain_joinBothWays topic)).bind fun joined _ => ?_
      cases joined with
      | false => exact ih hg joinedAny
      | true => exact ih (g := { g with roomTopics := g.roomTopics ++ [topic] }) hg true

theorem files_initLocked (hg : g.entities.Filed) : EndsFiled call (C.initLocked g) := by
  rw [initLocked]
  split
  · exact hg
  refine files_ask trivial fun opened _ => ?_
  cases opened with
  | none => exact hg
  | some session =>
      refine (files_joinSmokeTopics _ hg false).bind fun joined hjoined => ?_
      dsimp only
      split
      · refine files_ask trivial fun _ _ => ?_
        have hload : filing.Keeps call (EntityStore.loadFromStore C.codecs) EntityStore.Filed :=
          (Follows.and_returns (files_plainly ((loads_loadFromStore C.codecs).mono fun e he => by
            cases e <;> trivial)) (EntityStore.files_loadFromStore C.codecs)).mono fun _ _ h => h.2
        exact hload.bind fun e he => (files_refreshDerivedJoins
          (g := { joined.1 with session := some session, entities := e }) he).bind fun _ hg' => hg'
      · exact hjoined

theorem files_giveBack (hg : g.entities.Filed) (result : FfiResult) :
    filing.Keeps call (giveBack g result) fun _ => True := files_ask hg fun _ _ => trivial

theorem files_locked (hg : g.entities.Filed) (tearingDown : Bool) (call : FfiCall) :
    filing.Keeps call (C.locked g tearingDown call) fun _ => True := by
  cases call with
  | init configAccepted =>
      rw [locked]
      split
      · exact files_giveBack hg _
      · exact (files_initLocked hg).bind fun _ hr => files_giveBack hr _
  | publish handle topic payload =>
      exact (files_publishLocked hg _ topic payload).bind fun _ hr => files_giveBack hr _
  | _ => exact files_giveBack hg _

theorem files_applyMessageProgram (topic data : Bytes) :
    filing.Keeps call (C.messaging.applyMessageProgram topic data) fun _ => True := by
  unfold Messaging.applyMessageProgram
  cases C.messaging.openMessage topic data with
  | none => exact trivial
  | some msg =>
      refine files_ask trivial fun unseen _ => ?_
      cases unseen with
      | false => exact trivial
      | true =>
          exact (files_sinkMessage msg).bind fun _ _ => files_ask trivial fun _ _ => trivial

theorem files_onMessageArrivedProgram (key value : Bytes) :
    filing.Keeps call (C.messaging.onMessageArrivedProgram key value) fun _ => True := by
  unfold Messaging.onMessageArrivedProgram
  cases roomTopicFromKey key with
  | none => exact trivial
  | some topic =>
      change filing.Keeps call (if topic = [] then _ else _) _
      split
      · exact trivial
      · exact (files_applyMessageProgram topic value).bind fun _ _ => trivial

theorem files_receiveCallback {funnel : Program Globals (Option Unit)}
    (hfunnel : filing.Keeps call funnel fun _ => True) :
    filing.Keeps call (receiveCallback funnel) fun _ => True := by
  refine files_ask trivial fun disabled _ => ?_
  cases disabled with
  | true => exact trivial
  | false =>
      refine files_ask trivial fun g hg => ?_
      change filing.Keeps call (if g.session = none then _ else _) _
      split
      · exact files_ask hg fun _ _ => trivial
      refine files_ask hg fun _ _ => hfunnel.bind fun returned _ => ?_
      cases returned with
      | none => exact trivial
      | some _ => exact files_ask trivial fun g' hg' => files_ask hg' fun _ _ => trivial

theorem files_callback (call : FfiCall) :
    filing.Keeps call (C.callback call) fun _ => True := by
  cases call with
  | live n topic data =>
      refine (files_receiveCallback ?_).bind fun _ _ => trivial
      exact (files_applyMessageProgram topic data).bind fun _ _ => trivial
  | heal n key value =>
      exact (files_receiveCallback (files_onMessageArrivedProgram key value)).bind
        fun _ _ => trivial
  | _ => exact trivial

theorem sound_filing (C : Core) : filing.Sound C where
  fresh _ := EntityStore.filed_fresh
  locked _ tearingDown call hg := files_locked hg tearingDown call
  greet _ _ hg := files_ask trivial fun _ _ => files_ask trivial fun _ _ =>
    files_ask trivial fun _ _ => files_giveBack hg _
  giveBack _ _ result hg := files_giveBack hg result
  callback call := files_callback call

end Calls

end Core

/-- In any interleaving the records of the catalog are under their own ids. -/
theorem FfiProcess.filed_of_reachable {C : Core} {ι : Type} [DecidableEq ι] {s : FfiProcess ι}
    (h : (ffiSystem C ι).Reachable s) : s.globals.entities.Filed := by
  have hkeeps : s.Obeys filing := h.invariant (I := fun s => s.Obeys filing)
    (fun _ h₀ => .initial (Core.sound_filing C) h₀) fun _ l _ hu hstep => by
      refine hu.step (Core.sound_filing C) hstep ?_
      cases l with
      | answer i e a => cases e <;> trivial
      | _ => trivial
  exact hkeeps.globals

end GcsChat
