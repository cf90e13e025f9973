import GcsChat.SubscribeOnce

/-!
# Where the rooms of the catalog come from

Runs of `gcs_init` and commands with everything they ask. A room is in the catalog because
`gcs_init` has read its record or because `create_room` has made it, under an id that was minted. Only
a session that starts, `create_room` and `update_space` refresh the derived joins.
-/

namespace GcsChat

open ByteString Interactive

/-- A call of the FFI with what it returned and all that it asked. -/
inductive LoggedCall
  | init (opened : Option ℕ) (trace : Trace (Effect Globals) Effect.Answer)
  | publish (session : Option ℕ) (topic payload : Option Bytes) (status : GcsStatus)
      (trace : Trace (Effect Globals) Effect.Answer)

namespace LoggedCall

def trace : LoggedCall → Trace (Effect Globals) Effect.Answer
  | init _ trace => trace
  | publish _ _ _ _ trace => trace

def calls (call : LoggedCall) : List TopicCall := topicCalls call.trace

def Mints (call : LoggedCall) (idPrefix id : Bytes) : Prop := ⟨.nextId idPrefix, id⟩ ∈ call.trace

def Loads (C : Core) (call : LoggedCall) (room : RoomRecord) : Prop :=
  ∃ id bytes, ⟨.get (kRoomsKeyPrefix ++ id), some bytes⟩ ∈ call.trace ∧
    C.codecs.room.parse bytes = some room

def Runs (C : Core) (command : GcsCommand) : LoggedCall → Prop
  | publish _ _ (some bytes) _ _ => C.parseCommand bytes = some command
  | _ => False

/-- The call starts the session, or it is a `create_room` or an `update_space` that succeeds. -/
def Refreshes (C : Core) (g : Globals) : LoggedCall → Prop
  | init opened _ => g.session = none ∧ opened ≠ none
  | publish _ _ (some bytes) status _ =>
      status = .ok ∧ ∃ command, C.parseCommand bytes = some command ∧ command.ChangesCatalog
  | _ => False

end LoggedCall

/-- Calls one after the other, with ids as `NextEntityId` and `NextMessageId` mint them and every
other answer free. -/
def loggedSystem (C : Core) : TransitionSystem Globals LoggedCall where
  initial g := g = .fresh
  step g call g' := (∀ idPrefix id, call.Mints idPrefix id →
      ∃ ms token seq, id = mintId idPrefix ms token seq) ∧ match call with
    | .init opened tr => Ends serialWorld C.gcsInit g tr opened g'
    | .publish session topic payload status tr =>
        Ends serialWorld (C.gcsPublish session topic payload) g tr status g'

namespace EntityStore

variable {e : EntityStore} {topic : Bytes}

theorem mem_derivedJoinedTopics : topic ∈ e.derivedJoinedTopics ↔
    ∃ room ∈ e.mRooms.values, room.deleted = false ∧ e.derivedTopic room = some topic := by
  simp only [derivedJoinedTopics, rooms, List.mem_filterMap, List.mem_filter, Bool.not_eq_true',
    and_assoc]

theorem of_derivedTopic {room : RoomRecord} (h : e.derivedTopic room = some topic) :
    room.parentSpaceId ≠ [] ∧ topic = kRoomTopicPrefix ++ room.id := by
  rw [derivedTopic] at h
  split_ifs at h with hparent
  refine ⟨hparent, ?_⟩
  split at h
  · cases h
  · split_ifs at h
    exact (Option.some.inj h).symm

theorem derivedTopic_emplaceSpace {space : SpaceRecord} {room : RoomRecord}
    (h : e.derivedTopic room = some topic) : (e.emplaceSpace space).derivedTopic room = some topic := by
  have hparent := (of_derivedTopic h).1
  rw [derivedTopic, if_neg hparent] at h ⊢
  cases hfind : e.mSpaces.find? room.parentSpaceId with
  | none =>
      rw [hfind] at h
      cases h
  | some parent =>
      rw [hfind] at h
      have hkept : (e.emplaceSpace space).mSpaces.find? room.parentSpaceId = some parent := by
        rw [emplaceSpace_mSpaces, OrderedMap.find?_emplace, if_neg ?_, hfind]
        rintro ⟨heq, hnone⟩
        exact nomatch (heq ▸ hfind).symm.trans hnone
      rw [hkept]
      exact h

theorem derivedJoinedTopics_emplaceSpace (space : SpaceRecord)
    (h : topic ∈ e.derivedJoinedTopics) : topic ∈ (e.emplaceSpace space).derivedJoinedTopics := by
  obtain ⟨room, hroom, hlive, htopic⟩ := mem_derivedJoinedTopics.1 h
  exact mem_derivedJoinedTopics.2 ⟨room, hroom, hlive, derivedTopic_emplaceSpace htopic⟩

theorem values_emplaceRoom {room record : RoomRecord}
    (h : room ∈ (e.emplaceRoom record).mRooms.values) : room = record ∨ room ∈ e.mRooms.values := by
  obtain ⟨id, hfind⟩ := (OrderedMap.mem_values_iff _).1 h
  rw [emplaceRoom_mRooms, OrderedMap.find?_emplace] at hfind
  split_ifs at hfind
  · exact .inl (Option.some.inj hfind).symm
  · exact .inr ((OrderedMap.mem_values_iff _).2 ⟨id, hfind⟩)

end EntityStore

section Programs

variable {G ω : Type} {W : World (Effect G) Effect.Answer ω} {w w' : ω} {codecs : Codecs}
  {e : EntityStore} {tr : Trace (Effect G) Effect.Answer}

theorem created_of_ends_createRoom {name parentSpaceId : Bytes}
    {r : EntityStore × Option RoomRecord}
    (h : Ends W (e.createRoom codecs name parentSpaceId) w tr r w') :
    r = (e, none) ∨ ∃ record : RoomRecord, ⟨.nextId kRoomIdPrefix, record.id⟩ ∈ tr ∧
      r = (e.emplaceRoom record, some record) := by
  unfold EntityStore.createRoom at h
  split at h
  · exact .inl (ends_done_iff.1 h).2.1
  obtain ⟨id, _, tr₁, -, hnow, rfl⟩ := ends_ask_bind_iff.1 h
  obtain ⟨now, _, tr₂, -, hwrite, rfl⟩ := ends_ask_bind_iff.1 hnow
  obtain ⟨ok, tr₃, tr₄, _, -, hend, rfl⟩ := ends_bind_iff.1 hwrite
  cases ok with
  | false => exact .inl (ends_done_iff.1 hend).2.1
  | true =>
      refine .inr ⟨EntityStore.newRoom id name parentSpaceId now, List.mem_cons_self, ?_⟩
      exact (ends_done_iff.1 hend).2.1

theorem values_of_ends_loadRecords {α : Type} {parse : Bytes → Option α} {idOf : α → Bytes}
    {keyPrefix : Bytes} {ids : List Bytes} {m m' : OrderedMap Bytes α}
    (h : Ends W (EntityStore.loadRecords parse idOf keyPrefix ids m) w tr m' w') {record : α}
    (hrecord : record ∈ m'.values) : record ∈ m.values ∨
      ∃ id bytes, ⟨.get (keyPrefix ++ id), some bytes⟩ ∈ tr ∧ parse bytes = some record := by
  induction ids generalizing m w tr with
  | nil =>
      obtain ⟨-, rfl, -⟩ := ends_done_iff.1 h
      exact .inl hrecord
  | cons id rest ih =>
      obtain ⟨recordBytes, _, tr', -, hrest, rfl⟩ := ends_ask_bind_iff.1 h
      have hlater : ∀ {m₁ : OrderedMap Bytes α} {u : ω},
          Ends W (EntityStore.loadRecords parse idOf keyPrefix rest m₁) u tr' m' w' →
          record ∈ m₁.values ∨ ∃ id' bytes, ⟨.get (keyPrefix ++ id'), some bytes⟩ ∈
            ⟨Effect.get (keyPrefix ++ id), recordBytes⟩ :: tr' ∧ parse bytes = some record :=
        fun hrest => (ih hrest).imp_right fun ⟨id', bytes, hmem, hparse⟩ =>
          ⟨id', bytes, .tail _ hmem, hparse⟩
      cases hparse : recordBytes.bind parse with
      | none =>
          rw [hparse] at hrest
          exact hlater hrest
      | some loaded =>
          rw [hparse] at hrest
          rcases hlater hrest with hmem | hread
          · obtain ⟨x, hfind⟩ := (OrderedMap.mem_values_iff _).1 hmem
            rw [OrderedMap.find?_emplace] at hfind
            split_ifs at hfind
            · obtain rfl := Option.some.inj hfind
              obtain ⟨bytes, rfl, hbytes⟩ := Option.bind_eq_some_iff.1 hparse
              exact .inr ⟨id, bytes, .head _, hbytes⟩
            · exact .inl ((OrderedMap.mem_values_iff _).2 ⟨x, hfind⟩)
          · exact .inr hread

theorem rooms_of_ends_loadFromStore (h : Ends W (EntityStore.loadFromStore codecs) w tr e w')
    {room : RoomRecord} (hroom : room ∈ e.mRooms.values) :
    ∃ id bytes, ⟨.get (kRoomsKeyPrefix ++ id), some bytes⟩ ∈ tr ∧
      codecs.room.parse bytes = some room := by
  obtain ⟨manifestBytes, _, tr₁, -, hmanifest, rfl⟩ := ends_ask_bind_iff.1 h
  split at hmanifest
  · obtain ⟨-, rfl, -⟩ := ends_done_iff.1 hmanifest
    cases hroom
  · obtain ⟨spaces, tr₂, tr₃, _, -, hrooms, rfl⟩ := ends_bind_iff.1 hmanifest
    obtain ⟨rooms, tr₄, tr₅, _, hload, hdone, rfl⟩ := ends_bind_iff.1 hrooms
    obtain ⟨-, rfl, -⟩ := ends_done_iff.1 hdone
    rcases values_of_ends_loadRecords hload hroom with hmem | ⟨id, bytes, hmem, hparse⟩
    · cases hmem
    · exact ⟨id, bytes, .tail _ (List.mem_append_right _ (List.mem_append_left _ hmem)), hparse⟩

end Programs

/-- The ends of the calls: the lists are kept, one topic is joined, or the derived joins are refreshed
over the catalog that was loaded or has just changed. -/
inductive CallOutcome (C : Core) (g : Globals) (call : LoggedCall) : Globals → Prop
  | kept {entities : EntityStore} (hnot : ¬ call.Refreshes C g)
      (hentities : entities = g.entities ∨ ∃ space, entities = g.entities.emplaceSpace space) :
      CallOutcome C g call { g with entities := entities }
  | joined {topic : Bytes} (hup : g.session ≠ none) (hnot : ¬ call.Refreshes C g)
      (hruns : call.Runs C (.joinTopic topic))
      (hvalid : Core.topicRejection (ofString "join_topic") topic = none) :
      CallOutcome C g call (g.joined topic)
  | refreshed {entities : EntityStore} {mid : Globals} (hup : g.session ≠ none)
      (hrefreshes : call.Refreshes C g)
      (hrooms : ∀ room ∈ entities.mRooms.values,
        room ∈ g.entities.mRooms.values ∨ call.Mints kRoomIdPrefix room.id)
      (h : Registering entities.derivedJoinedTopics { g with entities := entities } call.calls mid) :
      CallOutcome C g call (Core.evictUnderived entities.derivedJoinedTopics mid)
  | started {session : ℕ} {joined : List Bytes} {entities : EntityStore} {mid : Globals}
      {before after : List TopicCall} (hnone : g.session = none)
      (hinit : ∃ opened log, call = .init opened log) (hrefreshes : call.Refreshes C g)
      (hcalls : call.calls = before ++ after)
      (hsmoke : ∀ c ∈ before, c.topic ∈ [kSmokeTopicA, kSmokeTopicB])
      (hsub : joined.Sublist [kSmokeTopicA, kSmokeTopicB])
      (hjoined : ∀ topic, topic ∈ joined ↔ .broadcast topic true ∈ before)
      (hrooms : ∀ room ∈ entities.mRooms.values, call.Loads C room)
      (h : Registering entities.derivedJoinedTopics { g with
        session := some session
        entities := entities
        roomTopics := g.roomTopics ++ joined } after mid) :
      CallOutcome C g call (Core.evictUnderived entities.derivedJoinedTopics mid)

section Outcomes

variable {C : Core} {g g' w w' : Globals} {call : LoggedCall}
  {tr : Trace (Effect Globals) Effect.Answer} {r : Globals × GcsStatus}

theorem CallOutcome.same (hnot : ¬ call.Refreshes C g) : CallOutcome C g call g :=
  .kept hnot (.inl rfl)

theorem smoke_of_ends_joinSmokeTopics {topics : List Bytes} {joinedAny : Bool}
    {r : Globals × Bool} (h : Ends serialWorld (Core.joinSmokeTopics topics g joinedAny) w tr r w') :
    ∃ joined, joined.Sublist topics ∧ r.1 = { g with roomTopics := g.roomTopics ++ joined } ∧
      (r.2 = true ↔ joinedAny = true ∨ joined ≠ []) ∧
      (∀ c ∈ topicCalls tr, c.topic ∈ topics) ∧
      ∀ topic, topic ∈ joined ↔ .broadcast topic true ∈ topicCalls tr := by
  induction topics generalizing g w tr joinedAny with
  | nil =>
      obtain ⟨rfl, rfl, -⟩ := ends_done_iff.1 h
      exact ⟨[], .slnil, by rw [List.append_nil], by simp, nofun, fun _ => by simp⟩
  | cons topic rest ih =>
      obtain ⟨ok, tr₁, tr₂, u, hjoin, hrest, rfl⟩ := ends_bind_iff.1 h
      obtain ⟨-, hcalls⟩ := Core.ends_joinBothWays hjoin
      have htopics : ∀ {rest' : List TopicCall}, (∀ c ∈ rest', c.topic ∈ rest) →
          ∀ c ∈ topicCalls tr₁ ++ rest', c.topic ∈ topic :: rest := by
        intro rest' hrest' c hc
        rcases List.mem_append.1 hc with hc | hc
        · exact hcalls.topic_eq c hc ▸ .head _
        · exact .tail _ (hrest' c hc)
      rw [topicCalls_append]
      cases ok with
      | false =>
          obtain ⟨joined, hsub, hglobals, hany, hsmoke, hjoined⟩ := ih hrest
          refine ⟨joined, hsub.cons _, hglobals, hany, htopics hsmoke, fun t => ?_⟩
          rw [List.mem_append, hcalls.broadcast_iff, hjoined]
          simp
      | true =>
          obtain ⟨joined, hsub, hglobals, hany, hsmoke, hjoined⟩ := ih hrest
          refine ⟨topic :: joined, hsub.cons_cons _, ?_, ?_, htopics hsmoke, fun t => ?_⟩
          · exact hglobals.trans (by rw [List.append_assoc]; rfl)
          · exact hany.trans (by simp)
          · rw [List.mem_append, hcalls.broadcast_iff, List.mem_cons, hjoined]
            simp

theorem calls_withMutex (tr : Trace (Effect Globals) Effect.Answer) (g g' : Globals) :
    topicCalls (⟨.lock, g⟩ :: (tr ++ [⟨.unlock g', ()⟩])) = topicCalls tr := by
  change topicCalls (tr ++ [⟨Effect.unlock g', ()⟩]) = topicCalls tr
  rw [topicCalls_append]
  exact List.append_nil _

theorem mem_withMutex {tr : Trace (Effect Globals) Effect.Answer} {g g' : Globals}
    {x : Σ e : Effect Globals, e.Answer} (h : x ∈ tr) :
    x ∈ (⟨.lock, g⟩ :: (tr ++ [⟨.unlock g', ()⟩]) : Trace (Effect Globals) Effect.Answer) :=
  .tail _ (List.mem_append_left _ h)

theorem outcome_of_joinTopic {topic : Bytes} (hup : g.session ≠ none)
    (hnot : ¬ call.Refreshes C g) (hruns : call.Runs C (.joinTopic topic))
    (h : Ends serialWorld (C.joinTopic g topic) w tr r w') : CallOutcome C g call r.1 := by
  have hjoin := Core.ends_joinTopic h
  cases hvalid : Core.topicRejection (ofString "join_topic") topic with
  | some notice =>
      rw [Core.joinTopic, hvalid] at h
      obtain ⟨-, rfl, -⟩ := Core.ends_reject h
      exact .same hnot
  | none =>
      generalize topicCalls tr = calls at hjoin
      obtain ⟨g', status⟩ := r
      cases hjoin with
      | rejected => exact .same hnot
      | failed => exact .same hnot
      | again => exact .joined hup hnot hruns hvalid
      | first => exact .joined hup hnot hruns hvalid

theorem outcome_of_createSpace {name : Bytes} {isPublic autoJoinRooms : Bool}
    (hnot : ¬ call.Refreshes C g)
    (h : Ends serialWorld (C.createSpace g name isPublic autoJoinRooms) w tr r w') :
    CallOutcome C g call r.1 := by
  rw [Core.createSpace] at h
  split at h
  · obtain ⟨-, rfl, -⟩ := Core.ends_reject h
    exact .same hnot
  obtain ⟨created, tr₁, tr₂, u, hcreate, hrest, rfl⟩ := ends_bind_iff.1 h
  have hentities : created.1 = g.entities ∨ ∃ space, created.1 = g.entities.emplaceSpace space := by
    rcases (returns_createSpace _ g.entities name isPublic autoJoinRooms).of_ends hcreate with
      rfl | ⟨space, rfl⟩
    · exact .inl rfl
    · exact .inr ⟨space, rfl⟩
  split at hrest
  · obtain ⟨_, _, _, _, hdone, rfl⟩ := ends_ask_bind_iff.1 hrest
    obtain ⟨-, rfl, -⟩ := ends_done_iff.1 hdone
    exact .kept hnot hentities
  · obtain ⟨-, rfl, -⟩ := Core.ends_failWith hrest
    exact .kept hnot hentities

theorem outcome_of_publishCatalog {entities : EntityStore} (hup : g.session ≠ none)
    (hrefreshes : r.2 = .ok → call.Refreshes C g) (hcalls : call.calls = topicCalls tr)
    (hrooms : ∀ room ∈ entities.mRooms.values,
      room ∈ g.entities.mRooms.values ∨ call.Mints kRoomIdPrefix room.id)
    (h : Ends serialWorld (C.publishCatalog { g with entities := entities }) w tr r w') :
    CallOutcome C g call r.1 := by
  obtain ⟨hok, mid, hloop, hevict⟩ := Core.ends_publishCatalog h
  rw [hevict]
  exact .refreshed hup (hrefreshes hok) hrooms (hcalls ▸ hloop)

theorem outcome_of_createRoom {name parentSpaceId : Bytes} (hup : g.session ≠ none)
    (hrefreshes : call.Refreshes C g ↔ r.2 = .ok) (hcalls : call.calls = topicCalls tr)
    (hsub : tr ⊆ call.trace)
    (h : Ends serialWorld (C.createRoom g name parentSpaceId) w tr r w') :
    CallOutcome C g call r.1 := by
  have hrefused : r.2 ≠ .ok → ¬ call.Refreshes C g := fun hstatus hrefresh =>
    hstatus (hrefreshes.1 hrefresh)
  have hinvalid : GcsStatus.errorInvalidArgument ≠ .ok := by decide
  have hfailed : GcsStatus.errorGeneric ≠ .ok := by decide
  rw [Core.createRoom] at h
  split at h
  · obtain ⟨-, rfl, -⟩ := Core.ends_reject h
    exact .same (hrefused hinvalid)
  split at h
  · obtain ⟨-, rfl, -⟩ := Core.ends_reject h
    exact .same (hrefused hinvalid)
  obtain ⟨created, tr₁, tr₂, u, hcreate, hrest, rfl⟩ := ends_bind_iff.1 h
  obtain ⟨-, hsilent⟩ := quiet_of_asksOnly (asksOnly_createRoom _ _ _ _) _ _ _ _ hcreate
  rw [topicCalls_append, hsilent, List.nil_append] at hcalls
  rcases created_of_ends_createRoom hcreate with rfl | ⟨record, hid, rfl⟩
  · obtain ⟨-, rfl, -⟩ := Core.ends_failWith hrest
    exact .same (hrefused hfailed)
  · refine outcome_of_publishCatalog hup hrefreshes.2 hcalls (fun room hroom => ?_) hrest
    rcases EntityStore.values_emplaceRoom hroom with rfl | hroom
    · exact .inr (hsub (List.mem_append_left _ hid))
    · exact .inl hroom

theorem outcome_of_updateSpace {spaceId name : Bytes} {isPublic autoJoinRooms : Bool}
    (hup : g.session ≠ none) (hrefreshes : call.Refreshes C g ↔ r.2 = .ok)
    (hcalls : call.calls = topicCalls tr)
    (h : Ends serialWorld (C.updateSpace g spaceId name isPublic autoJoinRooms) w tr r w') :
    CallOutcome C g call r.1 := by
  have hrefused : r.2 ≠ .ok → ¬ call.Refreshes C g := fun hstatus hrefresh =>
    hstatus (hrefreshes.1 hrefresh)
  have hinvalid : GcsStatus.errorInvalidArgument ≠ .ok := by decide
  have hfailed : GcsStatus.errorGeneric ≠ .ok := by decide
  rw [Core.updateSpace] at h
  split at h
  · obtain ⟨-, rfl, -⟩ := Core.ends_reject h
    exact .same (hrefused hinvalid)
  split at h
  · obtain ⟨-, rfl, -⟩ := Core.ends_reject h
    exact .same (hrefused hinvalid)
  obtain ⟨updated, tr₁, tr₂, u, hupdate, hrest, rfl⟩ := ends_bind_iff.1 h
  obtain ⟨-, hsilent⟩ := quiet_of_asksOnly (asksOnly_updateSpace _ _ _) _ _ _ _ hupdate
  rw [topicCalls_append, hsilent, List.nil_append] at hcalls
  rcases (returns_updateSpace _ g.entities _).of_ends hupdate with rfl | ⟨space, rfl⟩
  · obtain ⟨-, rfl, -⟩ := Core.ends_failWith hrest
    exact .same (hrefused hfailed)
  · have hrooms : ∀ room ∈ (g.entities.assignSpace space).mRooms.values,
        room ∈ g.entities.mRooms.values ∨ call.Mints kRoomIdPrefix room.id := fun _ => .inl
    exact outcome_of_publishCatalog hup hrefreshes.2 hcalls hrooms hrest

theorem outcome_of_publishLocked {session : Option ℕ} {name payload : Option Bytes}
    {log : Trace (Effect Globals) Effect.Answer} (hcalls : topicCalls log = topicCalls tr)
    (hsub : tr ⊆ log) (h : Ends serialWorld (C.publishLocked g session name payload) w tr r w') :
    CallOutcome C g (.publish session name payload r.2 log) r.1 := by
  have hrefused : ∀ {payload : Option Bytes} {status : GcsStatus}, status ≠ .ok →
      ¬ (LoggedCall.publish session name payload status log).Refreshes C g := by
    intro payload status hstatus hrefresh
    cases payload with
    | none => exact hrefresh
    | some bytes => exact hstatus hrefresh.1
  have hinvalid : GcsStatus.errorInvalidArgument ≠ .ok := by decide
  have hnotRunning : GcsStatus.errorNotRunning ≠ .ok := by decide
  cases name with
  | none =>
      obtain ⟨-, rfl, -⟩ := ends_done_iff.1 h
      exact .same (hrefused hinvalid)
  | some name =>
      cases payload with
      | none =>
          obtain ⟨-, rfl, -⟩ := ends_done_iff.1 h
          exact .same (hrefused hinvalid)
      | some bytes =>
          rw [Core.publishLocked] at h
          split at h
          · obtain ⟨-, rfl, -⟩ := ends_done_iff.1 h
            exact .same (hrefused hinvalid)
          next hcheck =>
          have hup : g.session ≠ none := fun hnone => hcheck (.inl hnone)
          obtain ⟨running, _, tr', _, hrun, rfl⟩ := ends_ask_bind_iff.1 h
          have hinner : tr' ⊆ log := fun _ hx => hsub (.tail _ hx)
          change topicCalls log = topicCalls tr' at hcalls
          split at hrun
          · obtain ⟨-, rfl, -⟩ := ends_done_iff.1 hrun
            exact .same (hrefused hnotRunning)
          split at hrun
          · obtain ⟨-, rfl, -⟩ := ends_done_iff.1 hrun
            exact .same (hrefused hinvalid)
          split at hrun
          · obtain ⟨-, rfl, -⟩ := Core.ends_reject hrun
            exact .same (hrefused hinvalid)
          next command hparse =>
          have hother : ¬ command.ChangesCatalog → ¬ (LoggedCall.publish session (some name)
              (some bytes) r.2 log).Refreshes C g := by
            rintro hnot ⟨-, other, hother, hchanges⟩
            cases hparse.symm.trans hother
            exact hnot hchanges
          have hchanges : command.ChangesCatalog → ((LoggedCall.publish session (some name)
              (some bytes) r.2 log).Refreshes C g ↔ r.2 = .ok) :=
            fun hchanges => ⟨fun hrefresh => hrefresh.1, fun hok => ⟨hok, command, hparse, hchanges⟩⟩
          cases command with
          | joinTopic topic => exact outcome_of_joinTopic hup (hother id) hparse hrun
          | sendText topic text =>
              obtain ⟨hsame, -⟩ := Core.ends_sendText hrun
              rw [hsame]
              exact .same (hother id)
          | createSpace => exact outcome_of_createSpace (hother id) hrun
          | createRoom => exact outcome_of_createRoom hup (hchanges trivial) hcalls hinner hrun
          | updateSpace => exact outcome_of_updateSpace hup (hchanges trivial) hcalls hrun
          | payloadNotSet =>
              obtain ⟨-, rfl, -⟩ := Core.ends_reject hrun
              exact .same (hrefused hinvalid)

theorem outcome_of_startSession {session : ℕ} {result : Globals × Option ℕ}
    {log : Trace (Effect Globals) Effect.Answer} (hnone : g.session = none)
    (hcalls : topicCalls log = topicCalls tr) (hsub : tr ⊆ log)
    (h : Ends serialWorld (C.startSession g session) w tr result w') :
    CallOutcome C g (.init result.2 log) result.1 := by
  obtain ⟨started, tr₁, tr₂, u, hsmoke, hrest, rfl⟩ := ends_bind_iff.1 h
  obtain ⟨joined, hsublist, hglobals, hany, htopics, hjoined⟩ := smoke_of_ends_joinSmokeTopics hsmoke
  cases hstarted : started.2 with
  | false =>
      rw [hstarted] at hrest
      obtain ⟨-, rfl, -⟩ := ends_done_iff.1 hrest
      have hnil : joined = [] := by
        by_contra hne
        exact absurd (hany.2 (.inr hne)) (by rw [hstarted]; decide)
      have hsame : started.1 = g := by rw [hglobals, hnil, List.append_nil]
      change CallOutcome C g _ started.1
      rw [hsame]
      exact .same fun hrefresh => hrefresh.2 rfl
  | true =>
      rw [hstarted] at hrest
      obtain ⟨_, v, tr₃, _, hload, rfl⟩ := ends_ask_bind_iff.1 hrest
      obtain ⟨entities, tr₄, tr₅, x, hentities, hjoin, rfl⟩ := ends_bind_iff.1 hload
      obtain ⟨-, hsilent⟩ := quiet_of_asksOnly (asksOnly_loadFromStore _) _ _ _ _ hentities
      obtain ⟨g', tr₆, tr₇, y, hrefresh, hdone, rfl⟩ := ends_bind_iff.1 hjoin
      obtain ⟨rfl, rfl, -⟩ := ends_done_iff.1 hdone
      obtain ⟨mid, hloop, rfl⟩ := Core.ends_refreshDerivedJoins hrefresh
      rw [hglobals] at hloop
      have hlog : topicCalls log = topicCalls tr₁ ++ topicCalls tr₆ := by
        rw [hcalls, topicCalls_append]
        change _ ++ topicCalls (tr₄ ++ (tr₆ ++ [])) = _
        rw [topicCalls_append, hsilent, List.append_nil, List.nil_append]
      refine .started hnone ⟨_, _, rfl⟩ ⟨hnone, nofun⟩ hlog htopics hsublist hjoined
        (fun room hroom => ?_) hloop
      obtain ⟨id, bytes, hmem, hparse⟩ := rooms_of_ends_loadFromStore hentities hroom
      refine ⟨id, bytes, hsub (List.mem_append_right _ (.tail _ ?_)), hparse⟩
      exact List.mem_append_left _ hmem

theorem outcome_of_step (h : (loggedSystem C).step g call g') : CallOutcome C g call g' := by
  cases call with
  | init opened log =>
      obtain ⟨result, tr, u, hinit, rfl, rfl, rfl⟩ := Core.trace_of_withMutex h.2
      have hcalls := calls_withMutex tr g result.1
      rw [Core.initLocked] at hinit
      split at hinit
      · next session hsession =>
          obtain ⟨-, rfl, -⟩ := ends_done_iff.1 hinit
          exact .same fun hrefresh =>
            Option.some_ne_none _ (hsession.symm.trans hrefresh.1)
      · next hnone =>
          obtain ⟨booted, _, tr₁, _, hboot, rfl⟩ := ends_ask_bind_iff.1 hinit
          cases booted with
          | none =>
              obtain ⟨-, rfl, -⟩ := ends_done_iff.1 hboot
              exact .same fun hrefresh => hrefresh.2 rfl
          | some session =>
              have hsub : tr₁ ⊆ ⟨.lock, g⟩ :: (⟨.initSession, some session⟩ :: tr₁ ++
                  [⟨.unlock result.1, ()⟩]) := fun _ hx => mem_withMutex (.tail _ hx)
              change topicCalls _ = topicCalls tr₁ at hcalls
              exact outcome_of_startSession hnone hcalls hsub hboot
  | publish session name payload status log =>
      obtain ⟨result, tr, u, hpublish, rfl, rfl, rfl⟩ := Core.trace_of_withMutex h.2
      exact outcome_of_publishLocked (calls_withMutex tr g result.1) (fun _ hx => mem_withMutex hx)
        hpublish

/-- What a call brings into the catalog was made under a minted id, or read. -/
theorem room_of_step (hstep : (loggedSystem C).step g call g') {room : RoomRecord}
    (hroom : room ∈ g'.entities.mRooms.values) :
    room ∈ g.entities.mRooms.values ∨ call.Mints kRoomIdPrefix room.id ∨ call.Loads C room := by
  cases outcome_of_step hstep with
  | kept hnot hentities =>
      refine .inl ?_
      rcases hentities with rfl | ⟨space, rfl⟩
      · exact hroom
      · exact hroom
  | joined => exact .inl hroom
  | @refreshed entities mid hup hrefreshes hrooms hloop =>
      have hentities : mid.entities = entities := hloop.entities_eq
      exact (hrooms room (hentities ▸ hroom)).imp_right .inl
  | @started session joined entities mid before after hnone hinit hrefreshes hcalls hsmoke hsub hjoined
      hrooms hloop =>
      have hentities : mid.entities = entities := hloop.entities_eq
      exact .inr (.inr (hrooms room (hentities ▸ hroom)))

end Outcomes

end GcsChat
