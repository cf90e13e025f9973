import GcsChat.Catalog
import GcsChat.CatalogRuns

/-!
# Topics that are prefixes of other topics

A replay scans the keys under `gcs/messages/<topic>/`, so rooms are kept apart as long as no joined
topic continues another one after a slash. `join_topic` checks the shape of its topic and ids are
minted without a slash; the refresh of the derived joins takes the ids of stored rooms as they are.
-/

namespace GcsChat

open ByteString Interactive

/-- The first topic is the second one, or continues it after a slash. -/
def Continues (topic base : Bytes) : Prop := base ++ [slash] <+: topic ++ [slash]

instance (topic base : Bytes) : Decidable (Continues topic base) :=
  inferInstanceAs (Decidable (base ++ [slash] <+: topic ++ [slash]))

/-- No replay of one joined room covers a record of another one. -/
def Globals.Isolated (g : Globals) : Prop :=
  ∀ topic ∈ g.roomTopics, ∀ other ∈ g.roomTopics, topic ≠ other →
    ∀ id, ¬ historyPrefix other <+: buildKey topic id

/-- A topic that a run may enter into the room lists: a smoke topic, one that a `join_topic` adds to
them, and one that `DerivedJoinedTopics` has over the catalog of some state. -/
inductive Offers (C : Core) (p : (loggedSystem C).Path) : Bytes → Prop
  | smoke {topic : Bytes} (h : topic ∈ [kSmokeTopicA, kSmokeTopicB]) : Offers C p topic
  | named {topic : Bytes} {i : ℕ} (hi : i < p.length) (hruns : (p.label i).Runs C (.joinTopic topic))
      (hvalid : Core.topicRejection (ofString "join_topic") topic = none)
      (hnew : topic ∉ (p.state i).roomTopics) (hmem : topic ∈ (p.state (i + 1)).roomTopics) :
      Offers C p topic
  | derived {topic : Bytes} {i : ℕ} (hi : i ≤ p.length)
      (h : topic ∈ (p.state i).entities.derivedJoinedTopics) : Offers C p topic

/-- Over the run, no derived topic of a room that was loaded with a slash in its id continues, or is
continued by, another topic that the run offers. -/
def LoadsApart (C : Core) (p : (loggedSystem C).Path) : Prop :=
  ∀ i < p.length, ∀ room, (p.label i).Loads C room → slash ∈ room.id → ∀ k ≤ p.length,
    kRoomTopicPrefix ++ room.id ∈ (p.state k).entities.derivedJoinedTopics → ∀ topic,
      Offers C p topic → topic ≠ kRoomTopicPrefix ++ room.id →
        ¬ Continues topic (kRoomTopicPrefix ++ room.id) ∧
          ¬ Continues (kRoomTopicPrefix ++ room.id) topic

section Nested

variable {topic base : Bytes}

/-- A record of one room falls under the scan of another one exactly when one topic continues the
other. -/
theorem exists_historyPrefix_prefix_iff :
    (∃ id, historyPrefix base <+: buildKey topic id) ↔
      Continues topic base ∨ Continues base topic := by
  have hkey : ∀ id, historyPrefix base <+: buildKey topic id ↔
      base ++ [slash] <+: topic ++ [slash] ++ id := by
    intro id
    rw [historyPrefix, buildKey, List.append_assoc, List.append_assoc,
      List.prefix_append_right_inj, List.append_assoc, List.singleton_append]
  simp only [hkey]
  constructor
  · rintro ⟨id, h⟩
    exact List.prefix_or_prefix_of_prefix h (List.prefix_append _ _)
  · rintro (h | ⟨id, h⟩)
    · exact ⟨[], h.trans (List.prefix_append _ _)⟩
    · exact ⟨id, h ▸ List.prefix_rfl⟩

/-- Ids without a slash do not nest. -/
theorem eq_of_continues {id id' : Bytes} (hid : slash ∉ id) (hid' : slash ∉ id')
    (h : Continues (kRoomTopicPrefix ++ id) (kRoomTopicPrefix ++ id')) : id' = id := by
  rw [Continues, List.append_assoc, List.append_assoc, List.prefix_append_right_inj] at h
  exact eq_of_append_singleton_isPrefix hid' hid h

theorem isolated_of_not_continues {g : Globals}
    (h : ∀ topic ∈ g.roomTopics, ∀ other ∈ g.roomTopics, topic ≠ other → ¬ Continues topic other) :
    g.Isolated := by
  intro topic htopic other hother hne id hprefix
  rcases exists_historyPrefix_prefix_iff.1 ⟨id, hprefix⟩ with hcont | hcont
  · exact h topic htopic other hother hne hcont
  · exact h other hother topic htopic hne.symm hcont

end Nested

section Provenance

variable {C : Core} {g g' : Globals} {call : LoggedCall} {topic : Bytes}

theorem Registering.listed_or_derived {topics : List Bytes} {calls : List TopicCall}
    (h : Registering topics g calls g') (hmem : topic ∈ (Core.evictUnderived topics g').roomTopics) :
    topic ∈ g.roomTopics ∨ topic ∈ topics := by
  refine (h.listed (Core.mem_roomTopics_evictUnderived.1 hmem).1).imp_right ?_
  rintro ⟨live, hlive⟩
  exact (h.arms hlive).1

/-- What a call lists anew is a smoke topic, a topic that it joins, or derived. -/
theorem listed_of_step (hstep : (loggedSystem C).step g call g') (hmem : topic ∈ g'.roomTopics) :
    topic ∈ g.roomTopics ∨ topic ∈ [kSmokeTopicA, kSmokeTopicB] ∨
      (call.Runs C (.joinTopic topic) ∧
        Core.topicRejection (ofString "join_topic") topic = none) ∨
      topic ∈ g'.entities.derivedJoinedTopics := by
  cases outcome_of_step hstep with
  | kept => exact .inl hmem
  | joined hup hnot hruns hvalid =>
      rcases Core.mem_pushBackAbsent.1 hmem with hmem | rfl
      · exact .inl hmem
      · exact .inr (.inr (.inl ⟨hruns, hvalid⟩))
  | @refreshed entities mid hup hrefreshes hrooms hloop =>
      have hentities : mid.entities = entities := hloop.entities_eq
      rcases hloop.listed_or_derived hmem with hmem | hmem
      · exact .inl hmem
      · exact .inr (.inr (.inr (hentities.symm ▸ hmem)))
  | @started session joined entities mid before after hnone hinit hrefreshes hcalls hsmoke hsub hjoined
      hrooms hloop =>
      have hentities : mid.entities = entities := hloop.entities_eq
      rcases hloop.listed_or_derived hmem with hmem | hmem
      · rcases List.mem_append.1 hmem with hmem | hmem
        · exact .inl hmem
        · exact .inr (.inl (hsub.subset hmem))
      · exact .inr (.inr (.inr (hentities.symm ▸ hmem)))

variable {p : (loggedSystem C).Path}

theorem offers_of_listed (hfresh : p.state 0 = .fresh) {i : ℕ} (hi : i ≤ p.length)
    (hmem : topic ∈ (p.state i).roomTopics) : Offers C p topic := by
  induction i with
  | zero =>
      rw [hfresh] at hmem
      cases hmem
  | succ i ih =>
      by_cases hbefore : topic ∈ (p.state i).roomTopics
      · exact ih (by omega) hbefore
      rcases listed_of_step (p.step i hi) hmem with hlisted | hsmoke | ⟨hruns, hvalid⟩ | hderived
      · exact absurd hlisted hbefore
      · exact .smoke hsmoke
      · exact .named hi hruns hvalid hbefore hmem
      · exact .derived hi hderived

/-- A slash in the id of a room was read from the store. -/
theorem loads_of_slash_mem (hfresh : p.state 0 = .fresh) {i : ℕ} (hi : i ≤ p.length)
    {room : RoomRecord} (hroom : room ∈ (p.state i).entities.mRooms.values)
    (hslash : slash ∈ room.id) : ∃ j < p.length, (p.label j).Loads C room := by
  induction i with
  | zero =>
      rw [hfresh] at hroom
      cases hroom
  | succ i ih =>
      rcases room_of_step (p.step i hi) hroom with hroom | hminted | hloads
      · exact ih (by omega) hroom
      · obtain ⟨ms, token, seq, hid⟩ := (p.step i hi).1 _ _ hminted
        rw [hid] at hslash
        exact absurd hslash (slash_notMem_mintId (by decide) ms token seq)
      · exact ⟨i, hi, hloads⟩

/-- An offered topic has no slash in its id, unless a stored room has brought it in. -/
theorem slash_notMem_of_offers (hfresh : p.state 0 = .fresh) (h : Offers C p topic) :
    (∃ id, slash ∉ id ∧ topic = kRoomTopicPrefix ++ id) ∨
      ∃ i < p.length, ∃ room, (p.label i).Loads C room ∧ slash ∈ room.id ∧
        topic = kRoomTopicPrefix ++ room.id ∧
        ∃ k ≤ p.length, topic ∈ (p.state k).entities.derivedJoinedTopics := by
  have hshape : ∀ {topic : Bytes}, isValidRoomTopicShape topic = true →
      ∃ id, slash ∉ id ∧ topic = kRoomTopicPrefix ++ id := by
    intro topic hvalid
    obtain ⟨id, -, hid, htopic⟩ := isValidRoomTopicShape_iff.1 hvalid
    exact ⟨id, hid, htopic⟩
  cases h with
  | smoke hsmoke =>
      refine .inl (hshape ?_)
      rcases List.mem_cons.1 hsmoke with rfl | hsmoke
      · decide
      · obtain rfl := List.mem_singleton.1 hsmoke
        decide
  | named hi hruns hvalid hnew hmem =>
      refine .inl (hshape ?_)
      rw [Core.topicRejection] at hvalid
      split_ifs at hvalid with hempty hlength hinvalid
      simpa using hinvalid
  | @derived k hk hderived =>
      obtain ⟨room, hroom, -, htopic⟩ := EntityStore.mem_derivedJoinedTopics.1 hderived
      have heq := (EntityStore.of_derivedTopic htopic).2
      by_cases hslash : slash ∈ room.id
      · obtain ⟨i, hi, hloads⟩ := loads_of_slash_mem hfresh hk hroom hslash
        exact .inr ⟨i, hi, room, hloads, hslash, heq, k, hk, hderived⟩
      · exact .inl ⟨room.id, hslash, heq⟩

end Provenance

/-- A run of a fresh process keeps all joined rooms apart, on whatever route they were joined, as
long as the rooms it loads with a slash in their ids stay apart from what it offers. -/
theorem isolated_of_loadsApart (C : Core) (p : (loggedSystem C).Path) (hfresh : p.state 0 = .fresh)
    (hapart : LoadsApart C p) {i : ℕ} (hi : i ≤ p.length) : (p.state i).Isolated := by
  refine isolated_of_not_continues fun topic htopic other hother hne hcont => ?_
  have hoffers := offers_of_listed hfresh hi htopic
  have hoffers' := offers_of_listed hfresh hi hother
  rcases slash_notMem_of_offers hfresh hoffers with
    ⟨id, hid, rfl⟩ | ⟨j, hj, room, hloads, hslash, rfl, k, hk, hderived⟩
  · rcases slash_notMem_of_offers hfresh hoffers' with
      ⟨id', hid', rfl⟩ | ⟨j, hj, room, hloads, hslash, rfl, k, hk, hderived⟩
    · exact hne (congrArg _ (eq_of_continues hid hid' hcont).symm)
    · exact (hapart j hj room hloads hslash k hk hderived _ hoffers hne).1 hcont
  · exact (hapart j hj room hloads hslash k hk hderived _ hoffers' hne.symm).2 hcont

def storedRoomStore (id : Bytes) : EntityStore := spaceGlobals.entities.emplaceRoom (roomRecord id)

def storedRoomManifest (id : Bytes) : EntityManifest := spaceManifest.insert false id

/-- After `gcs_init` on a store with one room, whose space joins its rooms. -/
def storedRoomGlobals (id : Bytes) : Globals :=
  ⟨some 0, storedRoomStore id, [kSmokeTopicA, kSmokeTopicB, roomTopic id], [roomTopic id], [], 0⟩

theorem derivedJoinedTopics_storedRoomStore (id : Bytes) :
    (storedRoomStore id).derivedJoinedTopics = [roomTopic id] := by
  have hparent : (roomRecord id).parentSpaceId = autoJoinSpaceId := rfl
  have hfind : (storedRoomStore id).mSpaces.find? autoJoinSpaceId = some autoJoinSpace := by
    rw [storedRoomStore, EntityStore.emplaceRoom_mSpaces]
    decide
  have htopic : (storedRoomStore id).derivedTopic (roomRecord id) = some (roomTopic id) := by
    rw [EntityStore.derivedTopic, hparent, if_neg (by decide), hfind]
    rfl
  change List.filterMap _ [roomRecord id] = _
  rw [List.filterMap_cons, htopic]
  rfl

def storedRoomLoad (codecs : Codecs) (id : Bytes) : Trace (Effect Globals) Effect.Answer :=
  [⟨.get kManifestKey, some (codecs.manifest.serialize (storedRoomManifest id))⟩,
    ⟨.get (kSpacesKeyPrefix ++ autoJoinSpaceId), some (codecs.space.serialize autoJoinSpace)⟩,
    ⟨.get (kRoomsKeyPrefix ++ id), some (codecs.room.serialize (roomRecord id))⟩]

theorem parse_storedRoom (codecs : Codecs) {id : Bytes} (hid : ValidUtf8 id) :
    codecs.room.parse (codecs.room.serialize (roomRecord id)) = some (roomRecord id) :=
  codecs.room.parse_serialize _ (roomSchema_valid_iff.2 ⟨⟨hid, validUtf8_ofString _,
    validUtf8_ofString _, isInt64_zero, isInt64_zero, isInt64_zero⟩, List.forall_mem_nil _⟩)

theorem ends_loadFromStore_storedRoom (codecs : Codecs) {id : Bytes} (hid : ValidUtf8 id)
    (w : Globals) : Ends serialWorld (EntityStore.loadFromStore codecs) w (storedRoomLoad codecs id)
      (storedRoomStore id) w := by
  have hmanifest : (some (codecs.manifest.serialize (storedRoomManifest id))).bind
      codecs.manifest.parse = some (storedRoomManifest id) := by
    refine codecs.manifest.parse_serialize _ (manifestSchema_valid_iff.2 ⟨⟨?_, ?_⟩, ?_⟩)
    · exact List.forall_mem_singleton.2 (validUtf8_ofString _)
    · exact List.forall_mem_singleton.2 hid
    · exact List.forall_mem_nil _
  have hspace : codecs.space.parse (codecs.space.serialize autoJoinSpace) = some autoJoinSpace :=
    codecs.space.parse_serialize _ (spaceSchema_valid_iff.2 ⟨⟨validUtf8_ofString _,
      validUtf8_ofString _, isInt64_zero, isInt64_zero, isInt64_zero⟩, List.forall_mem_nil _⟩)
  refine ends_ask_iff.2 ⟨some (codecs.manifest.serialize (storedRoomManifest id)), w, _, rfl, ?_, rfl⟩
  dsimp only [Interactive.bind]
  rw [hmanifest]
  refine ends_bind_iff.2 ⟨_, _, _, w, ends_loadRecords_singleton hspace (·.id) _ _ w, ?_, rfl⟩
  refine ends_bind_iff.2 ⟨_, _, [], w, ends_loadRecords_singleton (parse_storedRoom codecs hid)
    (·.id) _ _ w, .nil _ _, rfl⟩

def unregisteredGlobals (id : Bytes) : Globals :=
  ⟨some 0, storedRoomStore id, [kSmokeTopicA, kSmokeTopicB], [], [], 0⟩

def subscribingGlobals (id : Bytes) : Globals := { storedRoomGlobals id with inFlight := 1 }

/-- Both registrations and the subscribe go through; the history of the room cannot be read. -/
def storedRoomJoin (id : Bytes) : Trace (Effect Globals) Effect.Answer :=
  [⟨.addListenTopic (roomTopic id), true⟩, ⟨.addBroadcastTopic (roomTopic id), true⟩,
    ⟨.queryKeyValues (historyPrefix (roomTopic id)), none⟩, ⟨.unlock (subscribingGlobals id), ()⟩,
    ⟨.subscribe (roomTopic id), true⟩, ⟨.lock, subscribingGlobals id⟩]

theorem ends_refreshDerivedJoins_storedRoom (C : Core) {id : Bytes}
    (hsmoke : roomTopic id ∉ [kSmokeTopicA, kSmokeTopicB]) (w : Globals) :
    Ends serialWorld (C.refreshDerivedJoins (unregisteredGlobals id)) w (storedRoomJoin id)
      (storedRoomGlobals id) (subscribingGlobals id) := by
  have hadded : Core.addDerived (unregisteredGlobals id) (roomTopic id) = storedRoomGlobals id := by
    change Globals.mk _ _ (Core.pushBackAbsent [kSmokeTopicA, kSmokeTopicB] (roomTopic id)) _ _ _ = _
    rw [Core.pushBackAbsent, if_neg hsmoke]
    rfl
  have hevict : Core.evictUnderived [roomTopic id] (storedRoomGlobals id) = storedRoomGlobals id := by
    simp [Core.evictUnderived, storedRoomGlobals]
  have hnew : roomTopic id ∉ (unregisteredGlobals id).derivedTopics := List.not_mem_nil
  have hregister := Core.through_registerDerived (C := C) (w := w) hnew
  rw [hadded] at hregister
  have hdone : Ends serialWorld (pure (Core.evictUnderived [roomTopic id] (storedRoomGlobals id)))
      (subscribingGlobals id) [] (storedRoomGlobals id) (subscribingGlobals id) :=
    hevict.symm ▸ .nil _ _
  have hrefresh := Ends.bind
    (f := fun g => (pure (Core.evictUnderived [roomTopic id] g) : Program Globals Globals))
    hregister hdone
  rw [← derivedJoinedTopics_storedRoomStore id] at hrefresh
  exact hrefresh

def storedRoomTrace (codecs : Codecs) (id : Bytes) : Trace (Effect Globals) Effect.Answer :=
  ⟨.lock, .fresh⟩ :: ⟨.initSession, some 0⟩ :: ⟨.addListenTopic kSmokeTopicA, true⟩ ::
    ⟨.addBroadcastTopic kSmokeTopicA, true⟩ :: ⟨.addListenTopic kSmokeTopicB, true⟩ ::
    ⟨.addBroadcastTopic kSmokeTopicB, true⟩ :: ⟨.registerNewElementCallback, true⟩ ::
    (storedRoomLoad codecs id ++ (storedRoomJoin id ++ [⟨.unlock (storedRoomGlobals id), ()⟩]))

theorem ends_gcsInit_storedRoom (C : Core) {id : Bytes} (hid : ValidUtf8 id)
    (hsmoke : roomTopic id ∉ [kSmokeTopicA, kSmokeTopicB]) :
    Ends serialWorld C.gcsInit .fresh (storedRoomTrace C.codecs id) (some 0)
      (storedRoomGlobals id) := by
  refine ends_ask_iff.2 ⟨Globals.fresh, Globals.fresh, _, ⟨rfl, rfl⟩, ?_, rfl⟩
  refine ends_ask_iff.2 ⟨some 0, Globals.fresh, _, rfl, ?_, rfl⟩
  refine ends_ask_iff.2 ⟨true, Globals.fresh, _, rfl, ?_, rfl⟩
  refine ends_ask_iff.2 ⟨true, Globals.fresh, _, rfl, ?_, rfl⟩
  refine ends_ask_iff.2 ⟨true, Globals.fresh, _, rfl, ?_, rfl⟩
  refine ends_ask_iff.2 ⟨true, Globals.fresh, _, rfl, ?_, rfl⟩
  refine ends_ask_iff.2 ⟨true, Globals.fresh, _, rfl, ?_, rfl⟩
  have hload := ends_loadFromStore_storedRoom C.codecs hid Globals.fresh
  have hrefresh := ends_refreshDerivedJoins_storedRoom C hsmoke Globals.fresh
  refine ends_bind_iff.2 ⟨(storedRoomGlobals id, some 0), storedRoomLoad C.codecs id ++
    storedRoomJoin id, [⟨.unlock (storedRoomGlobals id), ()⟩], subscribingGlobals id, ?_,
    ends_ask_iff.2 ⟨(), storedRoomGlobals id, _, rfl, .nil _ _, rfl⟩, by rw [List.append_assoc]⟩
  refine ends_bind_iff.2 ⟨true, [], _, Globals.fresh, .nil _ _, ?_, rfl⟩
  refine ends_bind_iff.2 ⟨_, _, _, Globals.fresh, hload, ?_, rfl⟩
  exact ends_bind_iff.2 ⟨_, _, [], subscribingGlobals id, hrefresh, .nil _ _, by rw [List.append_nil]⟩

theorem step_storedRoom (C : Core) {id : Bytes} (hid : ValidUtf8 id)
    (hsmoke : roomTopic id ∉ [kSmokeTopicA, kSmokeTopicB]) :
    (loggedSystem C).step .fresh (.init (some 0) (storedRoomTrace C.codecs id))
      (storedRoomGlobals id) := by
  refine ⟨fun idPrefix x hmints => ?_, ends_gcsInit_storedRoom C hid hsmoke⟩
  have hnone : ∀ y ∈ storedRoomTrace C.codecs id, y.1 ≠ .nextId idPrefix := by
    simp [storedRoomTrace, storedRoomLoad, storedRoomJoin]
  exact absurd rfl (hnone _ hmints)

theorem loads_storedRoom {C : Core} {id : Bytes} (hid : ValidUtf8 id) {room : RoomRecord}
    (h : (LoggedCall.init (some 0) (storedRoomTrace C.codecs id)).Loads C room) :
    room = roomRecord id := by
  obtain ⟨x, bytes, hmem, hparse⟩ := h
  have hmanifest : kRoomsKeyPrefix ++ x ≠ kManifestKey := recordsKeyPrefix_append_ne_kManifestKey false x
  have hspace : kRoomsKeyPrefix ++ x ≠ kSpacesKeyPrefix ++ autoJoinSpaceId := fun h =>
    Bool.false_ne_true
      (recordsKeyPrefix_append_inj (show recordsKeyPrefix false ++ x = recordsKeyPrefix true ++ _ from h)).1
  have hbytes : bytes = C.codecs.room.serialize (roomRecord id) := by
    simp [LoggedCall.trace, storedRoomTrace, storedRoomLoad, storedRoomJoin, hmanifest, hspace] at hmem
    exact hmem.2
  rw [hbytes, parse_storedRoom C.codecs hid] at hparse
  exact (Option.some.inj hparse).symm

/-- The id of a stored room continues the one of a smoke room. -/
theorem not_isolated_storedRoom :
    let C := protoCore (Messaging.plaintext (ofString "self"))
    ∃ p : (loggedSystem C).Path, p.state 0 = .fresh ∧ ∃ i ≤ p.length, ¬ (p.state i).Isolated := by
  intro C
  let id := ofString "smoke-test/b"
  have hid : ValidUtf8 id := validUtf8_ofString _
  have hstep := step_storedRoom C hid (by decide)
  refine ⟨.single hstep, rfl, 1, le_rfl, fun hisolated => ?_⟩
  have hmem : roomTopic id ∈ (storedRoomGlobals id).roomTopics := by decide
  have hsmoke : kSmokeTopicA ∈ (storedRoomGlobals id).roomTopics := by decide
  exact hisolated (roomTopic id) hmem kSmokeTopicA hsmoke (by decide) [] (by decide)

/-- The id of a stored room has a slash, and its topic continues none of the others. -/
theorem isolated_storedRoom :
    let C := protoCore (Messaging.plaintext (ofString "self"))
    ∃ p : (loggedSystem C).Path, p.state 0 = .fresh ∧ 0 < p.length ∧
      roomTopic (ofString "a/b") ∈ (p.state 1).roomTopics ∧ (p.state 1).Isolated := by
  intro C
  let id := ofString "a/b"
  have hid : ValidUtf8 id := validUtf8_ofString _
  have hstep := step_storedRoom C hid (by decide)
  let p := TransitionSystem.Path.single hstep
  have hapart : LoadsApart C p := by
    intro i hi room hloads hslash k hk hderived topic hoffers hne
    rw [loads_storedRoom hid hloads] at hne ⊢
    cases hoffers with
    | smoke hsmoke =>
        have hboth : ∀ smoke ∈ [kSmokeTopicA, kSmokeTopicB],
            ¬ Continues smoke (roomTopic id) ∧ ¬ Continues (roomTopic id) smoke := by decide
        exact hboth topic hsmoke
    | named _ hruns => exact hruns.elim
    | @derived m hm hother =>
        refine absurd ?_ hne
        match m, hm with
        | 0, _ => cases hother
        | 1, _ =>
            change topic ∈ (storedRoomStore id).derivedJoinedTopics at hother
            rw [derivedJoinedTopics_storedRoomStore] at hother
            exact List.mem_singleton.1 hother
  have hmem : roomTopic id ∈ (storedRoomGlobals id).roomTopics := by decide
  exact ⟨p, rfl, Nat.one_pos, hmem, isolated_of_loadsApart C p rfl hapart le_rfl⟩

end GcsChat
