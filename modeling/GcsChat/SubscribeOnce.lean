import GcsChat.DerivedConvergence
import GcsChat.LiveJoin

/-!
# One live subscription for each topic

Nothing is ever unsubscribed. `join_topic` asks `g_roomTopics` and a refresh asks `g_derivedTopics`
whether a topic is new, and neither list tells what has been subscribed to: an explicit join does not
enter the second one, and an eviction takes a topic out of both.
-/

namespace GcsChat

open ByteString Interactive

/-- A refresh takes the topic, which was derived only, out of both lists. -/
def Globals.Evicts (g g' : Globals) (topic : Bytes) : Prop :=
  topic ∈ g.derivedTopics ∧ topic ∉ g'.derivedTopics ∧ topic ∉ g.explicitTopics

/-- The topic is listed, and it is known why. -/
def Globals.Holds (g : Globals) (topic : Bytes) : Prop :=
  topic ∈ g.roomTopics ∧ (topic ∈ g.explicitTopics ∨ topic ∈ g.derivedTopics)

section Holds

variable {g g' : Globals} {topic : Bytes} {topics : List Bytes} {calls : List TopicCall}
  {live : Bool} {status : GcsStatus} {command : GcsCommand} {opened : Option ℕ}

theorem Registering.joined (h : Registering topics g calls g')
    (hlive : .subscribe topic live ∈ calls) :
    topic ∈ g'.roomTopics ∧ topic ∈ g'.derivedTopics := by
  obtain ⟨-, -, hbroadcast, -⟩ := h.arms hlive
  exact ⟨h.mem_iff.2.2 (.inr hbroadcast), h.mem_iff.1.2 (.inr hbroadcast)⟩

theorem Registering.holds (h : Registering topics g calls g') (hholds : g.Holds topic) :
    (Core.evictUnderived topics g').Holds topic ∨ g.Evicts (Core.evictUnderived topics g') topic := by
  obtain ⟨-, hexplicit, hrooms, hderived⟩ := h.grows
  obtain ⟨hroom, hreason⟩ := hholds
  by_cases hmem : topic ∈ g.explicitTopics
  · have hkept : topic ∈ g'.explicitTopics := hexplicit ▸ hmem
    exact .inl ⟨Core.mem_roomTopics_evictUnderived.2 ⟨hrooms hroom, fun _ => .inr hkept⟩, .inl hkept⟩
  · have hwas := hreason.resolve_left hmem
    by_cases hstill : topic ∈ topics
    · exact .inl ⟨Core.mem_roomTopics_evictUnderived.2 ⟨hrooms hroom, fun _ => .inl hstill⟩,
        .inr (Core.mem_derivedTopics_evictUnderived.2 ⟨hderived hwas, hstill⟩)⟩
    · exact .inr ⟨hwas, fun h => hstill (Core.mem_derivedTopics_evictUnderived.1 h).2, hmem⟩

theorem Registering.holds_subscribed (h : Registering topics g calls g')
    (hlive : .subscribe topic live ∈ calls) : (Core.evictUnderived topics g').Holds topic := by
  have htopic := (h.arms hlive).1
  obtain ⟨hroom, hderived⟩ := h.joined hlive
  exact ⟨Core.mem_roomTopics_evictUnderived.2 ⟨hroom, fun _ => .inl htopic⟩,
    .inr (Core.mem_derivedTopics_evictUnderived.2 ⟨hderived, htopic⟩)⟩

theorem Globals.Holds.joined (h : g.Holds topic) (other : Bytes) : (g.joined other).Holds topic :=
  ⟨Core.mem_pushBackAbsent.2 (.inl h.1), h.2.imp_left fun h => Core.mem_pushBackAbsent.2 (.inl h)⟩

theorem JoinOutcome.holds {joined : Bytes} (h : JoinOutcome g joined calls g' status)
    (hholds : g.Holds topic) : g'.Holds topic := by
  cases h with
  | rejected => exact hholds
  | failed => exact hholds
  | again => exact hholds.joined joined
  | first => exact hholds.joined joined

theorem JoinOutcome.holds_subscribed {joined : Bytes} (h : JoinOutcome g joined calls g' status)
    (hlive : .subscribe topic live ∈ calls) : g'.Holds topic := by
  obtain ⟨rfl, -⟩ := h.arms hlive
  have hjoined : (g.joined topic).Holds topic :=
    ⟨Core.mem_pushBackAbsent.2 (.inr rfl), .inl (Core.mem_pushBackAbsent.2 (.inr rfl))⟩
  cases h with
  | rejected => cases hlive
  | failed hjoin => exact absurd hlive (hjoin.subscribe_not_mem topic live)
  | again => exact hjoined
  | first => exact hjoined

theorem CommandOutcome.holds (h : CommandOutcome g command calls g' status)
    (hholds : g.Holds topic) : g'.Holds topic ∨ g.Evicts g' topic := by
  cases h with
  | join h => exact .inl (h.holds hholds)
  | kept => exact .inl hholds
  | refreshed _ h => exact h.holds hholds

theorem CommandOutcome.holds_subscribed (h : CommandOutcome g command calls g' status)
    (hlive : .subscribe topic live ∈ calls) : g'.Holds topic := by
  cases h with
  | join h => exact h.holds_subscribed hlive
  | kept => cases hlive
  | refreshed _ h => exact h.holds_subscribed hlive

theorem InitOutcome.holds (h : InitOutcome g calls g' opened) (hholds : g.Holds topic) :
    g'.Holds topic ∨ g.Evicts g' topic := by
  cases h with
  | running => exact .inl hholds
  | failed => exact .inl hholds
  | started _ _ _ _ h => exact h.holds ⟨List.mem_append_left _ hholds.1, hholds.2⟩

theorem InitOutcome.holds_subscribed (h : InitOutcome g calls g' opened)
    (hlive : .subscribe topic live ∈ calls) : g'.Holds topic := by
  cases h with
  | running => cases hlive
  | failed hnone => exact absurd hlive (hnone topic live)
  | started _ _ _ hsmoke h =>
      exact h.holds_subscribed ((List.mem_append.1 hlive).resolve_left (hsmoke topic live))

end Holds

section Step

variable {C : Core} {g g' : Globals} {call : SerialCall} {topic : Bytes} {live : Bool}

theorem holds_step (hstep : (serialSystem C).step g call g') (h : g.Holds topic) :
    g'.Holds topic ∨ g.Evicts g' topic := by
  cases call with
  | init opened calls =>
      obtain ⟨tr, hends, rfl⟩ := hstep
      exact (Core.ends_gcsInit hends).holds h
  | publish session name payload status calls =>
      obtain ⟨tr, hends, rfl⟩ := hstep
      rcases Core.ends_gcsPublish hends with ⟨-, -, rfl⟩ | ⟨bytes, command, -, -, houtcome⟩
      · exact .inl h
      · exact houtcome.holds h

/-- A call that asks to subscribe to a topic leaves it held. -/
theorem holds_subscribed_step (hstep : (serialSystem C).step g call g')
    (hlive : .subscribe topic live ∈ call.calls) : g'.Holds topic := by
  cases call with
  | init opened calls =>
      obtain ⟨tr, hends, rfl⟩ := hstep
      exact (Core.ends_gcsInit hends).holds_subscribed hlive
  | publish session name payload status calls =>
      obtain ⟨tr, hends, rfl⟩ := hstep
      rcases Core.ends_gcsPublish hends with ⟨-, hnil, -⟩ | ⟨bytes, command, -, -, houtcome⟩
      · rw [SerialCall.calls, hnil] at hlive
        cases hlive
      · exact houtcome.holds_subscribed hlive

end Step

section Run

variable {C : Core} {topic : Bytes}

/-- A topic that has been subscribed to is held until a refresh evicts it. -/
theorem holds_or_evicted (p : (serialSystem C).Path) {i j : ℕ} (hij : i < j) (hj : j ≤ p.length)
    {live : Bool} (hlive : .subscribe topic live ∈ (p.label i).calls) :
    (p.state j).Holds topic ∨
      ∃ k, i < k ∧ k < j ∧ (p.state k).Evicts (p.state (k + 1)) topic := by
  induction j, hij using Nat.le_induction with
  | base => exact .inl (holds_subscribed_step (p.step i hj) hlive)
  | succ j hij ih =>
      rcases ih (by omega) with hholds | ⟨k, hik, hkj, hevicts⟩
      · rcases holds_step (p.step j hj) hholds with hholds | hevicts
        · exact .inl hholds
        · exact .inr ⟨j, hij, Nat.lt_succ_self j, hevicts⟩
      · exact .inr ⟨k, hik, by omega, hevicts⟩

/-- Call `j` takes the topic in again: a refresh derives it although it was joined explicitly, or a
refresh has evicted it since call `i`. -/
def ComesAgain (p : (serialSystem C).Path) (i j : ℕ) (topic : Bytes) : Prop :=
  (topic ∈ (p.state j).explicitTopics ∧ topic ∉ (p.state j).derivedTopics ∧
      topic ∈ (p.state (j + 1)).derivedTopics) ∨
    ((∃ k, i < k ∧ k < j ∧ (p.state k).Evicts (p.state (k + 1)) topic) ∧
      (p.label j).TakesIn C (p.state j) (p.state (j + 1)) topic)

theorem ComesAgain.takesIn {p : (serialSystem C).Path} {i j : ℕ} (h : ComesAgain p i j topic) :
    (p.label j).TakesIn C (p.state j) (p.state (j + 1)) topic := by
  rcases h with ⟨-, hnew⟩ | ⟨-, htakes⟩
  · exact .inl hnew
  · exact htakes

/-- There is no other way to take a subscribed topic in again. -/
theorem explicit_or_evicted_of_takesIn (p : (serialSystem C).Path) {i j : ℕ} (hij : i < j)
    (hj : j < p.length) {live : Bool} (hlive : .subscribe topic live ∈ (p.label i).calls)
    (htakes : (p.label j).TakesIn C (p.state j) (p.state (j + 1)) topic) : ComesAgain p i j topic := by
  rcases holds_or_evicted p hij hj.le hlive with ⟨hroom, hreason⟩ | hevicted
  · rcases htakes with ⟨hnew, hderived⟩ | ⟨-, hnot, -⟩
    · exact .inl ⟨hreason.resolve_right hnew, hnew, hderived⟩
    · exact absurd hroom hnot
  · exact .inr ⟨hevicted, htakes⟩

def serialCalls (p : (serialSystem C).Path) : List TopicCall :=
  (List.range p.length).flatMap fun i => (p.label i).calls

theorem count_flatMap_range_le_one {α : Type} [DecidableEq α] (f : ℕ → List α) (a : α) (n : ℕ) :
    ((List.range n).flatMap f).count a ≤ 1 ↔
      (∀ i < n, (f i).count a ≤ 1) ∧ ∀ i < n, a ∈ f i → ∀ j < i, a ∉ f j := by
  induction n with
  | zero => simp
  | succ n ih =>
      have hcount : ((List.range (n + 1)).flatMap f).count a =
          ((List.range n).flatMap f).count a + (f n).count a := by
        rw [List.range_succ, List.flatMap_append, List.count_append, List.flatMap_singleton]
      have hzero : ((List.range n).flatMap f).count a = 0 ↔ ∀ j < n, a ∉ f j := by
        simp [List.count_eq_zero]
      rw [hcount]
      constructor
      · intro h
        obtain ⟨hone, hapart⟩ := ih.1 (by omega)
        refine ⟨fun i hi => ?_, fun i hi hmem => ?_⟩
        · rcases Nat.lt_succ_iff_lt_or_eq.1 hi with hi | rfl
          · exact hone i hi
          · omega
        · rcases Nat.lt_succ_iff_lt_or_eq.1 hi with hi | rfl
          · exact hapart i hi hmem
          · have := List.count_pos_iff.2 hmem
            exact hzero.1 (by omega)
      · rintro ⟨hone, hapart⟩
        have hbefore := ih.2 ⟨fun i hi => hone i (by omega), fun i hi => hapart i (by omega)⟩
        by_cases hmem : a ∈ f n
        · have := hzero.2 (hapart n (Nat.lt_succ_self n) hmem)
          have := hone n (Nat.lt_succ_self n)
          omega
        · have := List.count_eq_zero.2 hmem
          omega

/-- Over every run, the subscribe of each topic succeeds once at most exactly when the pubsub refuses
one of the two times whenever a topic that has been taken in comes in again: because a refresh derives
it although it was joined explicitly, or after a refresh has evicted it. -/
theorem subscribed_once_iff (C : Core) (p : (serialSystem C).Path) :
    (∀ topic, (serialCalls p).count (.subscribe topic true) ≤ 1) ↔
      ∀ i j topic, i < j → j < p.length →
        (p.label i).TakesIn C (p.state i) (p.state (i + 1)) topic → ComesAgain p i j topic →
          (p.label i).Refused topic ∨ (p.label j).Refused topic := by
  have hcall : ∀ i < p.length, ∀ topic, ((p.label i).calls).count (.subscribe topic true) ≤ 1 := by
    intro i hi topic
    by_cases hmem : .subscribe topic true ∈ (p.label i).calls
    · exact (subscribesOnce_step (p.step i hi) hmem).count_le
    · rw [List.count_eq_zero.2 hmem]
      exact Nat.zero_le 1
  constructor
  · intro h i j topic hij hj htakes hagain
    by_contra hnot
    obtain ⟨hi, hj'⟩ := not_or.1 hnot
    have hfirst := (subscribed_iff (p.step i (hij.trans hj))).2 ⟨htakes, hi⟩
    have hsecond := (subscribed_iff (p.step j hj)).2 ⟨hagain.takesIn, hj'⟩
    exact ((count_flatMap_range_le_one _ _ _).1 (h topic)).2 j hj hsecond i hij hfirst
  · intro h topic
    refine (count_flatMap_range_le_one _ _ _).2 ⟨fun i hi => hcall i hi topic,
      fun j hj hsecond i hij hfirst => ?_⟩
    obtain ⟨htakes, hi⟩ := (subscribed_iff (p.step i (hij.trans hj))).1 hfirst
    obtain ⟨htakes', hj'⟩ := (subscribed_iff (p.step j hj)).1 hsecond
    have hagain := explicit_or_evicted_of_takesIn p hij hj hfirst htakes'
    exact (h i j topic hij hj htakes hagain).elim hi hj'

end Run

def togglePayload (autoJoinRooms : Bool) : Bytes :=
  (GcsCommand.updateSpace autoJoinSpaceId (ofString "a") false autoJoinRooms).serialize

def toggledSpace (autoJoinRooms : Bool) : SpaceRecord :=
  { autoJoinSpace with autoJoinRooms := autoJoinRooms }

theorem parse_togglePayload (autoJoinRooms : Bool) : GcsCommand.parse (togglePayload autoJoinRooms) =
    some (.updateSpace autoJoinSpaceId (ofString "a") false autoJoinRooms) := by
  have hvalid : (GcsCommand.updateSpace autoJoinSpaceId (ofString "a") false autoJoinRooms).Valid :=
    ⟨validUtf8_ofString _, validUtf8_ofString _⟩
  exact GcsCommand.parse_serialize hvalid

/-- What the core asks for when the space is updated and nothing is registered. -/
def toggleTrace (C : Core) (g g' : Globals) (autoJoinRooms : Bool)
    (tr : Trace (Effect Globals) Effect.Answer) : Trace (Effect Globals) Effect.Answer :=
  ⟨.lock, g⟩ :: ⟨.isRunning, true⟩ :: ⟨.nowMs, (0 : ℤ)⟩ ::
    ⟨.put (kSpacesKeyPrefix ++ autoJoinSpaceId) (C.codecs.space.serialize
      (toggledSpace autoJoinRooms)), true⟩ ::
    (tr ++ [⟨.post (Core.buildSpaceTreeEvent g'), ()⟩, ⟨.post (Core.buildRoomListEvent g'), ()⟩] ++
      [⟨.unlock g', ()⟩])

theorem ends_toggle {C : Core} (hparse : C.parseCommand = GcsCommand.parse) {g mid w : Globals}
    {before autoJoinRooms : Bool} {entities : EntityStore} {topics : List Bytes}
    {tr : Trace (Effect Globals) Effect.Answer} (hsession : g.session = some 0)
    (hfind : g.entities.mSpaces.find? autoJoinSpaceId = some (toggledSpace before))
    (hentities : g.entities.assignSpace (toggledSpace autoJoinRooms) = entities)
    (htopics : entities.derivedJoinedTopics = topics)
    (h : Ends serialWorld (C.registerDerived topics { g with entities := entities }) g tr mid w) :
    let g' := Core.evictUnderived topics mid
    Ends serialWorld (C.gcsPublish (some 0) (some kCommandTopic) (some (togglePayload autoJoinRooms)))
      g (toggleTrace C g g' autoJoinRooms tr) .ok g' := by
  intro g'
  have hcatalog := Core.through_publishCatalog htopics h
  have hupdated : EntityStore.updatedSpace (Core.desiredSpace autoJoinSpaceId (ofString "a") false
      autoJoinRooms) (toggledSpace before) 0 = toggledSpace autoJoinRooms := rfl
  have hupdate := Core.through_updateSpace (by decide) (by decide) (by decide) hfind rfl hupdated
    hentities hcatalog
  have hcommand := hparse ▸ parse_togglePayload autoJoinRooms
  exact Core.through_gcsPublish hsession hcommand (by cases autoJoinRooms <;> decide)
    (by cases autoJoinRooms <;> decide) hupdate

def offStore : EntityStore := oneRoomStore.assignSpace (toggledSpace false)

def onStore : EntityStore := offStore.assignSpace (toggledSpace true)

/-- The room is derived and subscribed to. -/
def autoJoinGlobals : Globals :=
  Core.evictUnderived [roomTopic firstRoomId]
    (Core.addDerived { spaceGlobals with entities := oneRoomStore } (roomTopic firstRoomId))

/-- It is neither, and the subscription is still there. -/
def offGlobals : Globals :=
  Core.evictUnderived [] { autoJoinGlobals with entities := offStore }

def onGlobals : Globals :=
  Core.evictUnderived [roomTopic firstRoomId]
    (Core.addDerived { offGlobals with entities := onStore } (roomTopic firstRoomId))

def armCalls (topic : Bytes) : List TopicCall :=
  [.listen topic true, .broadcast topic true, .subscribe topic true]

theorem ends_createFirstRoom {C : Core} (hparse : C.parseCommand = GcsCommand.parse) :
    ∃ tr, Ends serialWorld (C.gcsPublish (some 0) (some kCommandTopic) (some createRoomPayload))
      spaceGlobals tr .ok autoJoinGlobals ∧ topicCalls tr = armCalls (roomTopic firstRoomId) := by
  let g : Globals := { spaceGlobals with entities := oneRoomStore }
  have hnew : roomTopic firstRoomId ∉ g.derivedTopics := List.not_mem_nil
  have hrecord : EntityStore.newRoom firstRoomId (ofString "r") autoJoinSpaceId 0 =
    roomRecord firstRoomId := rfl
  have hregister := Core.through_registerDerived (C := C) (w := spaceGlobals) hnew
  have hcatalog := Core.through_publishCatalog derivedJoinedTopics_oneRoomStore hregister
  have hroom : Ends serialWorld (C.createRoom spaceGlobals (ofString "r") autoJoinSpaceId) _ _ _ _ :=
    Core.through_createRoom (by decide) (by decide) hrecord rfl hcatalog
  have hcommand := hparse ▸ parse_createRoomPayload
  exact ⟨_, Core.through_gcsPublish rfl hcommand (by decide) (by decide) hroom, rfl⟩

theorem ends_toggleOff {C : Core} (hparse : C.parseCommand = GcsCommand.parse) :
    Ends serialWorld (C.gcsPublish (some 0) (some kCommandTopic) (some (togglePayload false)))
      autoJoinGlobals (toggleTrace C autoJoinGlobals offGlobals false []) .ok offGlobals := by
  have hfind : autoJoinGlobals.entities.mSpaces.find? autoJoinSpaceId = some (toggledSpace true) := by
    decide
  have htopics : offStore.derivedJoinedTopics = [] := by decide
  exact ends_toggle hparse rfl hfind rfl htopics (.nil _ _)

theorem ends_toggleOn {C : Core} (hparse : C.parseCommand = GcsCommand.parse) :
    ∃ tr, Ends serialWorld (C.gcsPublish (some 0) (some kCommandTopic) (some (togglePayload true)))
      offGlobals tr .ok onGlobals ∧ topicCalls tr = armCalls (roomTopic firstRoomId) := by
  have hfind : offGlobals.entities.mSpaces.find? autoJoinSpaceId = some (toggledSpace false) := by
    decide
  have htopics : onStore.derivedJoinedTopics = [roomTopic firstRoomId] := by decide
  let g : Globals := { offGlobals with entities := onStore }
  have hnew : roomTopic firstRoomId ∉ g.derivedTopics := by decide
  have hregister := Core.through_registerDerived (C := C) (w := offGlobals) hnew
  exact ⟨_, ends_toggle hparse rfl hfind rfl htopics hregister, rfl⟩

/-- A space whose rooms are joined automatically gets a room, stops and starts again. -/
theorem subscribed_twice :
    let C := protoCore (Messaging.plaintext (ofString "self"))
    ∃ p : (serialSystem C).Path, p.state 0 = .fresh ∧ (∃ calls, p.label 0 = .init (some 0) calls) ∧
      (serialCalls p).count (.subscribe (roomTopic firstRoomId) true) = 2 := by
  intro C
  have hinit := ends_gcsInit_autoJoinSpace C
  obtain ⟨tr₁, hcreate, hcalls₁⟩ := ends_createFirstRoom (C := C) rfl
  have hoff := ends_toggleOff (C := C) rfl
  obtain ⟨tr₂, hon, hcalls₂⟩ := ends_toggleOn (C := C) rfl
  let topic := roomTopic firstRoomId
  let smoke := [TopicCall.listen kSmokeTopicA true, .broadcast kSmokeTopicA true,
    .listen kSmokeTopicB true, .broadcast kSmokeTopicB true]
  let publish := SerialCall.publish (some 0) (some kCommandTopic)
  have hcreated : (serialSystem C).step spaceGlobals
      (publish (some createRoomPayload) .ok (armCalls topic)) autoJoinGlobals :=
    ⟨tr₁, hcreate, hcalls₁.symm⟩
  have hturnedOn : (serialSystem C).step offGlobals
      (publish (some (togglePayload true)) .ok (armCalls topic)) onGlobals :=
    ⟨tr₂, hon, hcalls₂.symm⟩
  let booted : (serialSystem C).Path :=
    .single (s := .fresh) (l := .init (some 0) smoke) ⟨_, hinit, rfl⟩
  let p : (serialSystem C).Path :=
    ((booted.snoc hcreated).snoc (l := publish (some (togglePayload false)) .ok [])
      ⟨_, hoff, rfl⟩).snoc hturnedOn
  refine ⟨p, rfl, ⟨smoke, rfl⟩, ?_⟩
  change (smoke ++ (armCalls topic ++ ([] ++ (armCalls topic ++ [])))).count
    (TopicCall.subscribe topic true) = 2
  decide

end GcsChat
