import GcsChat.SideBySide
import GcsChat.SubscribeOnce

/-!
# A join of a room that is joined already

`join_topic` of a listed topic changes no list that the UI sees, but it enters the topic into
`g_explicitTopics`. A run is compared with the run of the same commands after such a join.
-/

namespace GcsChat

open ByteString Interactive

structure PublishCall where
  session : Option ℕ
  name : Option Bytes
  payload : Option Bytes
  status : GcsStatus
  trace : Trace (Effect Globals) Effect.Answer

/-- Commands one after the other, from any state that a session reaches. -/
def publishSystem (C : Core) : TransitionSystem Globals PublishCall where
  initial := (serialSystem C).Reachable
  step g call g' :=
    Ends serialWorld (C.gcsPublish call.session call.name call.payload) g call.trace call.status g'

namespace PublishCall

def shown (call : PublishCall) : List GcsEvent := catalogEvents call.trace

/-- The same command, with the same outcomes of what it stores and registers. -/
def Repeats (call call' : PublishCall) : Prop :=
  call.session = call'.session ∧ call.name = call'.name ∧ call.payload = call'.payload ∧
    settledPart Effect.Settled call.trace = settledPart Effect.Settled call'.trace

def Joins (C : Core) (topic : Bytes) (call : PublishCall) : Prop :=
  ∃ bytes, call.payload = some bytes ∧ C.parseCommand bytes = some (.joinTopic topic) ∧
    call.status = .ok

end PublishCall

section Runs

variable {C : Core} {topic : Bytes} {g g' u u' : Globals} {call call' : PublishCall}

theorem twins_of_joins (hstep : (publishSystem C).step g call g') (h : call.Joins C topic)
    (hmem : topic ∈ g.roomTopics) : g.Twins topic g' := by
  obtain ⟨session, name, payload, status, tr⟩ := call
  obtain ⟨bytes, rfl, hparse, hok⟩ := h
  rcases Core.ends_gcsPublish hstep with ⟨hstatus, -⟩ | ⟨_, command, hbytes, hcommand, houtcome⟩
  · exact absurd hok hstatus
  · cases hbytes
    cases hparse.symm.trans hcommand
    have hjoin := houtcome.of_joinTopic
    change status = .ok at hok
    change JoinOutcome g topic (topicCalls tr) g' status at hjoin
    generalize topicCalls tr = calls at hjoin
    cases hjoin with
    | rejected => cases hok
    | failed => cases hok
    | again => exact twins_joined hmem
    | first hnot => exact absurd hmem hnot

theorem Registering.derived {topics : List Bytes} {calls : List TopicCall}
    (h : Registering topics g calls g') (hmem : topic ∈ g'.derivedTopics) :
    topic ∈ g.derivedTopics ∨ topic ∈ topics :=
  (h.mem_iff.1.1 hmem).imp_right fun hbroadcast => (h.topic_mem (.broadcast topic true) hbroadcast).1

/-- A refresh drops a listed topic exactly when it evicts it. -/
theorem Registering.not_listed_iff {topics : List Bytes} {calls : List TopicCall}
    (h : Registering topics g calls g') (hmem : topic ∈ g.roomTopics) :
    topic ∉ (Core.evictUnderived topics g').roomTopics ↔
      g.Evicts (Core.evictUnderived topics g') topic := by
  obtain ⟨-, hexplicit, hrooms, hderived⟩ := h.grows
  rw [Core.mem_roomTopics_evictUnderived, Globals.Evicts, Core.mem_derivedTopics_evictUnderived,
    hexplicit]
  constructor
  · intro hdropped
    have hlast : topic ∈ g'.derivedTopics ∧ topic ∉ topics ∧ topic ∉ g.explicitTopics := by
      by_contra hnot
      exact hdropped ⟨hrooms hmem, fun hwas => by tauto⟩
    exact ⟨(h.derived hlast.1).resolve_right hlast.2.1, fun hstill => hlast.2.1 hstill.2, hlast.2.2⟩
  · rintro ⟨hwas, hleft, hnot⟩ ⟨-, hkept⟩
    have hmid := hderived hwas
    exact hleft ⟨hmid, (hkept hmid).resolve_right hnot⟩

theorem CommandOutcome.not_listed_iff {command : GcsCommand} {calls : List TopicCall}
    {status : GcsStatus} (h : CommandOutcome g command calls g' status)
    (hmem : topic ∈ g.roomTopics) : topic ∉ g'.roomTopics ↔ g.Evicts g' topic := by
  have hgrown : topic ∈ (g.joined topic).roomTopics := Core.mem_pushBackAbsent.2 (.inl hmem)
  cases h with
  | join h =>
      refine iff_of_false (fun hdropped => hdropped ?_) fun hevicts => hevicts.2.1 ?_
      · cases h with
        | rejected => exact hmem
        | failed => exact hmem
        | again => exact Core.mem_pushBackAbsent.2 (.inl hmem)
        | first => exact Core.mem_pushBackAbsent.2 (.inl hmem)
      · cases h with
        | rejected => exact hevicts.1
        | failed => exact hevicts.1
        | again => exact hevicts.1
        | first => exact hevicts.1
  | kept => exact iff_of_false (fun hdropped => hdropped hmem) fun hevicts => hevicts.2.1 hevicts.1
  | refreshed _ h => exact h.not_listed_iff hmem

theorem not_listed_iff_evicts (hstep : (publishSystem C).step g call g')
    (hmem : topic ∈ g.roomTopics) : topic ∉ g'.roomTopics ↔ g.Evicts g' topic := by
  rcases Core.ends_gcsPublish hstep with ⟨-, -, rfl⟩ | ⟨bytes, command, -, -, houtcome⟩
  · exact iff_of_false (fun hdropped => hdropped hmem) fun hevicts => hevicts.2.1 hevicts.1
  · exact houtcome.not_listed_iff hmem

variable {p q : (publishSystem C).Path}

theorem parallel_paths {i : ℕ} (htwins : (p.state i).Twins topic (q.state i))
    (hlength : q.length = p.length) (hsame : ∀ i < p.length, (q.label i).Repeats (p.label i))
    (hi : i < p.length) : Parallel topic (p.state (i + 1)) (p.label i).shown (q.state (i + 1))
      (q.label i).shown := by
  obtain ⟨hsession, hname, hpayload, hsettled⟩ := hsame i hi
  have hq : Ends serialWorld (C.gcsPublish (p.label i).session (p.label i).name (p.label i).payload)
      (q.state i) (q.label i).trace (q.label i).status (q.state (i + 1)) := by
    rw [← hsession, ← hname, ← hpayload]
    exact q.step i (hlength ▸ hi)
  exact parallel_step htwins (p.step i hi) hq hsettled.symm

/-- While the topic stays listed in the first run, the two runs are twins. -/
theorem twins_of_listed (htwins : (p.state 0).Twins topic (q.state 0)) (hlength : q.length = p.length)
    (hsame : ∀ i < p.length, (q.label i).Repeats (p.label i)) {i : ℕ} (hi : i ≤ p.length)
    (hlisted : ∀ j ≤ i, topic ∈ (p.state j).roomTopics) : (p.state i).Twins topic (q.state i) := by
  induction i with
  | zero => exact htwins
  | succ i ih =>
      have hbefore := ih (by omega) fun j hj => hlisted j (by omega)
      rcases parallel_paths hbefore hlength hsame hi with ⟨hafter, -⟩ | ⟨hdropped, -⟩
      · exact hafter
      · exact absurd (hlisted (i + 1) le_rfl) hdropped

/-- A join of a listed topic changes nothing of what later commands show exactly when, in the run
without it, none of them evicts the topic. -/
theorem shown_eq_iff (C : Core) (topic : Bytes) (p q : (publishSystem C).Path) {join : PublishCall}
    (hmem : topic ∈ (p.state 0).roomTopics) (hjoins : join.Joins C topic)
    (hjoin : (publishSystem C).step (p.state 0) join (q.state 0)) (hlength : q.length = p.length)
    (hsame : ∀ i < p.length, (q.label i).Repeats (p.label i)) :
    (∀ i < p.length, (q.label i).shown = (p.label i).shown) ↔
      ∀ i < p.length, ¬ (p.state i).Evicts (p.state (i + 1)) topic := by
  have htwins := twins_of_joins hjoin hjoins hmem
  have hrun : (∀ i < p.length, (∀ j ≤ i, topic ∈ (p.state j).roomTopics) →
      topic ∈ (p.state (i + 1)).roomTopics) → ∀ i ≤ p.length, topic ∈ (p.state i).roomTopics := by
    intro hstep i
    induction i using Nat.strong_induction_on with
    | _ i ih =>
        cases i with
        | zero => exact fun _ => hmem
        | succ i => exact fun hi => hstep i hi fun j hj => ih j (by omega) (by omega)
  constructor
  · intro hshown
    have hlisted := hrun fun i hi hbefore => by
      have hi' := twins_of_listed htwins hlength hsame hi.le hbefore
      rcases parallel_paths hi' hlength hsame hi with ⟨hafter, -⟩ | ⟨-, hne⟩
      · exact hafter.listed
      · exact absurd (hshown i hi).symm hne
    intro i hi hevicts
    exact (not_listed_iff_evicts (p.step i hi) (hlisted i hi.le)).2 hevicts (hlisted (i + 1) hi)
  · intro hkept
    have hlisted := hrun fun i hi hbefore => by
      by_contra hdropped
      exact hkept i hi ((not_listed_iff_evicts (p.step i hi) (hbefore i le_rfl)).1 hdropped)
    intro i hi
    have hi' := twins_of_listed htwins hlength hsame hi.le fun j hj => hlisted j (by omega)
    rcases parallel_paths hi' hlength hsame hi with ⟨-, hsame⟩ | ⟨hdropped, -⟩
    · exact hsame.symm
    · exact absurd (hlisted (i + 1) hi) hdropped

end Runs

def joinFirstRoomPayload : Bytes := (GcsCommand.joinTopic (roomTopic firstRoomId)).serialize

theorem parse_joinFirstRoomPayload :
    GcsCommand.parse joinFirstRoomPayload = some (.joinTopic (roomTopic firstRoomId)) := by
  have htopic : roomTopic firstRoomId = ofString "gcs/chat/room-0-0-0" := by decide
  have hvalid : (GcsCommand.joinTopic (roomTopic firstRoomId)).Valid := by
    rw [htopic]
    exact validUtf8_ofString _
  exact GcsCommand.parse_serialize hvalid

/-- The session in which the room has also been looked at. -/
def viewedGlobals : Globals := autoJoinGlobals.joined (roomTopic firstRoomId)

def viewCall : PublishCall where
  session := some 0
  name := some kCommandTopic
  payload := some joinFirstRoomPayload
  status := .ok
  trace := ⟨.lock, autoJoinGlobals⟩ :: ⟨.isRunning, true⟩ ::
    ([⟨.addListenTopic (roomTopic firstRoomId), true⟩,
      ⟨.addBroadcastTopic (roomTopic firstRoomId), true⟩,
      ⟨.post (Core.buildRoomListEvent viewedGlobals), ()⟩,
      ⟨.queryKeyValues (historyPrefix (roomTopic firstRoomId)), none⟩] ++
        [⟨.unlock viewedGlobals, ()⟩])

theorem step_viewCall {C : Core} (hparse : C.parseCommand = GcsCommand.parse) :
    (publishSystem C).step autoJoinGlobals viewCall viewedGlobals := by
  have hvalid : Core.topicRejection (ofString "join_topic") (roomTopic firstRoomId) = none := by
    decide
  have hcommand := hparse ▸ parse_joinFirstRoomPayload
  exact Core.through_gcsPublish rfl hcommand (by decide) (by decide)
    (Core.through_rejoin hvalid (by decide))

/-- The space is updated, and no room has to be registered. -/
def toggled (autoJoinRooms : Bool) (g : Globals) : Globals :=
  Core.evictUnderived (if autoJoinRooms then [roomTopic firstRoomId] else [])
    { g with entities := oneRoomStore.assignSpace (toggledSpace autoJoinRooms) }

def toggleCall (C : Core) (autoJoinRooms : Bool) (g : Globals) : PublishCall where
  session := some 0
  name := some kCommandTopic
  payload := some (togglePayload autoJoinRooms)
  status := .ok
  trace := toggleTrace C g (toggled autoJoinRooms g) autoJoinRooms []

theorem step_toggleCall {C : Core} (hparse : C.parseCommand = GcsCommand.parse)
    (autoJoinRooms : Bool) {g : Globals} (hsession : g.session = some 0)
    (hentities : g.entities = oneRoomStore) (hderived : g.derivedTopics = [roomTopic firstRoomId]) :
    (publishSystem C).step g (toggleCall C autoJoinRooms g) (toggled autoJoinRooms g) := by
  have hfind : g.entities.mSpaces.find? autoJoinSpaceId = some (toggledSpace true) := by
    rw [hentities]
    decide
  have htopics : (oneRoomStore.assignSpace (toggledSpace autoJoinRooms)).derivedJoinedTopics =
      if autoJoinRooms then [roomTopic firstRoomId] else [] := by
    cases autoJoinRooms <;> decide
  refine ends_toggle (w := g) hparse hsession hfind (by rw [hentities]) htopics ?_
  cases autoJoinRooms with
  | false => exact .nil _ _
  | true =>
      change Ends serialWorld (C.registerDerived [roomTopic firstRoomId] _) _ _ _ _
      rw [Core.registerDerived, if_pos (by rw [hderived]; exact List.mem_singleton_self _)]
      exact .nil _ _

theorem repeats_toggleCall (C : Core) (autoJoinRooms : Bool) (g g' : Globals) :
    (toggleCall C autoJoinRooms g').Repeats (toggleCall C autoJoinRooms g) := ⟨rfl, rfl, rfl, rfl⟩

theorem joins_viewCall {C : Core} (hparse : C.parseCommand = GcsCommand.parse) :
    viewCall.Joins C (roomTopic firstRoomId) :=
  ⟨joinFirstRoomPayload, rfl, hparse ▸ parse_joinFirstRoomPayload, rfl⟩

theorem reachable_autoJoinGlobals {C : Core} (hparse : C.parseCommand = GcsCommand.parse) :
    (serialSystem C).Reachable autoJoinGlobals := by
  obtain ⟨tr, hcreate, -⟩ := ends_createFirstRoom hparse
  have hinit : (serialSystem C).Reachable spaceGlobals :=
    (TransitionSystem.Reachable.initial rfl).step (l := .init _ _)
      ⟨_, ends_gcsInit_autoJoinSpace C, rfl⟩
  exact hinit.step (l := .publish _ _ _ _ _) ⟨tr, hcreate, rfl⟩

/-- The space is updated and goes on joining its rooms. -/
theorem shown_eq_of_view :
    let C := protoCore (Messaging.plaintext (ofString "self"))
    ∃ p q : (publishSystem C).Path, (serialSystem C).Reachable (p.state 0) ∧
      (publishSystem C).step (p.state 0) viewCall (q.state 0) ∧ 0 < p.length ∧
      ∀ i < p.length, (q.label i).shown = (p.label i).shown := by
  intro C
  have hview : (publishSystem C).step autoJoinGlobals viewCall viewedGlobals := step_viewCall rfl
  let p := TransitionSystem.Path.single (step_toggleCall (C := C) (g := autoJoinGlobals) rfl true
    rfl rfl rfl)
  let q := TransitionSystem.Path.single (step_toggleCall (C := C) (g := viewedGlobals) rfl true
    rfl rfl rfl)
  have hstays : roomTopic firstRoomId ∈ (toggled true autoJoinGlobals).derivedTopics := by decide
  refine ⟨p, q, reachable_autoJoinGlobals rfl, hview, Nat.one_pos, ?_⟩
  refine (shown_eq_iff C (roomTopic firstRoomId) p q (by decide) (joins_viewCall rfl) hview rfl
    fun _ _ => repeats_toggleCall C true _ _).2 fun i hi hevicts => ?_
  obtain rfl : i = 0 := Nat.lt_one_iff.1 hi
  exact hevicts.2.1 hstays

/-- The space is updated and stops joining its rooms: the room that was looked at stays listed. -/
theorem shown_ne_of_view :
    let C := protoCore (Messaging.plaintext (ofString "self"))
    ∃ p q : (publishSystem C).Path, (serialSystem C).Reachable (p.state 0) ∧
      roomTopic firstRoomId ∈ (p.state 0).roomTopics ∧ viewCall.Joins C (roomTopic firstRoomId) ∧
      (publishSystem C).step (p.state 0) viewCall (q.state 0) ∧ q.length = p.length ∧
      (∀ i < p.length, (q.label i).Repeats (p.label i)) ∧
      ∃ i < p.length, (q.label i).shown ≠ (p.label i).shown := by
  intro C
  let p := TransitionSystem.Path.single (step_toggleCall (C := C) (g := autoJoinGlobals) rfl false
    rfl rfl rfl)
  let q := TransitionSystem.Path.single (step_toggleCall (C := C) (g := viewedGlobals) rfl false
    rfl rfl rfl)
  refine ⟨p, q, reachable_autoJoinGlobals rfl, by decide, joins_viewCall rfl, step_viewCall rfl, rfl,
    fun _ _ => repeats_toggleCall C false _ _, 0, Nat.one_pos, fun heq => ?_⟩
  have hdropped : roomTopic firstRoomId ∉ (toggled false autoJoinGlobals).roomTopics := by decide
  have hkept : roomTopic firstRoomId ∈ (toggled false viewedGlobals).roomTopics := by decide
  have hlists : (toggled false viewedGlobals).roomTopics =
      (toggled false autoJoinGlobals).roomTopics :=
    GcsEvent.roomList.inj (List.cons.inj (List.cons.inj heq).2).1
  exact hdropped (hlists ▸ hkept)

end GcsChat
