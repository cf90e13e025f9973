import GcsChat.CommandFormat
import GcsChat.TransitionSystem

/-!
# Commands one after the other

A session on which each call returns before the next one begins, with every answer of the
surroundings free. A program then finds under `g_mutex` what it left there, and of what it asks only
the calls about topics matter for the room lists.
-/

namespace GcsChat

open ByteString Interactive

/-- `lock` hands out what is guarded, `unlock` gives it back. -/
def serialWorld : World (Effect Globals) Effect.Answer Globals :=
  fun g e a g' => match e, a with
    | .lock, held => held = g ∧ g' = g
    | .unlock held, _ => g' = held
    | _, _ => g' = g

inductive TopicCall
  | listen (topic : Bytes) (ok : Bool)
  | broadcast (topic : Bytes) (ok : Bool)
  | subscribe (topic : Bytes) (ok : Bool)
  deriving DecidableEq

section Calls

variable {G α β : Type} {tr tr' : Trace (Effect G) Effect.Answer}

def topicCall : (Σ e : Effect G, e.Answer) → Option TopicCall
  | ⟨.addListenTopic topic, ok⟩ => some (.listen topic ok)
  | ⟨.addBroadcastTopic topic, ok⟩ => some (.broadcast topic ok)
  | ⟨.subscribe topic, ok⟩ => some (.subscribe topic ok)
  | _ => none

def topicCalls (tr : Trace (Effect G) Effect.Answer) : List TopicCall := tr.filterMap topicCall

@[simp] theorem topicCalls_nil : topicCalls ([] : Trace (Effect G) Effect.Answer) = [] := rfl

@[simp] theorem topicCalls_append : topicCalls (tr ++ tr') = topicCalls tr ++ topicCalls tr' :=
  List.filterMap_append

/-- Neither `g_mutex` nor a topic is touched. -/
def Effect.Silent : Effect G → Prop
  | .lock => False
  | .unlock _ => False
  | .subscribe _ => False
  | .addListenTopic _ => False
  | .addBroadcastTopic _ => False
  | _ => True

theorem topicCall_of_silent {e : Effect G} (he : e.Silent) (a : e.Answer) :
    topicCall ⟨e, a⟩ = none := by
  cases e with
  | subscribe topic => cases he
  | addListenTopic topic => cases he
  | addBroadcastTopic topic => cases he
  | _ => rfl

theorem topicCalls_eq_nil_of_silent (h : ∀ x ∈ tr, x.1.Silent) : topicCalls tr = [] :=
  List.filterMap_eq_nil_iff.2 fun x hx => topicCall_of_silent (h x hx) x.2

def Effect.Stores : Effect G → Prop
  | .get _ => True
  | .put _ _ => True
  | .nextId _ => True
  | .nowMs => True
  | _ => False

def Effect.Loads : Effect G → Prop
  | .get _ => True
  | _ => False

def Effect.Replays : Effect G → Prop
  | .queryKeyValues _ => True
  | .absorb _ => True
  | .post _ => True
  | _ => False

def Effect.Sends : Effect G → Prop
  | .nextId _ => True
  | .nowMs => True
  | .insertOwn _ => True
  | .random => True
  | .publish _ _ => True
  | .putTopics _ _ _ => True
  | _ => False

theorem Effect.Stores.silent {e : Effect G} (h : e.Stores) : e.Silent := by
  cases e <;> trivial

theorem Effect.Loads.silent {e : Effect G} (h : e.Loads) : e.Silent := by
  cases e <;> trivial

theorem Effect.Replays.silent {e : Effect G} (h : e.Replays) : e.Silent := by
  cases e <;> trivial

theorem Effect.Sends.silent {e : Effect G} (h : e.Sends) : e.Silent := by
  cases e <;> trivial

end Calls

section Silent

variable {G : Type} (codecs : Codecs) (M : Messaging)

theorem stores_appendToManifest (isSpaceId : Bool) (id : Bytes) :
    (EntityStore.appendToManifest codecs isSpaceId id : Program G Bool).AsksOnly Effect.Stores :=
  ⟨trivial, fun _ => ⟨trivial, fun _ => trivial⟩⟩

theorem stores_writeEntity (isSpaceId : Bool) (id key record : Bytes) :
    (EntityStore.writeEntity codecs isSpaceId id key record : Program G Bool).AsksOnly
      Effect.Stores := by
  refine (stores_appendToManifest codecs isSpaceId id).bind fun ok => ?_
  cases ok with
  | true => exact ⟨trivial, fun _ => trivial⟩
  | false => trivial

theorem loads_loadRecords {α : Type} (parse : Bytes → Option α) (idOf : α → Bytes)
    (keyPrefix : Bytes) (ids : List Bytes) (m : OrderedMap Bytes α) :
    (EntityStore.loadRecords parse idOf keyPrefix ids m : Program G _).AsksOnly Effect.Loads := by
  induction ids generalizing m with
  | nil => trivial
  | cons id rest ih =>
      refine ⟨trivial, fun recordBytes => ?_⟩
      dsimp only [Interactive.bind]
      cases recordBytes.bind parse with
      | none => exact ih m
      | some record => exact ih _

theorem loads_loadFromStore :
    (EntityStore.loadFromStore codecs : Program G EntityStore).AsksOnly Effect.Loads := by
  refine ⟨trivial, fun manifestBytes => ?_⟩
  dsimp only [Interactive.bind]
  cases manifestBytes.bind codecs.manifest.parse with
  | none => trivial
  | some manifest =>
      exact (loads_loadRecords _ _ _ _ _).bind fun spaces =>
        (loads_loadRecords _ _ _ _ _).bind fun rooms => trivial

variable (e : EntityStore)

theorem stores_createSpace (name : Bytes) (isPublic autoJoinRooms : Bool) :
    (e.createSpace codecs name isPublic autoJoinRooms : Program G _).AsksOnly Effect.Stores := by
  refine ⟨trivial, fun id => ⟨trivial, fun now => (stores_writeEntity codecs _ _ _ _).bind
    fun ok => ?_⟩⟩
  cases ok <;> trivial

theorem stores_createRoom (name parentSpaceId : Bytes) :
    (e.createRoom codecs name parentSpaceId : Program G _).AsksOnly Effect.Stores := by
  unfold EntityStore.createRoom
  split
  · trivial
  · refine ⟨trivial, fun id => ⟨trivial, fun now => (stores_writeEntity codecs _ _ _ _).bind
      fun ok => ?_⟩⟩
    cases ok <;> trivial

theorem stores_updateSpace (desired : SpaceRecord) :
    (e.updateSpace codecs desired : Program G _).AsksOnly Effect.Stores := by
  unfold EntityStore.updateSpace
  split
  · trivial
  · split
    · trivial
    · refine ⟨trivial, fun now => ⟨trivial, fun ok => ?_⟩⟩
      cases ok <;> trivial

theorem replays_queryHistoryProgram (roomTopic : Bytes) :
    (M.queryHistoryProgram roomTopic : Program G _).AsksOnly Effect.Replays := by
  refine ⟨trivial, fun scan => ?_⟩
  cases scan with
  | none => trivial
  | some entries => exact ⟨trivial, fun _ => trivial⟩

theorem replays_pushMessageHistory (C : Core) (roomTopic : Bytes) :
    (C.pushMessageHistory roomTopic).AsksOnly Effect.Replays := by
  refine (replays_queryHistoryProgram C.messaging roomTopic).bind fun history => ?_
  cases history with
  | none => trivial
  | some batch => exact ⟨trivial, fun _ => trivial⟩

theorem asksOnly_loadFromStore :
    (EntityStore.loadFromStore codecs : Program G EntityStore).AsksOnly Effect.Silent :=
  (loads_loadFromStore codecs).mono fun _ => Effect.Loads.silent

theorem asksOnly_createSpace (name : Bytes) (isPublic autoJoinRooms : Bool) :
    (e.createSpace codecs name isPublic autoJoinRooms : Program G _).AsksOnly Effect.Silent :=
  (stores_createSpace codecs e name isPublic autoJoinRooms).mono fun _ => Effect.Stores.silent

theorem asksOnly_createRoom (name parentSpaceId : Bytes) :
    (e.createRoom codecs name parentSpaceId : Program G _).AsksOnly Effect.Silent :=
  (stores_createRoom codecs e name parentSpaceId).mono fun _ => Effect.Stores.silent

theorem asksOnly_updateSpace (desired : SpaceRecord) :
    (e.updateSpace codecs desired : Program G _).AsksOnly Effect.Silent :=
  (stores_updateSpace codecs e desired).mono fun _ => Effect.Stores.silent

theorem asksOnly_pushMessageHistory (C : Core) (roomTopic : Bytes) :
    (C.pushMessageHistory roomTopic).AsksOnly Effect.Silent :=
  (replays_pushMessageHistory C roomTopic).mono fun _ => Effect.Replays.silent

theorem returns_createSpace (name : Bytes) (isPublic autoJoinRooms : Bool) :
    (e.createSpace codecs name isPublic autoJoinRooms : Program G _).Returns fun created =>
      created = (e, none) ∨ ∃ space, created = (e.emplaceSpace space, some space) := by
  refine fun id now => (returns_of_forall (P := fun _ => True) (fun _ => trivial)
    (EntityStore.writeEntity codecs true id (kSpacesKeyPrefix ++ id) (codecs.space.serialize
      (EntityStore.newSpace id name isPublic autoJoinRooms now)))).bind fun ok _ => ?_
  cases ok with
  | false => exact .inl rfl
  | true => exact .inr ⟨_, rfl⟩

theorem returns_createRoom (name parentSpaceId : Bytes) :
    (e.createRoom codecs name parentSpaceId : Program G _).Returns fun created =>
      created = (e, none) ∨ ∃ room, created = (e.emplaceRoom room, some room) := by
  unfold EntityStore.createRoom
  split
  · exact .inl rfl
  refine fun id now => (returns_of_forall (P := fun _ => True) (fun _ => trivial)
    (EntityStore.writeEntity codecs false id (kRoomsKeyPrefix ++ id) (codecs.room.serialize
      (EntityStore.newRoom id name parentSpaceId now)))).bind fun ok _ => ?_
  cases ok with
  | false => exact .inl rfl
  | true => exact .inr ⟨_, rfl⟩

theorem returns_updateSpace (desired : SpaceRecord) :
    (e.updateSpace codecs desired : Program G _).Returns fun updated =>
      updated = (e, none) ∨ ∃ space, updated = (e.assignSpace space, some space) := by
  unfold EntityStore.updateSpace
  split
  · exact .inl rfl
  split
  · exact .inl rfl
  · refine fun now ok => ?_
    cases ok with
    | false => exact .inl rfl
    | true => exact .inr ⟨_, rfl⟩

end Silent

/-- A send is made of a few questions and of messages for the sink. -/
theorem sendMessageProgram_rule {G : Type} {K : {α : Type} → Program G α → Prop} {M : Messaging}
    (hdone : ∀ {α : Type} (a : α), K (done a : Program G α))
    (hbind : ∀ {α β : Type} {p : Program G α} {f : α → Program G β}, K p → (∀ a, K (f a)) →
      K (p >>= f))
    (hask : ∀ {α : Type} {e : Effect G} {next : e.Answer → Program G α}, e.Sends →
      (∀ a, K (next a)) → K (ask e next))
    (hsink : ∀ msg, K (M.sinkMessage msg : Program G Unit)) (roomTopic text : Bytes) :
    K (M.sendMessageProgram roomTopic text) := by
  have hfail : ∀ msg : ChatMessageState, K (do M.sinkMessage msg; pure false : Program G Bool) :=
    fun msg => hbind (p := M.sinkMessage msg) (hsink _) fun _ => hdone false
  refine hask (e := .nextId kMessageIdPrefix) trivial fun id => hask (e := .nowMs) trivial
    fun now => hask (e := .insertOwn id) trivial fun _ =>
      hbind (p := M.sinkMessage (M.pendingMessage roomTopic text id now)) (hsink _)
        fun _ => hask (e := .random) trivial fun random => ?_
  dsimp only [Interactive.bind]
  cases M.sealed random roomTopic (M.codec.serialize (M.completeMessage roomTopic text id now)) with
  | none => exact hfail _
  | some payload =>
      refine hask (e := .publish roomTopic payload) trivial fun publishOk => ?_
      cases publishOk with
      | false => exact hfail _
      | true =>
          refine hask (e := .putTopics (buildKey roomTopic id) payload [roomTopic]) trivial
            fun putOk => ?_
          cases putOk with
          | false => exact hfail _
          | true => exact hbind (p := M.sinkMessage _) (hsink _) fun _ => hdone true

section Quiet

variable {α β : Type} {w w' : Globals} {tr : Trace (Effect Globals) Effect.Answer}

/-- Run to its end, it leaves what is guarded as it was and makes no call about a topic. -/
def Quiet (p : Program Globals α) : Prop :=
  ∀ w tr a w', Ends serialWorld p w tr a w' → w' = w ∧ topicCalls tr = []

theorem quiet_done (a : α) : Quiet (done a : Program Globals α) := by
  intro w tr b w' h
  obtain ⟨rfl, -, rfl⟩ := ends_done_iff.1 h
  exact ⟨rfl, rfl⟩

theorem Quiet.bind {p : Program Globals α} {f : α → Program Globals β} (hp : Quiet p)
    (hf : ∀ a, Quiet (f a)) : Quiet (p >>= f) := by
  intro w tr b w' h
  obtain ⟨a, tr₁, tr₂, u, hends, hrest, rfl⟩ := ends_bind_iff.1 h
  obtain ⟨rfl, hcalls⟩ := hp _ _ _ _ hends
  obtain ⟨rfl, hcalls'⟩ := hf a _ _ _ _ hrest
  exact ⟨rfl, by rw [topicCalls_append, hcalls, hcalls', List.append_nil]⟩

theorem serialWorld_of_silent {e : Effect Globals} (he : e.Silent) {a : e.Answer}
    (h : serialWorld w e a w') : w' = w := by
  cases e with
  | lock => cases he
  | unlock _ => cases he
  | _ => exact h

theorem quiet_ask {e : Effect Globals} (he : e.Silent) {next : e.Answer → Program Globals α}
    (hnext : ∀ a, Quiet (next a)) : Quiet (ask e next) := by
  intro w tr b w' h
  obtain ⟨a, u, tr', ha, hrest, rfl⟩ := ends_ask_iff.1 h
  obtain rfl := serialWorld_of_silent he ha
  obtain ⟨rfl, hcalls⟩ := hnext a _ _ _ _ hrest
  exact ⟨rfl, by rw [topicCalls, List.filterMap_cons, topicCall_of_silent he]; exact hcalls⟩

theorem quiet_of_asksOnly {p : Program Globals α} (h : p.AsksOnly Effect.Silent) : Quiet p := by
  induction p with
  | done a => exact quiet_done a
  | ask e next ih => exact quiet_ask h.1 fun a => ih a (h.2 a)

/-- The sink takes `g_mutex` for the post and gives back what it found. -/
theorem quiet_eventSink (event : GcsEvent) : Quiet (Messaging.eventSink event) := by
  intro w tr a w' h
  obtain ⟨g, u, _, ⟨rfl, rfl⟩, hpost, rfl⟩ := ends_ask_iff.1 h
  obtain ⟨_, v, _, hv, hunlock, rfl⟩ := ends_ask_iff.1 hpost
  obtain rfl : v = u := hv
  obtain ⟨_, x, _, hx, hdone, rfl⟩ := ends_ask_iff.1 hunlock
  obtain rfl : x = v := hx
  obtain ⟨rfl, -, rfl⟩ := ends_done_iff.1 hdone
  exact ⟨rfl, rfl⟩

theorem quiet_sendMessageProgram (M : Messaging) (roomTopic text : Bytes) :
    Quiet (M.sendMessageProgram roomTopic text) :=
  sendMessageProgram_rule (K := @Quiet) quiet_done (fun hp hf => hp.bind hf)
    (fun he hnext => quiet_ask he.silent hnext) (fun _ => quiet_eventSink _) roomTopic text

end Quiet

inductive JoinCalls (topic : Bytes) : Bool → List TopicCall → Prop
  | joined : JoinCalls topic true [.listen topic true, .broadcast topic true]
  | listenFailed : JoinCalls topic false [.listen topic false]
  | broadcastFailed : JoinCalls topic false [.listen topic true, .broadcast topic false]

theorem JoinCalls.subscribe_not_mem {topic : Bytes} {ok : Bool} {calls : List TopicCall}
    (h : JoinCalls topic ok calls) (other : Bytes) (live : Bool) :
    .subscribe other live ∉ calls := by
  cases h <;> simp

/-- The first loop of `RefreshDerivedJoins`, with the calls it made. -/
inductive Registering : List Bytes → Globals → List TopicCall → Globals → Prop
  | nil (g : Globals) : Registering [] g [] g
  | known {topic : Bytes} {rest : List Bytes} {g g' : Globals} {calls : List TopicCall}
      (hmem : topic ∈ g.derivedTopics) (h : Registering rest g calls g') :
      Registering (topic :: rest) g calls g'
  | failed {topic : Bytes} {rest : List Bytes} {g g' : Globals} {calls calls' : List TopicCall}
      (hmem : topic ∉ g.derivedTopics) (hjoin : JoinCalls topic false calls)
      (h : Registering rest g calls' g') : Registering (topic :: rest) g (calls ++ calls') g'
  | added {topic : Bytes} {rest : List Bytes} {g g' : Globals} {calls calls' : List TopicCall}
      (hmem : topic ∉ g.derivedTopics) (hjoin : JoinCalls topic true calls) (live : Bool)
      (h : Registering rest (Core.addDerived g topic) calls' g') :
      Registering (topic :: rest) g (calls ++ .subscribe topic live :: calls') g'

def Globals.joined (g : Globals) (topic : Bytes) : Globals :=
  { g with
    roomTopics := Core.pushBackAbsent g.roomTopics topic
    explicitTopics := Core.pushBackAbsent g.explicitTopics topic }

inductive JoinOutcome (g : Globals) (topic : Bytes) :
    List TopicCall → Globals → GcsStatus → Prop
  | rejected : JoinOutcome g topic [] g .errorInvalidArgument
  | failed {calls : List TopicCall} (h : JoinCalls topic false calls) :
      JoinOutcome g topic calls g .errorGeneric
  | again {calls : List TopicCall} (hmem : topic ∈ g.roomTopics) (h : JoinCalls topic true calls) :
      JoinOutcome g topic calls (g.joined topic) .ok
  | first {calls : List TopicCall} (hmem : topic ∉ g.roomTopics) (h : JoinCalls topic true calls)
      (live : Bool) : JoinOutcome g topic (calls ++ [.subscribe topic live]) (g.joined topic)
        (if live then .ok else .errorGeneric)

/-- The ends of the arms: the others keep the room lists or refresh the derived joins. -/
inductive CommandOutcome (g : Globals) :
    GcsCommand → List TopicCall → Globals → GcsStatus → Prop
  | join {topic : Bytes} {calls : List TopicCall} {g' : Globals} {status : GcsStatus}
      (h : JoinOutcome g topic calls g' status) :
      CommandOutcome g (.joinTopic topic) calls g' status
  | kept {command : GcsCommand} {status : GcsStatus} (hnot : ∀ topic, command ≠ .joinTopic topic)
      (entities : EntityStore) :
      CommandOutcome g command [] { g with entities := entities } status
  | refreshed {command : GcsCommand} {entities : EntityStore} {calls : List TopicCall}
      {g' : Globals} (hnot : ∀ topic, command ≠ .joinTopic topic)
      (h : Registering entities.derivedJoinedTopics { g with entities := entities } calls g') :
      CommandOutcome g command calls (Core.evictUnderived entities.derivedJoinedTopics g') .ok

theorem CommandOutcome.of_joinTopic {g g' : Globals} {topic : Bytes} {calls : List TopicCall}
    {status : GcsStatus} (h : CommandOutcome g (.joinTopic topic) calls g' status) :
    JoinOutcome g topic calls g' status := by
  cases h with
  | join h => exact h
  | kept hnot => exact absurd rfl (hnot topic)
  | refreshed hnot => exact absurd rfl (hnot topic)

inductive InitOutcome (g : Globals) : List TopicCall → Globals → Option ℕ → Prop
  | running {session : ℕ} (h : g.session = some session) : InitOutcome g [] g (some session)
  | failed {calls : List TopicCall} (h : ∀ topic live, .subscribe topic live ∉ calls) :
      InitOutcome g calls g none
  | started {session : ℕ} {joined : List Bytes} {entities : EntityStore} {g' : Globals}
      {calls calls' : List TopicCall} (hnone : g.session = none)
      (hjoined : joined.Sublist [kSmokeTopicA, kSmokeTopicB]) (hne : joined ≠ [])
      (hcalls : ∀ topic live, .subscribe topic live ∉ calls)
      (h : Registering entities.derivedJoinedTopics { g with
        session := some session
        entities := entities
        roomTopics := g.roomTopics ++ joined } calls' g') :
      InitOutcome g (calls ++ calls') (Core.evictUnderived entities.derivedJoinedTopics g')
        (some session)

def TopicCall.topic : TopicCall → Bytes
  | listen topic _ => topic
  | broadcast topic _ => topic
  | subscribe topic _ => topic

theorem JoinCalls.topic_eq {topic : Bytes} {ok : Bool} {calls : List TopicCall}
    (h : JoinCalls topic ok calls) : ∀ c ∈ calls, c.topic = topic := by
  cases h <;> simp [TopicCall.topic]

theorem JoinCalls.broadcast_iff {topic : Bytes} {ok : Bool} {calls : List TopicCall}
    (h : JoinCalls topic ok calls) (other : Bytes) :
    .broadcast other true ∈ calls ↔ ok = true ∧ other = topic := by
  cases h <;> simp

section Registering

variable {g g' : Globals} {topic : Bytes} {topics : List Bytes} {calls : List TopicCall}

theorem Registering.entities_eq (h : Registering topics g calls g') : g'.entities = g.entities := by
  induction h with
  | nil => rfl
  | known _ _ ih => exact ih
  | failed _ _ _ ih => exact ih
  | added _ _ _ _ ih => exact ih

theorem Registering.grows (h : Registering topics g calls g') :
    g'.session = g.session ∧ g'.explicitTopics = g.explicitTopics ∧
      g.roomTopics ⊆ g'.roomTopics ∧ g.derivedTopics ⊆ g'.derivedTopics := by
  induction h with
  | nil => exact ⟨rfl, rfl, List.Subset.refl _, List.Subset.refl _⟩
  | known _ _ ih => exact ih
  | failed _ _ _ ih => exact ih
  | added _ _ _ _ ih =>
      obtain ⟨hsession, hexplicit, hrooms, hderived⟩ := ih
      refine ⟨hsession, hexplicit, fun x hx => hrooms (Core.mem_pushBackAbsent.2 (.inl hx)),
        fun x hx => hderived (List.mem_append_left _ hx)⟩

theorem Registering.topic_mem (h : Registering topics g calls g') :
    ∀ c ∈ calls, c.topic ∈ topics ∧ c.topic ∉ g.derivedTopics := by
  induction h with
  | nil => exact nofun
  | known _ _ ih => exact fun c hc => ⟨.tail _ (ih c hc).1, (ih c hc).2⟩
  | failed hnew hjoin _ ih =>
      intro c hc
      rcases List.mem_append.1 hc with hc | hc
      · rw [hjoin.topic_eq c hc]
        exact ⟨.head _, hnew⟩
      · exact ⟨.tail _ (ih c hc).1, (ih c hc).2⟩
  | added hnew hjoin live _ ih =>
      intro c hc
      rcases List.mem_append.1 hc with hc | hc
      · rw [hjoin.topic_eq c hc]
        exact ⟨.head _, hnew⟩
      rcases List.mem_cons.1 hc with rfl | hc
      · exact ⟨.head _, hnew⟩
      · exact ⟨.tail _ (ih c hc).1, fun hmem => (ih c hc).2 (List.mem_append_left _ hmem)⟩

/-- What it registers both ways enters both lists, and nothing else does. -/
theorem Registering.mem_iff (h : Registering topics g calls g') :
    (topic ∈ g'.derivedTopics ↔ topic ∈ g.derivedTopics ∨ .broadcast topic true ∈ calls) ∧
      (topic ∈ g'.roomTopics ↔ topic ∈ g.roomTopics ∨ .broadcast topic true ∈ calls) := by
  induction h with
  | nil => simp
  | known _ _ ih => exact ih
  | failed _ hjoin _ ih =>
      rw [ih.1, ih.2, List.mem_append, hjoin.broadcast_iff]
      simp
  | @added t rest g _ calls calls' _ hjoin live _ ih =>
      have hderived : topic ∈ (Core.addDerived g t).derivedTopics ↔
          topic ∈ g.derivedTopics ∨ topic = t := by
        rw [Core.addDerived, List.mem_append, List.mem_singleton]
      have hrooms : topic ∈ (Core.addDerived g t).roomTopics ↔ topic ∈ g.roomTopics ∨ topic = t :=
        Core.mem_pushBackAbsent
      have hcalls : .broadcast topic true ∈ calls ++ .subscribe t live :: calls' ↔
          topic = t ∨ .broadcast topic true ∈ calls' := by
        rw [List.mem_append, hjoin.broadcast_iff, List.mem_cons]
        simp
      rw [ih.1, ih.2, hderived, hrooms, hcalls, or_assoc, or_assoc]
      exact ⟨Iff.rfl, Iff.rfl⟩

theorem Registering.subscribe_of_broadcast (h : Registering topics g calls g')
    (hmem : .broadcast topic true ∈ calls) : ∃ live, .subscribe topic live ∈ calls := by
  induction h with
  | nil => cases hmem
  | known _ _ ih => exact ih hmem
  | failed _ hjoin _ ih =>
      rcases List.mem_append.1 hmem with hmem | hmem
      · cases ((hjoin.broadcast_iff _).1 hmem).1
      · obtain ⟨live, hlive⟩ := ih hmem
        exact ⟨live, List.mem_append_right _ hlive⟩
  | added _ hjoin live _ ih =>
      rcases List.mem_append.1 hmem with hmem | hmem
      · obtain ⟨-, rfl⟩ := (hjoin.broadcast_iff _).1 hmem
        exact ⟨live, List.mem_append_right _ List.mem_cons_self⟩
      · rcases List.mem_cons.1 hmem with heq | hmem
        · cases heq
        · obtain ⟨live, hlive⟩ := ih hmem
          exact ⟨live, List.mem_append_right _ (.tail _ hlive)⟩

end Registering

namespace Core

section Outcomes

variable {C : Core} {g g' w w' : Globals} {topic : Bytes} {tr : Trace (Effect Globals) Effect.Answer}
  {r : Globals × GcsStatus} {status : GcsStatus}

theorem ends_joinBothWays {ok : Bool} (h : Ends serialWorld (joinBothWays topic) w tr ok w') :
    w' = w ∧ JoinCalls topic ok (topicCalls tr) := by
  obtain ⟨listenOk, u, _, hu, hrest, rfl⟩ := ends_ask_iff.1 h
  obtain rfl : u = w := hu
  cases listenOk with
  | false =>
      obtain ⟨rfl, rfl, rfl⟩ := ends_done_iff.1 hrest
      exact ⟨rfl, .listenFailed⟩
  | true =>
      obtain ⟨broadcastOk, v, _, hv, hdone, rfl⟩ := ends_ask_iff.1 hrest
      obtain rfl : v = u := hv
      obtain ⟨rfl, rfl, rfl⟩ := ends_done_iff.1 hdone
      cases ok with
      | false => exact ⟨rfl, .broadcastFailed⟩
      | true => exact ⟨rfl, .joined⟩

/-- Nothing changes while `g_mutex` is given up. -/
theorem ends_subscribeLive {r : Globals × Bool}
    (h : Ends serialWorld (subscribeLive g topic) w tr r w') :
    r.1 = g ∧ topicCalls tr = [.subscribe topic r.2] := by
  obtain ⟨_, u, _, hu, hsubscribe, rfl⟩ := ends_ask_iff.1 h
  obtain rfl : u = { g with inFlight := g.inFlight + 1 } := hu
  obtain ⟨live, v, _, hv, hlock, rfl⟩ := ends_ask_iff.1 hsubscribe
  obtain rfl : v = _ := hv
  obtain ⟨held, x, _, ⟨rfl, rfl⟩, hrest, rfl⟩ := ends_ask_iff.1 hlock
  cases live with
  | true =>
      obtain ⟨rfl, rfl, -⟩ := ends_done_iff.1 hrest
      exact ⟨rfl, rfl⟩
  | false =>
      obtain ⟨_, _, _, _, hdone, rfl⟩ := ends_ask_iff.1 hrest
      obtain ⟨rfl, rfl, -⟩ := ends_done_iff.1 hdone
      exact ⟨rfl, rfl⟩

theorem ends_registerDerived {topics : List Bytes}
    (h : Ends serialWorld (C.registerDerived topics g) w tr g' w') :
    Registering topics g (topicCalls tr) g' := by
  induction topics generalizing g w tr with
  | nil =>
      obtain ⟨rfl, rfl, -⟩ := ends_done_iff.1 h
      exact .nil _
  | cons topic rest ih =>
      rw [registerDerived] at h
      by_cases hmem : topic ∈ g.derivedTopics
      · rw [if_pos hmem] at h
        exact .known hmem (ih h)
      rw [if_neg hmem] at h
      obtain ⟨ok, tr₁, tr₂, u, hjoin, hrest, rfl⟩ := ends_bind_iff.1 h
      obtain ⟨rfl, hcalls⟩ := ends_joinBothWays hjoin
      rw [topicCalls_append]
      cases ok with
      | false => exact .failed hmem hcalls (ih hrest)
      | true =>
          obtain ⟨_, tr₃, _, v, hhistory, hlive, rfl⟩ := ends_bind_iff.1 hrest
          obtain ⟨r, tr₄, tr₅, x, hsubscribe, hloop, rfl⟩ := ends_bind_iff.1 hlive
          obtain ⟨-, hsilent⟩ := quiet_of_asksOnly (asksOnly_pushMessageHistory C topic) _ _ _ _
            hhistory
          obtain ⟨hsame, hsub⟩ := ends_subscribeLive hsubscribe
          rw [hsame] at hloop
          rw [topicCalls_append, topicCalls_append, hsilent, hsub]
          exact .added hmem hcalls r.2 (ih hloop)

theorem ends_refreshDerivedJoins (h : Ends serialWorld (C.refreshDerivedJoins g) w tr g' w') :
    ∃ mid, Registering g.entities.derivedJoinedTopics g (topicCalls tr) mid ∧
      g' = evictUnderived g.entities.derivedJoinedTopics mid := by
  obtain ⟨mid, tr₁, tr₂, u, hloop, hdone, rfl⟩ := ends_bind_iff.1 h
  obtain ⟨rfl, rfl, -⟩ := ends_done_iff.1 hdone
  exact ⟨mid, by rw [List.append_nil]; exact ends_registerDerived hloop, rfl⟩

theorem ends_reject {notice : Bytes} (h : Ends serialWorld (reject g notice) w tr r w') :
    w' = w ∧ r = (g, .errorInvalidArgument) ∧ topicCalls tr = [] := by
  obtain ⟨_, u, _, hu, hdone, rfl⟩ := ends_ask_iff.1 h
  obtain ⟨rfl, rfl, rfl⟩ := ends_done_iff.1 hdone
  exact ⟨hu, rfl, rfl⟩

theorem ends_failWith {notice : Bytes} (h : Ends serialWorld (failWith g notice) w tr r w') :
    w' = w ∧ r = (g, .errorGeneric) ∧ topicCalls tr = [] := by
  obtain ⟨_, u, _, hu, hdone, rfl⟩ := ends_ask_iff.1 h
  obtain ⟨rfl, rfl, rfl⟩ := ends_done_iff.1 hdone
  exact ⟨hu, rfl, rfl⟩

theorem ends_joinTopic (h : Ends serialWorld (C.joinTopic g topic) w tr r w') :
    JoinOutcome g topic (topicCalls tr) r.1 r.2 := by
  rw [joinTopic] at h
  cases hreject : topicRejection (ofString "join_topic") topic with
  | some notice =>
      rw [hreject] at h
      obtain ⟨-, rfl, hcalls⟩ := ends_reject h
      rw [hcalls]
      exact .rejected
  | none =>
      rw [hreject] at h
      obtain ⟨ok, tr₁, tr₂, u, hjoin, hrest, rfl⟩ := ends_bind_iff.1 h
      obtain ⟨rfl, hcalls⟩ := ends_joinBothWays hjoin
      rw [topicCalls_append]
      cases ok with
      | false =>
          obtain ⟨-, rfl, hfail⟩ := ends_failWith hrest
          rw [hfail, List.append_nil]
          exact .failed hcalls
      | true =>
          obtain ⟨_, _, _, _, hpushed, rfl⟩ := ends_ask_bind_iff.1 hrest
          obtain ⟨_, tr₃, tr₄, v, hhistory, hend, rfl⟩ := ends_bind_iff.1 hpushed
          obtain ⟨-, hsilent⟩ := quiet_of_asksOnly (asksOnly_pushMessageHistory C topic) _ _ _ _
            hhistory
          have hpost : ∀ tr', topicCalls (⟨Effect.post (buildRoomListEvent (g.joined topic)),
              ()⟩ :: (tr₃ ++ tr') : Trace (Effect Globals) Effect.Answer) = topicCalls tr' := by
            intro tr'
            change topicCalls (tr₃ ++ tr') = topicCalls tr'
            rw [topicCalls_append, hsilent, List.nil_append]
          refine (hpost tr₄).symm ▸ ?_
          by_cases hmem : topic ∈ g.roomTopics
          · rw [decide_eq_true hmem] at hend
            obtain ⟨rfl, rfl, -⟩ := ends_done_iff.1 hend
            rw [topicCalls_nil, List.append_nil]
            exact .again hmem hcalls
          · rw [decide_eq_false hmem] at hend
            obtain ⟨s, tr₅, tr₆, x, hsubscribe, hdone, rfl⟩ := ends_bind_iff.1 hend
            obtain ⟨hsame, hsub⟩ := ends_subscribeLive hsubscribe
            obtain ⟨rfl, rfl, -⟩ := ends_done_iff.1 hdone
            rw [List.append_nil, hsub, hsame]
            exact .first hmem hcalls s.2

theorem ends_publishCatalog (h : Ends serialWorld (C.publishCatalog g) w tr r w') :
    r.2 = .ok ∧ ∃ mid, Registering g.entities.derivedJoinedTopics g (topicCalls tr) mid ∧
      r.1 = evictUnderived g.entities.derivedJoinedTopics mid := by
  obtain ⟨g', tr₁, tr₂, u, hrefresh, htree, rfl⟩ := ends_bind_iff.1 h
  obtain ⟨_, _, _, _, hlist, rfl⟩ := ends_ask_bind_iff.1 htree
  obtain ⟨_, _, _, _, hdone, rfl⟩ := ends_ask_bind_iff.1 hlist
  obtain ⟨rfl, rfl, -⟩ := ends_done_iff.1 hdone
  obtain ⟨mid, hloop, hevict⟩ := ends_refreshDerivedJoins hrefresh
  refine ⟨rfl, mid, ?_, hevict⟩
  rw [topicCalls_append]
  exact (List.append_nil _).symm ▸ hloop

theorem ends_sendText {text : Bytes} (h : Ends serialWorld (C.sendText g topic text) w tr r w') :
    r.1 = g ∧ topicCalls tr = [] := by
  rw [sendText] at h
  split at h
  · obtain ⟨-, rfl, hcalls⟩ := ends_reject h
    exact ⟨rfl, hcalls⟩
  split at h
  · obtain ⟨-, rfl, hcalls⟩ := ends_reject h
    exact ⟨rfl, hcalls⟩
  split at h
  · obtain ⟨-, rfl, hcalls⟩ := ends_reject h
    exact ⟨rfl, hcalls⟩
  obtain ⟨_, u, _, hu, hsend, rfl⟩ := ends_ask_bind_iff.1 h
  obtain rfl : u = { g with inFlight := g.inFlight + 1 } := hu
  obtain ⟨ok, tr₁, tr₂, v, hsent, hlock, rfl⟩ := ends_bind_iff.1 hsend
  obtain ⟨rfl, hquiet⟩ := quiet_sendMessageProgram C.messaging topic text _ _ _ _ hsent
  obtain ⟨held, x, tr₃, ⟨rfl, rfl⟩, hrest, rfl⟩ := ends_ask_bind_iff.1 hlock
  have hcalls : ∀ g' held tr', topicCalls (⟨Effect.unlock g', ()⟩ ::
      (tr₁ ++ ⟨Effect.lock, held⟩ :: tr') : Trace (Effect Globals) Effect.Answer) =
        topicCalls tr' := by
    intro g' held tr'
    change topicCalls (tr₁ ++ ⟨Effect.lock, held⟩ :: tr') = topicCalls tr'
    rw [topicCalls_append, hquiet, List.nil_append]
    rfl
  cases ok with
  | true =>
      obtain ⟨rfl, rfl, -⟩ := ends_done_iff.1 hrest
      exact ⟨rfl, hcalls _ _ []⟩
  | false =>
      obtain ⟨-, rfl, hfail⟩ := ends_failWith hrest
      exact ⟨rfl, (hcalls _ _ _).trans hfail⟩

theorem ends_createSpace {name : Bytes} {isPublic autoJoinRooms : Bool}
    (h : Ends serialWorld (C.createSpace g name isPublic autoJoinRooms) w tr r w') :
    ∃ entities, r.1 = { g with entities := entities } ∧ topicCalls tr = [] := by
  rw [createSpace] at h
  split at h
  · obtain ⟨-, rfl, hcalls⟩ := ends_reject h
    exact ⟨_, rfl, hcalls⟩
  obtain ⟨created, tr₁, tr₂, u, hcreate, hrest, rfl⟩ := ends_bind_iff.1 h
  obtain ⟨-, hsilent⟩ := quiet_of_asksOnly (asksOnly_createSpace _ _ _ _ _) _ _ _ _ hcreate
  refine ⟨created.1, ?_⟩
  rw [topicCalls_append, hsilent, List.nil_append]
  split at hrest
  · obtain ⟨_, _, _, _, hdone, rfl⟩ := ends_ask_bind_iff.1 hrest
    obtain ⟨rfl, rfl, -⟩ := ends_done_iff.1 hdone
    exact ⟨rfl, rfl⟩
  · obtain ⟨-, rfl, hcalls⟩ := ends_failWith hrest
    exact ⟨rfl, hcalls⟩

/-- What follows a write to the catalog, for the two arms that may change the derived joins. -/
theorem ends_afterWrite {command : GcsCommand} (hnot : ∀ topic, command ≠ .joinTopic topic)
    {entities : EntityStore} {written : Bool} {notice : Bytes}
    (h : Ends serialWorld (if written then C.publishCatalog { g with entities := entities }
      else failWith { g with entities := entities } notice) w tr r w') :
    CommandOutcome g command (topicCalls tr) r.1 r.2 := by
  split at h
  · obtain ⟨hok, mid, hloop, hevict⟩ := ends_publishCatalog h
    rw [hok, hevict]
    exact .refreshed hnot hloop
  · obtain ⟨-, rfl, hcalls⟩ := ends_failWith h
    rw [hcalls]
    exact .kept hnot entities

theorem ends_createRoom {name parentSpaceId : Bytes}
    (h : Ends serialWorld (C.createRoom g name parentSpaceId) w tr r w') :
    CommandOutcome g (.createRoom name parentSpaceId) (topicCalls tr) r.1 r.2 := by
  have hnot : ∀ topic, GcsCommand.createRoom name parentSpaceId ≠ .joinTopic topic :=
    fun _ => GcsCommand.noConfusion
  rw [createRoom] at h
  split at h
  · obtain ⟨-, rfl, hcalls⟩ := ends_reject h
    rw [hcalls]
    exact .kept hnot g.entities
  split at h
  · obtain ⟨-, rfl, hcalls⟩ := ends_reject h
    rw [hcalls]
    exact .kept hnot g.entities
  obtain ⟨created, tr₁, tr₂, u, hcreate, hrest, rfl⟩ := ends_bind_iff.1 h
  obtain ⟨-, hsilent⟩ := quiet_of_asksOnly (asksOnly_createRoom _ _ _ _) _ _ _ _ hcreate
  rw [topicCalls_append, hsilent, List.nil_append]
  exact ends_afterWrite hnot hrest

theorem ends_updateSpace {spaceId name : Bytes} {isPublic autoJoinRooms : Bool}
    (h : Ends serialWorld (C.updateSpace g spaceId name isPublic autoJoinRooms) w tr r w') :
    CommandOutcome g (.updateSpace spaceId name isPublic autoJoinRooms) (topicCalls tr) r.1 r.2 := by
  have hnot : ∀ topic, GcsCommand.updateSpace spaceId name isPublic autoJoinRooms ≠
      .joinTopic topic := fun _ => GcsCommand.noConfusion
  rw [updateSpace] at h
  split at h
  · obtain ⟨-, rfl, hcalls⟩ := ends_reject h
    rw [hcalls]
    exact .kept hnot g.entities
  split at h
  · obtain ⟨-, rfl, hcalls⟩ := ends_reject h
    rw [hcalls]
    exact .kept hnot g.entities
  obtain ⟨updated, tr₁, tr₂, u, hupdate, hrest, rfl⟩ := ends_bind_iff.1 h
  obtain ⟨-, hsilent⟩ := quiet_of_asksOnly (asksOnly_updateSpace _ _ _) _ _ _ _ hupdate
  rw [topicCalls_append, hsilent, List.nil_append]
  exact ends_afterWrite hnot hrest

theorem ends_runCommand {command : GcsCommand}
    (h : Ends serialWorld (C.runCommand g command) w tr r w') :
    CommandOutcome g command (topicCalls tr) r.1 r.2 := by
  cases command with
  | joinTopic topic => exact .join (ends_joinTopic h)
  | sendText topic text =>
      obtain ⟨hsame, hcalls⟩ := ends_sendText h
      rw [hsame, hcalls]
      exact .kept (fun _ => GcsCommand.noConfusion) g.entities
  | createSpace name isPublic autoJoinRooms =>
      obtain ⟨entities, hsame, hcalls⟩ := ends_createSpace h
      rw [hsame, hcalls]
      exact .kept (fun _ => GcsCommand.noConfusion) entities
  | createRoom name parentSpaceId => exact ends_createRoom h
  | updateSpace spaceId name isPublic autoJoinRooms => exact ends_updateSpace h
  | payloadNotSet =>
      obtain ⟨-, rfl, hcalls⟩ := ends_reject h
      rw [hcalls]
      exact .kept (fun _ => GcsCommand.noConfusion) g.entities

theorem ends_refused (hstatus : status ≠ .ok) (h : Ends serialWorld
    (pure (g, status) : Program Globals (Globals × GcsStatus)) w tr r w') :
    r.2 ≠ .ok ∧ topicCalls tr = [] ∧ r.1 = g := by
  obtain ⟨rfl, rfl, -⟩ := ends_done_iff.1 h
  exact ⟨hstatus, rfl, rfl⟩

theorem ends_publishLocked {session : Option ℕ} {name payload : Option Bytes}
    (h : Ends serialWorld (C.publishLocked g session name payload) w tr r w') :
    (r.2 ≠ .ok ∧ topicCalls tr = [] ∧ r.1 = g) ∨
      ∃ bytes command, payload = some bytes ∧ C.parseCommand bytes = some command ∧
        CommandOutcome g command (topicCalls tr) r.1 r.2 := by
  cases name with
  | none => exact .inl (ends_refused (by decide) h)
  | some name =>
      cases payload with
      | none => exact .inl (ends_refused (by decide) h)
      | some bytes =>
          rw [publishLocked] at h
          split at h
          · exact .inl (ends_refused (by decide) h)
          obtain ⟨running, _, tr', _, hrun, rfl⟩ := ends_ask_bind_iff.1 h
          change (_ ∧ topicCalls tr' = [] ∧ _) ∨ ∃ bytes' command, _ ∧ _ ∧
            CommandOutcome g command (topicCalls tr') r.1 r.2
          split at hrun
          · exact .inl (ends_refused (by decide) hrun)
          split at hrun
          · exact .inl (ends_refused (by decide) hrun)
          split at hrun
          · obtain ⟨-, rfl, hcalls⟩ := ends_reject hrun
            exact .inl ⟨nofun, hcalls, rfl⟩
          · next command hparse => exact .inr ⟨bytes, command, rfl, hparse, ends_runCommand hrun⟩

/-- Nobody else comes between `lock` and the body, nor between the body and `unlock`. -/
theorem trace_of_withMutex {α : Type} {body : Globals → Program Globals (Globals × α)} {a : α}
    (h : Ends serialWorld (withMutex body) g tr a g') :
    ∃ r tr' u, Ends serialWorld (body g) g tr' r u ∧
      tr = ⟨.lock, g⟩ :: (tr' ++ [⟨.unlock r.1, ()⟩]) ∧ r.1 = g' ∧ r.2 = a := by
  obtain ⟨held, u, tr', ⟨rfl, rfl⟩, hlocked, rfl⟩ := ends_ask_bind_iff.1 h
  obtain ⟨r, tr₁, tr₂, v, hbody, hunlock, rfl⟩ := ends_bind_iff.1 hlocked
  obtain ⟨_, x, _, hx, hdone, rfl⟩ := ends_ask_bind_iff.1 hunlock
  obtain rfl : x = r.1 := hx
  obtain ⟨rfl, rfl, rfl⟩ := ends_done_iff.1 hdone
  exact ⟨r, tr₁, v, hbody, rfl, rfl, rfl⟩

theorem ends_withMutex {α : Type} {body : Globals → Program Globals (Globals × α)} {a : α}
    (h : Ends serialWorld (withMutex body) g tr a g') :
    ∃ r tr' u, Ends serialWorld (body g) g tr' r u ∧ topicCalls tr = topicCalls tr' ∧ r.1 = g' ∧
      r.2 = a := by
  obtain ⟨r, tr', u, hbody, rfl, hglobals, hresult⟩ := trace_of_withMutex h
  refine ⟨r, tr', u, hbody, ?_, hglobals, hresult⟩
  change topicCalls (tr' ++ [⟨Effect.unlock r.1, ()⟩]) = topicCalls tr'
  rw [topicCalls_append]
  exact List.append_nil _

theorem ends_gcsPublish {session : Option ℕ} {name payload : Option Bytes}
    (h : Ends serialWorld (C.gcsPublish session name payload) g tr status g') :
    (status ≠ .ok ∧ topicCalls tr = [] ∧ g' = g) ∨
      ∃ bytes command, payload = some bytes ∧ C.parseCommand bytes = some command ∧
        CommandOutcome g command (topicCalls tr) g' status := by
  obtain ⟨r, tr', u, hpublish, hcalls, rfl, rfl⟩ := ends_withMutex h
  rw [hcalls]
  exact ends_publishLocked hpublish

theorem ends_joinSmokeTopics {topics : List Bytes} {joinedAny : Bool} {r : Globals × Bool}
    (h : Ends serialWorld (joinSmokeTopics topics g joinedAny) w tr r w') :
    ∃ joined, joined.Sublist topics ∧ r.1 = { g with roomTopics := g.roomTopics ++ joined } ∧
      (r.2 = true ↔ joinedAny = true ∨ joined ≠ []) ∧
      ∀ topic live, .subscribe topic live ∉ topicCalls tr := by
  induction topics generalizing g w tr joinedAny with
  | nil =>
      obtain ⟨rfl, rfl, -⟩ := ends_done_iff.1 h
      exact ⟨[], .slnil, by rw [List.append_nil], by simp, fun _ _ => List.not_mem_nil⟩
  | cons topic rest ih =>
      obtain ⟨ok, tr₁, tr₂, u, hjoin, hrest, rfl⟩ := ends_bind_iff.1 h
      obtain ⟨-, hcalls⟩ := ends_joinBothWays hjoin
      have hnone := hcalls.subscribe_not_mem
      cases ok with
      | false =>
          obtain ⟨joined, hsub, hglobals, hany, hlive⟩ := ih hrest
          refine ⟨joined, hsub.cons _, hglobals, hany, fun t live hmem => ?_⟩
          rw [topicCalls_append] at hmem
          exact (List.mem_append.1 hmem).elim (hnone t live) (hlive t live)
      | true =>
          obtain ⟨joined, hsub, hglobals, hany, hlive⟩ := ih hrest
          refine ⟨topic :: joined, hsub.cons_cons _, ?_, ?_, fun t live hmem => ?_⟩
          · exact hglobals.trans (by rw [List.append_assoc]; rfl)
          · exact hany.trans (by simp)
          · rw [topicCalls_append] at hmem
            exact (List.mem_append.1 hmem).elim (hnone t live) (hlive t live)

theorem ends_startSession {session : ℕ} {r : Globals × Option ℕ} (hnone : g.session = none)
    (h : Ends serialWorld (C.startSession g session) w tr r w') :
    InitOutcome g (topicCalls tr) r.1 r.2 := by
  obtain ⟨joined, tr₁, tr₂, u, hsmoke, hrest, rfl⟩ := ends_bind_iff.1 h
  obtain ⟨topics, hsub, hglobals, hany, hlive⟩ := ends_joinSmokeTopics hsmoke
  rw [topicCalls_append]
  cases hjoined : joined.2 with
  | false =>
      rw [hjoined] at hrest
      obtain ⟨rfl, rfl, -⟩ := ends_done_iff.1 hrest
      have hnil : topics = [] := by
        by_contra hne
        exact absurd (hany.2 (.inr hne)) (by rw [hjoined]; decide)
      rw [hglobals, hnil, topicCalls_nil, List.append_nil, List.append_nil]
      exact .failed hlive
  | true =>
      rw [hjoined] at hrest
      obtain ⟨_, v, _, _, hload, rfl⟩ := ends_ask_bind_iff.1 hrest
      obtain ⟨entities, tr₃, tr₄, x, hentities, hjoin, rfl⟩ := ends_bind_iff.1 hload
      obtain ⟨-, hsilent⟩ := quiet_of_asksOnly (asksOnly_loadFromStore _) _ _ _ _ hentities
      obtain ⟨g', tr₅, tr₆, y, hrefresh, hdone, rfl⟩ := ends_bind_iff.1 hjoin
      obtain ⟨rfl, rfl, -⟩ := ends_done_iff.1 hdone
      obtain ⟨mid, hloop, rfl⟩ := ends_refreshDerivedJoins hrefresh
      rw [hglobals] at hloop
      refine .started hnone hsub ((hany.1 hjoined).resolve_left (by decide)) hlive ?_
      change Registering _ _ (topicCalls (tr₃ ++ (tr₅ ++ []))) _
      rw [topicCalls_append, hsilent, List.append_nil]
      exact hloop

theorem ends_gcsInit {opened : Option ℕ} (h : Ends serialWorld C.gcsInit g tr opened g') :
    InitOutcome g (topicCalls tr) g' opened := by
  obtain ⟨r, tr', u, hinit, hcalls, rfl, rfl⟩ := ends_withMutex h
  rw [hcalls]
  rw [initLocked] at hinit
  split at hinit
  · next session hsession =>
      obtain ⟨rfl, rfl, -⟩ := ends_done_iff.1 hinit
      exact .running hsession
  · next hnone =>
      obtain ⟨booted, _, tr₁, _, hboot, rfl⟩ := ends_ask_bind_iff.1 hinit
      change InitOutcome g (topicCalls tr₁) r.1 r.2
      cases booted with
      | none =>
          obtain ⟨rfl, rfl, -⟩ := ends_done_iff.1 hboot
          exact .failed fun _ _ => List.not_mem_nil
      | some session => exact ends_startSession hnone hboot

end Outcomes

section Through

variable {C : Core} {g g' w w' : Globals} {tr : Trace (Effect Globals) Effect.Answer}
  {r : Globals × GcsStatus}

theorem through_gcsPublish {session : ℕ} {payload : Bytes} {command : GcsCommand}
    {status : GcsStatus} (hsession : g.session = some session)
    (hparse : C.parseCommand payload = some command) (hne : payload ≠ [])
    (hlength : payload.length ≤ kMaxInt)
    (h : Ends serialWorld (C.runCommand g command) g tr (g', status) w) :
    Ends serialWorld (C.gcsPublish (some session) (some kCommandTopic) (some payload)) g
      (⟨.lock, g⟩ :: ⟨.isRunning, true⟩ :: (tr ++ [⟨.unlock g', ()⟩])) status g' := by
  have hcheck : ¬ (g.session = none ∨ some session ≠ g.session ∨ payload = [] ∨
      kMaxInt < payload.length) := by
    simp [hsession, hne, hlength]
  refine ends_ask_iff.2 ⟨g, g, _, ⟨rfl, rfl⟩, ?_, rfl⟩
  change Ends serialWorld
    (C.publishLocked g (some session) (some kCommandTopic) (some payload) >>= _) _ _ _ _
  rw [publishLocked, if_neg hcheck]
  refine ends_ask_iff.2 ⟨true, g, _, rfl, ?_, rfl⟩
  rw [hparse]
  exact Ends.bind h (ends_ask_iff.2 ⟨(), g', _, rfl, .nil _ _, rfl⟩)

theorem through_publishCatalog {topics : List Bytes}
    (htopics : g.entities.derivedJoinedTopics = topics)
    (h : Ends serialWorld (C.registerDerived topics g) w tr g' w') :
    Ends serialWorld (C.publishCatalog g) w
      (tr ++ [⟨.post (buildSpaceTreeEvent (evictUnderived topics g')), ()⟩,
        ⟨.post (buildRoomListEvent (evictUnderived topics g')), ()⟩])
      (evictUnderived topics g', .ok) w' := by
  subst htopics
  have hrefresh : Ends serialWorld (C.refreshDerivedJoins g) w (tr ++ [])
      (evictUnderived g.entities.derivedJoinedTopics g') w' := Ends.bind h (.nil _ _)
  rw [List.append_nil] at hrefresh
  refine Ends.bind hrefresh (ends_ask_iff.2 ⟨(), w', _, rfl, ?_, rfl⟩)
  exact ends_ask_iff.2 ⟨(), w', _, rfl, .nil _ _, rfl⟩

theorem through_updateSpace {spaceId name : Bytes} {isPublic autoJoinRooms : Bool} {now : ℤ}
    {existing updated : SpaceRecord} {entities : EntityStore} (hid : spaceId ≠ []) (hname : name ≠ [])
    (hcount : utf8CodePointCount name ≤ kMaxEntityNameLength)
    (hfind : g.entities.mSpaces.find? spaceId = some existing) (hdeleted : existing.deleted = false)
    (hupdated : EntityStore.updatedSpace (desiredSpace spaceId name isPublic autoJoinRooms)
      existing now = updated) (hentities : g.entities.assignSpace updated = entities)
    (h : Ends serialWorld (C.publishCatalog { g with entities := entities }) w tr r w') :
    Ends serialWorld (C.updateSpace g spaceId name isPublic autoJoinRooms) w
      (⟨.nowMs, now⟩ :: ⟨.put (kSpacesKeyPrefix ++ updated.id) (C.codecs.space.serialize updated),
        true⟩ :: tr) r w' := by
  have hblank : ¬ (spaceId = [] ∨ name = []) := fun h => h.elim hid hname
  rw [updateSpace, if_neg hblank, if_neg (Nat.not_lt.2 hcount), EntityStore.updateSpace]
  dsimp only [desiredSpace]
  rw [hfind]
  change Ends serialWorld ((if existing.deleted = true then _ else _) >>= _) _ _ _ _
  rw [hdeleted]
  subst hupdated hentities
  refine ends_ask_iff.2 ⟨now, w, _, rfl, ?_, rfl⟩
  exact ends_ask_iff.2 ⟨true, w, _, rfl, h, rfl⟩

theorem through_createRoom {id name parentSpaceId : Bytes} {now : ℤ} {record : RoomRecord}
    {entities : EntityStore} (hname : nameRejection (ofString "create_room") name = none)
    (hparent : g.entities.isValidParentSpace parentSpaceId)
    (hrecord : EntityStore.newRoom id name parentSpaceId now = record)
    (hentities : g.entities.emplaceRoom record = entities)
    (h : Ends serialWorld (C.publishCatalog { g with entities := entities }) w tr r w') :
    Ends serialWorld (C.createRoom g name parentSpaceId) w
      (⟨.nextId kRoomIdPrefix, id⟩ :: ⟨.nowMs, now⟩ :: ⟨.get kManifestKey, none⟩ ::
        ⟨.put kManifestKey (C.codecs.manifest.serialize (EntityManifest.empty.insert false id)),
          true⟩ :: ⟨.put (kRoomsKeyPrefix ++ id) (C.codecs.room.serialize record), true⟩ :: tr)
      r w' := by
  have hknown : ¬ (parentSpaceId ≠ [] ∧ ¬ g.entities.isValidParentSpace parentSpaceId) :=
    fun h => h.2 hparent
  rw [createRoom, hname]
  change Ends serialWorld (if parentSpaceId ≠ [] ∧ ¬ g.entities.isValidParentSpace parentSpaceId
    then _ else _) _ _ _ _
  rw [if_neg hknown, EntityStore.createRoom, if_neg hknown]
  subst hrecord hentities
  refine ends_ask_iff.2 ⟨id, w, _, rfl, ?_, rfl⟩
  refine ends_ask_iff.2 ⟨now, w, _, rfl, ?_, rfl⟩
  refine ends_ask_iff.2 ⟨none, w, _, rfl, ?_, rfl⟩
  refine ends_ask_iff.2 ⟨true, w, _, rfl, ?_, rfl⟩
  exact ends_ask_iff.2 ⟨true, w, _, rfl, h, rfl⟩

/-- A topic that is listed is joined once more, and its history cannot be read. -/
theorem through_rejoin {topic : Bytes}
    (hvalid : topicRejection (ofString "join_topic") topic = none) (hmem : topic ∈ g.roomTopics) :
    Ends serialWorld (C.joinTopic g topic) w
      [⟨.addListenTopic topic, true⟩, ⟨.addBroadcastTopic topic, true⟩,
        ⟨.post (buildRoomListEvent (g.joined topic)), ()⟩,
        ⟨.queryKeyValues (historyPrefix topic), none⟩] (g.joined topic, .ok) w := by
  rw [joinTopic, hvalid]
  refine ends_ask_iff.2 ⟨true, w, _, rfl, ?_, rfl⟩
  refine ends_ask_iff.2 ⟨true, w, _, rfl, ?_, rfl⟩
  refine ends_ask_iff.2 ⟨(), w, _, rfl, ?_, rfl⟩
  refine ends_ask_iff.2 ⟨none, w, _, rfl, ?_, rfl⟩
  rw [decide_eq_true hmem]
  exact .nil _ _

theorem through_firstJoin {topic : Bytes}
    (hvalid : topicRejection (ofString "join_topic") topic = none) (hnew : topic ∉ g.roomTopics) :
    Ends serialWorld (C.joinTopic g topic) w
      [⟨.addListenTopic topic, true⟩, ⟨.addBroadcastTopic topic, true⟩,
        ⟨.post (buildRoomListEvent (g.joined topic)), ()⟩,
        ⟨.queryKeyValues (historyPrefix topic), none⟩,
        ⟨.unlock { g.joined topic with inFlight := g.inFlight + 1 }, ()⟩, ⟨.subscribe topic, true⟩,
        ⟨.lock, { g.joined topic with inFlight := g.inFlight + 1 }⟩]
      (g.joined topic, .ok) { g.joined topic with inFlight := g.inFlight + 1 } := by
  let held : Globals := { g.joined topic with inFlight := g.inFlight + 1 }
  rw [joinTopic, hvalid]
  refine ends_ask_iff.2 ⟨true, w, _, rfl, ?_, rfl⟩
  refine ends_ask_iff.2 ⟨true, w, _, rfl, ?_, rfl⟩
  refine ends_ask_iff.2 ⟨(), w, _, rfl, ?_, rfl⟩
  refine ends_ask_iff.2 ⟨none, w, _, rfl, ?_, rfl⟩
  rw [decide_eq_false hnew]
  refine ends_ask_iff.2 ⟨(), held, _, rfl, ?_, rfl⟩
  refine ends_ask_iff.2 ⟨true, held, _, rfl, ?_, rfl⟩
  exact ends_ask_iff.2 ⟨held, held, _, ⟨rfl, rfl⟩, .nil _ _, rfl⟩

theorem through_registerDerived {topic : Bytes} (hmem : topic ∉ g.derivedTopics) :
    Ends serialWorld (C.registerDerived [topic] g) w
      [⟨.addListenTopic topic, true⟩, ⟨.addBroadcastTopic topic, true⟩,
        ⟨.queryKeyValues (historyPrefix topic), none⟩,
        ⟨.unlock { addDerived g topic with inFlight := g.inFlight + 1 }, ()⟩,
        ⟨.subscribe topic, true⟩,
        ⟨.lock, { addDerived g topic with inFlight := g.inFlight + 1 }⟩]
      (addDerived g topic) { addDerived g topic with inFlight := g.inFlight + 1 } := by
  rw [registerDerived, if_neg hmem]
  refine ends_ask_iff.2 ⟨true, w, _, rfl, ?_, rfl⟩
  refine ends_ask_iff.2 ⟨true, w, _, rfl, ?_, rfl⟩
  refine ends_ask_iff.2 ⟨none, w, _, rfl, ?_, rfl⟩
  let held : Globals := { addDerived g topic with inFlight := g.inFlight + 1 }
  refine ends_ask_iff.2 ⟨(), held, _, rfl, ?_, rfl⟩
  refine ends_ask_iff.2 ⟨true, held, _, rfl, ?_, rfl⟩
  exact ends_ask_iff.2 ⟨held, held, _, ⟨rfl, rfl⟩, .nil _ _, rfl⟩

end Through

end Core

/-- A call of the FFI with what it returned and the calls about topics that it made. -/
inductive SerialCall
  | init (opened : Option ℕ) (calls : List TopicCall)
  | publish (session : Option ℕ) (topic payload : Option Bytes) (status : GcsStatus)
      (calls : List TopicCall)

def SerialCall.calls : SerialCall → List TopicCall
  | init _ calls => calls
  | publish _ _ _ _ calls => calls

def serialSystem (C : Core) : TransitionSystem Globals SerialCall where
  initial g := g = .fresh
  step g call g' := match call with
    | .init opened calls => ∃ tr, Ends serialWorld C.gcsInit g tr opened g' ∧ calls = topicCalls tr
    | .publish session topic payload status calls => ∃ tr,
        Ends serialWorld (C.gcsPublish session topic payload) g tr status g' ∧ calls = topicCalls tr

end GcsChat
