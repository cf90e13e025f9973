import GcsChat.FfiProcess

/-!
# When the snapshots are pushed

The room list and the space tree are pushed as snapshots of what `g_mutex` guards. A call that has
pushed one gives the mutex back only with what the snapshot shows, and a call that has not changes
nothing that it would show, except that a command that refreshes the derived joins may owe the push
over its unlocked windows. Both snapshots are treated alike, so which of them is a parameter.
-/

namespace GcsChat

open ByteString Interactive

/-- The two events that mirror what `g_mutex` guards. -/
inductive Snapshot
  | roomList
  | spaceTree

namespace Snapshot

def build (k : Snapshot) (g : Globals) : GcsEvent :=
  match k with
  | roomList => Core.buildRoomListEvent g
  | spaceTree => Core.buildSpaceTreeEvent g

def read (k : Snapshot) (event : GcsEvent) : Option GcsEvent :=
  match k, event with
  | roomList, .roomList _ => some event
  | spaceTree, .spaceTree _ _ => some event
  | _, _ => none

@[simp] theorem read_build (k : Snapshot) (g : Globals) : k.read (k.build g) = some (k.build g) := by
  cases k <;> rfl

@[simp] theorem read_error (k : Snapshot) (message : Bytes) : k.read (.error message) = none := by
  cases k <;> rfl

@[simp] theorem read_message (k : Snapshot) (msg : ChatMessageState) :
    k.read (.message msg) = none := by
  cases k <;> rfl

@[simp] theorem read_messageHistory (k : Snapshot) (history : MessageHistory) :
    k.read (.messageHistory history) = none := by
  cases k <;> rfl

@[simp] theorem read_readiness (k : Snapshot) (ready : Bool) : k.read (.readiness ready) = none := by
  cases k <;> rfl

end Snapshot

/-- Where a call is with its pushes of a snapshot: outside of `g_mutex`, or inside with the snapshot
it would have pushed when it took the mutex and the last one it has pushed since. It owes a push when
it has changed in an earlier section what is shown. -/
inductive Telling
  | outside (owes : Bool)
  | inside (found : GcsEvent) (pushed : Option GcsEvent) (owes : Bool)

namespace Telling

def take (found : GcsEvent) : Telling → Telling
  | outside owes => inside found none owes
  | t => t

def give (shown : GcsEvent) : Telling → Telling
  | inside _ (some _) _ => outside false
  | inside found none owes => outside (owes || decide (shown ≠ found))
  | t => t

def push (event : Option GcsEvent) : Telling → Telling
  | inside found pushed owes => inside found (event.or pushed) owes
  | t => t

def MayGive (mayTell : Prop) (shown : GcsEvent) : Telling → Prop
  | outside _ => False
  | inside _ (some pushed) _ => pushed = shown
  | inside found none _ => shown = found ∨ mayTell

/-- What would be shown is what was pushed last, here or before. -/
inductive Settled (shown : GcsEvent) : Telling → Prop
  | same : Settled shown (inside shown none false)
  | told {found : GcsEvent} {owes : Bool} : Settled shown (inside found (some shown) owes)

/-- Nothing has been pushed in this section. -/
inductive Untold : Telling → Prop
  | inside {found : GcsEvent} {owes : Bool} : Untold (inside found none owes)

@[simp] theorem push_none (t : Telling) : t.push none = t := by
  cases t <;> rfl

theorem Settled.give {shown : GcsEvent} {t : Telling} (h : t.Settled shown) :
    t.give shown = outside false := by
  cases h with
  | same => exact congrArg outside (by simp)
  | told => rfl

theorem Settled.mayGive {shown : GcsEvent} {t : Telling} (h : t.Settled shown) (mayTell : Prop) :
    t.MayGive mayTell shown := by
  cases h with
  | same => exact .inl rfl
  | told => rfl

section Pushes

variable {k : Snapshot} {g g' : Globals} {t : Telling}

theorem Settled.of_eq (h : t.Settled (k.build g)) (htopics : g'.roomTopics = g.roomTopics)
    (hentities : g'.entities = g.entities) : t.Settled (k.build g') := by
  have hbuild : k.build g' = k.build g := by
    cases k with
    | roomList => exact congrArg GcsEvent.roomList htopics
    | spaceTree =>
        change GcsEvent.spaceTree g'.entities.spaces g'.entities.rooms = _
        rw [hentities]
        rfl
  rwa [hbuild]

theorem Settled.push {shown shown' : GcsEvent} (h : t.Settled shown) :
    (t.push (some shown')).Settled shown' := by
  cases h <;> exact .told

theorem Settled.push_roomList (h : t.Settled (k.build g)) (hentities : g'.entities = g.entities) :
    (t.push (k.read (Core.buildRoomListEvent g'))).Settled (k.build g') := by
  cases k with
  | roomList => exact h.push
  | spaceTree =>
      change (t.push none).Settled (.spaceTree g'.entities.spaces g'.entities.rooms)
      rw [push_none, hentities]
      exact h

theorem Settled.push_spaceTree (h : t.Settled (k.build g)) (htopics : g'.roomTopics = g.roomTopics) :
    (t.push (k.read (Core.buildSpaceTreeEvent g'))).Settled (k.build g') := by
  cases k with
  | spaceTree => exact h.push
  | roomList =>
      change (t.push none).Settled (.roomList g'.roomTopics)
      rw [push_none, htopics]
      exact h

theorem Untold.push_both (h : t.Untold) : ((t.push (k.read (Core.buildSpaceTreeEvent g))).push
    (k.read (Core.buildRoomListEvent g))).Settled (k.build g) := by
  cases h
  cases k <;> exact .told

theorem Settled.ne_outside {shown : GcsEvent} (h : t.Settled shown) (owes : Bool) :
    t ≠ outside owes := by
  cases h <;> nofun

theorem Untold.ne_outside (h : t.Untold) (owes : Bool) : t ≠ outside owes := by
  cases h
  nofun

end Pushes

end Telling

/-- What the calls push under the mutex; only some of them may push a snapshot, or owe one. -/
def tellDiscipline (k : Snapshot) (mayTell : Prop) :
    Discipline (Effect Globals) Effect.Answer Telling where
  allows t e := match t, e with
    | .inside _ _ _, .lock => False
    | t, .unlock g => t.MayGive mayTell (k.build g)
    | .outside _, .post _ => False
    | .inside _ _ _, .post event => k.read event = none ∨ mayTell
    | _, _ => True
  possible _ _ _ := True
  after t e a := match e, a with
    | .lock, g => t.take (k.build g)
    | .unlock g, _ => t.give (k.build g)
    | .post event, _ => t.push (k.read event)
    | _, _ => t

def Told {α : Type} : α → Telling → Prop := fun _ t => t = .outside false

section Rules

variable {k : Snapshot} {mayTell : Prop} {t : Telling} {g : Globals} {α : Type} {Q : α → Telling → Prop}

/-- What is neither about the mutex nor a push. -/
def Effect.Plain {G : Type} : Effect G → Prop
  | .lock => False
  | .unlock _ => False
  | .post _ => False
  | _ => True

theorem Effect.Sends.plain {G : Type} {e : Effect G} (h : e.Sends) : e.Plain := by
  cases e <;> trivial

theorem follows_plain {e : Effect Globals} {next : e.Answer → Program Globals α} (he : e.Plain)
    (hnext : ∀ a, (next a).Follows (tellDiscipline k mayTell) t Q) :
    (ask e next).Follows (tellDiscipline k mayTell) t Q := by
  cases e with
  | lock => exact he.elim
  | unlock g => exact he.elim
  | post event => exact he.elim
  | _ => cases t <;> exact ⟨trivial, fun a _ => hnext a⟩

theorem follows_plainly {p : Program Globals α} (hp : p.AsksOnly Effect.Plain) :
    p.Follows (tellDiscipline k mayTell) t fun _ t' => t' = t := by
  refine follows_of_asksOnly hp fun e he => ?_
  cases e with
  | lock => exact he.elim
  | unlock g => exact he.elim
  | post event => exact he.elim
  | _ => cases t <;> exact ⟨trivial, fun _ => rfl⟩

theorem follows_lock {owes : Bool} {next : Globals → Program Globals α}
    (hnext : ∀ g, (next g).Follows (tellDiscipline k mayTell) (.inside (k.build g) none owes) Q) :
    (ask .lock next).Follows (tellDiscipline k mayTell) (.outside owes) Q :=
  ⟨trivial, fun g _ => hnext g⟩

theorem follows_post {event : GcsEvent} {next : Unit → Program Globals α} (ht : ∀ owes, t ≠ .outside owes)
    (hmay : k.read event = none ∨ mayTell)
    (hnext : (next ()).Follows (tellDiscipline k mayTell) (t.push (k.read event)) Q) :
    (ask (.post event) next).Follows (tellDiscipline k mayTell) t Q := by
  cases t with
  | outside owes => exact absurd rfl (ht owes)
  | inside found pushed owes => exact ⟨hmay, fun _ _ => hnext⟩

theorem follows_give {next : Unit → Program Globals α} (h : t.Settled (k.build g))
    (hnext : (next ()).Follows (tellDiscipline k mayTell) (.outside false) Q) :
    (ask (.unlock g) next).Follows (tellDiscipline k mayTell) t Q := by
  refine ⟨?_, fun _ _ => ?_⟩
  · have hgive := h.mayGive mayTell
    cases t <;> exact hgive
  · change (next ()).Follows _ (t.give (k.build g)) Q
    rw [h.give]
    exact hnext

theorem follows_owe {next : Unit → Program Globals α} (hmay : mayTell) (h : t.Untold)
    (hnext : ∀ owes, (next ()).Follows (tellDiscipline k mayTell) (.outside owes) Q) :
    (ask (.unlock g) next).Follows (tellDiscipline k mayTell) t Q := by
  cases h
  exact ⟨.inr hmay, fun _ _ => hnext _⟩

end Rules

def Effect.Recalls {G : Type} : Effect G → Prop
  | .queryKeyValues _ => True
  | .absorb _ => True
  | .post (.messageHistory _) => True
  | _ => False

theorem Effect.Stores.plain {G : Type} {e : Effect G} (h : e.Stores) : e.Plain := by
  cases e <;> trivial

namespace Core

section Calls

variable {C : Core} {k : Snapshot} {mayTell : Prop} {t : Telling} {g : Globals}

theorem plain_joinBothWays (topic : Bytes) : (joinBothWays topic).AsksOnly Effect.Plain := by
  refine ⟨trivial, fun listenOk => ?_⟩
  cases listenOk with
  | false => exact trivial
  | true => exact ⟨trivial, fun _ => trivial⟩

theorem recalls_pushMessageHistory (topic : Bytes) :
    (C.pushMessageHistory topic).AsksOnly Effect.Recalls := by
  refine ⟨trivial, fun scan => ?_⟩
  cases scan with
  | none => exact trivial
  | some entries => exact ⟨trivial, fun _ => ⟨trivial, fun _ => trivial⟩⟩

theorem tells_pushMessageHistory (ht : ∀ owes, t ≠ .outside owes) (topic : Bytes) :
    (C.pushMessageHistory topic).Follows (tellDiscipline k mayTell) t fun _ t' => t' = t := by
  cases t with
  | outside owes => exact absurd rfl (ht owes)
  | inside found pushed owes =>
      refine follows_of_asksOnly (recalls_pushMessageHistory topic) fun e he => ?_
      cases e with
      | queryKeyValues keyPrefix => exact ⟨trivial, fun _ => rfl⟩
      | absorb ids => exact ⟨trivial, fun _ => rfl⟩
      | post event =>
          cases event with
          | messageHistory history =>
              refine ⟨.inl (k.read_messageHistory history), fun _ => ?_⟩
              change Telling.push (k.read (.messageHistory history)) (.inside found pushed owes) = _
              rw [Snapshot.read_messageHistory, Telling.push_none]
          | _ => exact he.elim
      | _ => exact he.elim

theorem tells_postErrorNotice (ht : ∀ owes, t ≠ .outside owes) (notice : Bytes) :
    (postErrorNotice notice).Follows (tellDiscipline k mayTell) t fun _ t' => t' = t := by
  refine follows_post ht (.inl (k.read_error notice)) ?_
  rw [Snapshot.read_error, Telling.push_none]
  exact rfl

theorem tells_reject (h : t.Settled (k.build g)) (notice : Bytes) :
    (reject g notice).Follows (tellDiscipline k mayTell) t fun r t' => t'.Settled (k.build r.1) :=
  (tells_postErrorNotice h.ne_outside notice).bind fun _ t' ht' => by
    rw [ht']
    exact h

theorem tells_failWith (h : t.Settled (k.build g)) (notice : Bytes) :
    (failWith g notice).Follows (tellDiscipline k mayTell) t fun r t' => t'.Settled (k.build r.1) :=
  (tells_postErrorNotice h.ne_outside notice).bind fun _ t' ht' => by
    rw [ht']
    exact h

/-- After the subscribe, nothing is told yet. -/
theorem tells_resumeLive (topic : Bytes) (liveOk owes : Bool) :
    (resumeLive topic liveOk).Follows (tellDiscipline k mayTell) (.outside owes)
      fun r t' => t' = .inside (k.build r.1) none owes := by
  refine follows_lock fun g => ?_
  have hbuild : k.build { g with inFlight := g.inFlight - 1 } = k.build g := by
    cases k <;> rfl
  cases liveOk with
  | true =>
      change Telling.inside _ none owes = .inside _ none owes
      rw [hbuild]
  | false =>
      have hinside : ∀ o, Telling.inside (k.build g) none owes ≠ .outside o := nofun
      exact (tells_postErrorNotice hinside _).bind fun _ t' ht' => by
        change t' = .inside (k.build { g with inFlight := g.inFlight - 1 }) none owes
        rw [ht', hbuild]

theorem tells_subscribeLive (h : t.Settled (k.build g)) (topic : Bytes) :
    (subscribeLive g topic).Follows (tellDiscipline k mayTell) t
      fun r t' => t'.Settled (k.build r.1) := by
  refine follows_give (h.of_eq rfl rfl) (follows_plain trivial fun liveOk => ?_)
  refine (tells_resumeLive topic liveOk false).mono fun r t' ht' => ?_
  rw [ht']
  exact .same

theorem owes_subscribeLive (hmay : mayTell) (h : t.Untold) (topic : Bytes) :
    (subscribeLive g topic).Follows (tellDiscipline k mayTell) t fun _ t' => t'.Untold := by
  refine follows_owe hmay h fun owes => follows_plain trivial fun liveOk => ?_
  refine (tells_resumeLive topic liveOk owes).mono fun r t' ht' => ?_
  rw [ht']
  exact .inside

theorem tells_registerDerived (hmay : mayTell) (topics : List Bytes) (h : t.Untold) :
    (C.registerDerived topics g).Follows (tellDiscipline k mayTell) t fun _ t' => t'.Untold := by
  induction topics generalizing g t with
  | nil => exact h
  | cons topic rest ih =>
      rw [registerDerived]
      by_cases hmem : topic ∈ g.derivedTopics
      · rw [if_pos hmem]
        exact ih h
      rw [if_neg hmem]
      refine (follows_plainly (plain_joinBothWays topic)).bind fun joined t' ht' => ?_
      rw [ht']
      cases joined with
      | false => exact ih h
      | true =>
          refine (tells_pushMessageHistory h.ne_outside topic).bind fun _ t₁ ht₁ => ?_
          rw [ht₁]
          exact (owes_subscribeLive hmay h topic).bind fun r t₂ ht₂ => ih ht₂

theorem tells_refreshDerivedJoins (hmay : mayTell) (h : t.Untold) :
    (C.refreshDerivedJoins g).Follows (tellDiscipline k mayTell) t fun _ t' => t'.Untold :=
  (tells_registerDerived hmay _ h).bind fun _ _ ht' => ht'

theorem tells_publishCatalog (hmay : mayTell) (h : t.Untold) :
    (C.publishCatalog g).Follows (tellDiscipline k mayTell) t
      fun r t' => t'.Settled (k.build r.1) := by
  refine (tells_refreshDerivedJoins hmay h).bind fun g' t' ht' => ?_
  have hafter : ∀ owes, t'.push (k.read (buildSpaceTreeEvent g')) ≠ .outside owes := by
    cases ht'
    nofun
  exact follows_post ht'.ne_outside (.inr hmay) (follows_post hafter (.inr hmay) ht'.push_both)

theorem tells_joinTopic (hmay : mayTell) (h : t.Settled (k.build g)) (topic : Bytes) :
    (C.joinTopic g topic).Follows (tellDiscipline k mayTell) t
      fun r t' => t'.Settled (k.build r.1) := by
  rw [joinTopic]
  cases topicRejection (ofString "join_topic") topic with
  | some notice => exact tells_reject h notice
  | none =>
      refine (follows_plainly (plain_joinBothWays topic)).bind fun joined t' ht' => ?_
      rw [ht']
      cases joined with
      | false => exact tells_failWith h _
      | true =>
          let joinedGlobals : Globals := { g with
            roomTopics := pushBackAbsent g.roomTopics topic
            explicitTopics := pushBackAbsent g.explicitTopics topic }
          have hpushed : (t.push (k.read (buildRoomListEvent joinedGlobals))).Settled
            (k.build joinedGlobals) := h.push_roomList rfl
          refine follows_post h.ne_outside (.inr hmay) ?_
          refine (tells_pushMessageHistory hpushed.ne_outside topic).bind fun _ t₁ ht₁ => ?_
          rw [ht₁]
          cases decide (topic ∈ g.roomTopics) with
          | true => exact hpushed
          | false => exact (tells_subscribeLive hpushed topic).bind fun r t₂ ht₂ => ht₂

theorem tells_eventSink (owes : Bool) (msg : ChatMessageState) :
    (Messaging.eventSink (.message msg) : Program Globals Unit).Follows (tellDiscipline k mayTell)
      (.outside owes) fun _ t' => t' = .outside owes := by
  refine follows_lock fun g => follows_post nofun (.inl (k.read_message msg)) ?_
  rw [Snapshot.read_message, Telling.push_none]
  refine ⟨.inl rfl, fun _ _ => ?_⟩
  change Telling.outside (owes || decide (k.build g ≠ k.build g)) = .outside owes
  simp

theorem tells_sinkMessage_bind {α : Type} {Q : α → Telling → Prop} {owes : Bool}
    (msg : ChatMessageState) {next : Unit → Program Globals α}
    (hnext : (next ()).Follows (tellDiscipline k mayTell) (.outside owes) Q) :
    (C.messaging.sinkMessage msg >>= next).Follows (tellDiscipline k mayTell) (.outside owes) Q :=
  (tells_eventSink owes _).bind fun _ t' ht' => by
    rw [ht']
    exact hnext

theorem tells_sendMessageProgram (owes : Bool) (topic text : Bytes) :
    (C.messaging.sendMessageProgram topic text : Program Globals Bool).Follows
      (tellDiscipline k mayTell) (.outside owes) fun _ t' => t' = .outside owes := by
  refine sendMessageProgram_rule (K := fun p => p.Follows (tellDiscipline k mayTell)
    (.outside owes) fun _ t' => t' = .outside owes) (fun _ => rfl) (fun hp hf => hp.bind ?_)
    (fun he => ?_) (fun _ => tells_eventSink owes _) topic text
  · rintro a t' rfl
    exact hf a
  · exact follows_plain he.plain

theorem tells_applyMessageProgram (owes : Bool) (topic data : Bytes) :
    (C.messaging.applyMessageProgram topic data : Program Globals Unit).Follows
      (tellDiscipline k mayTell) (.outside owes) fun _ t' => t' = .outside owes := by
  unfold Messaging.applyMessageProgram
  cases C.messaging.openMessage topic data with
  | none => exact rfl
  | some msg =>
      refine follows_plain trivial fun unseen => ?_
      cases unseen with
      | false => exact rfl
      | true => exact tells_sinkMessage_bind msg (follows_plain trivial fun _ => rfl)

theorem tells_onMessageArrivedProgram (owes : Bool) (key value : Bytes) :
    (C.messaging.onMessageArrivedProgram key value : Program Globals (Option Unit)).Follows
      (tellDiscipline k mayTell) (.outside owes) fun _ t' => t' = .outside owes := by
  unfold Messaging.onMessageArrivedProgram
  cases roomTopicFromKey key with
  | none => exact rfl
  | some topic =>
      change Follows _ (if topic = [] then _ else _) _ _
      split
      · exact rfl
      · exact (tells_applyMessageProgram owes topic value).bind fun _ _ ht' => ht'

theorem tells_sendText (h : t.Settled (k.build g)) (topic text : Bytes) :
    (C.sendText g topic text).Follows (tellDiscipline k mayTell) t
      fun r t' => t'.Settled (k.build r.1) := by
  rw [sendText]
  split
  · exact tells_reject h _
  split
  · exact tells_reject h _
  split
  · exact tells_reject h _
  refine follows_give (h.of_eq rfl rfl)
    ((tells_sendMessageProgram false topic text).bind fun sendOk t' ht' => ?_)
  rw [ht']
  refine follows_lock fun g' => ?_
  have hsame : (Telling.inside (k.build g') none false).Settled
    (k.build { g' with inFlight := g'.inFlight - 1 }) := Telling.Settled.same.of_eq rfl rfl
  cases sendOk with
  | true => exact hsame
  | false => exact tells_failWith hsame _

theorem tells_writes {α : Type} {P : α → Prop} {p : Program Globals α} (hp : p.AsksOnly Effect.Stores)
    (hreturns : p.Returns P) :
    p.Follows (tellDiscipline k mayTell) t fun a t' => t' = t ∧ P a :=
  Follows.and_returns (follows_plainly (hp.mono fun _ => Effect.Stores.plain)) hreturns

theorem tells_createSpace (hmay : mayTell) (h : t.Settled (k.build g)) (name : Bytes)
    (isPublic autoJoinRooms : Bool) :
    (C.createSpace g name isPublic autoJoinRooms).Follows (tellDiscipline k mayTell) t
      fun r t' => t'.Settled (k.build r.1) := by
  rw [createSpace]
  split
  · exact tells_reject h _
  · refine (tells_writes (stores_createSpace C.codecs g.entities name isPublic autoJoinRooms)
      (returns_createSpace C.codecs g.entities name isPublic autoJoinRooms)).bind ?_
    rintro created t' ⟨ht', rfl | ⟨space, rfl⟩⟩
    · rw [ht']
      exact tells_failWith h _
    · rw [ht']
      exact follows_post h.ne_outside (.inr hmay) (h.push_spaceTree rfl)

/-- What the other two writes do after them: nothing has been told when one has succeeded. -/
theorem tells_afterWrite {α : Type} (hmay : mayTell) (hsettled : t.Settled (k.build g))
    (huntold : t.Untold) {written : EntityStore × Option α}
    (hwritten : written = (g.entities, none) ∨ ∃ entities record, written = (entities, some record))
    (notice : Bytes) :
    (if written.2.isSome then C.publishCatalog { g with entities := written.1 }
      else failWith { g with entities := written.1 } notice).Follows (tellDiscipline k mayTell) t
        fun r t' => t'.Settled (k.build r.1) := by
  rcases hwritten with rfl | ⟨entities, record, rfl⟩
  · exact tells_failWith hsettled _
  · exact tells_publishCatalog hmay huntold

theorem tells_createRoom (hmay : mayTell) (h : t.Settled (k.build g)) (huntold : t.Untold)
    (name parentSpaceId : Bytes) :
    (C.createRoom g name parentSpaceId).Follows (tellDiscipline k mayTell) t
      fun r t' => t'.Settled (k.build r.1) := by
  rw [createRoom]
  split
  · exact tells_reject h _
  split
  · exact tells_reject h _
  · refine (tells_writes (stores_createRoom C.codecs g.entities name parentSpaceId)
      (returns_createRoom C.codecs g.entities name parentSpaceId)).bind ?_
    rintro created t' ⟨ht', hcreated⟩
    rw [ht']
    exact tells_afterWrite hmay h huntold
      (hcreated.imp_right fun hroom => hroom.elim fun room hroom => ⟨_, room, hroom⟩) _

theorem tells_updateSpace (hmay : mayTell) (h : t.Settled (k.build g)) (huntold : t.Untold)
    (spaceId name : Bytes) (isPublic autoJoinRooms : Bool) :
    (C.updateSpace g spaceId name isPublic autoJoinRooms).Follows (tellDiscipline k mayTell) t
      fun r t' => t'.Settled (k.build r.1) := by
  rw [updateSpace]
  split
  · exact tells_reject h _
  split
  · exact tells_reject h _
  · let desired := desiredSpace spaceId name isPublic autoJoinRooms
    refine (tells_writes (stores_updateSpace C.codecs g.entities desired)
      (returns_updateSpace C.codecs g.entities desired)).bind ?_
    rintro updated t' ⟨ht', hupdated⟩
    rw [ht']
    exact tells_afterWrite hmay h huntold
      (hupdated.imp_right fun hspace => hspace.elim fun space hspace => ⟨_, space, hspace⟩) _

theorem tells_runCommand (hmay : mayTell) (command : GcsCommand) :
    (C.runCommand g command).Follows (tellDiscipline k mayTell) (.inside (k.build g) none false)
      fun r t' => t'.Settled (k.build r.1) := by
  cases command with
  | joinTopic topic => exact tells_joinTopic hmay .same topic
  | sendText topic text => exact tells_sendText .same topic text
  | createSpace name isPublic autoJoinRooms => exact tells_createSpace hmay .same _ _ _
  | createRoom name parentSpaceId => exact tells_createRoom hmay .same .inside _ _
  | updateSpace spaceId name isPublic autoJoinRooms =>
      exact tells_updateSpace hmay .same .inside _ _ _ _
  | payloadNotSet => exact tells_reject .same _

theorem tells_publishLocked (hmay : mayTell) (session : Option ℕ) (topic payload : Option Bytes) :
    (C.publishLocked g session topic payload).Follows (tellDiscipline k mayTell)
      (.inside (k.build g) none false) fun r t' => t'.Settled (k.build r.1) := by
  cases topic with
  | none => exact .same
  | some topic =>
      cases payload with
      | none => exact .same
      | some bytes =>
          rw [publishLocked]
          split
          · exact .same
          · refine follows_plain trivial fun running => ?_
            cases running with
            | false => exact .same
            | true =>
                change Follows _ (if topic ≠ kCommandTopic then _ else _) _ _
                split
                · exact .same
                · cases C.parseCommand bytes with
                  | none => exact tells_reject .same _
                  | some command => exact tells_runCommand hmay command

theorem tells_giveBack (h : t.Settled (k.build g)) (result : FfiResult) :
    (giveBack g result).Follows (tellDiscipline k mayTell) t Told :=
  follows_give h rfl

/-- Whatever `gcs_subscribe` owes, it pushes. -/
theorem tells_greet (hmay : mayTell) (owes : Bool) :
    (greet g).Follows (tellDiscipline k mayTell) (.inside (k.build g) none owes) Told := by
  refine follows_post nofun (.inr hmay) (follows_post nofun (.inr hmay)
    (follows_post nofun (.inr hmay) ?_))
  rw [Snapshot.read_readiness, Telling.push_none]
  have huntold : (Telling.inside (k.build g) none owes).Untold := .inside
  exact tells_giveBack huntold.push_both _

/-- A call that takes the mutex, except for a `gcs_init` that has to open a session. -/
theorem tells_locked {call : FfiCall} (hmay : ∀ handle topic payload,
      call = .publish handle topic payload → mayTell)
    (hup : ∀ configAccepted, call = .init configAccepted → g.session ≠ none) (tearingDown : Bool) :
    (C.locked g tearingDown call).Follows (tellDiscipline k mayTell)
      (.inside (k.build g) none false) Told := by
  cases call with
  | init configAccepted =>
      rw [locked]
      split
      · exact tells_giveBack .same _
      obtain ⟨session, hsession⟩ := Option.ne_none_iff_exists'.1 (hup configAccepted rfl)
      rw [initLocked, hsession]
      exact tells_giveBack .same _
  | publish handle topic payload =>
      exact (tells_publishLocked (hmay _ _ _ rfl) _ _ _).bind fun r t' ht' => tells_giveBack ht' _
  | _ => exact tells_giveBack .same _

theorem tells_receiveCallback {funnel : Program Globals (Option Unit)}
    (hfunnel : funnel.Follows (tellDiscipline k mayTell) (.outside false)
      fun _ t' => t' = .outside false) :
    (receiveCallback funnel).Follows (tellDiscipline k mayTell) (.outside false) Told := by
  refine follows_plain trivial fun disabled => ?_
  cases disabled with
  | true => exact rfl
  | false =>
      refine follows_lock fun g => ?_
      change Follows _ (if g.session = none then _ else _) _ _
      split
      · exact follows_give .same rfl
      · refine follows_give (Telling.Settled.same.of_eq rfl rfl)
          (hfunnel.bind fun returned t' ht' => ?_)
        rw [ht']
        cases returned with
        | none => exact rfl
        | some _ => exact follows_lock fun g' => follows_give (Telling.Settled.same.of_eq rfl rfl) rfl

theorem tells_callback (call : FfiCall) :
    (C.callback call).Follows (tellDiscipline k mayTell) (.outside false) Told := by
  cases call with
  | live n topic data =>
      refine (tells_receiveCallback ?_).bind fun _ t' ht' => ht'
      exact (tells_applyMessageProgram false topic data).bind fun _ t' ht' => ht'
  | heal n key value =>
      exact (tells_receiveCallback (tells_onMessageArrivedProgram false key value)).bind
        fun _ t' ht' => ht'
  | _ => exact rfl

end Calls

end Core

end GcsChat
