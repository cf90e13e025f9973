import GcsChat.SerialSession

/-!
# Commands that are rejected

One command on a session with its store, its set of seen ids and what it published. No other command
is in progress; the receive callbacks may run while `g_mutex` is free. A command that is refused
leaves all of it as it was, and one that fails leaves the topic lists and the catalog.
-/

namespace GcsChat

open ByteString Interactive

/-- What the commands of a session can change. -/
structure ServiceState where
  globals : Globals
  records : OrderedMap Bytes Bytes
  seenIds : Finset Bytes
  published : List (Bytes × Bytes)

/-- All that `g_mutex` guards is the same, up to the count of the calls in flight. -/
def Globals.Agrees (g g' : Globals) : Prop := ∃ inFlight, g' = { g with inFlight := inFlight }

/-- The callbacks count themselves, remember ids and archive what they accept. -/
def ServiceState.Receives (w w' : ServiceState) : Prop := w.globals.Agrees w'.globals

/-- Every call may have every outcome; callbacks run during the calls made without `g_mutex`. -/
def serviceWorld : World (Effect Globals) Effect.Answer ServiceState :=
  fun w e a w' => match e, a with
    | .lock, held => held = w.globals ∧ w' = w
    | .unlock held, _ => w' = { w with globals := held }
    | .put key value, ok =>
        w' = if ok then { w with records := w.records.insertOrAssign key value } else w
    | .insertOwn id, _ => w' = { w with seenIds := insert id w.seenIds }
    | .insertUnseen id, _ =>
        w' = { w with seenIds := ClearOnFull.touch kMaxSeenIds w.seenIds id }
    | .absorb ids, _ =>
        w' = { w with seenIds := ClearOnFull.enterAll kMaxSeenIds w.seenIds ids }
    | .publish topic data, _ =>
        ServiceState.Receives { w with published := w.published ++ [(topic, data)] } w'
    | .putTopics key value _, ok => ServiceState.Receives
        (if ok then { w with records := w.records.insertOrAssign key value } else w) w'
    | .subscribe _, _ => w.Receives w'
    | _, _ => w' = w

def LiveSubscribeFailed (C : Core) (payload : Option Bytes)
    (tr : Trace (Effect Globals) Effect.Answer) : Prop :=
  ∃ bytes roomTopic, payload = some bytes ∧ C.parseCommand bytes = some (.joinTopic roomTopic) ∧
    (⟨.subscribe roomTopic, false⟩ : (e : Effect Globals) × e.Answer) ∈ tr

structure SameView (g g' : Globals) : Prop where
  roomTopics : g'.roomTopics = g.roomTopics
  derivedTopics : g'.derivedTopics = g.derivedTopics
  explicitTopics : g'.explicitTopics = g.explicitTopics
  spaces : g'.entities.spaces = g.entities.spaces
  rooms : g'.entities.rooms = g.entities.rooms
  derivedJoinedTopics : g'.entities.derivedJoinedTopics = g.entities.derivedJoinedTopics

theorem Globals.Agrees.refl (g : Globals) : g.Agrees g := ⟨g.inFlight, rfl⟩

theorem Globals.Agrees.trans {g g' g'' : Globals} (h : g.Agrees g') (h' : g'.Agrees g'') :
    g.Agrees g'' := by
  obtain ⟨n, rfl⟩ := h
  obtain ⟨m, rfl⟩ := h'
  exact ⟨m, rfl⟩

theorem Globals.Agrees.sameView {g g' : Globals} (h : g.Agrees g') : SameView g g' := by
  obtain ⟨n, rfl⟩ := h
  exact ⟨rfl, rfl, rfl, rfl, rfl, rfl⟩

section Keeps

variable {α β : Type}

/-- Run to its end, it leaves what is guarded up to the count of the calls in flight. -/
def Keeps (p : Program Globals α) : Prop :=
  ∀ w tr a w', Ends serviceWorld p w tr a w' → w.globals.Agrees w'.globals

theorem keeps_done (a : α) : Keeps (done a : Program Globals α) := by
  intro w tr b w' h
  obtain ⟨-, -, rfl⟩ := ends_done_iff.1 h
  exact .refl _

theorem Keeps.bind {p : Program Globals α} {f : α → Program Globals β} (hp : Keeps p)
    (hf : ∀ a, Keeps (f a)) : Keeps (p >>= f) := by
  intro w tr b w' h
  obtain ⟨a, tr₁, tr₂, u, hends, hrest, -⟩ := ends_bind_iff.1 h
  exact (hp _ _ _ _ hends).trans (hf a _ _ _ _ hrest)

theorem agrees_of_silent {e : Effect Globals} (he : e.Silent) {a : e.Answer} {w w' : ServiceState}
    (h : serviceWorld w e a w') : w.globals.Agrees w'.globals := by
  cases e with
  | lock => cases he
  | unlock _ => cases he
  | subscribe _ => cases he
  | addListenTopic _ => cases he
  | addBroadcastTopic _ => cases he
  | publish topic data => exact h
  | putTopics key value topics =>
      cases a <;> exact h
  | put key value =>
      cases a <;> exact h ▸ .refl _
  | _ => exact h ▸ .refl _

theorem keeps_ask {e : Effect Globals} (he : e.Silent) {next : e.Answer → Program Globals α}
    (hnext : ∀ a, Keeps (next a)) : Keeps (ask e next) := by
  intro w tr b w' h
  obtain ⟨a, u, tr', ha, hrest, -⟩ := ends_ask_iff.1 h
  exact (agrees_of_silent he ha).trans (hnext a _ _ _ _ hrest)

theorem keeps_eventSink (event : GcsEvent) : Keeps (Messaging.eventSink event) := by
  intro w tr a w' h
  obtain ⟨g, u, _, ⟨rfl, rfl⟩, hpost, rfl⟩ := ends_ask_iff.1 h
  obtain ⟨_, v, _, hv, hunlock, rfl⟩ := ends_ask_iff.1 hpost
  obtain rfl : v = u := hv
  obtain ⟨_, x, _, hx, hdone, rfl⟩ := ends_ask_iff.1 hunlock
  obtain rfl : x = v := hx
  obtain ⟨rfl, -, rfl⟩ := ends_done_iff.1 hdone
  exact .refl _

theorem keeps_sendMessageProgram (M : Messaging) (roomTopic text : Bytes) :
    Keeps (M.sendMessageProgram roomTopic text) :=
  sendMessageProgram_rule (K := @Keeps) keeps_done (fun hp hf => hp.bind hf)
    (fun he hnext => keeps_ask he.silent hnext) (fun _ => keeps_eventSink _) roomTopic text

end Keeps

namespace Core

section Arms

variable {C : Core} {g : Globals}

/-- A command that is not rejected ends well or with the generic error. -/
def Accepts (p : Program Globals (Globals × GcsStatus)) : Prop :=
  p.Returns fun r => r.2 = .ok ∨ r.2 = .errorGeneric

/-- It ends well or leaves everything. -/
def Commits (g : Globals) (p : Program Globals (Globals × GcsStatus)) : Prop :=
  p.Returns fun r => r.2 = .ok ∨ r = (g, .errorGeneric)

theorem returns_publishCatalog (g : Globals) :
    (C.publishCatalog g).Returns fun r => r.2 = .ok := by
  refine (returns_of_forall (P := fun _ => True) (fun _ => trivial)
    (C.refreshDerivedJoins g)).bind fun g' _ => ?_
  exact fun _ _ => rfl

theorem commits_createSpace (name : Bytes) (isPublic autoJoinRooms : Bool) :
    (∃ notice, C.createSpace g name isPublic autoJoinRooms = reject g notice) ∨
      Commits g (C.createSpace g name isPublic autoJoinRooms) := by
  unfold createSpace
  cases nameRejection (ofString "create_space") name with
  | some notice => exact .inl ⟨notice, rfl⟩
  | none =>
      refine .inr ((returns_createSpace C.codecs g.entities name isPublic autoJoinRooms).bind ?_)
      rintro created (rfl | ⟨space, rfl⟩)
      · exact fun _ => .inr rfl
      · exact fun _ => .inl rfl

theorem commits_createRoom (name parentSpaceId : Bytes) :
    (∃ notice, C.createRoom g name parentSpaceId = reject g notice) ∨
      Commits g (C.createRoom g name parentSpaceId) := by
  unfold createRoom
  cases nameRejection (ofString "create_room") name with
  | some notice => exact .inl ⟨notice, rfl⟩
  | none =>
      dsimp only
      split_ifs
      · exact .inl ⟨_, rfl⟩
      · refine .inr ((returns_createRoom C.codecs g.entities name parentSpaceId).bind ?_)
        rintro created (rfl | ⟨room, rfl⟩)
        · exact fun _ => .inr rfl
        · exact (returns_publishCatalog _).mono fun _ h => .inl h

theorem commits_updateSpace (spaceId name : Bytes) (isPublic autoJoinRooms : Bool) :
    (∃ notice, C.updateSpace g spaceId name isPublic autoJoinRooms = reject g notice) ∨
      Commits g (C.updateSpace g spaceId name isPublic autoJoinRooms) := by
  unfold updateSpace
  split_ifs
  · exact .inl ⟨_, rfl⟩
  · exact .inl ⟨_, rfl⟩
  · refine .inr ((returns_updateSpace C.codecs g.entities _).bind ?_)
    rintro updated (rfl | ⟨space, rfl⟩)
    · exact fun _ => .inr rfl
    · exact (returns_publishCatalog _).mono fun _ h => .inl h

theorem accepts_joinTopic (roomTopic : Bytes) :
    (∃ notice, C.joinTopic g roomTopic = reject g notice) ∨ Accepts (C.joinTopic g roomTopic) := by
  unfold joinTopic
  cases topicRejection (ofString "join_topic") roomTopic with
  | some notice => exact .inl ⟨notice, rfl⟩
  | none =>
      refine .inr ((returns_of_forall (P := fun _ => True) (fun _ => trivial)
        (joinBothWays roomTopic)).bind fun joined _ => ?_)
      cases joined with
      | false => exact fun _ => .inr rfl
      | true =>
          refine fun _ => (returns_of_forall (P := fun _ => True) (fun _ => trivial)
            (C.pushMessageHistory roomTopic)).bind fun _ _ => ?_
          split_ifs
          · exact .inl rfl
          · refine (returns_of_forall (P := fun _ => True) (fun _ => trivial)
              (subscribeLive _ roomTopic)).bind fun subscribed _ => ?_
            cases subscribed.2
            · exact .inr rfl
            · exact .inl rfl

theorem accepts_sendText (roomTopic text : Bytes) :
    (∃ notice, C.sendText g roomTopic text = reject g notice) ∨
      Accepts (C.sendText g roomTopic text) := by
  unfold sendText
  cases topicRejection (ofString "send_text") roomTopic with
  | some notice => exact .inl ⟨notice, rfl⟩
  | none =>
      dsimp only
      split_ifs
      · exact .inl ⟨_, rfl⟩
      · refine .inr fun _ => (returns_of_forall (P := fun _ => True) (fun _ => trivial)
          (C.messaging.sendMessageProgram roomTopic text)).bind fun sendOk _ => ?_
        cases sendOk with
        | false => exact fun _ _ => .inr rfl
        | true => exact fun _ => .inl rfl
      · exact .inl ⟨_, rfl⟩

end Arms

section Runs

variable {C : Core} {g : Globals} {r : Globals × GcsStatus} {w w' : ServiceState}
  {tr : Trace (Effect Globals) Effect.Answer}

theorem unchanged_of_ends_reject {notice : Bytes}
    (h : Ends serviceWorld (reject g notice) w tr r w') :
    r.1 = g ∧ w' = w ∧ r.2 = .errorInvalidArgument := by
  obtain ⟨_, u, _, hu, hdone, -⟩ := ends_ask_iff.1 h
  obtain rfl : u = w := hu
  obtain ⟨-, rfl, rfl⟩ := ends_done_iff.1 hdone
  exact ⟨rfl, rfl, rfl⟩

/-- An error of `join_topic` other than of the live subscribe leaves what is guarded. -/
theorem ends_joinTopic_generic {roomTopic : Bytes}
    (h : Ends serviceWorld (C.joinTopic g roomTopic) w tr r w') (hr : r.2 = .errorGeneric) :
    r.1 = g ∨ (⟨.subscribe roomTopic, false⟩ : (e : Effect Globals) × e.Answer) ∈ tr := by
  unfold joinTopic at h
  cases hrejection : topicRejection (ofString "join_topic") roomTopic with
  | some notice =>
      rw [hrejection] at h
      exact .inl (unchanged_of_ends_reject h).1
  | none =>
      rw [hrejection] at h
      obtain ⟨joined, tr₁, tr₂, u, -, hrest, rfl⟩ := ends_bind_iff.1 h
      cases joined with
      | false =>
          obtain ⟨_, v, _, -, hdone, -⟩ := ends_ask_iff.1 hrest
          obtain ⟨-, rfl, -⟩ := ends_done_iff.1 hdone
          exact .inl rfl
      | true =>
          obtain ⟨_, v, tr₃, -, hpost, rfl⟩ := ends_ask_bind_iff.1 hrest
          obtain ⟨_, tr₄, tr₅, x, -, hlive, rfl⟩ := ends_bind_iff.1 hpost
          split_ifs at hlive
          · obtain ⟨-, rfl, -⟩ := ends_done_iff.1 hlive
            exact absurd hr nofun
          · obtain ⟨_, y, _, -, hsubscribe, rfl⟩ := ends_ask_iff.1 hlive
            obtain ⟨live, z, _, -, hresume, rfl⟩ := ends_ask_iff.1 hsubscribe
            cases live with
            | false => exact .inr (by simp)
            | true =>
                obtain ⟨_, v', _, -, hdone, -⟩ := ends_ask_iff.1 hresume
                obtain ⟨-, rfl, -⟩ := ends_done_iff.1 hdone
                exact absurd hr nofun

theorem ends_sendText_generic {roomTopic text : Bytes}
    (h : Ends serviceWorld (C.sendText g roomTopic text) w tr r w') (hr : r.2 = .errorGeneric) :
    g.Agrees r.1 := by
  unfold sendText at h
  cases hrejection : topicRejection (ofString "send_text") roomTopic with
  | some notice =>
      rw [hrejection] at h
      exact (unchanged_of_ends_reject h).1 ▸ .refl g
  | none =>
      simp only [hrejection] at h
      split_ifs at h
      · exact (unchanged_of_ends_reject h).1 ▸ .refl g
      · obtain ⟨_, u, tr₁, rfl, hsend, -⟩ := ends_ask_bind_iff.1 h
        obtain ⟨sendOk, _, _, v, hsent, hlock, -⟩ := ends_bind_iff.1 hsend
        obtain ⟨n, hv⟩ := keeps_sendMessageProgram _ _ _ _ _ _ _ hsent
        obtain ⟨held, x, _, ⟨rfl, rfl⟩, hrest, -⟩ := ends_ask_bind_iff.1 hlock
        cases sendOk with
        | true =>
            obtain ⟨-, rfl, -⟩ := ends_done_iff.1 hrest
            exact absurd hr nofun
        | false =>
            obtain ⟨_, y, _, -, hdone, -⟩ := ends_ask_iff.1 hrest
            obtain ⟨-, rfl, -⟩ := ends_done_iff.1 hdone
            exact ⟨_, by rw [hv]⟩
      · exact (unchanged_of_ends_reject h).1 ▸ .refl g

/-- What a command leaves when it is rejected, and when it fails. -/
structure Leaves (g : Globals) (w : ServiceState) (failedLive : Prop) (r : Globals × GcsStatus)
    (w' : ServiceState) : Prop where
  rejected : r.2 = .errorInvalidArgument ∨ r.2 = .errorNotRunning → r.1 = g ∧ w' = w
  failed : r.2 = .errorGeneric → g.Agrees r.1 ∨ failedLive

theorem leaves_of_reject {p : Program Globals (Globals × GcsStatus)} {failedLive : Prop}
    (hp : ∃ notice, p = reject g notice) (h : Ends serviceWorld p w tr r w') :
    Leaves g w failedLive r w' := by
  obtain ⟨notice, rfl⟩ := hp
  obtain ⟨hg, hw, hr⟩ := unchanged_of_ends_reject h
  exact ⟨fun _ => ⟨hg, hw⟩, fun hgeneric => absurd (hr.symm.trans hgeneric) nofun⟩

theorem leaves_of_accepts {p : Program Globals (Globals × GcsStatus)} {failedLive : Prop}
    (hp : (∃ notice, p = reject g notice) ∨ Accepts p) (h : Ends serviceWorld p w tr r w')
    (hfailed : r.2 = .errorGeneric → g.Agrees r.1 ∨ failedLive) : Leaves g w failedLive r w' := by
  refine hp.elim (fun hreject => leaves_of_reject hreject h) fun haccepts => ⟨?_, hfailed⟩
  intro hr
  rcases haccepts.of_ends h with hok | hgeneric
  · rw [hok] at hr
    exact absurd hr (by decide)
  · rw [hgeneric] at hr
    exact absurd hr (by decide)

theorem leaves_of_commits {p : Program Globals (Globals × GcsStatus)} {failedLive : Prop}
    (hp : (∃ notice, p = reject g notice) ∨ Commits g p) (h : Ends serviceWorld p w tr r w') :
    Leaves g w failedLive r w' := by
  refine hp.elim (fun hreject => leaves_of_reject hreject h) fun hcommits => ?_
  have haccepts : Accepts p := hcommits.mono fun r hr => hr.imp_right (congrArg Prod.snd)
  refine leaves_of_accepts (.inr haccepts) h fun hgeneric => .inl ?_
  rcases hcommits.of_ends h with hok | rfl
  · exact absurd (hok.symm.trans hgeneric) nofun
  · exact .refl g

theorem leaves_runCommand {command : GcsCommand}
    (h : Ends serviceWorld (C.runCommand g command) w tr r w') :
    Leaves g w (∃ roomTopic, command = .joinTopic roomTopic ∧
      (⟨.subscribe roomTopic, false⟩ : (e : Effect Globals) × e.Answer) ∈ tr) r w' := by
  cases command with
  | joinTopic roomTopic =>
      refine leaves_of_accepts (accepts_joinTopic roomTopic) h fun hr => ?_
      rcases ends_joinTopic_generic h hr with hg | hlive
      · exact .inl (hg ▸ .refl g)
      · exact .inr ⟨roomTopic, rfl, hlive⟩
  | sendText roomTopic text =>
      exact leaves_of_accepts (accepts_sendText roomTopic text) h fun hr =>
        .inl (ends_sendText_generic h hr)
  | createSpace name isPublic autoJoinRooms => exact leaves_of_commits (commits_createSpace _ _ _) h
  | createRoom name parentSpaceId => exact leaves_of_commits (commits_createRoom _ _) h
  | updateSpace spaceId name isPublic autoJoinRooms =>
      exact leaves_of_commits (commits_updateSpace _ _ _ _) h
  | payloadNotSet => exact leaves_of_reject ⟨_, rfl⟩ h

theorem leaves_of_done {status : GcsStatus} {failedLive : Prop}
    (h : Ends serviceWorld (done (g, status)) w tr r w') : Leaves g w failedLive r w' := by
  obtain ⟨-, rfl, rfl⟩ := ends_done_iff.1 h
  exact ⟨fun _ => ⟨rfl, rfl⟩, fun _ => .inl (.refl g)⟩

theorem leaves_publishLocked {session : Option ℕ} {topic payload : Option Bytes}
    (h : Ends serviceWorld (C.publishLocked g session topic payload) w tr r w') :
    Leaves g w (LiveSubscribeFailed C payload tr) r w' := by
  unfold publishLocked at h
  split at h
  · next topic bytes =>
      split at h
      · exact leaves_of_done h
      · obtain ⟨running, u, tr', hu, hrest, rfl⟩ := ends_ask_bind_iff.1 h
        obtain rfl : u = w := hu
        split_ifs at hrest
        · exact leaves_of_done hrest
        · exact leaves_of_done hrest
        · cases hparse : C.parseCommand bytes with
          | none =>
              rw [hparse] at hrest
              exact leaves_of_reject ⟨_, rfl⟩ hrest
          | some command =>
              rw [hparse] at hrest
              obtain ⟨hrejected, hfailed⟩ := leaves_runCommand hrest
              refine ⟨hrejected, fun hr => (hfailed hr).imp_right ?_⟩
              rintro ⟨roomTopic, rfl, hmem⟩
              exact ⟨bytes, roomTopic, rfl, hparse, .tail _ hmem⟩
  · exact leaves_of_done h

end Runs

end Core

/-- A refused command leaves the session with its store, its seen ids and what it published; a
failed one leaves the topic lists and the catalog, unless it is the live subscribe of a join that
failed. -/
theorem rejected_command_changes_nothing {C : Core} {session : Option ℕ}
    {topic payload : Option Bytes} {status : GcsStatus} {w w' : ServiceState}
    {tr : Trace (Effect Globals) Effect.Answer}
    (h : Ends serviceWorld (C.gcsPublish session topic payload) w tr status w') :
    (status = .errorInvalidArgument ∨ status = .errorNotRunning → w' = w) ∧
      (status = .errorGeneric → ¬ LiveSubscribeFailed C payload tr →
        SameView w.globals w'.globals) := by
  obtain ⟨g, u, tr₁, ⟨rfl, rfl⟩, hbody, rfl⟩ := ends_ask_bind_iff.1 h
  obtain ⟨r, tr₂, tr₃, v, hlocked, hunlock, rfl⟩ := ends_bind_iff.1 hbody
  obtain ⟨_, x, tr₄, rfl, hdone, rfl⟩ := ends_ask_bind_iff.1 hunlock
  obtain ⟨rfl, rfl, rfl⟩ := ends_done_iff.1 hdone
  obtain ⟨hrejected, hfailed⟩ := Core.leaves_publishLocked hlocked
  refine ⟨fun hr => ?_, fun hr hlive => ?_⟩
  · obtain ⟨hg, rfl⟩ := hrejected hr
    rw [hg]
  · refine ((hfailed hr).resolve_right fun hsubscribe => hlive ?_).sameView
    obtain ⟨bytes, roomTopic, hpayload, hparse, hmem⟩ := hsubscribe
    exact ⟨bytes, roomTopic, hpayload, hparse, .tail _ (List.mem_append_left _ hmem)⟩

/-- An `update_space` names a space that is not there. -/
theorem rejected_command_changes_nothing_unknownSpace :
    let C := protoCore (Messaging.plaintext (ofString "self"))
    ∃ payload w tr w', Ends serviceWorld (C.gcsPublish (some 0) (some kCommandTopic) (some payload))
      w tr .errorGeneric w' ∧ SameView w.globals w'.globals := by
  intro C
  let command := GcsCommand.updateSpace (ofString "x") (ofString "a") false false
  let g : Globals := { Globals.fresh with session := some 0 }
  let w : ServiceState := ⟨g, .empty, ∅, []⟩
  let notice := ofString "update_space failed for '" ++ ofString "x" ++ ofString "'"
  obtain ⟨payload, hparse, hargs⟩ : ∃ payload, C.parseCommand payload = some command ∧
      ¬ (g.session = none ∨ some 0 ≠ g.session ∨ payload = [] ∨ kMaxInt < payload.length) :=
    ⟨command.serialize, GcsCommand.parse_serialize
      ⟨validUtf8_ofString "x", validUtf8_ofString "a"⟩, by decide⟩
  have hcommand : C.runCommand g command = Core.failWith g notice := by
    simp only [command, Core.runCommand, Core.updateSpace]
    rw [if_neg (by decide), if_neg (by decide)]
    rfl
  have h : Ends serviceWorld (C.gcsPublish (some 0) (some kCommandTopic) (some payload)) w
      [⟨.lock, g⟩, ⟨.isRunning, true⟩, ⟨.post (.error notice), ()⟩, ⟨.unlock g, ()⟩]
      .errorGeneric w := by
    refine ends_ask_iff.2 ⟨g, w, _, ⟨rfl, rfl⟩, ?_, rfl⟩
    change Ends serviceWorld (C.publishLocked g (some 0) (some kCommandTopic) (some payload) >>= _)
      _ _ _ _
    rw [Core.publishLocked, if_neg hargs]
    refine ends_ask_iff.2 ⟨true, w, _, rfl, ?_, rfl⟩
    rw [hparse]
    change Ends serviceWorld (C.runCommand g command >>= _) _ _ _ _
    rw [hcommand]
    refine ends_ask_iff.2 ⟨(), w, _, rfl, ?_, rfl⟩
    exact ends_ask_iff.2 ⟨(), w, _, rfl, .nil _ _, rfl⟩
  refine ⟨payload, w, _, w, h, (rejected_command_changes_nothing h).2 rfl ?_⟩
  rintro ⟨bytes, roomTopic, hbytes, hjoin, -⟩
  rw [← Option.some.inj hbytes, hparse] at hjoin
  exact GcsCommand.noConfusion (Option.some.inj hjoin)

end GcsChat
