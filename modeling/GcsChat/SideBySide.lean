import GcsChat.Lockstep
import GcsChat.SerialSession

/-!
# Two sessions side by side

Two sessions that differ in `g_explicitTopics` only, where the second one has one topic more, take the
same commands and get the same outcomes of what they store and register. They show the same room
lists and space trees until a refresh evicts the topic from the first one.
-/

namespace GcsChat

open ByteString Interactive

section Events

variable {G : Type} {tr tr' : Trace (Effect G) Effect.Answer}

/-- The pushed events that show membership and the catalog. -/
def catalogEvent : (Σ e : Effect G, e.Answer) → Option GcsEvent
  | ⟨.post (.roomList topics), _⟩ => some (.roomList topics)
  | ⟨.post (.spaceTree spaces rooms), _⟩ => some (.spaceTree spaces rooms)
  | _ => none

def catalogEvents (tr : Trace (Effect G) Effect.Answer) : List GcsEvent :=
  tr.filterMap catalogEvent

/-- What the core stores and registers, and the ids, times and node states it works with. -/
def Effect.Settled : Effect G → Prop
  | .isRunning => True
  | .get _ => True
  | .put _ _ => True
  | .nextId _ => True
  | .nowMs => True
  | .addListenTopic _ => True
  | .addBroadcastTopic _ => True
  | _ => False

instance : DecidablePred (Effect.Settled : Effect G → Prop) := fun e => by
  cases e <;> first | exact isTrue trivial | exact isFalse id

/-- Neither settled nor an event that shows the catalog. -/
def Effect.Unheard (e : Effect G) : Prop := ¬ e.Settled ∧ ∀ a, catalogEvent ⟨e, a⟩ = none

theorem Effect.Stores.settled {e : Effect G} (h : e.Stores) : e.Settled := by
  cases e <;> trivial

theorem unheard_post {event : GcsEvent} (hlist : ∀ topics, event ≠ .roomList topics)
    (htree : ∀ spaces rooms, event ≠ .spaceTree spaces rooms) :
    (Effect.post event : Effect G).Unheard := by
  refine ⟨id, fun _ => ?_⟩
  cases event with
  | roomList topics => exact absurd rfl (hlist topics)
  | spaceTree spaces rooms => exact absurd rfl (htree spaces rooms)
  | _ => rfl

theorem catalogEvents_of_unheard {α ω : Type} {W : World (Effect G) Effect.Answer ω}
    {p : Program G α} {w w' : ω} {a : α} (hp : p.AsksOnly Effect.Unheard)
    (h : Ends W p w tr a w') : catalogEvents tr = [] :=
  List.filterMap_eq_nil_iff.2 fun x hx => (h.asks hp x hx).2 x.2

end Events

section Unheard

variable {G : Type} (C : Core)

theorem unheard_errorNotice {α : Type} (message : Bytes) (a : α) :
    (ask (.post (.error message)) fun _ => done a : Program G α).AsksOnly Effect.Unheard :=
  ⟨unheard_post nofun nofun, fun _ => trivial⟩

theorem unheard_pushMessageHistory (topic : Bytes) :
    (C.pushMessageHistory topic).AsksOnly Effect.Unheard := by
  refine ⟨⟨id, fun _ => rfl⟩, fun scan => ?_⟩
  cases scan with
  | none => trivial
  | some entries => exact ⟨⟨id, fun _ => rfl⟩, fun _ => ⟨unheard_post nofun nofun, fun _ => trivial⟩⟩

theorem unheard_subscribeLive (g : Globals) (topic : Bytes) :
    (Core.subscribeLive g topic).AsksOnly Effect.Unheard := by
  refine ⟨⟨id, fun _ => rfl⟩, fun _ => ⟨⟨id, fun _ => rfl⟩, fun live => ⟨⟨id, fun _ => rfl⟩,
    fun held => ?_⟩⟩⟩
  cases live with
  | true => trivial
  | false => exact unheard_errorNotice _ _

theorem unheard_sinkMessage (M : Messaging) (msg : ChatMessageState) :
    (M.sinkMessage msg : Program G Unit).AsksOnly Effect.Unheard :=
  ⟨⟨id, fun _ => rfl⟩, fun _ => ⟨unheard_post nofun nofun, fun _ => ⟨⟨id, fun _ => rfl⟩,
    fun _ => trivial⟩⟩⟩

/-- Once the id is minted and the time is read, `SendMessage` is not heard. -/
theorem exists_sendMessageProgram_eq (M : Messaging) (topic text : Bytes) :
    ∃ rest : Bytes → ℤ → Program G Bool, (∀ mid now, (rest mid now).AsksOnly Effect.Unheard) ∧
      M.sendMessageProgram topic text =
        ask (.nextId kMessageIdPrefix) fun mid => ask .nowMs fun now => rest mid now := by
  have hsink : ∀ msg ok, (do M.sinkMessage msg; pure ok : Program G Bool).AsksOnly
      Effect.Unheard := fun msg ok => (unheard_sinkMessage M msg).bind fun _ => trivial
  refine ⟨_, fun mid now => ?_, rfl⟩
  refine ⟨⟨id, fun _ => rfl⟩, fun _ => (unheard_sinkMessage M _).bind fun _ =>
    ⟨⟨id, fun _ => rfl⟩, fun random => ?_⟩⟩
  dsimp only [Interactive.bind]
  cases M.sealed random topic (M.codec.serialize (M.completeMessage topic text mid now)) with
  | none => exact hsink _ false
  | some payload =>
      refine ⟨⟨id, fun _ => rfl⟩, fun publishOk => ?_⟩
      cases publishOk with
      | false => exact hsink _ false
      | true =>
          refine ⟨⟨id, fun _ => rfl⟩, fun putOk => ?_⟩
          cases putOk with
          | false => exact hsink _ false
          | true => exact hsink _ true

end Unheard

/-- The same session, with the topic explicit in the second one. -/
structure Globals.Twins (topic : Bytes) (g g' : Globals) : Prop where
  session : g'.session = g.session
  entities : g'.entities = g.entities
  roomTopics : g'.roomTopics = g.roomTopics
  derivedTopics : g'.derivedTopics = g.derivedTopics
  explicitTopics : ∀ t, t ∈ g'.explicitTopics ↔ t ∈ g.explicitTopics ∨ t = topic
  listed : topic ∈ g.roomTopics

section Twins

variable {topic : Bytes} {g g' : Globals}

theorem twins_joined (h : topic ∈ g.roomTopics) : g.Twins topic (g.joined topic) where
  session := rfl
  entities := rfl
  roomTopics := if_pos h
  derivedTopics := rfl
  explicitTopics _ := Core.mem_pushBackAbsent
  listed := h

theorem Globals.Twins.with_entities (h : g.Twins topic g') (entities : EntityStore) :
    Globals.Twins topic { g with entities := entities } { g' with entities := entities } :=
  ⟨h.session, rfl, h.roomTopics, h.derivedTopics, h.explicitTopics, h.listed⟩

theorem Globals.Twins.addDerived (h : g.Twins topic g') (t : Bytes) :
    (Core.addDerived g t).Twins topic (Core.addDerived g' t) where
  session := h.session
  entities := h.entities
  roomTopics := congrArg (Core.pushBackAbsent · t) h.roomTopics
  derivedTopics := congrArg (· ++ [t]) h.derivedTopics
  explicitTopics := h.explicitTopics
  listed := Core.mem_pushBackAbsent.2 (.inl h.listed)

theorem Globals.Twins.joined (h : g.Twins topic g') (t : Bytes) :
    (g.joined t).Twins topic (g'.joined t) where
  session := h.session
  entities := h.entities
  roomTopics := congrArg (Core.pushBackAbsent · t) h.roomTopics
  derivedTopics := h.derivedTopics
  explicitTopics u := by
    change u ∈ Core.pushBackAbsent _ _ ↔ u ∈ Core.pushBackAbsent _ _ ∨ _
    rw [Core.mem_pushBackAbsent, Core.mem_pushBackAbsent, h.explicitTopics]
    tauto
  listed := Core.mem_pushBackAbsent.2 (.inl h.listed)

theorem Globals.Twins.evictUnderived (h : g.Twins topic g') (derived : List Bytes)
    (hmem : topic ∈ (Core.evictUnderived derived g).roomTopics) :
    (Core.evictUnderived derived g).Twins topic (Core.evictUnderived derived g') where
  session := h.session
  entities := h.entities
  roomTopics := by
    have hkept := (Core.mem_roomTopics_evictUnderived.1 hmem).2
    unfold Core.evictUnderived
    simp only
    rw [h.roomTopics, h.derivedTopics]
    refine List.foldl_ext _ _ _ fun rooms t ht => if_congr ?_ rfl rfl
    rw [h.explicitTopics]
    refine or_congr_right' fun hnot => ⟨fun hexplicit => hexplicit.elim id ?_, .inl⟩
    rintro rfl
    exact (hkept ht).resolve_left hnot
  derivedTopics := congrArg (List.filter _) h.derivedTopics
  explicitTopics := h.explicitTopics
  listed := hmem

theorem Globals.Twins.mem_evictUnderived (h : g.Twins topic g') (derived : List Bytes) :
    topic ∈ (Core.evictUnderived derived g').roomTopics :=
  Core.mem_roomTopics_evictUnderived.2
    ⟨h.roomTopics ▸ h.listed, fun _ => .inr ((h.explicitTopics topic).2 (.inr rfl))⟩

end Twins

/-- One session after the other call by call, with the events that show the catalog. -/
def catalogWorld : World (Effect Globals) Effect.Answer (Globals × List GcsEvent) :=
  serialWorld.logging catalogEvent

/-- The sessions are twins that showed the same, or the first one has lost the topic and they did
not. -/
def Parallel (topic : Bytes) (g : Globals) (shown : List GcsEvent) (g' : Globals)
    (shown' : List GcsEvent) : Prop :=
  (g.Twins topic g' ∧ shown = shown') ∨ (topic ∉ g.roomTopics ∧ shown ≠ shown')

/-- Two bodies of a command that end in parallel, wherever they start with the same events shown. -/
def Agrees (topic : Bytes) (p q : Program Globals (Globals × GcsStatus)) : Prop :=
  ∀ w v, w.2 = v.2 → Lockstep catalogWorld Effect.Settled
    (fun r w r' v => Parallel topic r.1 w.2 r'.1 v.2) p w q v

section Agrees

variable {topic : Bytes} {g g' : Globals} {C : Core} {α β : Type}

theorem catalogWorld_of_settled {e : Effect Globals} (he : e.Settled)
    {w w' : Globals × List GcsEvent} {a : e.Answer} (h : catalogWorld w e a w') : w' = w := by
  have hnote : catalogEvent ⟨e, a⟩ = none := by
    cases e with
    | post event => cases he
    | _ => rfl
  have hglobals : w'.1 = w.1 := by
    cases e with
    | lock => cases he
    | unlock _ => cases he
    | _ => exact h.1
  refine Prod.ext hglobals (h.2.trans ?_)
  rw [hnote]
  exact List.append_nil _

theorem ends_of_unheard {p : Program Globals α} (hp : p.AsksOnly Effect.Unheard)
    {w w' : Globals × List GcsEvent} {tr : Trace (Effect Globals) Effect.Answer} {a : α}
    (h : Ends catalogWorld p w tr a w') : Ends serialWorld p w.1 tr a w'.1 ∧ w'.2 = w.2 := by
  obtain ⟨hends, hlog⟩ := ends_logging_iff.1 h
  refine ⟨hends, hlog.trans ?_⟩
  rw [show tr.filterMap catalogEvent = [] from catalogEvents_of_unheard hp hends]
  exact List.append_nil _

theorem lockstep_of_unheard {R : α → Globals × List GcsEvent → β → Globals × List GcsEvent → Prop}
    {p : Program Globals α} {q : Program Globals β} {w v : Globals × List GcsEvent}
    (hp : p.AsksOnly Effect.Unheard) (hq : q.AsksOnly Effect.Unheard) (hlog : w.2 = v.2)
    (h : ∀ tr a w' tr' b v', Ends serialWorld p w.1 tr a w'.1 → Ends serialWorld q v.1 tr' b v'.1 →
      w'.2 = v'.2 → R a w' b v') : Lockstep catalogWorld Effect.Settled R p w q v := by
  refine .apart (hp.mono fun _ he => he.1) (hq.mono fun _ he => he.1) ?_
  intro tr a w' tr' b v' hends hends'
  obtain ⟨hleft, hlog₁⟩ := ends_of_unheard hp hends
  obtain ⟨hright, hlog₂⟩ := ends_of_unheard hq hends'
  exact h tr a w' tr' b v' hleft hright (hlog₁.trans (hlog.trans hlog₂.symm))

theorem lockstep_bind_settled {p : Program Globals α} (hp : p.AsksOnly Effect.Settled)
    {f f' : α → Program Globals (Globals × GcsStatus)} (h : ∀ a, Agrees topic (f a) (f' a)) :
    Agrees topic (p >>= f) (p >>= f') := by
  intro w v hlog
  refine (Lockstep.self hp fun e he w a w' => catalogWorld_of_settled he).bind ?_
  rintro a w' _ v' ⟨rfl, rfl, rfl⟩
  exact h a _ _ hlog

theorem agrees_pure (h : g.Twins topic g') (status status' : GcsStatus) :
    Agrees topic (pure (g, status)) (pure (g', status')) :=
  fun _ _ hlog => .done (.inl ⟨h, hlog⟩)

theorem agrees_notice (h : g.Twins topic g') (notice : Bytes) (status : GcsStatus) :
    Agrees topic (do Core.postErrorNotice notice; pure (g, status))
      (do Core.postErrorNotice notice; pure (g', status)) := by
  intro w v hlog
  refine lockstep_of_unheard (unheard_errorNotice _ _) (unheard_errorNotice _ _) hlog ?_
  intro tr a w' tr' b v' hp hq hlog'
  obtain ⟨_, _, _, _, hdone, -⟩ := ends_ask_iff.1 hp
  obtain ⟨_, _, _, _, hdone', -⟩ := ends_ask_iff.1 hq
  obtain ⟨-, rfl, -⟩ := ends_done_iff.1 hdone
  obtain ⟨-, rfl, -⟩ := ends_done_iff.1 hdone'
  exact .inl ⟨h, hlog'⟩

theorem settled_joinBothWays (t : Bytes) : (Core.joinBothWays t).AsksOnly Effect.Settled := by
  refine ⟨trivial, fun ok => ?_⟩
  cases ok with
  | true => exact ⟨trivial, fun _ => trivial⟩
  | false => trivial

/-- The history is replayed, and what follows goes on from the same events. -/
theorem lockstep_pushMessageHistory {t : Bytes}
    {R : α → Globals × List GcsEvent → β → Globals × List GcsEvent → Prop}
    {f : Unit → Program Globals α} {f' : Unit → Program Globals β} {w v : Globals × List GcsEvent}
    (hlog : w.2 = v.2)
    (h : ∀ w v, w.2 = v.2 → Lockstep catalogWorld Effect.Settled R (f ()) w (f' ()) v) :
    Lockstep catalogWorld Effect.Settled R (C.pushMessageHistory t >>= f) w
      (C.pushMessageHistory t >>= f') v := by
  have hboth : Lockstep catalogWorld Effect.Settled (fun _ w _ v => w.2 = v.2)
      (C.pushMessageHistory t) w (C.pushMessageHistory t) v :=
    lockstep_of_unheard (unheard_pushMessageHistory C t) (unheard_pushMessageHistory C t) hlog
      fun _ _ _ _ _ _ _ _ hlog' => hlog'
  exact hboth.bind fun _ w _ v hlog' => h w v hlog'

/-- Whatever the two subscribes answer, what is guarded stays as it was. -/
theorem lockstep_subscribeLive {t : Bytes}
    {R : α → Globals × List GcsEvent → β → Globals × List GcsEvent → Prop}
    {f : Globals × Bool → Program Globals α} {f' : Globals × Bool → Program Globals β}
    {w v : Globals × List GcsEvent} (hlog : w.2 = v.2)
    (h : ∀ live live' w v, w.2 = v.2 →
      Lockstep catalogWorld Effect.Settled R (f (g, live)) w (f' (g', live')) v) :
    Lockstep catalogWorld Effect.Settled R (Core.subscribeLive g t >>= f) w
      (Core.subscribeLive g' t >>= f') v := by
  have hboth : Lockstep catalogWorld Effect.Settled
      (fun r w r' v => w.2 = v.2 ∧ r.1 = g ∧ r'.1 = g')
      (Core.subscribeLive g t) w (Core.subscribeLive g' t) v :=
    lockstep_of_unheard (unheard_subscribeLive g t) (unheard_subscribeLive g' t) hlog
      fun _ _ _ _ _ _ hp hq hlog' =>
        ⟨hlog', (Core.ends_subscribeLive hp).1, (Core.ends_subscribeLive hq).1⟩
  refine hboth.bind fun ⟨r, live⟩ w ⟨r', live'⟩ v ⟨hlog', hr, hr'⟩ => ?_
  obtain rfl : r = g := hr
  obtain rfl : r' = g' := hr'
  exact h live live' w v hlog'

theorem agrees_joinTopic (h : g.Twins topic g') (t : Bytes) :
    Agrees topic (C.joinTopic g t) (C.joinTopic g' t) := by
  unfold Core.joinTopic
  cases Core.topicRejection (ofString "join_topic") t with
  | some notice => exact agrees_notice h notice _
  | none =>
      refine lockstep_bind_settled (settled_joinBothWays t) fun ok => ?_
      cases ok with
      | false => exact agrees_notice h _ _
      | true =>
          intro w v hlog
          refine .left id fun _ w' hw => .right id fun _ v' hv => ?_
          have hlog' : w'.2 = v'.2 := by
            rw [hw.2, hv.2, hlog]
            exact congrArg (v.2 ++ [.roomList ·]) (h.joined t).roomTopics.symm
          refine lockstep_pushMessageHistory hlog' fun w v hlog => ?_
          by_cases hmem : t ∈ g.roomTopics
          · have hmem' : t ∈ g'.roomTopics := h.roomTopics ▸ hmem
            rw [decide_eq_true hmem, decide_eq_true hmem']
            exact agrees_pure (h.joined t) .ok .ok w v hlog
          · have hmem' : t ∉ g'.roomTopics := h.roomTopics ▸ hmem
            rw [decide_eq_false hmem, decide_eq_false hmem']
            exact lockstep_subscribeLive hlog fun live live' w v hlog =>
              agrees_pure (h.joined t) _ _ w v hlog

theorem lockstep_registerDerived {topics : List Bytes} (h : g.Twins topic g')
    {w v : Globals × List GcsEvent} (hlog : w.2 = v.2) :
    Lockstep catalogWorld Effect.Settled (fun g w g' v => g.Twins topic g' ∧ w.2 = v.2)
      (C.registerDerived topics g) w (C.registerDerived topics g') v := by
  induction topics generalizing g g' w v with
  | nil => exact .done ⟨h, hlog⟩
  | cons t rest ih =>
      rw [Core.registerDerived, Core.registerDerived, h.derivedTopics]
      by_cases hmem : t ∈ g.derivedTopics
      · rw [if_pos hmem, if_pos hmem]
        exact ih h hlog
      rw [if_neg hmem, if_neg hmem]
      refine (Lockstep.self (settled_joinBothWays t)
        fun e he w a w' => catalogWorld_of_settled he).bind ?_
      rintro ok w' _ v' ⟨rfl, rfl, rfl⟩
      cases ok with
      | false => exact ih h hlog
      | true =>
          exact lockstep_pushMessageHistory hlog fun w v hlog =>
            lockstep_subscribeLive hlog fun _ _ w v hlog => ih (h.addDerived t) hlog

theorem agrees_publishCatalog (h : g.Twins topic g') :
    Agrees topic (C.publishCatalog g) (C.publishCatalog g') := by
  intro w v hlog
  unfold Core.publishCatalog Core.refreshDerivedJoins
  rw [h.entities, bind_assoc, bind_assoc]
  refine (lockstep_registerDerived h hlog).bind fun mid w mid' v hmid => ?_
  obtain ⟨hmid, hlog⟩ := hmid
  refine .left id fun _ w₁ hw₁ => .left id fun _ w₂ hw₂ => ?_
  refine .right id fun _ v₁ hv₁ => .right id fun _ v₂ hv₂ => .done ?_
  let derived := g.entities.derivedJoinedTopics
  let tree := Core.buildSpaceTreeEvent mid
  have hleft : w₂.2 = w.2 ++ [tree] ++ [.roomList (Core.evictUnderived derived mid).roomTopics] :=
    hw₂.2.trans (congrArg (· ++ _) hw₁.2)
  have hright : v₂.2 = w.2 ++ [tree] ++
      [.roomList (Core.evictUnderived derived mid').roomTopics] := by
    have htree : Core.buildSpaceTreeEvent mid' = tree :=
      congrArg (fun e : EntityStore => GcsEvent.spaceTree e.spaces e.rooms) hmid.entities
    rw [hlog, ← htree]
    exact hv₂.2.trans (congrArg (· ++ _) hv₁.2)
  by_cases hmem : topic ∈ (Core.evictUnderived derived mid).roomTopics
  · have htwins := hmid.evictUnderived derived hmem
    exact .inl ⟨htwins, by rw [hleft, hright, htwins.roomTopics]⟩
  · refine .inr ⟨hmem, fun heq => ?_⟩
    rw [hleft, hright] at heq
    have hlists := GcsEvent.roomList.inj (List.singleton_inj.1 (List.append_cancel_left heq))
    exact hmem (hlists ▸ hmid.mem_evictUnderived derived)

theorem agrees_createSpace (h : g.Twins topic g') (name : Bytes) (isPublic autoJoinRooms : Bool) :
    Agrees topic (C.createSpace g name isPublic autoJoinRooms)
      (C.createSpace g' name isPublic autoJoinRooms) := by
  unfold Core.createSpace
  cases Core.nameRejection (ofString "create_space") name with
  | some notice => exact agrees_notice h notice _
  | none =>
      rw [h.entities]
      refine lockstep_bind_settled ((stores_createSpace _ _ _ _ _).mono fun _ => Effect.Stores.settled)
        fun created => ?_
      by_cases hcreated : created.2.isSome
      · intro w v hlog
        rw [if_pos hcreated, if_pos hcreated]
        refine .left id fun _ w' hw => .right id fun _ v' hv => .done (.inl ⟨?_, ?_⟩)
        · exact h.with_entities created.1
        · rw [hw.2, hv.2, hlog]
          rfl
      · rw [if_neg hcreated, if_neg hcreated]
        exact agrees_notice (h.with_entities created.1) _ _

theorem agrees_afterWrite (h : g.Twins topic g') (written : Bool) (notice : Bytes) :
    Agrees topic (if written then C.publishCatalog g else Core.failWith g notice)
      (if written then C.publishCatalog g' else Core.failWith g' notice) := by
  cases written with
  | true => exact agrees_publishCatalog h
  | false => exact agrees_notice h notice _

theorem agrees_createRoom (h : g.Twins topic g') (name parentSpaceId : Bytes) :
    Agrees topic (C.createRoom g name parentSpaceId) (C.createRoom g' name parentSpaceId) := by
  unfold Core.createRoom
  cases Core.nameRejection (ofString "create_room") name with
  | some notice => exact agrees_notice h notice _
  | none =>
      rw [h.entities]
      by_cases hparent : parentSpaceId ≠ [] ∧ ¬ g.entities.isValidParentSpace parentSpaceId
      · simp only [if_pos hparent]
        exact agrees_notice h _ _
      · simp only [if_neg hparent]
        refine lockstep_bind_settled ((stores_createRoom _ _ _ _).mono fun _ => Effect.Stores.settled)
          fun created => ?_
        exact agrees_afterWrite (h.with_entities created.1) _ _

theorem agrees_updateSpace (h : g.Twins topic g') (spaceId name : Bytes)
    (isPublic autoJoinRooms : Bool) :
    Agrees topic (C.updateSpace g spaceId name isPublic autoJoinRooms)
      (C.updateSpace g' spaceId name isPublic autoJoinRooms) := by
  unfold Core.updateSpace
  by_cases hblank : spaceId = [] ∨ name = []
  · rw [if_pos hblank, if_pos hblank]
    exact agrees_notice h _ _
  rw [if_neg hblank, if_neg hblank]
  by_cases hlong : kMaxEntityNameLength < utf8CodePointCount name
  · rw [if_pos hlong, if_pos hlong]
    exact agrees_notice h _ _
  rw [if_neg hlong, if_neg hlong, h.entities]
  refine lockstep_bind_settled ((stores_updateSpace _ _ _).mono fun _ => Effect.Stores.settled)
    fun updated => ?_
  exact agrees_afterWrite (h.with_entities updated.1) _ _

theorem lockstep_sendMessageProgram {w v : Globals × List GcsEvent} (M : Messaging) (t text : Bytes)
    (hlog : w.2 = v.2) :
    Lockstep catalogWorld Effect.Settled (fun _ w' _ v' => w'.1 = w.1 ∧ v'.1 = v.1 ∧ w'.2 = v'.2)
      (M.sendMessageProgram t text) w (M.sendMessageProgram t text) v := by
  obtain ⟨rest, hrest, hprogram⟩ := exists_sendMessageProgram_eq (G := Globals) M t text
  have hquiet : ∀ {mid now u tr ok u'}, Ends serialWorld (rest mid now) u tr ok u' → u' = u := by
    intro mid now u tr ok u' hends
    have hwhole : Ends serialWorld (M.sendMessageProgram t text) u
        (⟨.nextId kMessageIdPrefix, mid⟩ :: ⟨.nowMs, now⟩ :: tr) ok u' := by
      rw [hprogram]
      exact ends_ask_iff.2 ⟨mid, u, _, rfl, ends_ask_iff.2 ⟨now, u, _, rfl, hends, rfl⟩, rfl⟩
    exact (quiet_sendMessageProgram M t text _ _ _ _ hwhole).1
  rw [hprogram]
  refine .both trivial fun mid w₁ v₁ hw₁ hv₁ => .both trivial fun now w₂ v₂ hw₂ hv₂ => ?_
  obtain rfl := catalogWorld_of_settled (e := .nextId _) trivial hw₁
  obtain rfl := catalogWorld_of_settled (e := .nextId _) trivial hv₁
  obtain rfl := catalogWorld_of_settled (e := .nowMs) trivial hw₂
  obtain rfl := catalogWorld_of_settled (e := .nowMs) trivial hv₂
  exact lockstep_of_unheard (hrest mid now) (hrest mid now) hlog
    fun _ _ _ _ _ _ hp hq hlog' => ⟨hquiet hp, hquiet hq, hlog'⟩

theorem agrees_sendText (h : g.Twins topic g') (t text : Bytes) :
    Agrees topic (C.sendText g t text) (C.sendText g' t text) := by
  unfold Core.sendText
  cases Core.topicRejection (ofString "send_text") t with
  | some notice => exact agrees_notice h notice _
  | none =>
      by_cases hmem : t ∉ g.roomTopics
      · have hmem' : t ∉ g'.roomTopics := h.roomTopics ▸ hmem
        rw [if_pos hmem, if_pos hmem']
        exact agrees_notice h _ _
      have hmem' : ¬ t ∉ g'.roomTopics := h.roomTopics ▸ hmem
      rw [if_neg hmem, if_neg hmem']
      by_cases hlong : kMaxMessageTextLength < text.length
      · rw [if_pos hlong, if_pos hlong]
        exact agrees_notice h _ _
      rw [if_neg hlong, if_neg hlong]
      intro w v hlog
      refine .left id fun _ w₁ hw₁ => .right id fun _ v₁ hv₁ => ?_
      have hlog₁ : w₁.2 = v₁.2 := by rw [hw₁.2, hv₁.2, hlog]; rfl
      refine (lockstep_sendMessageProgram C.messaging t text hlog₁).bind
        fun ok w₂ ok' v₂ ⟨hw₂, hv₂, hlog₂⟩ => ?_
      refine .left id fun held w₃ hw₃ => .right id fun held' v₃ hv₃ => ?_
      obtain rfl : held = { g with inFlight := g.inFlight + 1 } := hw₃.1.1.trans (hw₂.trans hw₁.1)
      obtain rfl : held' = { g' with inFlight := g'.inFlight + 1 } :=
        hv₃.1.1.trans (hv₂.trans hv₁.1)
      have hlog₃ : w₃.2 = v₃.2 := by rw [hw₃.2, hv₃.2, hlog₂]; rfl
      have hend : ∀ (g : Globals) (ok : Bool) (notice : Bytes), AsksOnly Effect.Unheard
          (if ok then pure (g, .ok) else Core.failWith g notice) := by
        intro g ok notice
        cases ok with
        | true => trivial
        | false => exact unheard_errorNotice notice _
      have hsame : ∀ {g : Globals} {ok : Bool} {notice : Bytes} {u u' : Globals}
          {tr : Trace (Effect Globals) Effect.Answer} {r : Globals × GcsStatus}, Ends serialWorld
          (if ok then pure (g, .ok) else Core.failWith g notice) u tr r u' → r.1 = g := by
        intro g ok notice u u' tr r hends
        cases ok with
        | true => exact congrArg Prod.fst (ends_done_iff.1 hends).2.1
        | false => exact congrArg Prod.fst (Core.ends_failWith hends).2.1
      refine lockstep_of_unheard (hend _ _ _) (hend _ _ _) hlog₃
        fun _ r _ _ r' _ hp hq hlog₄ => .inl ⟨?_, hlog₄⟩
      rw [hsame hp, hsame hq]
      exact ⟨h.session, h.entities, h.roomTopics, h.derivedTopics, h.explicitTopics, h.listed⟩

theorem agrees_runCommand (h : g.Twins topic g') (command : GcsCommand) :
    Agrees topic (C.runCommand g command) (C.runCommand g' command) := by
  cases command with
  | joinTopic t => exact agrees_joinTopic h t
  | sendText t text => exact agrees_sendText h t text
  | createSpace name isPublic autoJoinRooms => exact agrees_createSpace h name isPublic autoJoinRooms
  | createRoom name parentSpaceId => exact agrees_createRoom h name parentSpaceId
  | updateSpace spaceId name isPublic autoJoinRooms =>
      exact agrees_updateSpace h spaceId name isPublic autoJoinRooms
  | payloadNotSet => exact agrees_notice h _ _

theorem agrees_publishLocked (h : g.Twins topic g') (session : Option ℕ)
    (name payload : Option Bytes) :
    Agrees topic (C.publishLocked g session name payload)
      (C.publishLocked g' session name payload) := by
  unfold Core.publishLocked
  rw [h.session]
  split
  · next name payload =>
    by_cases hcheck : g.session = none ∨ session ≠ g.session ∨ payload = [] ∨
        kMaxInt < payload.length
    · rw [if_pos hcheck, if_pos hcheck]
      exact agrees_pure h _ _
    rw [if_neg hcheck, if_neg hcheck]
    refine lockstep_bind_settled (p := CoreSession.isRunning) ⟨trivial, fun _ => trivial⟩
      fun running => ?_
    cases running with
    | false => exact agrees_pure h _ _
    | true =>
        by_cases hname : name ≠ kCommandTopic
        · simp only [if_pos hname]
          exact agrees_pure h _ _
        · simp only [if_neg hname]
          cases C.parseCommand payload with
          | none => exact agrees_notice h _ _
          | some command => exact agrees_runCommand h command
  · exact agrees_pure h _ _

theorem parallel_step (h : g.Twins topic g') {session : Option ℕ} {name payload : Option Bytes}
    {u u' : Globals} {tr tr' : Trace (Effect Globals) Effect.Answer} {status status' : GcsStatus}
    (hends : Ends serialWorld (C.gcsPublish session name payload) g tr status u)
    (hends' : Ends serialWorld (C.gcsPublish session name payload) g' tr' status' u')
    (hsame : settledPart Effect.Settled tr = settledPart Effect.Settled tr') :
    Parallel topic u (catalogEvents tr) u' (catalogEvents tr') := by
  have hboth : Lockstep catalogWorld Effect.Settled (fun _ w _ v => Parallel topic w.1 w.2 v.1 v.2)
      (C.gcsPublish session name payload) (g, []) (C.gcsPublish session name payload) (g', []) := by
    refine .left id fun held w hw => .right id fun held' v hv => ?_
    obtain rfl : held = g := hw.1.1
    obtain rfl : held' = g' := hv.1.1
    have hlog : w.2 = v.2 := hw.2.trans hv.2.symm
    refine (agrees_publishLocked h session name payload w v hlog).bind fun r w r' v hends => ?_
    refine .left id fun _ w' hw' => .right id fun _ v' hv' => .done ?_
    rw [hw'.1, hv'.1, hw'.2, hv'.2]
    simpa [catalogEvent] using hends
  exact hboth.ends (ends_logging_iff.2 ⟨hends, (List.nil_append _).symm⟩)
    (ends_logging_iff.2 ⟨hends', (List.nil_append _).symm⟩) hsame

end Agrees

end GcsChat
