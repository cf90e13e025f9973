import GcsChat.SerialSession

/-!
# Joined topics and live subscriptions

`join_topic` takes a topic that is already listed for one that is already subscribed. Three routes
list a topic: the smoke topics of `gcs_init`, which subscribe to nothing, an explicit join and a
derived join, which list the topic before they know whether the subscribe succeeds.
-/

namespace GcsChat

open ByteString Interactive

/-- The call is `join_topic` for this topic, and returns this status. -/
def SerialCall.Joins (C : Core) (topic : Bytes) (status : GcsStatus) : SerialCall → Prop
  | publish _ _ (some bytes) returned _ =>
      C.parseCommand bytes = some (.joinTopic topic) ∧ returned = status
  | _ => False

/-- A `join_topic` that registers its topic both ways and finds it listed. -/
def SerialCall.Rejoins (C : Core) (g : Globals) (topic : Bytes) (call : SerialCall) : Prop :=
  (∃ status, call.Joins C topic status) ∧ .listen topic true ∈ call.calls ∧
    .broadcast topic true ∈ call.calls ∧ topic ∈ g.roomTopics

/-- The call takes the topic into the list that its route consults: a refresh into the derived topics,
a join into the listed ones. -/
def SerialCall.TakesIn (C : Core) (g g' : Globals) (topic : Bytes) (call : SerialCall) : Prop :=
  (topic ∉ g.derivedTopics ∧ topic ∈ g'.derivedTopics) ∨
    ((∃ status, call.Joins C topic status) ∧ topic ∉ g.roomTopics ∧ topic ∈ g'.roomTopics)

/-- The pubsub refuses to subscribe to the topic. -/
def SerialCall.Refused (topic : Bytes) (call : SerialCall) : Prop :=
  .subscribe topic false ∈ call.calls

/-- One subscribe to the topic, answered by `live`, and no other one. -/
def SubscribesOnce (topic : Bytes) (live : Bool) (calls : List TopicCall) : Prop :=
  ∃ before after, calls = before ++ .subscribe topic live :: after ∧
    ∀ live', .subscribe topic live' ∉ before ++ after

section Calls

variable {g g' : Globals} {topic : Bytes} {topics : List Bytes} {calls calls' : List TopicCall}
  {live live' : Bool} {status : GcsStatus}

theorem JoinCalls.mem_both {calls : List TopicCall} (h : JoinCalls topic true calls) :
    .listen topic true ∈ calls ∧ .broadcast topic true ∈ calls := by
  cases h
  simp

theorem SubscribesOnce.count_le (h : SubscribesOnce topic live calls) :
    calls.count (.subscribe topic true) ≤ 1 := by
  obtain ⟨before, after, rfl, hnone⟩ := h
  have hrest : (before ++ after).count (.subscribe topic true) = 0 :=
    List.count_eq_zero.2 (hnone true)
  rw [List.count_append] at hrest ⊢
  rw [List.count_cons]
  split <;> omega

theorem SubscribesOnce.unique (h : SubscribesOnce topic live calls)
    (hmem : .subscribe topic live' ∈ calls) : live' = live := by
  obtain ⟨before, after, rfl, hnone⟩ := h
  rcases List.mem_append.1 hmem with hmem | hmem
  · exact absurd (List.mem_append_left _ hmem) (hnone live')
  · rcases List.mem_cons.1 hmem with heq | hmem
    · exact (TopicCall.subscribe.inj heq).2
    · exact absurd (List.mem_append_right _ hmem) (hnone live')

theorem SubscribesOnce.append_left (h : SubscribesOnce topic live calls)
    (hnone : ∀ live', .subscribe topic live' ∉ calls') :
    SubscribesOnce topic live (calls' ++ calls) := by
  obtain ⟨before, after, rfl, hrest⟩ := h
  refine ⟨calls' ++ before, after, (List.append_assoc ..).symm, fun live' hmem => ?_⟩
  rw [List.append_assoc] at hmem
  exact (List.mem_append.1 hmem).elim (hnone live') (hrest live')

theorem Registering.subscribe_not_mem (h : Registering topics g calls g')
    (hmem : topic ∈ g.derivedTopics) : .subscribe topic live ∉ calls := by
  induction h with
  | nil => exact List.not_mem_nil
  | known _ _ ih => exact ih hmem
  | failed _ hjoin _ ih =>
      intro hlive
      exact (List.mem_append.1 hlive).elim (hjoin.subscribe_not_mem topic live) (ih hmem)
  | added hnew hjoin _ _ ih =>
      intro hlive
      rcases List.mem_append.1 hlive with hlive | hlive
      · exact hjoin.subscribe_not_mem topic live hlive
      · rcases List.mem_cons.1 hlive with heq | hlive
        · exact hnew ((TopicCall.subscribe.inj heq).1 ▸ hmem)
        · exact ih (List.mem_append_left _ hmem) hlive

theorem Registering.arms (h : Registering topics g calls g')
    (hlive : .subscribe topic live ∈ calls) :
    topic ∈ topics ∧ topic ∉ g.derivedTopics ∧ .broadcast topic true ∈ calls ∧
      SubscribesOnce topic live calls := by
  induction h with
  | nil => cases hlive
  | known _ _ ih =>
      obtain ⟨htopic, hrest⟩ := ih hlive
      exact ⟨.tail _ htopic, hrest⟩
  | failed _ hjoin _ ih =>
      have hnone := hjoin.subscribe_not_mem topic
      obtain ⟨htopic, hnew, hbroadcast, honce⟩ :=
        ih ((List.mem_append.1 hlive).resolve_left (hnone live))
      exact ⟨.tail _ htopic, hnew, List.mem_append_right _ hbroadcast, honce.append_left hnone⟩
  | @added t rest g _ calls calls' hnew hjoin live' hloop ih =>
      have hnone := hjoin.subscribe_not_mem topic
      rcases List.mem_cons.1 ((List.mem_append.1 hlive).resolve_left (hnone live)) with heq | hlive
      · obtain ⟨rfl, rfl⟩ := TopicCall.subscribe.inj heq
        refine ⟨.head _, hnew, List.mem_append_left _ hjoin.mem_both.2, calls, calls', rfl, fun live' hmem => ?_⟩
        refine (List.mem_append.1 hmem).elim (hnone live') ?_
        exact hloop.subscribe_not_mem (List.mem_append_right _ List.mem_cons_self)
      · obtain ⟨htopic, hmore, hbroadcast, honce⟩ := ih hlive
        have hne : topic ≠ t := fun heq =>
          hmore (heq ▸ List.mem_append_right _ List.mem_cons_self)
        have hother : ∀ l, .subscribe topic l ∉ calls ++ [.subscribe t live'] := by
          intro l hmem
          rcases List.mem_append.1 hmem with hmem | hmem
          · exact hnone l hmem
          · exact hne (TopicCall.subscribe.inj (List.mem_singleton.1 hmem)).1
        refine ⟨.tail _ htopic, fun hmem => hmore (List.mem_append_left _ hmem),
          List.mem_append_right _ (.tail _ hbroadcast), ?_⟩
        have := honce.append_left hother
        rwa [List.append_assoc] at this

theorem JoinOutcome.arms {joined : Bytes} (h : JoinOutcome g joined calls g' status)
    (hlive : .subscribe topic live ∈ calls) :
    topic = joined ∧ topic ∉ g.roomTopics ∧ topic ∈ g'.roomTopics ∧
      SubscribesOnce topic live calls := by
  cases h with
  | rejected => cases hlive
  | failed hjoin => exact absurd hlive (hjoin.subscribe_not_mem topic live)
  | again _ hjoin => exact absurd hlive (hjoin.subscribe_not_mem topic live)
  | @first calls hnew hjoin live' =>
      have hnone := hjoin.subscribe_not_mem topic
      have heq := List.mem_singleton.1 ((List.mem_append.1 hlive).resolve_left (hnone live))
      obtain ⟨rfl, rfl⟩ := TopicCall.subscribe.inj heq
      refine ⟨rfl, hnew, Core.mem_pushBackAbsent.2 (.inr rfl), calls, [], rfl, fun live' hmem => ?_⟩
      rw [List.append_nil] at hmem
      exact hnone live' hmem

theorem Registering.takesIn_iff (h : Registering topics g calls g') :
    topic ∉ g.derivedTopics ∧ topic ∈ (Core.evictUnderived topics g').derivedTopics ↔
      ∃ live, .subscribe topic live ∈ calls := by
  constructor
  · rintro ⟨hnew, hmem⟩
    have hmem' := (Core.mem_derivedTopics_evictUnderived.1 hmem).1
    exact h.subscribe_of_broadcast ((h.mem_iff.1.1 hmem').resolve_left hnew)
  · rintro ⟨live, hlive⟩
    obtain ⟨htopic, hnew, hbroadcast, -⟩ := h.arms hlive
    exact ⟨hnew, Core.mem_derivedTopics_evictUnderived.2 ⟨h.mem_iff.1.2 (.inr hbroadcast), htopic⟩⟩

theorem JoinOutcome.derivedTopics_eq {joined : Bytes} (h : JoinOutcome g joined calls g' status) :
    g'.derivedTopics = g.derivedTopics := by
  cases h <;> rfl

theorem JoinOutcome.takesIn_iff {joined : Bytes} (h : JoinOutcome g joined calls g' status) :
    topic = joined ∧ topic ∉ g.roomTopics ∧ topic ∈ g'.roomTopics ↔
      ∃ live, .subscribe topic live ∈ calls := by
  constructor
  · rintro ⟨rfl, hnew, hmem⟩
    cases h with
    | rejected => exact absurd hmem hnew
    | failed => exact absurd hmem hnew
    | again hlisted => exact absurd hlisted hnew
    | first _ _ live => exact ⟨live, List.mem_append_right _ List.mem_cons_self⟩
  · rintro ⟨live, hlive⟩
    obtain ⟨rfl, hnew, hmem, -⟩ := h.arms hlive
    exact ⟨rfl, hnew, hmem⟩

theorem InitOutcome.takesIn_iff {opened : Option ℕ} (h : InitOutcome g calls g' opened) :
    topic ∉ g.derivedTopics ∧ topic ∈ g'.derivedTopics ↔ ∃ live, .subscribe topic live ∈ calls := by
  cases h with
  | running => exact iff_of_false (fun h => h.1 h.2) fun ⟨_, hlive⟩ => List.not_mem_nil hlive
  | failed hnone => exact iff_of_false (fun h => h.1 h.2) fun ⟨live, hlive⟩ => hnone topic live hlive
  | started _ _ _ hsmoke h =>
      refine h.takesIn_iff.trans ⟨fun ⟨live, hlive⟩ => ⟨live, List.mem_append_right _ hlive⟩, ?_⟩
      rintro ⟨live, hlive⟩
      exact ⟨live, (List.mem_append.1 hlive).resolve_left (hsmoke topic live)⟩

theorem CommandOutcome.takesIn_iff {command : GcsCommand}
    (h : CommandOutcome g command calls g' status) :
    (topic ∉ g.derivedTopics ∧ topic ∈ g'.derivedTopics) ∨
        (command = .joinTopic topic ∧ topic ∉ g.roomTopics ∧ topic ∈ g'.roomTopics) ↔
      ∃ live, .subscribe topic live ∈ calls := by
  cases h with
  | @join joined _ _ _ h =>
      refine Iff.trans ?_ h.takesIn_iff
      rw [h.derivedTopics_eq, GcsCommand.joinTopic.injEq, eq_comm (a := topic)]
      exact or_iff_right fun hboth => hboth.1 hboth.2
  | kept hnot entities =>
      refine iff_of_false ?_ fun ⟨_, hlive⟩ => List.not_mem_nil hlive
      rintro (hboth | ⟨hjoin, -⟩)
      · exact hboth.1 hboth.2
      · exact hnot topic hjoin
  | refreshed hnot h =>
      refine Iff.trans (or_iff_left fun hjoin => hnot topic hjoin.1) ?_
      exact h.takesIn_iff

theorem Registering.subscribesOnce (h : Registering topics g calls g')
    (hlive : .subscribe topic live ∈ calls) : SubscribesOnce topic live calls :=
  (h.arms hlive).2.2.2

theorem InitOutcome.subscribesOnce {opened : Option ℕ} (h : InitOutcome g calls g' opened)
    (hlive : .subscribe topic live ∈ calls) : SubscribesOnce topic live calls := by
  cases h with
  | running => cases hlive
  | failed hnone => exact absurd hlive (hnone topic live)
  | started _ _ _ hsmoke h =>
      have hafter := (List.mem_append.1 hlive).resolve_left (hsmoke topic live)
      exact (h.subscribesOnce hafter).append_left (hsmoke topic)

theorem CommandOutcome.subscribesOnce {command : GcsCommand}
    (h : CommandOutcome g command calls g' status) (hlive : .subscribe topic live ∈ calls) :
    SubscribesOnce topic live calls := by
  cases h with
  | join h => exact (h.arms hlive).2.2.2
  | kept => cases hlive
  | refreshed _ h => exact h.subscribesOnce hlive

end Calls

section Step

variable {C : Core} {g g' : Globals} {call : SerialCall} {topic : Bytes} {status : GcsStatus}

theorem joinOutcome_of_step (hstep : (serialSystem C).step g call g')
    (h : call.Joins C topic status) :
    (status ≠ .ok ∧ call.calls = []) ∨ JoinOutcome g topic call.calls g' status := by
  cases call with
  | init opened calls => cases h
  | publish session name payload returned calls =>
      cases payload with
      | none => cases h
      | some bytes =>
          obtain ⟨hparse, rfl⟩ := h
          obtain ⟨tr, hends, rfl⟩ := hstep
          rcases Core.ends_gcsPublish hends with
            ⟨hstatus, hcalls, -⟩ | ⟨_, command, hbytes, hcommand, houtcome⟩
          · exact .inl ⟨hstatus, hcalls⟩
          · cases hbytes
            cases hparse.symm.trans hcommand
            exact .inr houtcome.of_joinTopic

theorem takesIn_iff (hstep : (serialSystem C).step g call g') :
    call.TakesIn C g g' topic ↔ ∃ live, .subscribe topic live ∈ call.calls := by
  cases call with
  | init opened calls =>
      obtain ⟨tr, hends, rfl⟩ := hstep
      refine Iff.trans (or_iff_left fun hjoin => ?_) (Core.ends_gcsInit hends).takesIn_iff
      obtain ⟨_, hjoins⟩ := hjoin.1
      exact hjoins
  | publish session name payload returned calls =>
      obtain ⟨tr, hends, rfl⟩ := hstep
      rcases Core.ends_gcsPublish hends with ⟨-, hnil, rfl⟩ | ⟨bytes, command, rfl, hparse, houtcome⟩
      · rw [SerialCall.calls, hnil]
        refine iff_of_false ?_ fun ⟨_, hlive⟩ => List.not_mem_nil hlive
        rintro (hboth | ⟨-, hboth⟩)
        · exact hboth.1 hboth.2
        · exact hboth.1 hboth.2
      · refine Iff.trans (or_congr_right (and_congr_left' ?_)) houtcome.takesIn_iff
        constructor
        · rintro ⟨_, hjoins, -⟩
          exact Option.some.inj (hparse.symm.trans hjoins)
        · rintro rfl
          exact ⟨returned, hparse, rfl⟩

theorem subscribesOnce_step (hstep : (serialSystem C).step g call g') {live : Bool}
    (hlive : .subscribe topic live ∈ call.calls) : SubscribesOnce topic live call.calls := by
  cases call with
  | init opened calls =>
      obtain ⟨tr, hends, rfl⟩ := hstep
      exact (Core.ends_gcsInit hends).subscribesOnce hlive
  | publish session name payload returned calls =>
      obtain ⟨tr, hends, rfl⟩ := hstep
      rcases Core.ends_gcsPublish hends with ⟨-, hnil, -⟩ | ⟨_, _, -, -, houtcome⟩
      · rw [SerialCall.calls, hnil] at hlive
        cases hlive
      · exact houtcome.subscribesOnce hlive

/-- The subscribe of a call succeeds when it takes the topic in and the pubsub does not refuse. -/
theorem subscribed_iff (hstep : (serialSystem C).step g call g') :
    .subscribe topic true ∈ call.calls ↔ call.TakesIn C g g' topic ∧ ¬ call.Refused topic := by
  rw [takesIn_iff hstep]
  constructor
  · intro hlive
    refine ⟨⟨true, hlive⟩, fun hrefused => ?_⟩
    exact Bool.false_ne_true ((subscribesOnce_step hstep hlive).unique hrefused)
  · rintro ⟨⟨live, hlive⟩, hnot⟩
    cases live with
    | true => exact hlive
    | false => exact absurd hlive hnot

theorem JoinCalls.not_mem_both {calls : List TopicCall} (h : JoinCalls topic false calls) :
    ¬ (.listen topic true ∈ calls ∧ .broadcast topic true ∈ calls) := by
  cases h <;> simp

/-- The fast path returns `ok` and subscribes to nothing. -/
theorem rejoins_step (hstep : (serialSystem C).step g call g') (h : call.Rejoins C g topic) :
    call.Joins C topic .ok ∧ ∀ live, .subscribe topic live ∉ call.calls := by
  obtain ⟨⟨status, hjoins⟩, hlisten, hbroadcast, hmem⟩ := h
  rcases joinOutcome_of_step hstep hjoins with ⟨-, hnil⟩ | houtcome
  · rw [hnil] at hlisten
    exact absurd hlisten List.not_mem_nil
  · generalize hcalls : call.calls = calls at *
    cases houtcome with
    | rejected => exact absurd hlisten List.not_mem_nil
    | failed hfail => exact absurd ⟨hlisten, hbroadcast⟩ hfail.not_mem_both
    | again _ hboth => exact ⟨hjoins, hboth.subscribe_not_mem topic⟩
    | first hnot => exact absurd hmem hnot

theorem joins_ok_step (hstep : (serialSystem C).step g call g') (h : call.Joins C topic .ok) :
    call.Rejoins C g topic ∨ .subscribe topic true ∈ call.calls := by
  rcases joinOutcome_of_step hstep h with ⟨hstatus, -⟩ | houtcome
  · exact absurd rfl hstatus
  · unfold SerialCall.Rejoins
    generalize hstatus : GcsStatus.ok = status at houtcome
    generalize call.calls = calls at *
    cases houtcome with
    | rejected => cases hstatus
    | failed => cases hstatus
    | again hmem hboth => exact .inl ⟨⟨_, h⟩, hboth.mem_both.1, hboth.mem_both.2, hmem⟩
    | first hnot hboth live =>
        cases live with
        | false => cases hstatus
        | true => exact .inr (List.mem_append_right _ List.mem_cons_self)

end Step

theorem Registering.listed {topics : List Bytes} {g g' : Globals} {calls : List TopicCall}
    (h : Registering topics g calls g') {topic : Bytes} (hmem : topic ∈ g'.roomTopics) :
    topic ∈ g.roomTopics ∨ ∃ live, .subscribe topic live ∈ calls :=
  (h.mem_iff.2.1 hmem).imp_right h.subscribe_of_broadcast

theorem JoinOutcome.listed {g g' : Globals} {topic joined : Bytes} {calls : List TopicCall}
    {status : GcsStatus} (h : JoinOutcome g joined calls g' status) (hmem : topic ∈ g'.roomTopics) :
    topic ∈ g.roomTopics ∨ ∃ live, .subscribe topic live ∈ calls := by
  cases h with
  | rejected => exact .inl hmem
  | failed => exact .inl hmem
  | again hlisted =>
      rcases Core.mem_pushBackAbsent.1 hmem with hroom | rfl
      · exact .inl hroom
      · exact .inl hlisted
  | first _ _ live =>
      rcases Core.mem_pushBackAbsent.1 hmem with hroom | rfl
      · exact .inl hroom
      · exact .inr ⟨live, List.mem_append_right _ List.mem_cons_self⟩

theorem listed_step {C : Core} {g g' : Globals} {call : SerialCall} {topic : Bytes}
    (hstep : (serialSystem C).step g call g') (hmem : topic ∈ g'.roomTopics) :
    topic ∈ g.roomTopics ∨ topic ∈ [kSmokeTopicA, kSmokeTopicB] ∨
      ∃ live, .subscribe topic live ∈ call.calls := by
  cases call with
  | init opened calls =>
      obtain ⟨tr, hends, rfl⟩ := hstep
      have hinit := Core.ends_gcsInit hends
      change _ ∨ _ ∨ ∃ live, .subscribe topic live ∈ topicCalls tr
      generalize topicCalls tr = calls at hinit
      cases hinit with
      | running => exact .inl hmem
      | failed => exact .inl hmem
      | started _ hsub _ _ h =>
          rcases h.listed (Core.mem_roomTopics_evictUnderived.1 hmem).1 with hroom | ⟨live, hlive⟩
          · rcases List.mem_append.1 hroom with hroom | hroom
            · exact .inl hroom
            · exact .inr (.inl (hsub.subset hroom))
          · exact .inr (.inr ⟨live, List.mem_append_right _ hlive⟩)
  | publish session name payload status calls =>
      obtain ⟨tr, hends, rfl⟩ := hstep
      rcases Core.ends_gcsPublish hends with ⟨-, -, rfl⟩ | ⟨bytes, command, -, -, houtcome⟩
      · exact .inl hmem
      change _ ∨ _ ∨ ∃ live, .subscribe topic live ∈ topicCalls tr
      generalize topicCalls tr = calls at houtcome
      cases houtcome with
      | join h => exact (h.listed hmem).imp_right .inr
      | kept => exact .inl hmem
      | refreshed _ h =>
          exact (h.listed (Core.mem_roomTopics_evictUnderived.1 hmem).1).imp_right .inr

/-- In a run of a fresh process a listed topic is a smoke topic, or was asked to be subscribed to. -/
theorem listed_of_fresh {C : Core} (p : (serialSystem C).Path) (hfresh : p.state 0 = .fresh) {i : ℕ}
    (hi : i ≤ p.length) {topic : Bytes} (hmem : topic ∈ (p.state i).roomTopics) :
    topic ∈ [kSmokeTopicA, kSmokeTopicB] ∨
      ∃ j < i, ∃ live, .subscribe topic live ∈ (p.label j).calls := by
  induction i with
  | zero =>
      rw [hfresh] at hmem
      cases hmem
  | succ i ih =>
      rcases listed_step (p.step i hi) hmem with hroom | hsmoke | hasked
      · exact (ih (by omega) hroom).imp_right fun ⟨j, hj, h⟩ => ⟨j, by omega, h⟩
      · exact .inl hsmoke
      · exact .inr ⟨i, by omega, hasked⟩

/-- Nothing but `gcs_init` has listed the smoke topic before call `i`. -/
def OnlyPreJoined {C : Core} (p : (serialSystem C).Path) (i : ℕ) (topic : Bytes) : Prop :=
  topic ∈ [kSmokeTopicA, kSmokeTopicB] ∧
    ∀ j < i, ¬ (p.label j).TakesIn C (p.state j) (p.state (j + 1)) topic

/-- The topic has been taken in before call `i`, and the pubsub has refused it each time. -/
def AlwaysRefused {C : Core} (p : (serialSystem C).Path) (i : ℕ) (topic : Bytes) : Prop :=
  (∃ j < i, (p.label j).TakesIn C (p.state j) (p.state (j + 1)) topic) ∧
    ∀ j < i, (p.label j).TakesIn C (p.state j) (p.state (j + 1)) topic → (p.label j).Refused topic

/-- What takes the fast path unsubscribed is a smoke topic, or a topic whose subscribes all failed. -/
theorem unsubscribed_rejoin {C : Core} (p : (serialSystem C).Path) (hfresh : p.state 0 = .fresh)
    {i : ℕ} (hi : i < p.length) {topic : Bytes} (hlisted : topic ∈ (p.state i).roomTopics) :
    (∀ j < i, .subscribe topic true ∉ (p.label j).calls) ↔
      OnlyPreJoined p i topic ∨ AlwaysRefused p i topic := by
  have hlive : ∀ j < i, .subscribe topic true ∈ (p.label j).calls ↔
      (p.label j).TakesIn C (p.state j) (p.state (j + 1)) topic ∧ ¬ (p.label j).Refused topic :=
    fun j hj => subscribed_iff (p.step j (hj.trans hi))
  constructor
  · intro hnone
    by_cases htaken : ∃ j < i, (p.label j).TakesIn C (p.state j) (p.state (j + 1)) topic
    · refine .inr ⟨htaken, fun j hj htakes => ?_⟩
      by_contra hnot
      exact hnone j hj ((hlive j hj).2 ⟨htakes, hnot⟩)
    · refine .inl ⟨?_, fun j hj htakes => htaken ⟨j, hj, htakes⟩⟩
      rcases listed_of_fresh p hfresh hi.le hlisted with hsmoke | ⟨j, hj, live, hasked⟩
      · exact hsmoke
      · exact absurd ⟨j, hj, (takesIn_iff (p.step j (hj.trans hi))).2 ⟨live, hasked⟩⟩ htaken
  · rintro (⟨-, hnever⟩ | ⟨-, hrefused⟩) j hj hsubscribed
    · exact hnever j hj ((hlive j hj).1 hsubscribed).1
    · have hboth := (hlive j hj).1 hsubscribed
      exact hboth.2 (hrefused j hj hboth.1)

/-- Over every run of a fresh process, each topic whose join returned `ok` has been subscribed to
exactly when no join finds a topic listed that is only pre-joined, or whose subscribes all failed. -/
theorem joined_live_iff (C : Core) (p : (serialSystem C).Path) (hfresh : p.state 0 = .fresh) :
    (∀ i < p.length, ∀ topic, (p.label i).Joins C topic .ok →
        ∃ j ≤ i, .subscribe topic true ∈ (p.label j).calls) ↔
      ∀ i < p.length, ∀ topic, (p.label i).Rejoins C (p.state i) topic →
        ¬ OnlyPreJoined p i topic ∧ ¬ AlwaysRefused p i topic := by
  constructor
  · intro h i hi topic hrejoin
    obtain ⟨hok, hnone⟩ := rejoins_step (p.step i hi) hrejoin
    obtain ⟨j, hj, hlive⟩ := h i hi topic hok
    have hbefore : j < i := lt_of_le_of_ne hj fun heq => hnone true (heq ▸ hlive)
    rw [← not_or, ← unsubscribed_rejoin p hfresh hi hrejoin.2.2.2]
    exact fun hnever => hnever j hbefore hlive
  · intro h i hi topic hok
    rcases joins_ok_step (p.step i hi) hok with hrejoin | hlive
    · have hnot := h i hi topic hrejoin
      rw [← not_or, ← unsubscribed_rejoin p hfresh hi hrejoin.2.2.2] at hnot
      by_contra hnever
      exact hnot fun j hj hlive => hnever ⟨j, hj.le, hlive⟩
    · exact ⟨i, le_rfl, hlive⟩

def smokeGlobals : Globals := ⟨some 0, .fresh, [kSmokeTopicA, kSmokeTopicB], [], [], 0⟩

theorem ends_gcsInit_fresh (C : Core) : Ends serialWorld C.gcsInit .fresh
    [⟨.lock, .fresh⟩, ⟨.initSession, some 0⟩, ⟨.addListenTopic kSmokeTopicA, true⟩,
      ⟨.addBroadcastTopic kSmokeTopicA, true⟩, ⟨.addListenTopic kSmokeTopicB, true⟩,
      ⟨.addBroadcastTopic kSmokeTopicB, true⟩, ⟨.registerNewElementCallback, true⟩,
      ⟨.get kManifestKey, none⟩, ⟨.unlock smokeGlobals, ()⟩] (some 0) smokeGlobals := by
  refine ends_ask_iff.2 ⟨Globals.fresh, .fresh, _, ⟨rfl, rfl⟩, ?_, rfl⟩
  refine ends_ask_iff.2 ⟨some 0, .fresh, _, rfl, ?_, rfl⟩
  refine ends_ask_iff.2 ⟨true, .fresh, _, rfl, ?_, rfl⟩
  refine ends_ask_iff.2 ⟨true, .fresh, _, rfl, ?_, rfl⟩
  refine ends_ask_iff.2 ⟨true, .fresh, _, rfl, ?_, rfl⟩
  refine ends_ask_iff.2 ⟨true, .fresh, _, rfl, ?_, rfl⟩
  refine ends_ask_iff.2 ⟨true, .fresh, _, rfl, ?_, rfl⟩
  refine ends_ask_iff.2 ⟨none, .fresh, _, rfl, ?_, rfl⟩
  exact ends_ask_iff.2 ⟨(), smokeGlobals, _, rfl, .nil _ _, rfl⟩

/-- A room that nothing but `join_topic` lists. -/
def loungeTopic : Bytes := ofString "gcs/chat/lounge"

def loungePayload : Bytes := (GcsCommand.joinTopic loungeTopic).serialize

theorem parse_loungePayload : GcsCommand.parse loungePayload = some (.joinTopic loungeTopic) := by
  have hvalid : (GcsCommand.joinTopic loungeTopic).Valid := validUtf8_ofString _
  exact GcsCommand.parse_serialize hvalid

def loungeCore : Core := protoCore (Messaging.plaintext (ofString "self"))

def joinCalls (topic : Bytes) : List TopicCall := [.listen topic true, .broadcast topic true]

def loungeJoin (calls : List TopicCall) : SerialCall :=
  .publish (some 0) (some kCommandTopic) (some loungePayload) .ok calls

theorem topicRejection_loungeTopic :
    Core.topicRejection (ofString "join_topic") loungeTopic = none := by decide

theorem step_firstLounge : (serialSystem loungeCore).step smokeGlobals
    (loungeJoin (joinCalls loungeTopic ++ [.subscribe loungeTopic true]))
    (smokeGlobals.joined loungeTopic) := by
  have hnew : loungeTopic ∉ smokeGlobals.roomTopics := by decide
  have hjoin : Ends serialWorld (loungeCore.joinTopic smokeGlobals loungeTopic) smokeGlobals _ _ _ :=
    Core.through_firstJoin topicRejection_loungeTopic hnew
  exact ⟨_, Core.through_gcsPublish rfl parse_loungePayload (by decide) (by decide) hjoin, rfl⟩

theorem step_secondLounge : (serialSystem loungeCore).step (smokeGlobals.joined loungeTopic)
    (loungeJoin (joinCalls loungeTopic)) ((smokeGlobals.joined loungeTopic).joined loungeTopic) := by
  let g := smokeGlobals.joined loungeTopic
  have hlisted : loungeTopic ∈ g.roomTopics := by decide
  have hjoin : Ends serialWorld (loungeCore.joinTopic g loungeTopic) g _ _ _ :=
    Core.through_rejoin topicRejection_loungeTopic hlisted
  exact ⟨_, Core.through_gcsPublish rfl parse_loungePayload (by decide) (by decide) hjoin, rfl⟩

def loungePath : (serialSystem loungeCore).Path where
  length := 3
  state
    | 0 => .fresh
    | 1 => smokeGlobals
    | 2 => smokeGlobals.joined loungeTopic
    | _ => (smokeGlobals.joined loungeTopic).joined loungeTopic
  label
    | 0 => .init (some 0) (joinCalls kSmokeTopicA ++ joinCalls kSmokeTopicB)
    | 1 => loungeJoin (joinCalls loungeTopic ++ [.subscribe loungeTopic true])
    | _ => loungeJoin (joinCalls loungeTopic)
  step i hi := by
    match i, hi with
    | 0, _ => exact ⟨_, ends_gcsInit_fresh loungeCore, rfl⟩
    | 1, _ => exact step_firstLounge
    | 2, _ => exact step_secondLounge

theorem topic_of_loungeJoin {calls : List TopicCall} {topic : Bytes} {status : GcsStatus}
    (h : (loungeJoin calls).Joins loungeCore topic status) : topic = loungeTopic :=
  (GcsCommand.joinTopic.inj (Option.some.inj (h.1.symm.trans parse_loungePayload)))

/-- The first join has subscribed to the room that the second one finds listed. -/
theorem joined_live_lounge : (loungePath.label 2).Rejoins loungeCore (loungePath.state 2) loungeTopic ∧
    ∃ j ≤ 2, .subscribe loungeTopic true ∈ (loungePath.label j).calls := by
  have hrejoin : (loungePath.label 2).Rejoins loungeCore (loungePath.state 2) loungeTopic :=
    ⟨⟨.ok, parse_loungePayload, rfl⟩, List.mem_cons_self, List.mem_cons_of_mem _ List.mem_cons_self,
      by decide⟩
  refine ⟨hrejoin, (joined_live_iff loungeCore loungePath rfl).2 (fun i hi topic h => ?_) 2
    (Nat.lt_succ_self 2) loungeTopic ⟨parse_loungePayload, rfl⟩⟩
  obtain ⟨⟨status, hjoins⟩, -, -, hlisted⟩ := h
  match i, hi with
  | 0, _ => exact hjoins.elim
  | 1, _ =>
      obtain rfl := topic_of_loungeJoin hjoins
      have hnew : loungeTopic ∉ smokeGlobals.roomTopics := by decide
      exact absurd hlisted hnew
  | 2, _ =>
      obtain rfl := topic_of_loungeJoin hjoins
      have hlive : .subscribe loungeTopic true ∈ (loungePath.label 1).calls :=
        List.mem_append_right _ List.mem_cons_self
      obtain ⟨htakes, hnot⟩ := (subscribed_iff (loungePath.step 1 (by decide))).1 hlive
      exact ⟨fun hpre => hpre.2 1 Nat.one_lt_two htakes,
        fun hrefused => hnot (hrefused.2 1 Nat.one_lt_two htakes)⟩

def rejoinedGlobals : Globals := { smokeGlobals with explicitTopics := [kSmokeTopicA] }

/-- Joining the first smoke topic registers it once more and replays a history that cannot be read. -/
theorem ends_join_smokeTopic (C : Core) {bytes : Bytes}
    (hparse : C.parseCommand bytes = some (.joinTopic kSmokeTopicA)) (hne : bytes ≠ [])
    (hlength : bytes.length ≤ kMaxInt) :
    Ends serialWorld (C.gcsPublish (some 0) (some kCommandTopic) (some bytes)) smokeGlobals
      [⟨.lock, smokeGlobals⟩, ⟨.isRunning, true⟩, ⟨.addListenTopic kSmokeTopicA, true⟩,
        ⟨.addBroadcastTopic kSmokeTopicA, true⟩,
        ⟨.post (.roomList [kSmokeTopicA, kSmokeTopicB]), ()⟩,
        ⟨.queryKeyValues (historyPrefix kSmokeTopicA), none⟩, ⟨.unlock rejoinedGlobals, ()⟩] .ok
      rejoinedGlobals := by
  have hvalid : Core.topicRejection (ofString "join_topic") kSmokeTopicA = none := by decide
  have hmem : kSmokeTopicA ∈ smokeGlobals.roomTopics := List.mem_cons_self
  exact Core.through_gcsPublish rfl hparse hne hlength (Core.through_rejoin hvalid hmem)

/-- A session is started, a smoke topic is joined with `ok`, and nothing was ever subscribed to. -/
theorem smokeTopic_joined_not_live :
    let C := protoCore (Messaging.plaintext (ofString "self"))
    ∃ p : (serialSystem C).Path, p.state 0 = .fresh ∧ (∃ calls, p.label 0 = .init (some 0) calls) ∧
      1 < p.length ∧ (p.label 1).Joins C kSmokeTopicA .ok ∧
      ∀ j ≤ 1, ∀ topic live, .subscribe topic live ∉ (p.label j).calls := by
  intro C
  let bytes := (GcsCommand.joinTopic kSmokeTopicA).serialize
  have hvalid : (GcsCommand.joinTopic kSmokeTopicA).Valid := validUtf8_ofString _
  have hparse : C.parseCommand bytes = some (.joinTopic kSmokeTopicA) :=
    GcsCommand.parse_serialize hvalid
  have hjoin := ends_join_smokeTopic C hparse (by decide) (by decide)
  let joins := [TopicCall.listen kSmokeTopicA true, .broadcast kSmokeTopicA true]
  let first := SerialCall.init (some 0)
    (joins ++ [.listen kSmokeTopicB true, .broadcast kSmokeTopicB true])
  let second := SerialCall.publish (some 0) (some kCommandTopic) (some bytes) .ok joins
  refine ⟨⟨2, fun | 0 => .fresh | 1 => smokeGlobals | _ => rejoinedGlobals,
    fun | 0 => first | _ => second, fun i hi => ?_⟩, rfl, ⟨_, rfl⟩, Nat.one_lt_two, ⟨hparse, rfl⟩,
    fun j hj topic live => ?_⟩
  · match i, hi with
    | 0, _ => exact ⟨_, ends_gcsInit_fresh C, rfl⟩
    | 1, _ => exact ⟨_, hjoin, rfl⟩
  · match j, hj with
    | 0, _ => simp [first, joins, SerialCall.calls]
    | 1, _ => simp [second, joins, SerialCall.calls]

end GcsChat
