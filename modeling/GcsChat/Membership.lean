import GcsChat.TopicNesting

/-!
# The three lists of topics

`g_roomTopics`, `g_derivedTopics` and `g_explicitTopics` are kept in step by hand. Between commands a
topic is listed because `gcs_init` has joined it, because it was joined explicitly, or because it is
derived; and what is derived over the catalog is missing only while it could not be registered.
-/

namespace GcsChat

open ByteString Interactive

/-- The refresh asked for the topic and did not register it both ways. -/
def RegistrationFails (calls : List TopicCall) (topic : Bytes) : Prop :=
  (∃ ok, .listen topic ok ∈ calls) ∧ .broadcast topic true ∉ calls

/-- The room list consists of pinned, explicit and derived topics. -/
def Globals.Accounts (g : Globals) (pinned : Bytes → Prop) : Prop :=
  ∀ topic, topic ∈ g.roomTopics ↔ pinned topic ∨ topic ∈ g.explicitTopics ∨ topic ∈ g.derivedTopics

structure Globals.Distinct (g : Globals) : Prop where
  rooms : g.roomTopics.Nodup
  derived : g.derivedTopics.Nodup
  explicit : g.explicitTopics.Nodup

/-- The `gcs_init` that started the session before the `i`-th call joined this smoke topic. -/
def SmokeJoined (C : Core) (p : (loggedSystem C).Path) (i : ℕ) (topic : Bytes) : Prop :=
  topic ∈ [kSmokeTopicA, kSmokeTopicB] ∧ ∃ j < i, ∃ opened log, p.label j = .init opened log ∧
    (p.label j).Refreshes C (p.state j) ∧ .broadcast topic true ∈ (p.label j).calls

/-- Before the `i`-th call, the registration of the topic failed in every refresh since it last became
derived. -/
def FailedSince (C : Core) (p : (loggedSystem C).Path) (i : ℕ) (topic : Bytes) : Prop :=
  ∀ j < i, (p.label j).Refreshes C (p.state j) →
    (∀ k, j < k → k ≤ i → topic ∈ (p.state k).entities.derivedJoinedTopics) →
      RegistrationFails (p.label j).calls topic

def LoadsMinted (C : Core) (p : (loggedSystem C).Path) : Prop :=
  ∀ i < p.length, ∀ room, (p.label i).Loads C room →
    ∃ ms token seq, room.id = mintId kRoomIdPrefix ms token seq

section Refresh

variable {g g' : Globals} {topic : Bytes} {topics : List Bytes} {calls : List TopicCall}

theorem JoinCalls.listened {ok : Bool} (h : JoinCalls topic ok calls) :
    ∃ ok', .listen topic ok' ∈ calls := by
  cases h <;> simp

theorem nodup_pushBackAbsent (h : topics.Nodup) : (Core.pushBackAbsent topics topic).Nodup := by
  unfold Core.pushBackAbsent
  split
  · exact h
  · next hnew => exact h.append (List.nodup_singleton _) (List.disjoint_singleton.2 hnew)

theorem Registering.listened (h : Registering topics g calls g') (hmem : topic ∈ topics)
    (hnew : topic ∉ g.derivedTopics) : ∃ ok, .listen topic ok ∈ calls := by
  induction h with
  | nil => cases hmem
  | known hknown _ ih =>
      rcases List.mem_cons.1 hmem with rfl | hmem
      · exact absurd hknown hnew
      · exact ih hmem hnew
  | failed _ hjoin _ ih =>
      rcases List.mem_cons.1 hmem with rfl | hmem
      · exact hjoin.listened.imp fun _ => List.mem_append_left _
      · exact (ih hmem hnew).imp fun _ => List.mem_append_right _
  | @added t rest g _ calls calls' _ hjoin live _ ih =>
      by_cases heq : topic = t
      · subst heq
        exact hjoin.listened.imp fun _ => List.mem_append_left _
      · have hstill : topic ∉ (Core.addDerived g t).derivedTopics := by
          intro hadded
          rcases List.mem_append.1 hadded with hadded | hadded
          · exact hnew hadded
          · exact heq (List.mem_singleton.1 hadded)
        have hrest := (List.mem_cons.1 hmem).resolve_left heq
        exact (ih hrest hstill).imp fun _ hlisten => List.mem_append_right _ (.tail _ hlisten)

theorem Registering.distinct (h : Registering topics g calls g') (hdistinct : g.Distinct) :
    g'.Distinct := by
  induction h with
  | nil => exact hdistinct
  | known _ _ ih => exact ih hdistinct
  | failed _ _ _ ih => exact ih hdistinct
  | added hnew _ _ _ ih =>
      refine ih ⟨nodup_pushBackAbsent hdistinct.rooms, ?_, hdistinct.explicit⟩
      exact hdistinct.derived.append (List.nodup_singleton _) (List.disjoint_singleton.2 hnew)

theorem Globals.Distinct.evictUnderived (h : g.Distinct) (derived : List Bytes) :
    (Core.evictUnderived derived g).Distinct := by
  refine ⟨?_, h.derived.filter _, h.explicit⟩
  suffices hfold : ∀ (topics rooms : List Bytes), rooms.Nodup →
      (topics.foldl (fun roomTopics topic =>
        if topic ∈ derived ∨ topic ∈ g.explicitTopics then roomTopics
        else roomTopics.filter (· ≠ topic)) rooms).Nodup from hfold g.derivedTopics _ h.rooms
  intro topics
  induction topics with
  | nil => exact fun _ hrooms => hrooms
  | cons topic rest ih =>
      intro rooms hrooms
      rw [List.foldl_cons]
      apply ih
      split
      · exact hrooms
      · exact hrooms.filter _

/-- After a refresh a topic of the snapshot is derived, unless its registration has failed. -/
theorem Registering.derived_iff (h : Registering topics g calls g') :
    topic ∈ (Core.evictUnderived topics g').derivedTopics ↔ topic ∈ topics ∧
      (topic ∈ g.derivedTopics ∨ ¬ RegistrationFails calls topic) := by
  rw [Core.mem_derivedTopics_evictUnderived, h.mem_iff.1, and_comm]
  refine and_congr_right fun hmem => or_congr_right' fun hnew => ?_
  rw [RegistrationFails, not_and, not_not]
  exact ⟨fun hok _ => hok, fun hok => hok (h.listened hmem hnew)⟩

/-- A refresh leaves pinned topics alone as long as they are not derived. -/
theorem Registering.accounts {pinned : Bytes → Prop} (h : Registering topics g calls g')
    (hpinned : ∀ topic, pinned topic → topic ∉ g.derivedTopics ∧ topic ∉ topics)
    (haccounts : g.Accounts pinned) : (Core.evictUnderived topics g').Accounts pinned := by
  intro topic
  obtain ⟨hderived, hrooms⟩ : (topic ∈ g'.derivedTopics ↔ _) ∧ (topic ∈ g'.roomTopics ↔ _) :=
    h.mem_iff
  obtain ⟨-, hexplicit, -, -⟩ := h.grows
  have hderived' : topic ∈ (Core.evictUnderived topics g').derivedTopics ↔
      (topic ∈ g.derivedTopics ∨ .broadcast topic true ∈ calls) ∧ topic ∈ topics := by
    rw [Core.mem_derivedTopics_evictUnderived, hderived]
  have hexplicit' : topic ∈ (Core.evictUnderived topics g').explicitTopics ↔
      topic ∈ g.explicitTopics := by
    rw [← hexplicit]
    rfl
  rw [Core.mem_roomTopics_evictUnderived, hderived', hexplicit', hderived, hrooms, hexplicit,
    haccounts topic]
  constructor
  · rintro ⟨(hpin | hexpl | hwas) | hnew, hkept⟩
    · exact .inl hpin
    · exact .inr (.inl hexpl)
    · exact .inr ((hkept (.inl hwas)).elim (fun hmem => .inr ⟨.inl hwas, hmem⟩) .inl)
    · exact .inr ((hkept (.inr hnew)).elim (fun hmem => .inr ⟨.inr hnew, hmem⟩) .inl)
  · rintro (hpin | hexpl | ⟨hlisted, hmem⟩)
    · refine ⟨.inl (.inl hpin), fun hlisted => hlisted.elim ?_ ?_⟩
      · exact fun hwas => absurd hwas (hpinned topic hpin).1
      · exact fun hnew => .inl (h.topic_mem _ hnew).1
    · exact ⟨.inl (.inr (.inl hexpl)), fun _ => .inr hexpl⟩
    · exact ⟨hlisted.imp_left fun hwas => .inr (.inr hwas), fun _ => .inl hmem⟩

end Refresh

theorem roomTopic_mintId_not_smoke (ms token seq : ℕ) :
    kRoomTopicPrefix ++ mintId kRoomIdPrefix ms token seq ∉ [kSmokeTopicA, kSmokeTopicB] := by
  have hmint : (kRoomTopicPrefix ++ mintId kRoomIdPrefix ms token seq).take 14 =
      kRoomTopicPrefix ++ kRoomIdPrefix := by
    rw [mintId, List.append_assoc, List.append_assoc, ← List.append_assoc]
    exact List.take_left' (by decide)
  intro hmem
  have htake := List.mem_map_of_mem (f := List.take 14) hmem
  rw [hmint] at htake
  revert htake
  decide

theorem registrationFails_append_iff {before after : List TopicCall} {topic : Bytes}
    (h : ∀ c ∈ before, c.topic ≠ topic) :
    RegistrationFails (before ++ after) topic ↔ RegistrationFails after topic := by
  have hnone : ∀ c : TopicCall, c.topic = topic → (c ∈ before ++ after ↔ c ∈ after) := by
    intro c hc
    rw [List.mem_append, or_iff_right fun hmem => h c hmem hc]
  unfold RegistrationFails
  rw [hnone (.broadcast topic true) rfl]
  exact and_congr_left' (exists_congr fun ok => hnone (.listen topic ok) rfl)

section Runs

variable {C : Core} {p : (loggedSystem C).Path} {i : ℕ} {topic : Bytes}

theorem minted_of_mem (hfresh : p.state 0 = .fresh) (hminted : LoadsMinted C p) (hi : i ≤ p.length)
    {room : RoomRecord} (hroom : room ∈ (p.state i).entities.mRooms.values) :
    ∃ ms token seq, room.id = mintId kRoomIdPrefix ms token seq := by
  induction i with
  | zero =>
      rw [hfresh] at hroom
      cases hroom
  | succ i ih =>
      rcases room_of_step (p.step i hi) hroom with hroom | hmints | hloads
      · exact ih (by omega) hroom
      · exact (p.step i hi).1 _ _ hmints
      · exact hminted i hi room hloads

theorem not_smoke_of_derived (hfresh : p.state 0 = .fresh) (hminted : LoadsMinted C p)
    (hi : i ≤ p.length) (hmem : topic ∈ (p.state i).entities.derivedJoinedTopics) :
    topic ∉ [kSmokeTopicA, kSmokeTopicB] := by
  obtain ⟨room, hroom, -, htopic⟩ := EntityStore.mem_derivedJoinedTopics.1 hmem
  obtain ⟨ms, token, seq, hid⟩ := minted_of_mem hfresh hminted hi hroom
  rw [(EntityStore.of_derivedTopic htopic).2, hid]
  exact roomTopic_mintId_not_smoke ms token seq

/-- The last refresh counts when the topic is derived after it, and those before it when the topic
was derived already. -/
theorem failedSince_succ_iff (hmem : topic ∈ (p.state (i + 1)).entities.derivedJoinedTopics) :
    FailedSince C p (i + 1) topic ↔
      ((p.label i).Refreshes C (p.state i) → RegistrationFails (p.label i).calls topic) ∧
        (topic ∈ (p.state i).entities.derivedJoinedTopics → FailedSince C p i topic) := by
  constructor
  · intro h
    refine ⟨fun hrefresh => h i (Nat.lt_succ_self i) hrefresh fun k hk hki => ?_,
      fun _ j hj hrefresh hsince => h j (by omega) hrefresh fun k hk hki => ?_⟩
    · obtain rfl : k = i + 1 := by omega
      exact hmem
    · rcases Nat.le_succ_iff.1 hki with hki | rfl
      · exact hsince k hk hki
      · exact hmem
  · rintro ⟨hlast, hbefore⟩ j hj hrefresh hsince
    rcases Nat.lt_succ_iff_lt_or_eq.1 hj with hlt | rfl
    · exact hbefore (hsince i hlt (Nat.le_succ i)) j hlt hrefresh fun k hk hki =>
        hsince k hk (hki.trans (Nat.le_succ i))
    · exact hlast hrefresh

theorem smokeJoined_succ_iff : SmokeJoined C p (i + 1) topic ↔ SmokeJoined C p i topic ∨
    topic ∈ [kSmokeTopicA, kSmokeTopicB] ∧ (∃ opened log, p.label i = .init opened log) ∧
      (p.label i).Refreshes C (p.state i) ∧ .broadcast topic true ∈ (p.label i).calls := by
  constructor
  · rintro ⟨hsmoke, j, hj, opened, log, hlabel, hrefresh, hcalls⟩
    rcases Nat.lt_succ_iff_lt_or_eq.1 hj with hlt | rfl
    · exact .inl ⟨hsmoke, j, hlt, opened, log, hlabel, hrefresh, hcalls⟩
    · exact .inr ⟨hsmoke, ⟨opened, log, hlabel⟩, hrefresh, hcalls⟩
  · rintro (⟨hsmoke, j, hj, h⟩ | ⟨hsmoke, ⟨opened, log, hlabel⟩, hrefresh, hcalls⟩)
    · exact ⟨hsmoke, j, by omega, h⟩
    · exact ⟨hsmoke, i, Nat.lt_succ_self i, opened, log, hlabel, hrefresh, hcalls⟩

theorem smokeJoined_of_not_refreshes (hnot : ¬ (p.label i).Refreshes C (p.state i)) :
    SmokeJoined C p (i + 1) topic ↔ SmokeJoined C p i topic := by
  rw [smokeJoined_succ_iff, or_iff_left]
  exact fun h => hnot h.2.2.1

structure KeptInStep (C : Core) (p : (loggedSystem C).Path) (i : ℕ) : Prop where
  blank : (p.state i).session = none → (p.state i).roomTopics = [] ∧
    (p.state i).explicitTopics = [] ∧ (p.state i).derivedTopics = []
  distinct : (p.state i).Distinct
  accounts : (p.state i).Accounts (SmokeJoined C p i)
  derived : ∀ topic, topic ∈ (p.state i).derivedTopics ↔
    topic ∈ (p.state i).entities.derivedJoinedTopics ∧ ¬ FailedSince C p i topic

theorem KeptInStep.derived_of_not_refreshes (h : KeptInStep C p i)
    (hnot : ¬ (p.label i).Refreshes C (p.state i))
    (hmore : ∀ topic ∈ (p.state i).entities.derivedJoinedTopics,
      topic ∈ (p.state (i + 1)).entities.derivedJoinedTopics) (topic : Bytes) :
    topic ∈ (p.state i).derivedTopics ↔
      topic ∈ (p.state (i + 1)).entities.derivedJoinedTopics ∧ ¬ FailedSince C p (i + 1) topic := by
  rw [h.derived]
  constructor
  · rintro ⟨hmem, hregistered⟩
    refine ⟨hmore topic hmem, fun hfailed => hregistered ?_⟩
    exact ((failedSince_succ_iff (hmore topic hmem)).1 hfailed).2 hmem
  · rintro ⟨hmem, hregistered⟩
    rw [failedSince_succ_iff hmem, not_and, Classical.not_imp] at hregistered
    exact hregistered fun hrefresh => absurd hrefresh hnot

theorem KeptInStep.derived_of_refreshes (h : KeptInStep C p i)
    (hrefresh : (p.label i).Refreshes C (p.state i)) {g mid : Globals} {calls : List TopicCall}
    (hderived : g.derivedTopics = (p.state i).derivedTopics)
    (hloop : Registering (p.state (i + 1)).entities.derivedJoinedTopics g calls mid)
    (hcalls : ∀ topic ∈ (p.state (i + 1)).entities.derivedJoinedTopics,
      RegistrationFails (p.label i).calls topic ↔ RegistrationFails calls topic) (topic : Bytes) :
    topic ∈ (Core.evictUnderived (p.state (i + 1)).entities.derivedJoinedTopics mid).derivedTopics ↔
      topic ∈ (p.state (i + 1)).entities.derivedJoinedTopics ∧ ¬ FailedSince C p (i + 1) topic := by
  rw [hloop.derived_iff, hderived, h.derived]
  refine and_congr_right fun hmem => ?_
  rw [failedSince_succ_iff hmem, hcalls topic hmem]
  tauto

theorem keptInStep_zero (hfresh : p.state 0 = .fresh) : KeptInStep C p 0 := by
  have hsmoke : ∀ topic, ¬ SmokeJoined C p 0 topic := fun topic ⟨_, j, hj, _⟩ => by omega
  have hnone : ∀ topic, topic ∉ (p.state 0).entities.derivedJoinedTopics := by
    rw [hfresh]
    exact fun topic => List.not_mem_nil
  refine ⟨fun _ => ?_, ?_, fun topic => ?_, fun topic => ?_⟩
  · rw [hfresh]
    exact ⟨rfl, rfl, rfl⟩
  · rw [hfresh]
    exact ⟨.nil, .nil, .nil⟩
  · rw [hfresh]
    simp [Globals.fresh, hsmoke]
  · rw [iff_false_right fun h => hnone topic h.1, hfresh]
    exact List.not_mem_nil

theorem keptInStep_succ (hfresh : p.state 0 = .fresh) (hminted : LoadsMinted C p)
    (hi : i < p.length) (h : KeptInStep C p i) : KeptInStep C p (i + 1) := by
  have hsmoke : ∀ topic, topic ∈ (p.state (i + 1)).entities.derivedJoinedTopics →
      topic ∉ [kSmokeTopicA, kSmokeTopicB] := fun topic => not_smoke_of_derived hfresh hminted hi
  have hderived := h.derived_of_not_refreshes
  have hrefreshed := h.derived_of_refreshes
  have hwas : ∀ topic ∈ (p.state i).derivedTopics, topic ∉ [kSmokeTopicA, kSmokeTopicB] :=
    fun topic hmem => not_smoke_of_derived hfresh hminted hi.le ((h.derived topic).1 hmem).1
  have hstep := outcome_of_step (p.step i hi)
  generalize hnext : p.state (i + 1) = g' at hstep hsmoke hderived hrefreshed
  cases hstep with
  | @kept entities hnot hentities =>
      have hmore : ∀ topic ∈ (p.state i).entities.derivedJoinedTopics,
          topic ∈ entities.derivedJoinedTopics := by
        rcases hentities with rfl | ⟨space, rfl⟩
        · exact fun _ => id
        · exact fun topic => EntityStore.derivedJoinedTopics_emplaceSpace space
      refine ⟨?_, ?_, ?_, ?_⟩ <;> rw [hnext]
      · exact h.blank
      · exact ⟨h.distinct.rooms, h.distinct.derived, h.distinct.explicit⟩
      · intro topic
        rw [smokeJoined_of_not_refreshes hnot]
        exact h.accounts topic
      · exact hderived hnot hmore
  | @joined joined hup hnot hruns hvalid =>
      refine ⟨?_, ?_, ?_, ?_⟩ <;> rw [hnext]
      · exact fun hnone => absurd hnone hup
      · exact ⟨nodup_pushBackAbsent h.distinct.rooms, h.distinct.derived,
          nodup_pushBackAbsent h.distinct.explicit⟩
      · intro topic
        rw [smokeJoined_of_not_refreshes hnot]
        change topic ∈ Core.pushBackAbsent _ _ ↔ _ ∨ topic ∈ Core.pushBackAbsent _ _ ∨
          topic ∈ (p.state i).derivedTopics
        rw [Core.mem_pushBackAbsent, Core.mem_pushBackAbsent, h.accounts topic]
        tauto
      · exact hderived hnot fun _ => id
  | @refreshed entities mid hup hrefresh hrooms hloop =>
      have hentities : mid.entities = entities := hloop.entities_eq
      subst hentities
      refine ⟨?_, ?_, ?_, ?_⟩ <;> rw [hnext]
      · exact fun hnone => absurd (hloop.grows.1.symm.trans hnone) hup
      · exact (hloop.distinct ⟨h.distinct.rooms, h.distinct.derived,
          h.distinct.explicit⟩).evictUnderived _
      · have hsame : SmokeJoined C p (i + 1) = SmokeJoined C p i := by
          funext topic
          refine propext (smokeJoined_succ_iff.trans (or_iff_left ?_))
          rintro ⟨-, ⟨opened, log, hlabel⟩, hinit, -⟩
          rw [hlabel] at hinit
          exact hup hinit.1
        rw [hsame]
        exact hloop.accounts (fun topic hpin => ⟨fun hmem => hwas topic hmem hpin.1,
          fun hmem => hsmoke topic hmem hpin.1⟩) h.accounts
      · let found : Globals := { p.state i with entities := mid.entities }
        exact hrefreshed (g := found) hrefresh rfl hloop fun _ _ => Iff.rfl
  | @started session joined entities mid before after hnone hinit hrefresh hcalls hbefore hsub
      hjoined hrooms hloop =>
      have hentities : mid.entities = entities := hloop.entities_eq
      subst hentities
      obtain ⟨hnoRooms, hnoExplicit, hnoDerived⟩ := h.blank hnone
      refine ⟨?_, ?_, ?_, ?_⟩ <;> rw [hnext]
      · exact fun hnone' => nomatch hloop.grows.1.symm.trans hnone'
      · refine (hloop.distinct ⟨?_, h.distinct.derived, h.distinct.explicit⟩).evictUnderived _
        change ((p.state i).roomTopics ++ joined).Nodup
        rw [hnoRooms, List.nil_append]
        exact hsub.nodup (by decide)
      · have hpinned : SmokeJoined C p (i + 1) = fun topic => topic ∈ joined := by
          funext topic
          have hnever : ¬ SmokeJoined C p i topic := fun hpin =>
            List.not_mem_nil (hnoRooms ▸ (h.accounts topic).2 (.inl hpin))
          have hbroadcast : topic ∈ [kSmokeTopicA, kSmokeTopicB] →
              (.broadcast topic true ∈ (p.label i).calls ↔ topic ∈ joined) := by
            intro hpin
            rw [hcalls, List.mem_append, hjoined, or_iff_left]
            exact fun hmem => hsmoke topic (hloop.topic_mem _ hmem).1 hpin
          refine propext (smokeJoined_succ_iff.trans ((or_iff_right hnever).trans ?_))
          exact ⟨fun ⟨hpin, _, _, hmem⟩ => (hbroadcast hpin).1 hmem, fun hmem =>
            ⟨hsub.subset hmem, hinit, hrefresh, (hbroadcast (hsub.subset hmem)).2 hmem⟩⟩
        rw [hpinned]
        refine hloop.accounts (fun topic hpin => ⟨?_, fun hmem => hsmoke topic hmem
          (hsub.subset hpin)⟩) fun topic => ?_
        · exact fun hmem => List.not_mem_nil (hnoDerived ▸ hmem)
        · change topic ∈ (p.state i).roomTopics ++ joined ↔ _ ∨ topic ∈ (p.state i).explicitTopics ∨
            topic ∈ (p.state i).derivedTopics
          rw [hnoRooms, hnoExplicit, hnoDerived]
          simp
      · let found : Globals := { p.state i with
          session := some session
          entities := mid.entities
          roomTopics := (p.state i).roomTopics ++ joined }
        refine hrefreshed (g := found) hrefresh rfl hloop fun topic hmem => ?_
        rw [hcalls]
        exact registrationFails_append_iff fun c hc heq => hsmoke topic hmem (heq ▸ hbefore c hc)

/-- In a run of a fresh process over a store with minted ids, the three lists have no duplicates, a
topic is listed because of one of the three reasons, and what is derived over the catalog is a derived
topic unless its registration has failed ever since. -/
theorem lists_in_step (C : Core) (p : (loggedSystem C).Path) (hfresh : p.state 0 = .fresh)
    (hminted : LoadsMinted C p) {i : ℕ} (hi : i ≤ p.length) :
    ((p.state i).roomTopics.Nodup ∧ (p.state i).derivedTopics.Nodup ∧
      (p.state i).explicitTopics.Nodup) ∧
    (∀ topic, topic ∈ (p.state i).roomTopics ↔ SmokeJoined C p i topic ∨
      topic ∈ (p.state i).explicitTopics ∨ topic ∈ (p.state i).derivedTopics) ∧
    ∀ topic, topic ∈ (p.state i).derivedTopics ↔
      topic ∈ (p.state i).entities.derivedJoinedTopics ∧ ¬ FailedSince C p i topic := by
  have hkept : KeptInStep C p i := by
    induction i with
    | zero => exact keptInStep_zero hfresh
    | succ i ih => exact keptInStep_succ hfresh hminted hi (ih (by omega))
  exact ⟨⟨hkept.distinct.rooms, hkept.distinct.derived, hkept.distinct.explicit⟩, hkept.accounts,
    hkept.derived⟩

end Runs

/-- A session starts on a store with one room, which is joined. -/
theorem lists_in_step_storedRoom :
    let C := protoCore (Messaging.plaintext (ofString "self"))
    ∃ p : (loggedSystem C).Path, p.state 0 = .fresh ∧ 0 < p.length ∧ (p.state 1).roomTopics.Nodup ∧
      roomTopic firstRoomId ∈ (p.state 1).derivedTopics ∧
      ¬ FailedSince C p 1 (roomTopic firstRoomId) := by
  intro C
  have hid : ValidUtf8 firstRoomId := validUtf8_ofString _
  let p := TransitionSystem.Path.single (step_storedRoom C hid (by decide))
  have hminted : LoadsMinted C p := by
    intro i hi room hloads
    rw [loads_storedRoom hid hloads]
    exact ⟨0, 0, 0, by decide⟩
  obtain ⟨⟨hnodup, -⟩, -, hderived⟩ := lists_in_step C p rfl hminted (i := 1) le_rfl
  have hmem : roomTopic firstRoomId ∈ (storedRoomGlobals firstRoomId).derivedTopics := by decide
  exact ⟨p, rfl, Nat.one_pos, hnodup, hmem, ((hderived _).1 hmem).2⟩

end GcsChat
