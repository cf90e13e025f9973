import GcsChat.Network

/-!
# The events of one send

`SendMessage` pushes a pending event, does its work without a lock, and pushes one terminal event.
Its own message can come back on either route while it is still at work. As long as the dedupe set
forgets nothing, every such echo is absorbed, and the shell sees the events of the send and no
others.
-/

namespace GcsChat

open ByteString ProtoSchema

def Label.applied : Label → Option (Bytes × Bytes)
  | .live topic valueBytes => some (topic, valueBytes)
  | .callback cb =>
      ((roomTopicFromKey (slash :: cb.key)).filter (· ≠ [])).map fun roomTopic =>
        (roomTopic, cb.valueBytes)
  | _ => none

/-- The message events of an id, in the order in which they were pushed. -/
def messagesFor (x : Bytes) (events : List GcsEvent) : List ChatMessageState :=
  events.filterMap fun
    | .message msg => if msg.id = x then some msg else none
    | _ => none

namespace Messaging

variable (M : Messaging)

def carried (l : Label) : Option ChatMessageState :=
  l.applied.bind fun call => M.openMessage call.1 call.2

/-- The ids a step inserts into the dedupe set when it does not hold them. -/
def inserts (s : NodeState) : Label → Finset Bytes
  | .send _ _ id _ => {id}
  | .absorb => s.replay.elim ∅ fun r => (r.history.message.map (·.id)).toFinset
  | l => (M.carried l).elim ∅ fun msg => {msg.id}

/-- The message events of a send of the complete record `msg` that has come to a stage. -/
def stageMessages (msg : ChatMessageState) : SendStage → List ChatMessageState
  | .minted => []
  | .returned ok => [M.withRole { msg with state := .pending },
      M.withRole (if ok then msg else { msg with state := .error })]
  | _ => [M.withRole { msg with state := .pending }]

variable {M}

def seenBefore (p : M.node.Path) : ℕ → Finset Bytes
  | 0 => ∅
  | n + 1 => seenBefore p n ∪ M.inserts (p.state n) (p.label n)

/-- `NextMessageId` never gives an id that the run has seen before. -/
def MintsNew (p : M.node.Path) : Prop :=
  ∀ i < p.length, ∀ T text id nowMs, p.label i = .send T text id nowMs → id ∉ seenBefore p i

theorem arrive_of_applied {s : NodeState} {cb : Callback} {T v : Bytes}
    (h : (Label.callback cb).applied = some (T, v)) :
    M.arrive s (slash :: cb.key) cb.valueBytes = M.receive s T v := by
  simp only [Label.applied, Option.map_eq_some_iff, Option.filter_eq_some_iff, Prod.mk.injEq,
    decide_eq_true_eq] at h
  obtain ⟨_, ⟨hkey, hne⟩, rfl, rfl⟩ := h
  exact arrive_of_roomTopic hkey hne s cb.valueBytes

theorem arrive_of_not_applied {s : NodeState} {cb : Callback}
    (h : (Label.callback cb).applied = none) :
    M.arrive s (slash :: cb.key) cb.valueBytes = s := by
  simp only [Label.applied, Option.map_eq_none_iff, Option.filter_eq_none_iff] at h
  rw [arrive]
  cases hkey : roomTopicFromKey (slash :: cb.key) with
  | none => rfl
  | some T =>
      have hnil : T = [] := by simpa using h T hkey
      simp only [if_pos hnil]

theorem receive_seenIds_of_card_le {s : NodeState} {T v : Bytes}
    (hfew : (s.messaging.seenIds ∪ (M.openMessage T v).elim ∅ fun msg => {msg.id}).card ≤
      kMaxSeenIds) :
    (M.receive s T v).messaging.seenIds =
      s.messaging.seenIds ∪ (M.openMessage T v).elim ∅ fun msg => {msg.id} := by
  cases hopen : M.openMessage T v with
  | none => simp [receive_of_not_opened hopen]
  | some msg =>
      simp only [hopen, Option.elim_some, Finset.union_singleton] at hfew ⊢
      rw [receive_seenIds hopen, ClearOnFull.touch_of_card_insert_le hfew]

/-- While everything seen fits the set, a step inserts its ids and nothing is forgotten. -/
theorem Step.seenIds {s t : NodeState} {l : Label} (h : M.Step s l t)
    (hfew : (s.messaging.seenIds ∪ M.inserts s l).card < kMaxSeenIds) :
    t.messaging.seenIds = s.messaging.seenIds ∪ M.inserts s l := by
  cases h with
  | live T v => exact receive_seenIds_of_card_le hfew.le
  | callback before cb after hcbs =>
      cases happ : (Label.callback cb).applied with
      | none =>
          rw [arrive_of_not_applied happ]
          simp [inserts, carried, happ]
      | some call =>
          have hins : M.inserts s (.callback cb) =
              (M.openMessage call.1 call.2).elim ∅ fun msg => {msg.id} := by
            simp only [inserts, carried, happ, Option.bind_some]
          rw [hins] at hfew ⊢
          rw [arrive_of_applied happ]
          exact receive_seenIds_of_card_le (s := { s with callbacks := before ++ after }) hfew.le
  | absorb history hreplay =>
      simp only [inserts, hreplay, Option.elim_some] at hfew ⊢
      exact ClearOnFull.enterAll_of_card_lt hfew
  | send T text id nowMs => exact (Finset.union_singleton _ _).symm
  | _ => exact (Finset.union_empty _).symm

theorem seenBefore_subset (p : M.node.Path) {m n : ℕ} (h : m ≤ n) :
    seenBefore p m ⊆ seenBefore p n := by
  induction n, h using Nat.le_induction with
  | base => exact Finset.Subset.refl _
  | succ n _ ih => exact ih.trans Finset.subset_union_left

theorem seenBefore_subset_of_inserts {p : M.node.Path} {n : ℕ} {ids : Finset Bytes}
    (h : ∀ i < n, M.inserts (p.state i) (p.label i) ⊆ ids) : seenBefore p n ⊆ ids := by
  induction n with
  | zero => exact Finset.empty_subset ids
  | succ n ih =>
      exact Finset.union_subset (ih fun i hi => h i (Nat.lt_succ_of_lt hi)) (h n (Nat.lt_succ_self n))

theorem seenIds_eq_seenBefore {p : M.node.Path} (hfresh : p.state 0 = .fresh)
    (hfew : (seenBefore p p.length).card < kMaxSeenIds) {n : ℕ} (hn : n ≤ p.length) :
    (p.state n).messaging.seenIds = seenBefore p n := by
  induction n with
  | zero =>
      rw [hfresh]
      rfl
  | succ n ih =>
      have hlt : n < p.length := hn
      have hle := Finset.card_le_card (seenBefore_subset p hn)
      have hstep := (p.step n hlt).seenIds (by
        rw [ih hlt.le]
        exact hle.trans_lt hfew)
      rw [hstep, ih hlt.le]
      rfl

theorem messagesFor_append (x : Bytes) (events events' : List GcsEvent) :
    messagesFor x (events ++ events') = messagesFor x events ++ messagesFor x events' :=
  List.filterMap_append

theorem messagesFor_append_of_ne {x : Bytes} {events : List GcsEvent} {msg : ChatMessageState}
    (h : msg.id ≠ x) : messagesFor x (events ++ [.message msg]) = messagesFor x events := by
  rw [messagesFor_append]
  simp [messagesFor, h]

theorem messagesFor_map_self {x : Bytes} {msgs : List ChatMessageState}
    (h : ∀ msg ∈ msgs, msg.id = x) : messagesFor x (msgs.map .message) = msgs := by
  rw [messagesFor, List.filterMap_map]
  refine (List.filterMap_congr fun msg hmsg => ?_).trans List.filterMap_some
  exact if_pos (h msg hmsg)

theorem messagesFor_map_of_ne {x : Bytes} {msgs : List ChatMessageState}
    (h : ∀ msg ∈ msgs, msg.id ≠ x) : messagesFor x (msgs.map .message) = [] := by
  rw [messagesFor, List.filterMap_map, List.filterMap_eq_nil_iff]
  intro msg hmsg
  exact if_neg (h msg hmsg)

theorem messagesFor_append_history (x : Bytes) (events : List GcsEvent) (h : MessageHistory) :
    messagesFor x (events ++ [.messageHistory h]) = messagesFor x events := by
  rw [messagesFor_append]
  simp [messagesFor]

/-- While nothing is forgotten: what is on its way or shown is remembered, no delivery of a sent
message is past the dedupe check, and the events of a send are those of its stage. -/
structure Orderly (M : Messaging) (s : NodeState) : Prop where
  unpushed : ∀ a ∈ s.unpushed, a.message.id ∈ s.messaging.seenIds ∧
    ∀ c ∈ s.sends, a.message.id ≠ c.message.id
  unqueued : ∀ a ∈ s.unqueued, a.message.id ∈ s.messaging.seenIds ∧
    ∀ c ∈ s.sends, a.message.id ≠ c.message.id
  nodup : (s.sends.map fun c => c.message.id).Nodup
  seen : ∀ c ∈ s.sends, c.message.id ∈ s.messaging.seenIds
  unseen : ∀ x, x ∉ s.messaging.seenIds → messagesFor x s.messaging.pushed = []
  events : ∀ c ∈ s.sends,
    messagesFor c.message.id s.messaging.pushed = M.stageMessages c.message c.stage

theorem orderly_fresh (M : Messaging) : M.Orderly .fresh where
  unpushed := by simp [NodeState.fresh]
  unqueued := by simp [NodeState.fresh]
  nodup := List.nodup_nil
  seen := by simp [NodeState.fresh]
  unseen _ _ := rfl
  events := by simp [NodeState.fresh]

namespace Orderly

variable {s t : NodeState}

theorem remember (h : M.Orderly s) {seen : Finset Bytes} (hsub : s.messaging.seenIds ⊆ seen) :
    M.Orderly { s with messaging := { s.messaging with seenIds := seen } } where
  unpushed a ha := ⟨hsub (h.unpushed a ha).1, (h.unpushed a ha).2⟩
  unqueued a ha := ⟨hsub (h.unqueued a ha).1, (h.unqueued a ha).2⟩
  nodup := h.nodup
  seen c hc := hsub (h.seen c hc)
  unseen x hx := h.unseen x fun hmem => hx (hsub hmem)
  events := h.events

theorem receive (h : M.Orderly s) {T v : Bytes}
    (hfew : (s.messaging.seenIds ∪ (M.openMessage T v).elim ∅ fun msg => {msg.id}).card ≤
      kMaxSeenIds) : M.Orderly (M.receive s T v) := by
  rcases receive_cases M s T v with heq | ⟨msg, hopen, hnew, heq⟩
  · rwa [heq]
  · have hseen := receive_seenIds_of_card_le hfew
    rw [heq, hopen, Option.elim_some, Finset.union_singleton] at hseen
    rw [heq]
    have hsub : s.messaging.seenIds ⊆ (Messaging.remember s.messaging msg.id).seenIds :=
      hseen ▸ Finset.subset_insert _ _
    have hself : msg.id ∈ (Messaging.remember s.messaging msg.id).seenIds :=
      hseen ▸ Finset.mem_insert_self _ _
    have hrest := h.remember hsub
    exact { hrest with
      unpushed := List.forall_mem_append.2 ⟨hrest.unpushed, List.forall_mem_singleton.2
        ⟨hself, fun c hc hid => hnew (hid ▸ h.seen c hc)⟩⟩ }

theorem push (h : M.Orderly s) {msg : ChatMessageState} (hseen : msg.id ∈ s.messaging.seenIds)
    (hother : ∀ c ∈ s.sends, msg.id ≠ c.message.id) :
    M.Orderly { s with messaging := M.pushMessage s.messaging msg } :=
  { h with
    unseen := fun x hx => by
      have hne : (M.withRole msg).id ≠ x := fun hid => hx (hid ▸ hseen)
      exact (messagesFor_append_of_ne hne).trans (h.unseen x hx)
    events := fun c hc => by
      have hne : (M.withRole msg).id ≠ c.message.id := hother c hc
      exact (messagesFor_append_of_ne hne).trans (h.events c hc) }

/-- A send moves on by one stage and pushes the events of the new stage. -/
theorem advance (h : M.Orderly s) {before after : List Sending} {c : Sending} (c' : Sending)
    (new : List ChatMessageState) (hlist : s.sends = before ++ c :: after)
    (hmsg : c'.message = c.message) (hnew : ∀ m ∈ new, m.id = c.message.id)
    (hstage : M.stageMessages c.message c'.stage = M.stageMessages c.message c.stage ++ new) :
    M.Orderly { s with
      messaging := { s.messaging with pushed := s.messaging.pushed ++ new.map .message }
      sends := before ++ c' :: after } := by
  have hsplit : ∀ P : Sending → Prop, (∀ d ∈ s.sends, P d) ↔
      (∀ d ∈ before, P d) ∧ P c ∧ ∀ d ∈ after, P d := by
    intro P
    rw [hlist, List.forall_mem_append, List.forall_mem_cons]
  have hids : (before ++ c' :: after).map (fun d => d.message.id) =
      s.sends.map fun d => d.message.id := by
    rw [hlist, List.map_append, List.map_append, List.map_cons, List.map_cons, hmsg]
  have hother : ∀ x, (∀ d ∈ s.sends, x ≠ d.message.id) →
      ∀ d ∈ before ++ c' :: after, x ≠ d.message.id := by
    intro x hx
    rw [hsplit] at hx
    rw [List.forall_mem_append, List.forall_mem_cons, hmsg]
    exact hx
  have hnodup := h.nodup
  rw [hlist, List.map_append, List.map_cons, List.nodup_append, List.nodup_cons] at hnodup
  have hevents := (hsplit _).1 h.events
  have hkeep : ∀ d ∈ s.sends, d.message.id ≠ c.message.id →
      messagesFor d.message.id (s.messaging.pushed ++ new.map .message) =
        messagesFor d.message.id s.messaging.pushed := by
    intro d _ hne
    rw [messagesFor_append, messagesFor_map_of_ne, List.append_nil]
    exact fun m hm hid => hne (hid.symm.trans (hnew m hm))
  refine ⟨fun a ha => ⟨(h.unpushed a ha).1, hother _ (h.unpushed a ha).2⟩,
    fun a ha => ⟨(h.unqueued a ha).1, hother _ (h.unqueued a ha).2⟩, hids ▸ h.nodup, ?_, ?_, ?_⟩
  · have hseen := (hsplit _).1 h.seen
    rw [List.forall_mem_append, List.forall_mem_cons, hmsg]
    exact hseen
  · intro x hx
    have hne : x ≠ c.message.id := fun hid => hx (hid ▸ h.seen c (by simp [hlist]))
    simp only [messagesFor_append, h.unseen x hx, List.nil_append]
    exact messagesFor_map_of_ne fun m hm hid => hne (hid.symm.trans (hnew m hm))
  · rw [List.forall_mem_append, List.forall_mem_cons, hmsg]
    refine ⟨fun d hd => ?_, ?_, fun d hd => ?_⟩
    · have hmem : d ∈ s.sends := by simp [hlist, hd]
      refine (hkeep d hmem ?_).trans (h.events d hmem)
      exact hnodup.2.2 _ (List.mem_map_of_mem hd) _ List.mem_cons_self
    · rw [messagesFor_append, hevents.2.1, messagesFor_map_self hnew, hstage]
    · have hmem : d ∈ s.sends := by simp [hlist, hd]
      refine (hkeep d hmem fun hid => ?_).trans (h.events d hmem)
      exact hnodup.2.1.1 (hid ▸ List.mem_map_of_mem hd)

theorem advance_silent (h : M.Orderly s) {before after : List Sending} {c : Sending} (c' : Sending)
    (hlist : s.sends = before ++ c :: after) (hmsg : c'.message = c.message)
    (hstage : M.stageMessages c.message c'.stage = M.stageMessages c.message c.stage) :
    M.Orderly { s with sends := before ++ c' :: after } := by
  have hadvance := h.advance c' [] hlist hmsg (List.forall_mem_nil _)
    (hstage.trans (List.append_nil _).symm)
  rw [List.map_nil, List.append_nil] at hadvance
  exact hadvance

theorem step (h : M.Orderly s) {l : Label} (hstep : M.Step s l t)
    (hfew : (s.messaging.seenIds ∪ M.inserts s l).card < kMaxSeenIds)
    (hnew : ∀ T text id nowMs, l = .send T text id nowMs → id ∉ s.messaging.seenIds) :
    M.Orderly t := by
  cases hstep with
  | live T v => exact h.receive hfew.le
  | replicate key v wins => exact { h with }
  | callback before cb after hcbs =>
      have hrest : M.Orderly { s with callbacks := before ++ after } := { h with }
      cases happ : (Label.callback cb).applied with
      | none =>
          rw [arrive_of_not_applied happ]
          exact hrest
      | some call =>
          rw [arrive_of_applied happ]
          apply hrest.receive
          simp only [inserts, carried, happ, Option.bind_some] at hfew
          exact hfew.le
  | push before a after hlist _ =>
      obtain ⟨hrest, ha⟩ := forall_mem_of_eq_append_cons h.unpushed hlist
      have hshown := h.push ha.1 ha.2
      exact { hshown with
        unpushed := hrest
        unqueued := List.forall_mem_append.2 ⟨h.unqueued, List.forall_mem_singleton.2 ha⟩ }
  | enqueue before a after hlist =>
      exact { h with unqueued := (forall_mem_of_eq_append_cons h.unqueued hlist).1 }
  | take item rest hqueue _ => exact { h with }
  | put item harchiving => exact { h with }
  | putFailed item _ => exact { h with }
  | scan T entries hscan _ => exact { h with }
  | absorb history hreplay =>
      have hsub : s.messaging.seenIds ⊆ (Messaging.absorb s.messaging history.message).seenIds := by
        have heq := (Step.absorb (M := M) s history hreplay).seenIds hfew
        exact heq ▸ Finset.subset_union_left
      exact { h.remember hsub with }
  | reply history hreplay =>
      exact { h with
        unseen := fun x hx => (messagesFor_append_history x _ _).trans (h.unseen x hx)
        events := fun c hc => (messagesFor_append_history _ _ _).trans (h.events c hc) }
  | send T text id nowMs =>
      have hid := hnew T text id nowMs rfl
      have hrest := h.remember (Finset.subset_insert id s.messaging.seenIds)
      refine ⟨fun a ha => ?_, fun a ha => ?_, ?_, ?_, hrest.unseen, ?_⟩
      · refine ⟨(hrest.unpushed a ha).1, List.forall_mem_append.2 ⟨(h.unpushed a ha).2,
          List.forall_mem_singleton.2 fun heq : a.message.id = id => hid ?_⟩⟩
        exact heq ▸ (h.unpushed a ha).1
      · refine ⟨(hrest.unqueued a ha).1, List.forall_mem_append.2 ⟨(h.unqueued a ha).2,
          List.forall_mem_singleton.2 fun heq : a.message.id = id => hid ?_⟩⟩
        exact heq ▸ (h.unqueued a ha).1
      · rw [List.map_append, List.nodup_append]
        refine ⟨h.nodup, List.nodup_singleton _, fun x hx y hy heq => ?_⟩
        obtain ⟨c, hc, rfl⟩ := List.mem_map.1 hx
        obtain rfl := List.mem_singleton.1 hy
        exact hid (heq ▸ h.seen c hc)
      · exact List.forall_mem_append.2
          ⟨hrest.seen, List.forall_mem_singleton.2 (Finset.mem_insert_self _ _)⟩
      · exact List.forall_mem_append.2
          ⟨h.events, List.forall_mem_singleton.2 (h.unseen id hid)⟩
  | sendEcho before msg after hlist _ =>
      exact h.advance ⟨msg, none, .echoed⟩ [M.withRole { msg with state := .pending }] hlist rfl
        (List.forall_mem_singleton.2 rfl) rfl
  | sendSeal before msg after random payload hlist _ =>
      exact h.advance_silent ⟨msg, some payload, .sealed⟩ hlist rfl rfl
  | sendSealFailed before msg after random hlist _ =>
      exact h.advance_silent ⟨msg, none, .failing⟩ hlist rfl rfl
  | sendPublish before msg payload after hlist =>
      exact { h.advance_silent ⟨msg, some payload, .published⟩ hlist rfl rfl with }
  | sendPublishFailed before msg payload after hlist =>
      exact h.advance_silent ⟨msg, some payload, .failing⟩ hlist rfl rfl
  | sendPut before msg payload after hlist =>
      exact { h.advance_silent ⟨msg, some payload, .archived⟩ hlist rfl rfl with }
  | sendPutFailed before msg payload after hlist =>
      exact h.advance_silent ⟨msg, some payload, .failing⟩ hlist rfl rfl
  | sendReturn before msg payload after hlist _ =>
      exact h.advance ⟨msg, some payload, .returned true⟩ [M.withRole msg] hlist rfl
        (List.forall_mem_singleton.2 rfl) rfl
  | sendReturnFailed before msg payload after hlist _ =>
      exact h.advance ⟨msg, payload, .returned false⟩ [M.withRole { msg with state := .error }]
        hlist rfl (List.forall_mem_singleton.2 rfl) rfl

end Orderly

theorem orderly_of_path {p : M.node.Path} (hfresh : p.state 0 = .fresh) (hnew : MintsNew p)
    (hfew : (seenBefore p p.length).card < kMaxSeenIds) {n : ℕ} (hn : n ≤ p.length) :
    M.Orderly (p.state n) := by
  induction n with
  | zero => exact hfresh ▸ orderly_fresh M
  | succ n ih =>
      have hlt : n < p.length := hn
      have hseen := seenIds_eq_seenBefore hfresh hfew hlt.le
      apply (ih hlt.le).step (p.step n hlt)
      · rw [hseen]
        exact (Finset.card_le_card (seenBefore_subset p hn)).trans_lt hfew
      · rw [hseen]
        exact hnew n hlt

theorem exists_send_of_label {p : M.node.Path} {k : ℕ} {T text id : Bytes} {nowMs : ℤ}
    (hk : k < p.length) (hsend : p.label k = .send T text id nowMs) {n : ℕ} (hkn : k < n)
    (hn : n ≤ p.length) : ∃ c ∈ (p.state n).sends, c.message = M.completeMessage T text id nowMs := by
  induction n, hkn using Nat.le_induction with
  | base =>
      have hstep := p.step k hk
      rw [hsend] at hstep
      generalize p.state (k + 1) = t at hstep ⊢
      cases hstep with
      | send => exact ⟨_, List.mem_append_right _ List.mem_cons_self, rfl⟩
  | succ n _ ih =>
      obtain ⟨c, hc, hmsg⟩ := ih (Nat.le_of_succ_le hn)
      rcases (p.step n hn).sends with heq | ⟨_, _, _, _, _, heq⟩ | ⟨before, d, d', after, hlist, heq, hadv⟩
      · exact ⟨c, heq ▸ hc, hmsg⟩
      · exact ⟨c, heq ▸ List.mem_append_left _ hc, hmsg⟩
      · rw [hlist, List.mem_append, List.mem_cons] at hc
        rcases hc with hc | rfl | hc
        · exact ⟨c, by simp [heq, hc], hmsg⟩
        · exact ⟨d', by simp [heq], hadv.message.trans hmsg⟩
        · exact ⟨c, by simp [heq, hc], hmsg⟩

theorem withRole_own (M : Messaging) (T text id : Bytes) (nowMs : ℤ) (state : MessageState) :
    M.withRole { M.pendingMessage T text id nowMs with state := state } =
      { M.pendingMessage T text id nowMs with state := state } := by
  have hself : roleFor { M.pendingMessage T text id nowMs with state := state } M.sender =
      .userSelf := if_pos rfl
  rw [withRole, hself]
  rfl

theorem Step.absorbed {s t : NodeState} {l : Label} (h : M.Step s l t) {msg : ChatMessageState}
    (hcarried : M.carried l = some msg) (hseen : msg.id ∈ s.messaging.seenIds) :
    t.messaging = s.messaging ∧ t.unpushed = s.unpushed ∧ t.unqueued = s.unqueued := by
  obtain ⟨⟨T, v⟩, happ, hopen⟩ := Option.bind_eq_some_iff.1 hcarried
  cases h with
  | live T' v' =>
      obtain ⟨rfl, rfl⟩ := Prod.mk.inj (Option.some.inj happ)
      rw [receive_of_mem hopen hseen]
      exact ⟨rfl, rfl, rfl⟩
  | callback before cb after hcbs =>
      rw [arrive_of_applied happ,
        receive_of_mem (s := { s with callbacks := before ++ after }) hopen hseen]
      exact ⟨rfl, rfl, rfl⟩
  | _ => cases happ

/-- In a run that has seen fewer than `kMaxSeenIds` ids: at every moment after the call of a
`SendMessage` the message events of its id are, once it has returned, the pending message and the
complete or the failed one, before that at most the pending one, and a delivery of the id pushes
nothing and enqueues nothing. -/
theorem messagesFor_send (M : Messaging) (p : M.node.Path) (hfresh : p.state 0 = .fresh)
    (hnew : MintsNew p) (hfew : (seenBefore p p.length).card < kMaxSeenIds) {k n : ℕ}
    {T text id : Bytes} {nowMs : ℤ} (hk : k < p.length) (hsend : p.label k = .send T text id nowMs)
    (hkn : k < n) (hn : n ≤ p.length) :
    (∃ c ∈ (p.state n).sends, c.message = M.completeMessage T text id nowMs ∧
      (∀ d ∈ (p.state n).sends, d.message.id = id → d = c) ∧
      (∀ ok, c.stage = .returned ok → messagesFor id (p.state n).messaging.pushed =
        [M.pendingMessage T text id nowMs,
          { M.pendingMessage T text id nowMs with state := if ok then .complete else .error }]) ∧
      ((∀ ok, c.stage ≠ .returned ok) →
        messagesFor id (p.state n).messaging.pushed <+: [M.pendingMessage T text id nowMs])) ∧
    ∀ msg, n < p.length → M.carried (p.label n) = some msg → msg.id = id →
      (p.state (n + 1)).messaging = (p.state n).messaging ∧
        (p.state (n + 1)).unpushed = (p.state n).unpushed ∧
        (p.state (n + 1)).unqueued = (p.state n).unqueued := by
  have horderly := orderly_of_path hfresh hnew hfew hn
  obtain ⟨c, hc, hmsg⟩ := exists_send_of_label hk hsend hkn hn
  have hid : c.message.id = id := by rw [hmsg]; rfl
  have hevents := horderly.events c hc
  rw [hid, hmsg] at hevents
  have hown := withRole_own M T text id nowMs
  refine ⟨⟨c, hc, hmsg, fun d hd hdid => ?_, fun ok hok => ?_, fun hok => ?_⟩,
    fun msg hlt hcarried hmsgid => ?_⟩
  · exact List.inj_on_of_nodup_map horderly.nodup hd hc (hdid.trans hid.symm)
  · rw [hevents, hok]
    cases ok with
    | true => exact congrArg₂ (fun a b => [a, b]) (hown .pending) (hown .complete)
    | false => exact congrArg₂ (fun a b => [a, b]) (hown .pending) (hown .error)
  · have hpending : M.withRole { M.completeMessage T text id nowMs with state := .pending } =
        M.pendingMessage T text id nowMs := hown .pending
    rw [hevents, ← hpending]
    cases hstage : c.stage with
    | minted => exact List.nil_prefix
    | returned ok => exact absurd hstage (hok ok)
    | _ => exact List.prefix_refl _
  · apply (p.step n hlt).absorbed hcarried
    rw [hmsgid, ← hid]
    exact horderly.seen c hc

def echoedMessage : ChatMessageState :=
  (plaintext (ofString "self")).completeMessage kSmokeTopicA [] (nextMessageId 0 0 0) 0

def echoedPayload : Bytes := (plaintext (ofString "self")).codec.serialize echoedMessage

def publishedSend : (plaintext (ofString "self")).node.Path :=
  (((TransitionSystem.Path.single (S := (plaintext (ofString "self")).node)
    (Step.send .fresh kSmokeTopicA [] (nextMessageId 0 0 0) 0)).snoc
    (Step.sendEcho _ [] echoedMessage [] rfl rfl)).snoc
    (Step.sendSeal _ [] echoedMessage [] [] echoedPayload rfl rfl)).snoc
    (Step.sendPublish _ [] echoedMessage echoedPayload [] rfl)

def echoedSend : (plaintext (ofString "self")).node.Path :=
  ((publishedSend.snoc (Step.live _ kSmokeTopicA echoedPayload)).snoc
    (Step.sendPutFailed _ [] echoedMessage echoedPayload [] rfl)).snoc
    (Step.sendReturnFailed _ [] echoedMessage (some echoedPayload) [] rfl rfl)

theorem messagesFor_echoedSend :
    echoedSend.state 0 = .fresh ∧ MintsNew echoedSend ∧
      (seenBefore echoedSend echoedSend.length).card < kMaxSeenIds ∧
      messagesFor (nextMessageId 0 0 0) (echoedSend.state 7).messaging.pushed =
        [(plaintext (ofString "self")).pendingMessage kSmokeTopicA [] (nextMessageId 0 0 0) 0,
          { (plaintext (ofString "self")).pendingMessage kSmokeTopicA [] (nextMessageId 0 0 0) 0 with
            state := .error }] := by
  have hnew : MintsNew echoedSend := by
    intro i hi T text id nowMs hlabel
    have hi : i < 7 := hi
    interval_cases i
    · exact Finset.notMem_empty _
    all_goals cases hlabel
  have hopen : (plaintext (ofString "self")).openMessage kSmokeTopicA echoedPayload =
      some echoedMessage := openMessage_plaintext _ _ (valid_completeMessage (validUtf8_ofString _)
    (validUtf8_ofString _) validUtf8_nil (validUtf8_mintId (validUtf8_ofString _) 0 0 0)
    isInt64_zero)
  have hseen : seenBefore echoedSend 7 ⊆ {nextMessageId 0 0 0} := by
    apply seenBefore_subset_of_inserts
    intro i hi
    interval_cases i
    · exact Finset.Subset.refl _
    · exact Finset.empty_subset _
    · exact Finset.empty_subset _
    · exact Finset.empty_subset _
    · have hcarried : (plaintext (ofString "self")).carried (.live kSmokeTopicA echoedPayload) =
          some echoedMessage := hopen
      have hins : (plaintext (ofString "self")).inserts (echoedSend.state 4)
          (.live kSmokeTopicA echoedPayload) = {echoedMessage.id} := by
        simp only [inserts, hcarried, Option.elim_some]
      exact hins.subset
    · exact Finset.empty_subset _
    · exact Finset.empty_subset _
  have hfew : (seenBefore echoedSend echoedSend.length).card < kMaxSeenIds :=
    (Finset.card_le_card hseen).trans_lt (by decide)
  refine ⟨rfl, hnew, hfew, ?_⟩
  obtain ⟨⟨c, hc, -, -, hreturned, -⟩, -⟩ := messagesFor_send _ echoedSend rfl hnew hfew
    (k := 0) (n := 7) (by decide) rfl (by decide) le_rfl
  obtain rfl := List.mem_singleton.1 hc
  exact hreturned false rfl

end Messaging

end GcsChat
