import GcsChat.Node

/-!
# History replays against the receive funnel

A received message is shown first and archived later, on another thread; a history replay shows
what the archive holds and replaces what the shell has shown. A replay hides nothing when no
message of its room is still on the way to the archive at the moment of the scan, and no write
replaces the record of a shown message by the record of another one.
-/

namespace GcsChat

open ByteString ProtoSchema

def MessageHistory.ids (h : MessageHistory) : List Bytes := h.message.map (·.id)

/-- The message has been shown to the shell for the room, by itself or in a batch. -/
def ShownIn (events : List GcsEvent) (T x : Bytes) : Prop :=
  (∃ msg, .message msg ∈ events ∧ msg.roomTopic = T ∧ msg.id = x) ∨
    ∃ h, .messageHistory h ∈ events ∧ h.roomTopic = T ∧ x ∈ h.ids

/-- Every batch contains all that was shown for its room before. -/
def NeverHides (events : List GcsEvent) : Prop :=
  ∀ pre h post, events = pre ++ .messageHistory h :: post →
    ∀ x, ShownIn pre h.roomTopic x → x ∈ h.ids

/-- `upsert` of the flow, without its cap. -/
def upsert : List ChatMessageState → ChatMessageState → List ChatMessageState
  | [], item => [item]
  | existing :: rest, item =>
      if existing.id = item.id then item :: rest else existing :: upsert rest item

def flowStep (activeRoom : Bytes) (flow : List ChatMessageState) : GcsEvent → List ChatMessageState
  | .message msg => if msg.roomTopic = activeRoom then upsert flow msg else flow
  | .messageHistory h => if h.roomTopic = activeRoom then h.message else flow
  | _ => flow

def flowOf (activeRoom : Bytes) (events : List GcsEvent) : List ChatMessageState :=
  events.foldl (flowStep activeRoom) []

def flowIds (activeRoom : Bytes) (events : List GcsEvent) : List Bytes :=
  (flowOf activeRoom events).map (·.id)

theorem mem_ids_upsert {flow : List ChatMessageState} {item : ChatMessageState} {x : Bytes} :
    x ∈ (upsert flow item).map (·.id) ↔ x = item.id ∨ x ∈ flow.map (·.id) := by
  induction flow with
  | nil => simp [upsert]
  | cons existing rest ih =>
      simp only [upsert]
      split_ifs with heq
      · simp only [List.map_cons, List.mem_cons, heq]
        tauto
      · simp only [List.map_cons, List.mem_cons, ih]
        tauto

theorem flowOf_append_singleton (T : Bytes) (events : List GcsEvent) (e : GcsEvent) :
    flowOf T (events ++ [e]) = flowStep T (flowOf T events) e := by
  simp [flowOf, List.foldl_append]

theorem ShownIn.mono {events events' : List GcsEvent} (hsub : events ⊆ events') {T x : Bytes}
    (h : ShownIn events T x) : ShownIn events' T x := by
  rcases h with ⟨msg, hmem, hrest⟩ | ⟨h, hmem, hrest⟩
  · exact Or.inl ⟨msg, hsub hmem, hrest⟩
  · exact Or.inr ⟨h, hsub hmem, hrest⟩

theorem shownIn_of_mem_flowIds {T x : Bytes} {events : List GcsEvent} (h : x ∈ flowIds T events) :
    ShownIn events T x := by
  induction events using List.reverseRecOn with
  | nil => simp [flowIds, flowOf] at h
  | append_singleton events e ih =>
      have hold : x ∈ flowIds T events → ShownIn (events ++ [e]) T x :=
        fun hx => (ih hx).mono (List.subset_append_left _ _)
      rw [flowIds, flowOf_append_singleton] at h
      cases e with
      | message msg =>
          simp only [flowStep] at h
          split_ifs at h with hT
          · rcases mem_ids_upsert.1 h with rfl | hx
            · exact Or.inl ⟨msg, by simp, hT, rfl⟩
            · exact hold hx
          · exact hold h
      | messageHistory batch =>
          simp only [flowStep] at h
          split_ifs at h with hT
          · exact Or.inr ⟨batch, by simp, hT, h⟩
          · exact hold h
      | _ => exact hold h

/-- A flow that replaces itself with batches that hide nothing only grows. -/
theorem flowIds_subset_of_neverHides {T : Bytes} {before seg rest : List GcsEvent}
    (h : NeverHides (before ++ seg ++ rest)) : flowIds T seg ⊆ flowIds T (seg ++ rest) := by
  induction rest using List.reverseRecOn with
  | nil => simp
  | append_singleton rest e ih =>
      have hpre : NeverHides (before ++ seg ++ rest) := by
        intro pre batch post heq
        refine h pre batch (post ++ [e]) ?_
        rw [← List.append_assoc, heq]
        simp
      refine List.Subset.trans (ih hpre) fun x hx => ?_
      rw [← List.append_assoc, flowIds, flowOf_append_singleton]
      cases e with
      | message msg =>
          simp only [flowStep]
          split_ifs
          · exact mem_ids_upsert.2 (Or.inr hx)
          · exact hx
      | messageHistory batch =>
          simp only [flowStep]
          split_ifs with hT
          · refine h (before ++ seg ++ rest) batch [] (by simp) x ?_
            refine (shownIn_of_mem_flowIds (hT ▸ hx)).mono fun y hy => ?_
            rw [List.append_assoc]
            exact List.mem_append_right _ hy
          · exact hx
      | _ => exact hx

theorem neverHides_append_singleton {events : List GcsEvent} {e : GcsEvent}
    (h : NeverHides events)
    (he : ∀ batch, e = .messageHistory batch → ∀ x, ShownIn events batch.roomTopic x →
      x ∈ batch.ids) : NeverHides (events ++ [e]) := by
  intro pre batch post heq
  rcases List.eq_nil_or_concat post with rfl | ⟨post', e', rfl⟩
  · obtain ⟨rfl, hlast⟩ := List.append_inj' heq rfl
    exact he batch (List.cons.inj hlast).1
  · rw [List.concat_eq_append, ← List.cons_append, ← List.append_assoc] at heq
    exact h pre batch post' (List.append_inj' heq rfl).1

theorem shownIn_append_message {events : List GcsEvent} {msg : ChatMessageState} {T x : Bytes}
    (h : ShownIn (events ++ [.message msg]) T x) :
    ShownIn events T x ∨ msg.roomTopic = T ∧ msg.id = x := by
  rcases h with ⟨m, hmem, hT, hx⟩ | ⟨batch, hmem, hT, hx⟩
  · rcases List.mem_append.1 hmem with hmem | hmem
    · exact Or.inl (Or.inl ⟨m, hmem, hT, hx⟩)
    · obtain rfl := GcsEvent.message.inj (List.mem_singleton.1 hmem)
      exact Or.inr ⟨hT, hx⟩
  · rcases List.mem_append.1 hmem with hmem | hmem
    · exact Or.inl (Or.inr ⟨batch, hmem, hT, hx⟩)
    · exact absurd (List.mem_singleton.1 hmem) (by simp)

theorem shownIn_append_history {events : List GcsEvent} {batch : MessageHistory} {T x : Bytes}
    (h : ShownIn (events ++ [.messageHistory batch]) T x) :
    ShownIn events T x ∨ batch.roomTopic = T ∧ x ∈ batch.ids := by
  rcases h with ⟨m, hmem, hT, hx⟩ | ⟨b, hmem, hT, hx⟩
  · rcases List.mem_append.1 hmem with hmem | hmem
    · exact Or.inl (Or.inl ⟨m, hmem, hT, hx⟩)
    · exact absurd (List.mem_singleton.1 hmem) (by simp)
  · rcases List.mem_append.1 hmem with hmem | hmem
    · exact Or.inl (Or.inr ⟨b, hmem, hT, hx⟩)
    · obtain rfl := GcsEvent.messageHistory.inj (List.mem_singleton.1 hmem)
      exact Or.inr ⟨hT, hx⟩

namespace NodeState

variable (s : NodeState)

def waiting : List (Bytes × Bytes) :=
  s.unqueued.map Accepted.record ++ s.messaging.archiveQueue ++ s.archiving.toList

def Shown (T x : Bytes) : Prop :=
  ShownIn s.messaging.pushed T x ∨
    ∃ r, s.replay = some r ∧ r.history.roomTopic = T ∧ x ∈ r.history.ids

end NodeState

namespace Messaging

variable (M : Messaging)

def Recorded (s : NodeState) (T x : Bytes) : Prop :=
  ∃ k v msg, s.store.find? k = some v ∧ historyPrefix T <+: k ∧ M.openMessage T v = some msg ∧
    msg.id = x

def Waiting (s : NodeState) (T x : Bytes) : Prop :=
  ∃ kv ∈ s.waiting, ∃ msg, kv.1 = buildKey T msg.id ∧ M.openMessage T kv.2 = some msg ∧ msg.id = x

/-- A write does not replace the record of a shown message by another message's. -/
def KeepsRecords (s : NodeState) (key valueBytes : Bytes) : Prop :=
  ∀ T old msg, s.store.find? key = some old → historyPrefix T <+: key →
    M.openMessage T old = some msg → s.Shown T msg.id →
      ∃ msg', M.openMessage T valueBytes = some msg' ∧ msg'.id = msg.id

def NamesRoom (T valueBytes : Bytes) : Prop :=
  ∀ msg, M.openMessage T valueBytes = some msg → msg.roomTopic = T

/-- The steps of the receive funnel, the archive worker and the joins on messages that name their
room, with every archive write succeeding. -/
def ReceivesAndReplays : Label → Prop
  | .live T v => M.NamesRoom T v
  | .callback cb => ∀ T, roomTopicFromKey (slash :: cb.key) = some T → M.NamesRoom T cb.valueBytes
  | .put ok => ok = true
  | .replicate _ _ _ | .push | .enqueue | .take | .scan _ | .absorb | .reply => True
  | _ => False

/-- The scan comes after the archive writes of the room, and writes keep the shown records. -/
def ReplaysArchived (s : NodeState) : Label → Prop
  | .scan T => ∀ x, M.Waiting s T x → M.Recorded s T x
  | .replicate key v wins => wins = true → M.KeepsRecords s key v
  | .put _ => ∀ item, s.archiving = some item → M.KeepsRecords s item.1 item.2
  | _ => True

structure ReplayInvariant (s : NodeState) : Prop where
  accepted : ∀ a ∈ s.unpushed, M.openMessage a.message.roomTopic a.valueBytes = some a.message
  shown : ∀ T x, ShownIn s.messaging.pushed T x → M.Waiting s T x ∨ M.Recorded s T x
  covers : ∀ r, s.replay = some r →
    ∀ x, ShownIn s.messaging.pushed r.history.roomTopic x → x ∈ r.history.ids
  recorded : ∀ r, s.replay = some r →
    ∀ x ∈ r.history.ids, M.Recorded s r.history.roomTopic x
  hides : NeverHides s.messaging.pushed

variable {M}

theorem replayInvariant_fresh : M.ReplayInvariant .fresh where
  accepted := by simp [NodeState.fresh]
  shown := by simp [NodeState.fresh, MessagingState.fresh, ShownIn]
  covers := by simp [NodeState.fresh]
  recorded := by simp [NodeState.fresh]
  hides := by simp [NodeState.fresh, MessagingState.fresh, NeverHides]

theorem Recorded.insertOrAssign {s t : NodeState} {key v T x : Bytes}
    (hstore : t.store = s.store.insertOrAssign key v) (hkeeps : M.KeepsRecords s key v)
    (hshown : s.Shown T x) (h : M.Recorded s T x) : M.Recorded t T x := by
  obtain ⟨k, old, msg, hfind, hpre, hopen, rfl⟩ := h
  by_cases hk : k = key
  · subst hk
    obtain ⟨msg', hopen', hid⟩ := hkeeps T old msg hfind hpre hopen hshown
    exact ⟨k, v, msg', by rw [hstore, OrderedMap.find?_insertOrAssign, if_pos rfl], hpre, hopen',
      hid⟩
  · exact ⟨k, old, msg, by rw [hstore, OrderedMap.find?_insertOrAssign, if_neg hk, hfind], hpre,
      hopen, rfl⟩

theorem Recorded.emplace {s t : NodeState} {key v T x : Bytes}
    (hstore : t.store = s.store.emplace key v) (h : M.Recorded s T x) : M.Recorded t T x := by
  obtain ⟨k, old, msg, hfind, hpre, hopen, rfl⟩ := h
  refine ⟨k, old, msg, ?_, hpre, hopen, rfl⟩
  rw [hstore, OrderedMap.find?_emplace, if_neg, hfind]
  rintro ⟨rfl, hnone⟩
  rw [hfind] at hnone
  cases hnone

theorem mem_historyIds_iff {s : NodeState} {T x : Bytes} {entries : List (Bytes × Bytes)}
    (hscan : entries.Perm (s.underPrefix T)) :
    x ∈ (M.historyMessages T entries).map (·.id) ↔ M.Recorded s T x := by
  simp only [List.mem_map, mem_historyMessages, hscan.mem_iff, NodeState.underPrefix,
    List.mem_filter, decide_eq_true_eq, ← OrderedMap.find?_eq_some_iff, Prod.exists]
  constructor
  · rintro ⟨_, ⟨k, v, ⟨hfind, hpre⟩, msg, hopen, rfl⟩, rfl⟩
    exact ⟨k, v, msg, hfind, hpre, hopen, rfl⟩
  · rintro ⟨k, v, msg, hfind, hpre, hopen, rfl⟩
    exact ⟨_, ⟨k, v, ⟨hfind, hpre⟩, msg, hopen, rfl⟩, rfl⟩

theorem ReplayInvariant.congr {s t : NodeState} (h : M.ReplayInvariant s)
    (hunpushed : ∀ a ∈ t.unpushed, M.openMessage a.message.roomTopic a.valueBytes = some a.message)
    (hwaiting : s.waiting ⊆ t.waiting) (hstore : t.store = s.store)
    (hreplay : t.replay = s.replay) (hpushed : t.messaging.pushed = s.messaging.pushed) :
    M.ReplayInvariant t where
  accepted := hunpushed
  shown T x hx := by
    rw [hpushed] at hx
    rcases h.shown T x hx with ⟨kv, hkv, hrest⟩ | ⟨k, v, msg, hfind, hrest⟩
    · exact Or.inl ⟨kv, hwaiting hkv, hrest⟩
    · exact Or.inr ⟨k, v, msg, hstore ▸ hfind, hrest⟩
  covers r hr := by
    rw [hpushed]
    exact h.covers r (hreplay ▸ hr)
  recorded r hr x hx := by
    obtain ⟨k, v, msg, hfind, hrest⟩ := h.recorded r (hreplay ▸ hr) x hx
    exact ⟨k, v, msg, hstore ▸ hfind, hrest⟩
  hides := hpushed ▸ h.hides

theorem ReplayInvariant.receive {s : NodeState} (h : M.ReplayInvariant s) {T v : Bytes}
    (hnames : M.NamesRoom T v) : M.ReplayInvariant (M.receive s T v) := by
  rcases receive_cases M s T v with heq | ⟨msg, hopen, _, heq⟩
  · rwa [heq]
  · rw [heq]
    refine h.congr ?_ (List.Subset.refl _) rfl rfl rfl
    simp only [List.mem_append, List.mem_singleton]
    rintro a (ha | rfl)
    · exact h.accepted a ha
    · rw [hnames msg hopen]
      exact hopen

theorem ReplayInvariant.lands {s t : NodeState} (h : M.ReplayInvariant s)
    (hrecorded : ∀ T x, s.Shown T x → M.Recorded s T x → M.Recorded t T x)
    (hunpushed : t.unpushed = s.unpushed)
    (hwaiting : ∀ T x, M.Waiting s T x → M.Waiting t T x ∨ M.Recorded t T x)
    (hreplay : t.replay = s.replay) (hpushed : t.messaging.pushed = s.messaging.pushed) :
    M.ReplayInvariant t where
  accepted := hunpushed ▸ h.accepted
  shown T x hx := by
    rw [hpushed] at hx
    rcases h.shown T x hx with hwait | hrec
    · exact hwaiting T x hwait
    · exact Or.inr (hrecorded T x (Or.inl hx) hrec)
  covers r hr := by
    rw [hpushed]
    exact h.covers r (hreplay ▸ hr)
  recorded r hr x hx :=
    hrecorded _ x (Or.inr ⟨r, hreplay ▸ hr, rfl, hx⟩) (h.recorded r (hreplay ▸ hr) x hx)
  hides := hpushed ▸ h.hides

theorem ReplayInvariant.step {s t : NodeState} {l : Label} (h : M.ReplayInvariant s)
    (hstep : M.Step s l t) (hl : M.ReceivesAndReplays l) (hcond : M.ReplaysArchived s l) :
    M.ReplayInvariant t := by
  cases hstep with
  | live T v => exact h.receive hl
  | replicate key v wins =>
      have hwaiting : ∀ T x, M.Waiting s T x → M.Waiting (s.merge key v wins) T x ∨
          M.Recorded (s.merge key v wins) T x := fun T x hw => Or.inl hw
      cases wins with
      | true =>
          exact h.lands (fun T x hshown hrec => hrec.insertOrAssign rfl (hcond rfl) hshown) rfl
            hwaiting rfl rfl
      | false => exact h.lands (fun T x _ hrec => hrec.emplace rfl) rfl hwaiting rfl rfl
  | callback before cb after hcbs =>
      have hrest : M.ReplayInvariant { s with callbacks := before ++ after } :=
        h.congr h.accepted (List.Subset.refl _) rfl rfl rfl
      cases hkey : roomTopicFromKey (slash :: cb.key) with
      | none =>
          simp only [arrive, hkey]
          exact hrest
      | some T =>
          by_cases hT : T = []
          · simp only [arrive, hkey, if_pos hT]
            exact hrest
          · rw [arrive_of_roomTopic hkey hT]
            exact hrest.receive (hl T hkey)
  | push before a after hlist hmutex =>
      have hopen := h.accepted a (by simp [hlist])
      refine ⟨fun b hb => h.accepted b ?_, fun T x hx => ?_, ?_, ?_, ?_⟩
      · simp only [hlist, List.mem_append, List.mem_cons] at hb ⊢
        tauto
      · have hsub : s.waiting ⊆ NodeState.waiting { s with
            messaging := M.pushMessage s.messaging a.message
            unpushed := before ++ after
            unqueued := s.unqueued ++ [a] } := by
          intro kv hkv
          simp only [NodeState.waiting, pushMessage, List.map_append, List.mem_append] at hkv ⊢
          tauto
        rcases shownIn_append_message hx with hx | ⟨hT, hx⟩
        · rcases h.shown T x hx with ⟨kv, hkv, hrest⟩ | hrec
          · exact Or.inl ⟨kv, hsub hkv, hrest⟩
          · exact Or.inr hrec
        · refine Or.inl ⟨a.record, ?_, a.message, ?_, ?_, hx⟩
          · simp [NodeState.waiting]
          · rw [← hT]
            rfl
          · rw [← hT]
            exact hopen
      · simp [hmutex]
      · simp [hmutex]
      · exact neverHides_append_singleton h.hides (by simp)
  | enqueue before a after hlist =>
      refine h.congr h.accepted ?_ rfl rfl rfl
      intro kv hkv
      simp only [NodeState.waiting, enqueueArchive, hlist, List.map_append, List.map_cons,
        List.mem_append, List.mem_cons, List.not_mem_nil, Prod.mk.eta] at hkv ⊢
      tauto
  | take item rest hqueue hidle =>
      refine h.congr h.accepted ?_ rfl rfl rfl
      intro kv hkv
      simp only [NodeState.waiting, hqueue, hidle, List.mem_append, List.mem_cons,
        Option.toList_none, Option.toList_some, List.not_mem_nil] at hkv ⊢
      tauto
  | put item harchiving =>
      refine h.lands (fun T x hshown hrec => ?_) rfl (fun T x hwait => ?_) rfl rfl
      · exact hrec.insertOrAssign rfl (hcond item harchiving) hshown
      · obtain ⟨kv, hkv, msg, hkey, hopen, hid⟩ := hwait
        simp only [NodeState.waiting, harchiving, List.mem_append, Option.toList_some,
          List.mem_singleton] at hkv
        rcases hkv with hkv | rfl
        · refine Or.inl ⟨kv, ?_, msg, hkey, hopen, hid⟩
          simp only [NodeState.waiting, NodeState.write, List.mem_append]
          exact Or.inl hkv
        · refine Or.inr ⟨kv.1, kv.2, msg, ?_, ?_, hopen, hid⟩
          · simp only [NodeState.write, OrderedMap.find?_insertOrAssign, if_pos]
          · rw [hkey]
            exact historyPrefix_prefix_buildKey T msg.id
  | putFailed => exact absurd hl (by simp [ReceivesAndReplays])
  | scan T entries hscan hmutex =>
      have hids : ∀ x, x ∈ MessageHistory.ids ⟨T, M.historyMessages T entries⟩ ↔
          M.Recorded s T x := fun x => mem_historyIds_iff hscan
      refine { h with covers := ?_, recorded := ?_ }
      · rintro r ⟨⟩ x hx
        rcases h.shown T x hx with hwait | hrec
        · exact (hids x).2 (hcond x hwait)
        · exact (hids x).2 hrec
      · rintro r ⟨⟩ x hx
        exact (hids x).1 hx
  | absorb history hreplay =>
      refine { h with covers := ?_, recorded := ?_ }
      · rintro r ⟨⟩
        exact h.covers ⟨history, false⟩ hreplay
      · rintro r ⟨⟩
        exact h.recorded ⟨history, false⟩ hreplay
  | reply history hreplay =>
      refine ⟨h.accepted, fun T x hx => ?_, by simp, by simp, ?_⟩
      · rcases shownIn_append_history hx with hold | ⟨rfl, hmem⟩
        · exact h.shown T x hold
        · exact Or.inr (h.recorded _ hreplay x hmem)
      · refine neverHides_append_singleton h.hides ?_
        rintro batch ⟨⟩
        exact h.covers _ hreplay
  | _ => exact absurd hl (by simp [ReceivesAndReplays])

theorem ReplayInvariant.restrict_step (s : NodeState) (l : Label) (t : NodeState)
    (h : M.ReplayInvariant s)
    (hstep : (M.node.restrict fun s l => M.ReceivesAndReplays l ∧ M.ReplaysArchived s l).step s l t) :
    M.ReplayInvariant t := h.step hstep.1 hstep.2.1 hstep.2.2

/-- In every run whose scans come after the archive writes of their room, a batch contains all that
was shown for its room, and the flow of the active room loses nothing. -/
theorem replays_hide_nothing (M : Messaging) {ls : List Label} {s : NodeState}
    (hrun : (M.node.restrict fun s l => M.ReceivesAndReplays l ∧ M.ReplaysArchived s l).Run
      .fresh ls s) :
    NeverHides s.messaging.pushed ∧ ∀ T before seg rest,
      s.messaging.pushed = before ++ seg ++ rest → flowIds T seg ⊆ flowIds T (seg ++ rest) := by
  have hinv : M.ReplayInvariant s :=
    hrun.invariant ReplayInvariant.restrict_step replayInvariant_fresh
  refine ⟨hinv.hides, fun T before seg rest heq => ?_⟩
  exact flowIds_subset_of_neverHides (heq ▸ hinv.hides)

/-- A scan that finds no record of a shown message makes the flow lose it. -/
theorem run_scan_hides {s : NodeState} (hmutex : s.replay = none) {T x : Bytes}
    (hshown : ShownIn s.messaging.pushed T x) (hmissing : ¬ M.Recorded s T x) :
    ∃ t batch, M.node.Run s [.scan T, .absorb, .reply] t ∧
      t.messaging.pushed = s.messaging.pushed ++ [.messageHistory batch] ∧
      ¬ NeverHides t.messaging.pushed ∧ x ∉ flowIds T t.messaging.pushed := by
  obtain ⟨batch, hquery, hrun⟩ :=
    run_queryHistory M s hmutex T (List.Perm.refl (s.underPrefix T))
  obtain rfl := Option.some.inj hquery
  have hx : x ∉ MessageHistory.ids ⟨T, M.historyMessages T (s.underPrefix T)⟩ := fun hmem =>
    hmissing ((mem_historyIds_iff (List.Perm.refl _)).1 hmem)
  refine ⟨_, _, hrun, rfl, fun hhides => hx (hhides _ _ [] rfl x hshown), ?_⟩
  rw [flowIds, flowOf_append_singleton, flowStep, if_pos rfl]
  exact hx

/-- A join between the push of a message and its archive write empties the flow of its room. -/
theorem replay_hides_numberedMessage :
    let M := plaintext (ofString "self")
    ∃ ls s, (M.node.restrict fun _ l => M.ReceivesAndReplays l).Run .fresh ls s ∧
      ¬ NeverHides s.messaging.pushed ∧
      ∃ seg rest, s.messaging.pushed = [] ++ seg ++ rest ∧
        nextMessageId 0 0 0 ∈ flowIds kSmokeTopicA seg ∧
        nextMessageId 0 0 0 ∉ flowIds kSmokeTopicA (seg ++ rest) := by
  intro M
  let msg := numberedMessage kSmokeTopicA 0
  let v := M.codec.serialize msg
  let s : NodeState := { NodeState.fresh with
    messaging := M.pushMessage (remember .fresh msg.id) msg
    unqueued := [⟨msg, v⟩] }
  have hopen : M.openMessage kSmokeTopicA v = some msg :=
    openMessage_plaintext _ _ (valid_numberedMessage (validUtf8_ofString _) 0)
  have hnames : M.NamesRoom kSmokeTopicA v := by
    intro m hm
    obtain rfl := Option.some.inj (hopen.symm.trans hm)
    rfl
  have hlive := TransitionSystem.Run.single (S := M.node) (Step.live .fresh kSmokeTopicA v)
  have hnew : msg.id ∉ NodeState.fresh.messaging.seenIds := Finset.notMem_empty _
  rw [receive_of_notMem hopen hnew] at hlive
  have hpush : M.node.Run .fresh [.live kSmokeTopicA v, .push] s :=
    hlive.snoc (Step.push _ [] ⟨msg, v⟩ [] rfl rfl)
  have hmissing : ¬ M.Recorded s kSmokeTopicA (nextMessageId 0 0 0) := by
    rintro ⟨k, v, msg, hfind, -⟩
    cases hfind
  have hshown : ShownIn s.messaging.pushed kSmokeTopicA (nextMessageId 0 0 0) :=
    Or.inl ⟨M.withRole msg, List.mem_singleton_self _, rfl, rfl⟩
  obtain ⟨t, batch, hscan, hpushed, hhides, hlost⟩ := run_scan_hides rfl hshown hmissing
  refine ⟨_, t, (hpush.append hscan).restrict ?_, hhides, s.messaging.pushed,
    [.messageHistory batch], hpushed, ?_, hpushed ▸ hlost⟩
  · simpa [ReceivesAndReplays] using fun _ : NodeState => hnames
  · exact List.mem_singleton_self _

/-- A message that is archived before the join. -/
theorem replays_hide_nothing_numberedMessage :
    let M := plaintext (ofString "self")
    ∃ ls s, (M.node.restrict fun s l => M.ReceivesAndReplays l ∧ M.ReplaysArchived s l).Run
        .fresh ls s ∧ (Label.scan kSmokeTopicA) ∈ ls ∧ NeverHides s.messaging.pushed := by
  intro M
  let msg := numberedMessage kSmokeTopicA 0
  let v := M.codec.serialize msg
  have hopen : M.openMessage kSmokeTopicA v = some msg :=
    openMessage_plaintext _ _ (valid_numberedMessage (validUtf8_ofString _) 0)
  have hnames : M.NamesRoom kSmokeTopicA v := by
    intro m hm
    obtain rfl := Option.some.inj (hopen.symm.trans hm)
    rfl
  let S := M.node.restrict fun s l => M.ReceivesAndReplays l ∧ M.ReplaysArchived s l
  have hnew : msg.id ∉ NodeState.fresh.messaging.seenIds := Finset.notMem_empty _
  have hlive : S.Run .fresh [.live kSmokeTopicA v] (M.receive .fresh kSmokeTopicA v) :=
    .single ⟨Step.live .fresh kSmokeTopicA v, hnames, trivial⟩
  rw [receive_of_notMem hopen hnew] at hlive
  have hpush := hlive.snoc ⟨Step.push _ [] ⟨msg, v⟩ [] rfl rfl, trivial, trivial⟩
  have henqueue := hpush.snoc ⟨Step.enqueue _ [] ⟨msg, v⟩ [] rfl, trivial, trivial⟩
  have htake := henqueue.snoc ⟨Step.take _ _ [] rfl rfl, trivial, trivial⟩
  have hput := htake.snoc ⟨Step.put _ _ rfl, rfl, fun _ _ T old msg hfind => by cases hfind⟩
  have hscan := hput.snoc ⟨Step.scan _ kSmokeTopicA _ (List.Perm.refl _) rfl, trivial,
    fun x hwait => by obtain ⟨kv, hkv, -⟩ := hwait; cases hkv⟩
  have habsorb := hscan.snoc ⟨Step.absorb _ _ rfl, trivial, trivial⟩
  have hreply := habsorb.snoc ⟨Step.reply _ _ rfl, trivial, trivial⟩
  exact ⟨_, _, hreply, by simp, (replays_hide_nothing M hreply).1⟩

end Messaging

end GcsChat
