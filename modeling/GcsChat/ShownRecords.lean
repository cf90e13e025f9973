import GcsChat.HistoryReplay
import GcsChat.ReplayView

/-!
# What a node has shown and what it stores

A message is shown, archived and announced on different threads. Whatever history a flow starts
from, each message that the node has stored since is in the flow or still to come, provided the
history was not scanned while something shown was neither archived nor going to be shown again. What
is shown is complete and archived in the end, unless its send or its archive write has failed.
-/

namespace GcsChat

open ByteString

namespace NodeState

variable (s : NodeState)

/-- A send of the node that has not gone through, or not yet. -/
def Unfinished (T x : Bytes) : Prop :=
  ∃ c ∈ s.sends, c.message.roomTopic = T ∧ c.message.id = x ∧ c.stage ≠ .returned true

/-- Past the dedupe check but not shown yet, or still to be shown as sent. -/
def Coming (T x : Bytes) : Prop :=
  (∃ a ∈ s.unpushed, a.message.roomTopic = T ∧ a.message.id = x) ∨ s.Unfinished T x

def Stored (T x : Bytes) : Prop := (s.store.find? (buildKey T x)).isSome

def Announced (T x : Bytes) : Prop := ∃ cb ∈ s.callbacks, cb.key = buildKey T x

def Answered (T x : Bytes) : Prop := ∃ r ∈ s.replay, r.history.roomTopic = T ∧ x ∈ r.history.ids

def Queued (T x : Bytes) : Prop := ∃ record ∈ s.waiting, record.1 = buildKey T x

/-- What has been shown of the room is archived or will be shown again. -/
def Settled (T : Bytes) : Prop :=
  ∀ x, ShownIn s.messaging.pushed T x → s.Stored T x ∨ s.Coming T x

end NodeState

namespace Messaging

open NodeState

variable {M : Messaging} {s t : NodeState} {l : Label} {T x : Bytes}

/-- Sends are added or move on: what is archived lands, and what goes through is shown as complete. -/
theorem Step.moves (hstep : M.Step s l t) : t.sends = s.sends ∨
    (∃ c, t.sends = s.sends ++ [c] ∧ c.stage = .minted) ∨
    ∃ before c c' after, s.sends = before ++ c :: after ∧ t.sends = before ++ c' :: after ∧
      c'.message = c.message ∧
      (c'.stage = .archived → t.Stored c.message.roomTopic c.message.id) ∧
      (c'.stage = .returned true → c.stage = .archived ∧
        t.messaging.pushed = s.messaging.pushed ++ [.message (M.withRole c.message)]) := by
  cases hstep with
  | live T v => exact .inl (receive_sends M s T v).1
  | callback before cb after _ =>
      exact .inl (arrive_sends M { s with callbacks := before ++ after } _ cb.valueBytes).1
  | send T text id nowMs => exact .inr (.inl ⟨_, rfl, rfl⟩)
  | sendEcho before msg after hlist =>
      exact .inr (.inr ⟨before, _, ⟨msg, none, .echoed⟩, after, hlist, rfl, rfl, by simp, by simp⟩)
  | sendSeal before msg after random payload hlist =>
      exact .inr (.inr ⟨before, _, ⟨msg, some payload, .sealed⟩, after, hlist, rfl, rfl, by simp,
        by simp⟩)
  | sendSealFailed before msg after random hlist =>
      exact .inr (.inr ⟨before, _, ⟨msg, none, .failing⟩, after, hlist, rfl, rfl, by simp, by simp⟩)
  | sendPublish before msg payload after hlist =>
      exact .inr (.inr ⟨before, _, ⟨msg, some payload, .published⟩, after, hlist, rfl, rfl, by simp,
        by simp⟩)
  | sendPublishFailed before msg payload after hlist =>
      exact .inr (.inr ⟨before, _, ⟨msg, some payload, .failing⟩, after, hlist, rfl, rfl, by simp,
        by simp⟩)
  | sendPut before msg payload after hlist =>
      refine .inr (.inr ⟨before, _, ⟨msg, some payload, .archived⟩, after, hlist, rfl, rfl,
        fun _ => ?_, by simp⟩)
      rw [Stored, NodeState.write, OrderedMap.find?_insertOrAssign, if_pos rfl]
      rfl
  | sendPutFailed before msg payload after hlist =>
      exact .inr (.inr ⟨before, _, ⟨msg, some payload, .failing⟩, after, hlist, rfl, rfl, by simp,
        by simp⟩)
  | sendReturn before msg payload after hlist =>
      exact .inr (.inr ⟨before, _, ⟨msg, some payload, .returned true⟩, after, hlist, rfl, rfl,
        by simp, fun _ => ⟨rfl, rfl⟩⟩)
  | sendReturnFailed before msg payload after hlist =>
      exact .inr (.inr ⟨before, _, ⟨msg, payload, .returned false⟩, after, hlist, rfl, rfl, by simp,
        by simp⟩)
  | _ => exact .inl rfl

theorem Step.unfinished (hstep : M.Step s l t) (h : s.Unfinished T x) :
    t.Unfinished T x ∨ ∃ c ∈ s.sends, c.message.roomTopic = T ∧ c.message.id = x ∧
      c.stage = .archived ∧
      t.messaging.pushed = s.messaging.pushed ++ [.message (M.withRole c.message)] := by
  obtain ⟨d, hd, hroom, hid, hstage⟩ := h
  rcases hstep.moves with heq | ⟨c, heq, -⟩ | ⟨before, c, c', after, hs, ht, hmessage, -, hpush⟩
  · exact .inl ⟨d, heq ▸ hd, hroom, hid, hstage⟩
  · exact .inl ⟨d, heq ▸ List.mem_append_left _ hd, hroom, hid, hstage⟩
  · by_cases hsame : d = c
    · subst hsame
      by_cases hend : c'.stage = .returned true
      · exact .inr ⟨d, hd, hroom, hid, hpush hend⟩
      · exact .inl ⟨c', ht ▸ List.mem_append_right _ List.mem_cons_self, hmessage ▸ hroom,
          hmessage ▸ hid, hend⟩
    · rw [hs, List.mem_append, List.mem_cons] at hd
      refine .inl ⟨d, ?_, hroom, hid, hstage⟩
      rw [ht, List.mem_append, List.mem_cons]
      exact hd.imp_right fun hrest => .inr (hrest.resolve_left hsame)

theorem Step.unpushed (hstep : M.Step s l t) {a : Accepted} (h : a ∈ s.unpushed) :
    a ∈ t.unpushed ∨
      t.messaging.pushed = s.messaging.pushed ++ [.message (M.withRole a.message)] := by
  cases hstep with
  | live T v =>
      rcases receive_cases M s T v with heq | ⟨msg, _, _, heq⟩ <;> rw [heq]
      · exact .inl h
      · exact .inl (List.mem_append_left _ h)
  | callback before cb after _ =>
      rcases arrive_cases M { s with callbacks := before ++ after } (slash :: cb.key) cb.valueBytes
        with heq | ⟨_, msg, _, _, _, heq⟩ <;> rw [heq]
      · exact .inl h
      · exact .inl (List.mem_append_left _ h)
  | push before b after hlist _ =>
      rw [hlist, List.mem_append, List.mem_cons] at h
      rcases h with h | rfl | h
      · exact .inl (List.mem_append_left _ h)
      · exact .inr rfl
      · exact .inl (List.mem_append_right _ h)
  | _ => exact .inl h

theorem Step.coming (hstep : M.Step s l t) (h : s.Coming T x) :
    t.Coming T x ∨ ∃ msg : ChatMessageState, msg.roomTopic = T ∧ msg.id = x ∧
      t.messaging.pushed = s.messaging.pushed ++ [.message msg] := by
  rcases h with ⟨a, ha, hroom, hid⟩ | h
  · rcases hstep.unpushed ha with hstill | hpush
    · exact .inl (.inl ⟨a, hstill, hroom, hid⟩)
    · exact .inr ⟨M.withRole a.message, hroom, hid, hpush⟩
  · rcases hstep.unfinished h with hstill | ⟨c, _, hroom, hid, _, hpush⟩
    · exact .inl (.inr hstill)
    · exact .inr ⟨M.withRole c.message, hroom, hid, hpush⟩

theorem Step.mem_seenIds (hstep : M.Step s l t) (h : x ∈ t.messaging.seenIds) :
    x ∈ s.messaging.seenIds ∨ (∃ T, t.Coming T x) ∨ ∃ T, s.Answered T x := by
  have hreceived : ∀ {u : NodeState} {msg : ChatMessageState} {v : Bytes},
      u.messaging.seenIds = s.messaging.seenIds →
      x ∈ (remember u.messaging msg.id).seenIds → (⟨msg, v⟩ : Accepted) ∈ t.unpushed →
      x ∈ s.messaging.seenIds ∨ (∃ T, t.Coming T x) ∨ ∃ T, s.Answered T x := by
    intro u msg v hsame hx hmem
    rcases Finset.mem_insert.1 (ClearOnFull.enter_subset _ _ hx) with rfl | hold
    · exact .inr (.inl ⟨msg.roomTopic, .inl ⟨_, hmem, rfl, rfl⟩⟩)
    · exact .inl (hsame ▸ hold)
  cases hstep with
  | live T v =>
      rcases receive_cases M s T v with heq | ⟨msg, _, _, heq⟩
      · exact .inl (heq ▸ h)
      · rw [heq] at h hreceived ⊢
        exact hreceived rfl h (List.mem_append_right _ List.mem_cons_self)
  | callback before cb after _ =>
      rcases arrive_cases M { s with callbacks := before ++ after } (slash :: cb.key) cb.valueBytes
        with heq | ⟨_, msg, _, _, _, heq⟩
      · rw [heq] at h
        exact .inl h
      · rw [heq] at h hreceived ⊢
        exact hreceived rfl h (List.mem_append_right _ List.mem_cons_self)
  | send T text id nowMs =>
      rcases Finset.mem_insert.1 h with rfl | hold
      · exact .inr (.inl ⟨T, .inr ⟨_, List.mem_append_right _ List.mem_cons_self, rfl, rfl,
          by simp⟩⟩)
      · exact .inl hold
  | absorb history hreplay =>
      rcases Finset.mem_union.1 (ClearOnFull.enterAll_subset _ _ h) with hold | hnew
      · exact .inl hold
      · exact .inr (.inr ⟨_, _, hreplay, rfl, List.mem_toFinset.1 hnew⟩)
  | _ => exact .inl h

theorem Step.lands (hstep : M.Step s l t) : t.store = s.store ∨
    ∃ cb ∈ t.callbacks, t.store = s.store.insertOrAssign cb.key cb.valueBytes ∨
      t.store = s.store.emplace cb.key cb.valueBytes := by
  cases hstep with
  | live T v =>
      rcases receive_cases M s T v with heq | ⟨msg, _, _, heq⟩ <;> exact .inl (by rw [heq])
  | callback before cb after _ =>
      rcases arrive_cases M { s with callbacks := before ++ after } (slash :: cb.key) cb.valueBytes
        with heq | ⟨_, msg, _, _, _, heq⟩ <;> exact .inl (by rw [heq])
  | replicate key v wins =>
      refine .inr ⟨_, List.mem_append_right _ List.mem_cons_self, ?_⟩
      cases wins with
      | true => exact .inl rfl
      | false => exact .inr rfl
  | put item _ => exact .inr ⟨_, List.mem_append_right _ List.mem_cons_self, .inl rfl⟩
  | sendPut before msg payload after _ =>
      exact .inr ⟨_, List.mem_append_right _ List.mem_cons_self, .inl rfl⟩
  | _ => exact .inl rfl

theorem Step.stored_mono (hstep : M.Step s l t) (h : s.Stored T x) : t.Stored T x := by
  rcases hstep.lands with heq | ⟨cb, _, hlands⟩
  · rw [Stored, heq]
    exact h
  · exact (find?_of_lands hlands).2 _ (.inr h)

theorem Step.stored (hstep : M.Step s l t) (h : t.Stored T x) :
    s.Stored T x ∨ t.Announced T x := by
  rcases hstep.lands with heq | ⟨cb, hcb, hlands⟩
  · rw [Stored, heq] at h
    exact .inl h
  · obtain ⟨v, hv⟩ := Option.isSome_iff_exists.1 h
    rcases (find?_of_lands hlands).1 _ _ hv with hnew | hold
    · exact .inr ⟨cb, hcb, (Prod.mk.inj hnew).1.symm⟩
    · exact .inl (Option.isSome_iff_exists.2 ⟨v, hold⟩)

theorem Step.announced (hstep : M.Step s l t) (h : s.Announced T x)
    (hopens : ∀ cb ∈ s.callbacks, cb.key = buildKey T x →
      roomTopicFromKey (slash :: cb.key) = some T ∧ T ≠ [] ∧
        ∃ msg, M.openMessage T cb.valueBytes = some msg ∧ msg.roomTopic = T ∧ msg.id = x) :
    t.Announced T x ∨ x ∈ s.messaging.seenIds ∨ t.Coming T x := by
  obtain ⟨cb, hcb, hkey⟩ := h
  cases hstep with
  | live T v =>
      rcases receive_cases M s T v with heq | ⟨msg, _, _, heq⟩ <;> rw [heq] <;>
        exact .inl ⟨cb, hcb, hkey⟩
  | replicate key v wins => exact .inl ⟨cb, List.mem_append_left _ hcb, hkey⟩
  | callback before cb' after hlist =>
      rw [hlist, List.mem_append, List.mem_cons] at hcb
      by_cases hsame : cb = cb'
      · subst hsame
        obtain ⟨hroom, hT, msg, hopen, rfl, rfl⟩ :=
          hopens cb (hlist ▸ List.mem_append_right _ List.mem_cons_self) hkey
        rw [arrive_of_roomTopic hroom hT]
        by_cases hseen : msg.id ∈ s.messaging.seenIds
        · exact .inr (.inl hseen)
        · rw [receive_of_notMem (s := { s with callbacks := before ++ after }) hopen hseen]
          exact .inr (.inr (.inl ⟨_, List.mem_append_right _ List.mem_cons_self, rfl, rfl⟩))
      · refine .inl ⟨cb, ?_, hkey⟩
        have hrest : cb ∈ before ++ after :=
          List.mem_append.2 (hcb.imp_right fun h => h.resolve_left hsame)
        rcases arrive_cases M { s with callbacks := before ++ after } (slash :: cb'.key)
          cb'.valueBytes with heq | ⟨_, msg, _, _, _, heq⟩ <;> rw [heq] <;> exact hrest
  | put item _ => exact .inl ⟨cb, List.mem_append_left _ hcb, hkey⟩
  | sendPut before msg payload after _ => exact .inl ⟨cb, List.mem_append_left _ hcb, hkey⟩
  | _ => exact .inl ⟨cb, hcb, hkey⟩

theorem Step.pushes (hstep : M.Step s l t) :
    (t.messaging.pushed = s.messaging.pushed ∧ ∀ T x, s.Answered T x → t.Answered T x) ∨
      (∃ msg, t.messaging.pushed = s.messaging.pushed ++ [.message msg] ∧ s.replay = none ∧
        t.replay = none ∧
        ((∃ a ∈ s.unpushed, msg = M.withRole a.message ∧ t.Queued msg.roomTopic msg.id) ∨
          (∃ c ∈ s.sends, msg = M.withRole c.message ∧ c.stage = .archived) ∨
          t.Unfinished msg.roomTopic msg.id)) ∨
      ∃ r, s.replay = some r ∧ t.replay = none ∧
        t.messaging.pushed = s.messaging.pushed ++ [.messageHistory r.history] := by
  cases hstep with
  | live T v =>
      rcases receive_cases M s T v with heq | ⟨msg, _, _, heq⟩ <;> rw [heq] <;>
        exact .inl ⟨rfl, fun _ _ h => h⟩
  | callback before cb after _ =>
      rcases arrive_cases M { s with callbacks := before ++ after } (slash :: cb.key) cb.valueBytes
        with heq | ⟨_, msg, _, _, _, heq⟩ <;> rw [heq] <;> exact .inl ⟨rfl, fun _ _ h => h⟩
  | push before a after hlist hmutex =>
      refine .inr (.inl ⟨_, rfl, hmutex, hmutex,
        .inl ⟨a, hlist ▸ List.mem_append_right _ List.mem_cons_self, rfl, a.record, ?_, rfl⟩⟩)
      simp [NodeState.waiting]
  | scan T entries _ hmutex =>
      refine .inl ⟨rfl, fun T' x h => ?_⟩
      obtain ⟨r, hr, -⟩ := h
      rw [hmutex] at hr
      cases hr
  | absorb history hreplay =>
      refine .inl ⟨rfl, fun T' x h => ?_⟩
      obtain ⟨r, hr, hrest⟩ := h
      obtain rfl := Option.some.inj (hreplay.symm.trans hr)
      exact ⟨_, rfl, hrest⟩
  | reply history hreplay => exact .inr (.inr ⟨_, hreplay, rfl, rfl⟩)
  | sendEcho before msg after hlist hmutex =>
      exact .inr (.inl ⟨_, rfl, hmutex, hmutex,
        .inr (.inr ⟨_, List.mem_append_right _ List.mem_cons_self, rfl, rfl, by simp⟩)⟩)
  | sendReturn before msg payload after hlist hmutex =>
      exact .inr (.inl ⟨_, rfl, hmutex, hmutex,
        .inr (.inl ⟨_, hlist ▸ List.mem_append_right _ List.mem_cons_self, rfl, rfl⟩)⟩)
  | sendReturnFailed before msg payload after hlist hmutex =>
      exact .inr (.inl ⟨_, rfl, hmutex, hmutex,
        .inr (.inr ⟨_, List.mem_append_right _ List.mem_cons_self, rfl, rfl, by simp⟩)⟩)
  | _ => exact .inl ⟨rfl, fun _ _ h => h⟩

theorem Step.replays (hstep : M.Step s l t) {r : Replay} (hr : r ∈ t.replay) :
    (∃ r' ∈ s.replay, r'.history = r.history) ∨ ∃ T entries, l = .scan T ∧
      entries.Perm (s.underPrefix T) ∧ s.replay = none ∧ t = { s with replay := some r } ∧
      r.history = ⟨T, M.historyMessages T entries⟩ := by
  cases hstep with
  | live T v =>
      rcases receive_cases M s T v with heq | ⟨msg, _, _, heq⟩ <;> rw [heq] at hr <;>
        exact .inl ⟨r, hr, rfl⟩
  | callback before cb after _ =>
      rcases arrive_cases M { s with callbacks := before ++ after } (slash :: cb.key) cb.valueBytes
        with heq | ⟨_, msg, _, _, _, heq⟩ <;> rw [heq] at hr <;> exact .inl ⟨r, hr, rfl⟩
  | scan T entries hentries hmutex =>
      cases hr
      exact .inr ⟨T, entries, rfl, hentries, hmutex, rfl, rfl⟩
  | absorb history hreplay =>
      cases hr
      exact .inl ⟨_, hreplay, rfl⟩
  | reply history hreplay => cases hr
  | _ => exact .inl ⟨r, hr, rfl⟩

theorem Step.queued (hstep : M.Step s l t) (hl : l ≠ .put false) (h : s.Queued T x) :
    t.Queued T x ∨ t.Stored T x := by
  obtain ⟨record, hrecord, hkey⟩ := h
  have hmono : s.waiting ⊆ t.waiting → t.Queued T x ∨ t.Stored T x := fun hsub =>
    .inl ⟨record, hsub hrecord, hkey⟩
  cases hstep with
  | live T v =>
      rcases receive_cases M s T v with heq | ⟨msg, _, _, heq⟩ <;> rw [heq] at hmono ⊢ <;>
        exact hmono (List.Subset.refl _)
  | callback before cb after _ =>
      rcases arrive_cases M { s with callbacks := before ++ after } (slash :: cb.key) cb.valueBytes
        with heq | ⟨_, msg, _, _, _, heq⟩ <;> rw [heq] at hmono ⊢ <;>
        exact hmono (List.Subset.refl _)
  | push before a after _ _ =>
      refine hmono fun kv hkv => ?_
      simp only [NodeState.waiting, pushMessage, List.map_append, List.mem_append] at hkv ⊢
      tauto
  | enqueue before a after hlist =>
      refine hmono fun kv hkv => ?_
      simp only [NodeState.waiting, enqueueArchive, hlist, List.map_append, List.map_cons,
        List.mem_append, List.mem_cons, List.not_mem_nil, Prod.mk.eta] at hkv ⊢
      tauto
  | take item rest hqueue hidle =>
      refine hmono fun kv hkv => ?_
      simp only [NodeState.waiting, hqueue, hidle, List.mem_append, List.mem_cons,
        Option.toList_none, Option.toList_some, List.not_mem_nil] at hkv ⊢
      tauto
  | put item harchiving =>
      simp only [NodeState.waiting, harchiving, List.mem_append, Option.toList_some,
        List.mem_singleton] at hrecord
      rcases hrecord with hold | rfl
      · refine .inl ⟨record, ?_, hkey⟩
        simp only [NodeState.waiting, NodeState.write, List.mem_append]
        exact .inl hold
      · refine .inr ?_
        rw [Stored, NodeState.write, OrderedMap.find?_insertOrAssign, if_pos hkey.symm]
        rfl
  | putFailed => exact absurd rfl hl
  | _ => exact hmono (List.Subset.refl _)

end Messaging

theorem eq_append_history_cons {events pre post : List GcsEvent} {e : GcsEvent}
    {h : MessageHistory} (heq : events ++ [e] = pre ++ .messageHistory h :: post) :
    (∃ post', post = post' ++ [e] ∧ events = pre ++ .messageHistory h :: post') ∨
      post = [] ∧ e = .messageHistory h ∧ events = pre := by
  rcases List.eq_nil_or_concat post with rfl | ⟨post', e', rfl⟩
  · obtain ⟨hevents, hlast⟩ := List.append_inj' heq rfl
    exact .inr ⟨rfl, (List.cons.inj hlast).1, hevents⟩
  · rw [List.concat_eq_append, ← List.cons_append, ← List.append_assoc] at heq
    obtain ⟨hevents, hlast⟩ := List.append_inj' heq rfl
    exact .inl ⟨post', by rw [List.concat_eq_append, (List.cons.inj hlast).1], hevents⟩

theorem mem_flowIds_message {T x : Bytes} {events : List GcsEvent} {msg : ChatMessageState} :
    x ∈ flowIds T (events ++ [.message msg]) ↔
      msg.roomTopic = T ∧ x = msg.id ∨ x ∈ flowIds T events := by
  rw [flowIds, flowOf_append_singleton, flowStep]
  split_ifs with hroom
  · rw [mem_ids_upsert, flowIds, and_iff_right hroom]
  · rw [flowIds, iff_or_self]
    exact fun hx => absurd hx.1 hroom

theorem flowOf_history {T : Bytes} {events : List GcsEvent} {h : MessageHistory} :
    flowOf T (events ++ [.messageHistory h]) =
      if h.roomTopic = T then h.message else flowOf T events := by
  rw [flowOf_append_singleton, flowStep]

theorem flowIds_history_self {T : Bytes} {events : List GcsEvent} {h : MessageHistory}
    (hroom : h.roomTopic = T) : flowIds T (events ++ [.messageHistory h]) = h.ids := by
  rw [flowIds, flowOf_history, if_pos hroom]
  rfl

namespace NodeState

variable {Of : Bytes → Bytes → Prop} {s t : NodeState} {T x : Bytes}

/-- Every message of the room that is seen or stored is shown, or will be. -/
def Covered (s : NodeState) (Of : Bytes → Bytes → Prop) (T : Bytes) (shown : Bytes → Prop) : Prop :=
  ∀ x, Of T x → (x ∈ s.messaging.seenIds → shown x ∨ s.Coming T x) ∧
    (s.Stored T x → shown x ∨ s.Coming T x ∨ s.Announced T x)

/-- What the node has seen was shown, and whatever history a flow starts from, nothing is missing
from it that will not still come. -/
structure Tracked (Of : Bytes → Bytes → Prop) (s : NodeState) : Prop where
  seen : ∀ x ∈ s.messaging.seenIds, ∃ T, Of T x ∧
    (ShownIn s.messaging.pushed T x ∨ s.Coming T x ∨ s.Answered T x)
  answer : ∀ r ∈ s.replay, s.Covered Of r.history.roomTopic (· ∈ r.history.ids)
  flow : ∀ pre h post, s.messaging.pushed = pre ++ .messageHistory h :: post →
    s.Covered Of h.roomTopic fun x =>
      x ∈ flowIds h.roomTopic (.messageHistory h :: post) ∨ s.Answered h.roomTopic x

theorem Tracked.fresh (Of : Bytes → Bytes → Prop) : NodeState.fresh.Tracked Of where
  seen _ hx := absurd hx (Finset.notMem_empty _)
  answer _ hr := by cases hr
  flow _ _ _ heq := absurd heq (List.append_ne_nil_of_right_ne_nil _ (List.cons_ne_nil _ _)).symm

theorem Covered.extend {Of' : Bytes → Bytes → Prop} {shown : Bytes → Prop}
    (h : s.Covered Of T shown)
    (hback : ∀ x, Of' T x → x ∈ s.messaging.seenIds ∨ s.Stored T x → Of T x) :
    s.Covered Of' T shown := fun x hof =>
  ⟨fun hx => (h x (hback x hof (.inl hx))).1 hx, fun hx => (h x (hback x hof (.inr hx))).2 hx⟩

theorem Tracked.extend {Of' : Bytes → Bytes → Prop} (h : s.Tracked Of)
    (hmore : ∀ T x, Of T x → Of' T x)
    (hback : ∀ T x, Of' T x → x ∈ s.messaging.seenIds ∨ s.Stored T x → Of T x) :
    s.Tracked Of' where
  seen x hx := by
    obtain ⟨T, hof, hstate⟩ := h.seen x hx
    exact ⟨T, hmore T x hof, hstate⟩
  answer r hr := (h.answer r hr).extend (hback _)
  flow pre batch post heq := (h.flow pre batch post heq).extend (hback _)

end NodeState

namespace Messaging

open NodeState

variable {M : Messaging} {Of : Bytes → Bytes → Prop} {s t : NodeState} {l : Label} {T x : Bytes}

/-- `Of` has the room of every id that the step meets. -/
structure Knows (M : Messaging) (Of : Bytes → Bytes → Prop) (s t : NodeState) : Prop where
  unique : ∀ T T' x, Of T x → Of T' x → T = T'
  coming : ∀ T x, t.Coming T x → Of T x
  answered : ∀ T x, s.Answered T x → Of T x
  opens : ∀ T x, Of T x → ∀ cb ∈ s.callbacks, cb.key = buildKey T x →
    roomTopicFromKey (slash :: cb.key) = some T ∧ T ≠ [] ∧
      ∃ msg, M.openMessage T cb.valueBytes = some msg ∧ msg.roomTopic = T ∧ msg.id = x

/-- A step keeps what is covered when it loses nothing that was shown, and shows what it pushes and
what it absorbs. -/
theorem Knows.covered (hknows : M.Knows Of s t) (hstep : M.Step s l t) {shown shown' : Bytes → Prop}
    (h : s.Covered Of T shown) (hshown : ∀ x, shown x → shown' x)
    (hpush : ∀ msg, t.messaging.pushed = s.messaging.pushed ++ [.message msg] →
      msg.roomTopic = T → shown' msg.id)
    (hanswer : ∀ x, s.Answered T x → shown' x) : t.Covered Of T shown' := by
  have hcoming : ∀ x, s.Coming T x → shown' x ∨ t.Coming T x := by
    intro x hx
    rcases hstep.coming hx with hstill | ⟨msg, hroom, rfl, hpushed⟩
    · exact .inr hstill
    · exact .inl (hpush msg hpushed hroom)
  have hseen : ∀ x, Of T x → x ∈ s.messaging.seenIds → shown' x ∨ t.Coming T x := fun x hof hx =>
    ((h x hof).1 hx).elim (fun hold => .inl (hshown x hold)) (hcoming x)
  intro x hof
  refine ⟨fun hx => ?_, fun hx => ?_⟩
  · rcases hstep.mem_seenIds hx with hold | ⟨T', hnew⟩ | ⟨T', hbatch⟩
    · exact hseen x hof hold
    · exact .inr (hknows.unique _ _ x (hknows.coming T' x hnew) hof ▸ hnew)
    · exact .inl (hanswer x (hknows.unique _ _ x (hknows.answered T' x hbatch) hof ▸ hbatch))
  · rcases hstep.stored hx with hold | hnew
    · rcases (h x hof).2 hold with hold | hold | hold
      · exact .inl (hshown x hold)
      · exact (hcoming x hold).imp_right .inl
      · rcases hstep.announced hold (hknows.opens T x hof) with hstill | hseen' | hnew
        · exact .inr (.inr hstill)
        · exact (hseen x hof hseen').imp_right .inl
        · exact .inr (.inl hnew)
    · exact .inr (.inr hnew)

theorem covered_scan {r : Replay} (h : s.Tracked Of) (hunique : ∀ T T' x, Of T x → Of T' x → T = T')
    (hmutex : s.replay = none) (hsettled : s.Settled r.history.roomTopic)
    (hstored : ∀ x, Of r.history.roomTopic x → s.Stored r.history.roomTopic x →
      x ∈ r.history.ids) :
    NodeState.Covered { s with replay := some r } Of r.history.roomTopic (· ∈ r.history.ids) := by
  intro x hof
  refine ⟨fun hx => ?_, fun hx => .inl (hstored x hof hx)⟩
  obtain ⟨T', hof', hstate⟩ := h.seen x hx
  obtain rfl := hunique _ _ x hof hof'
  rcases hstate with hshown | hcoming | ⟨r', hr', -⟩
  · exact (hsettled x hshown).imp (hstored x hof) id
  · exact .inr hcoming
  · rw [hmutex] at hr'
    cases hr'

theorem Step.answered (hstep : M.Step s l t) (h : s.Answered T x) :
    t.Answered T x ∨ ShownIn t.messaging.pushed T x := by
  rcases hstep.pushes with ⟨-, hkept⟩ | ⟨_, -, hnone, -⟩ | ⟨r, hr, -, hpushed⟩
  · exact .inl (hkept T x h)
  · obtain ⟨r, hr, -⟩ := h
    rw [hnone] at hr
    cases hr
  · obtain ⟨r', hr', hroom, hx⟩ := h
    obtain rfl := Option.some.inj (hr.symm.trans hr')
    rw [hpushed]
    exact .inr (.inr ⟨_, List.mem_append_right _ List.mem_cons_self, hroom, hx⟩)

theorem Step.pushed_subset (hstep : M.Step s l t) : s.messaging.pushed ⊆ t.messaging.pushed := by
  rcases hstep.pushes with ⟨hpushed, -⟩ | ⟨_, hpushed, -⟩ | ⟨_, -, -, hpushed⟩ <;> rw [hpushed]
  · exact List.Subset.refl _
  · exact List.subset_append_left _ _
  · exact List.subset_append_left _ _

theorem Knows.seen (hknows : M.Knows Of s t) (hstep : M.Step s l t) (h : s.Tracked Of) :
    ∀ x ∈ t.messaging.seenIds, ∃ T, Of T x ∧
      (ShownIn t.messaging.pushed T x ∨ t.Coming T x ∨ t.Answered T x) := by
  intro x hx
  rcases hstep.mem_seenIds hx with hold | ⟨T, hnew⟩ | ⟨T, hbatch⟩
  · obtain ⟨T, hof, hstate⟩ := h.seen x hold
    refine ⟨T, hof, ?_⟩
    rcases hstate with hshown | hcoming | hanswered
    · exact .inl (hshown.mono hstep.pushed_subset)
    · rcases hstep.coming hcoming with hstill | ⟨msg, hroom, hid, hpushed⟩
      · exact .inr (.inl hstill)
      · rw [hpushed]
        exact .inl (.inl ⟨msg, List.mem_append_right _ List.mem_cons_self, hroom, hid⟩)
    · exact (hstep.answered hanswered).elim (fun h => .inr (.inr h)) .inl
  · exact ⟨T, hknows.coming T x hnew, .inr (.inl hnew)⟩
  · exact ⟨T, hknows.answered T x hbatch, (hstep.answered hbatch).elim (fun h => .inr (.inr h)) .inl⟩

theorem Knows.answer (hknows : M.Knows Of s t) (hstep : M.Step s l t) (h : s.Tracked Of)
    (hsettled : ∀ T, l = .scan T → s.Settled T)
    (hscan : ∀ T entries, l = .scan T → entries.Perm (s.underPrefix T) → ∀ x, Of T x →
      s.Stored T x → x ∈ MessageHistory.ids ⟨T, M.historyMessages T entries⟩) :
    ∀ r ∈ t.replay, t.Covered Of r.history.roomTopic (· ∈ r.history.ids) := by
  intro r hr
  rcases hstep.replays hr with ⟨r', hr', heq⟩ | ⟨T, entries, hl, hentries, hmutex, ht, hhistory⟩
  · rw [← heq]
    refine hknows.covered hstep (h.answer r' hr') (fun _ hx => hx) (fun msg hpushed _ => ?_) ?_
    · rcases hstep.pushes with ⟨hsame, -⟩ | ⟨_, -, hnone, -⟩ | ⟨_, -, -, hbatch⟩
      · rw [hsame] at hpushed
        exact absurd (List.self_eq_append_right.1 hpushed) (List.cons_ne_nil _ _)
      · rw [hnone] at hr'
        cases hr'
      · have hlast := (List.append_inj' (hpushed.symm.trans hbatch) rfl).2
        cases hlast
    · rintro x ⟨r'', hr'', -, hx⟩
      obtain rfl := Option.some.inj (hr'.symm.trans hr'')
      exact hx
  · rw [ht]
    have hroom : r.history.roomTopic = T := by rw [hhistory]
    refine covered_scan h hknows.unique hmutex (hroom ▸ hsettled T hl) fun x hof hx => ?_
    rw [hhistory] at hof hx ⊢
    exact hscan T entries hl hentries x hof hx

/-- A batch covers what it replaces. -/
theorem Knows.replaced (hknows : M.Knows Of s t) (hstep : M.Step s l t) (h : s.Tracked Of)
    {r : Replay} (hr : r ∈ s.replay)
    (hpushed : t.messaging.pushed = s.messaging.pushed ++ [.messageHistory r.history]) :
    t.Covered Of r.history.roomTopic (· ∈ r.history.ids) := by
  refine hknows.covered hstep (h.answer r hr) (fun _ hx => hx) (fun msg hnew => ?_) ?_
  · have hlast := (List.append_inj' (hpushed.symm.trans hnew) rfl).2
    cases hlast
  · rintro x ⟨r', hr', -, hx⟩
    obtain rfl := Option.some.inj (hr.symm.trans hr')
    exact hx

theorem Knows.flow (hknows : M.Knows Of s t) (hstep : M.Step s l t) (h : s.Tracked Of) :
    ∀ pre batch post, t.messaging.pushed = pre ++ .messageHistory batch :: post →
      t.Covered Of batch.roomTopic fun x =>
        x ∈ flowIds batch.roomTopic (.messageHistory batch :: post) ∨
          t.Answered batch.roomTopic x := by
  intro pre batch post heq
  rcases hstep.pushes with ⟨hpushed, hkept⟩ | ⟨msg, hpushed, hnone, -, -⟩ | ⟨r, hr, -, hpushed⟩
  · refine hknows.covered hstep (h.flow pre batch post (hpushed ▸ heq))
      (fun x hx => hx.imp_right (hkept _ x)) (fun msg hnew => ?_) (fun x hx => .inr (hkept _ x hx))
    rw [hpushed] at hnew
    exact absurd (List.self_eq_append_right.1 hnew) (List.cons_ne_nil _ _)
  · have hidle : ∀ x, ¬ s.Answered batch.roomTopic x := by
      rintro x ⟨r, hr, -⟩
      rw [hnone] at hr
      cases hr
    rw [hpushed] at heq
    rcases eq_append_history_cons heq with ⟨post', rfl, hbefore⟩ | ⟨-, hlast, -⟩
    · rw [← List.cons_append]
      refine hknows.covered hstep (h.flow pre batch post' hbefore)
        (fun x hx => .inl (mem_flowIds_message.2 (.inr (hx.resolve_right (hidle x)))))
        (fun msg' hnew hroom => ?_) (fun x hx => absurd hx (hidle x))
      have hlast := (List.append_inj' (hpushed.symm.trans hnew) rfl).2
      cases hlast
      exact .inl (mem_flowIds_message.2 (.inl ⟨hroom, rfl⟩))
    · cases hlast
  · have hbatch := hknows.replaced hstep h hr hpushed
    rw [hpushed] at heq
    rcases eq_append_history_cons heq with ⟨post', rfl, hbefore⟩ | ⟨rfl, hlast, -⟩
    · rw [← List.cons_append]
      by_cases hroom : r.history.roomTopic = batch.roomTopic
      · rw [flowIds_history_self hroom, ← hroom]
        exact fun x hof => ⟨fun hx => ((hbatch x hof).1 hx).imp_left .inl,
          fun hx => ((hbatch x hof).2 hx).imp_left .inl⟩
      · have hother : ∀ x, ¬ s.Answered batch.roomTopic x := by
          rintro x ⟨r', hr', hroom', -⟩
          obtain rfl := Option.some.inj (hr.symm.trans hr')
          exact hroom hroom'
        rw [flowIds, flowOf_history, if_neg hroom]
        refine hknows.covered hstep (h.flow pre batch post' hbefore)
          (fun x hx => .inl (hx.resolve_right (hother x))) (fun msg hnew => ?_)
          (fun x hx => absurd hx (hother x))
        have hlast := (List.append_inj' (hpushed.symm.trans hnew) rfl).2
        cases hlast
    · cases hlast
      rw [← List.nil_append [GcsEvent.messageHistory r.history], flowIds_history_self rfl]
      exact fun x hof => ⟨fun hx => ((hbatch x hof).1 hx).imp_left .inl,
        fun hx => ((hbatch x hof).2 hx).imp_left .inl⟩

theorem Knows.tracked (hknows : M.Knows Of s t) (hstep : M.Step s l t) (h : s.Tracked Of)
    (hsettled : ∀ T, l = .scan T → s.Settled T)
    (hscan : ∀ T entries, l = .scan T → entries.Perm (s.underPrefix T) → ∀ x, Of T x →
      s.Stored T x → x ∈ MessageHistory.ids ⟨T, M.historyMessages T entries⟩) : t.Tracked Of where
  seen := hknows.seen hstep h
  answer := hknows.answer hstep h hsettled hscan
  flow := hknows.flow hstep h

end Messaging

theorem mem_upsert {flow : List ChatMessageState} {item m : ChatMessageState}
    (hnodup : (flow.map (·.id)).Nodup) (h : m ∈ upsert flow item) :
    m = item ∨ m ∈ flow ∧ m.id ≠ item.id := by
  induction flow with
  | nil => exact .inl (List.mem_singleton.1 h)
  | cons existing rest ih =>
      rw [List.map_cons, List.nodup_cons] at hnodup
      rw [upsert] at h
      split_ifs at h with hkey
      · refine (List.mem_cons.1 h).imp_right fun hm => ⟨List.mem_cons_of_mem _ hm, fun hid => ?_⟩
        exact hnodup.1 (hkey.trans hid.symm ▸ List.mem_map_of_mem hm)
      · rcases List.mem_cons.1 h with rfl | hm
        · exact .inr ⟨List.mem_cons_self, hkey⟩
        · exact (ih hnodup.2 hm).imp_right fun hrest => ⟨List.mem_cons_of_mem _ hrest.1, hrest.2⟩

theorem nodup_ids_upsert {flow : List ChatMessageState} (h : (flow.map (·.id)).Nodup)
    (item : ChatMessageState) : ((upsert flow item).map (·.id)).Nodup := by
  induction flow with
  | nil => exact List.nodup_singleton _
  | cons existing rest ih =>
      rw [List.map_cons, List.nodup_cons] at h
      rw [upsert]
      split_ifs with hkey
      · rw [List.map_cons, List.nodup_cons]
        exact hkey ▸ h
      · rw [List.map_cons, List.nodup_cons, mem_ids_upsert, not_or]
        exact ⟨⟨hkey, h.1⟩, ih h.2⟩

theorem nodup_flowIds {T : Bytes} {events : List GcsEvent}
    (h : ∀ batch, .messageHistory batch ∈ events → batch.ids.Nodup) :
    (flowIds T events).Nodup := by
  induction events using List.reverseRecOn with
  | nil => exact List.nodup_nil
  | append_singleton events e ih =>
      have hbefore := ih fun batch hbatch => h batch (List.mem_append_left _ hbatch)
      rw [flowIds, flowOf_append_singleton]
      cases e with
      | message msg =>
          rw [flowStep]
          split_ifs
          · exact nodup_ids_upsert hbefore msg
          · exact hbefore
      | messageHistory batch =>
          rw [flowStep]
          split_ifs
          · exact h batch (List.mem_append_right _ List.mem_cons_self)
          · exact hbefore
      | readiness ready => exact hbefore
      | roomList roomTopics => exact hbefore
      | spaceTree space room => exact hbefore
      | error message => exact hbefore

/-- Batches repeat no id, and a shown message that is not complete is of a send that is not
finished. -/
structure NodeState.Finishing (s : NodeState) : Prop where
  answer : ∀ r ∈ s.replay, r.history.ids.Nodup ∧ ∀ m ∈ r.history.message, m.state = .complete
  batches : ∀ batch, .messageHistory batch ∈ s.messaging.pushed → batch.ids.Nodup
  flow : ∀ pre batch post, s.messaging.pushed = pre ++ .messageHistory batch :: post →
    ∀ m ∈ flowOf batch.roomTopic (.messageHistory batch :: post),
      m.state = .complete ∨ s.Unfinished batch.roomTopic m.id

namespace NodeState.Finishing

variable {s t : NodeState} {M : Messaging} {l : Label}

theorem fresh : NodeState.fresh.Finishing where
  answer _ hr := by cases hr
  batches _ hbatch := absurd hbatch List.not_mem_nil
  flow _ _ _ heq := absurd heq (List.append_ne_nil_of_right_ne_nil _ (List.cons_ne_nil _ _)).symm

/-- A message of the flow that is not pushed anew is as finished as it was. -/
theorem kept {T : Bytes} {m : ChatMessageState} (hstep : M.Step s l t)
    (h : m.state = .complete ∨ s.Unfinished T m.id)
    (hpush : ∀ msg, t.messaging.pushed = s.messaging.pushed ++ [.message msg] →
      ¬ (msg.roomTopic = T ∧ msg.id = m.id)) : m.state = .complete ∨ t.Unfinished T m.id := by
  rcases h with hdone | hopen
  · exact .inl hdone
  · rcases hstep.unfinished hopen with hstill | ⟨c, _, hroom, hid, _, hpushed⟩
    · exact .inr hstill
    · exact absurd ⟨hroom, hid⟩ (hpush _ hpushed)

theorem flow_step (h : s.Finishing) (hstep : M.Step s l t)
    (hunpushed : ∀ a ∈ s.unpushed, a.message.state = .complete)
    (hsends : ∀ c ∈ s.sends, c.message.state = .complete) :
    ∀ pre batch post, t.messaging.pushed = pre ++ .messageHistory batch :: post →
      ∀ m ∈ flowOf batch.roomTopic (.messageHistory batch :: post),
        m.state = .complete ∨ t.Unfinished batch.roomTopic m.id := by
  intro pre batch post heq m hm
  rcases hstep.pushes with ⟨hpushed, -⟩ | ⟨msg, hpushed, -, -, hmsg⟩ | ⟨r, hr, -, hpushed⟩
  · refine kept hstep (h.flow pre batch post (hpushed ▸ heq) m hm) fun msg hnew _ => ?_
    rw [hpushed] at hnew
    exact List.cons_ne_nil _ _ (List.self_eq_append_right.1 hnew)
  · have hlast : ∀ msg', t.messaging.pushed = s.messaging.pushed ++ [.message msg'] →
        msg' = msg := by
      intro msg' hnew
      have hlast := (List.append_inj' (hnew.symm.trans hpushed) rfl).2
      cases hlast
      rfl
    rw [hpushed] at heq
    rcases eq_append_history_cons heq with ⟨post', rfl, hbefore⟩ | ⟨-, hlast, -⟩
    · have hflow := h.flow pre batch post' hbefore
      rw [← List.cons_append, flowOf_append_singleton, flowStep] at hm
      split_ifs at hm with hroom
      · have hnodup : (flowIds batch.roomTopic (.messageHistory batch :: post')).Nodup :=
          nodup_flowIds fun b hb => h.batches b (hbefore ▸ List.mem_append_right _ hb)
        rcases mem_upsert hnodup hm with rfl | ⟨hold, hne⟩
        · rcases hmsg with ⟨a, ha, rfl, -⟩ | ⟨c, hc, rfl, -⟩ | hopen
          · exact .inl (hunpushed a ha)
          · exact .inl (hsends c hc)
          · exact .inr (hroom ▸ hopen)
        · refine kept hstep (hflow m hold) fun msg' hnew hsame => ?_
          exact hne (hlast msg' hnew ▸ hsame.2).symm
      · refine kept hstep (hflow m hm) fun msg' hnew hsame => ?_
        exact hroom (hlast msg' hnew ▸ hsame.1)
    · cases hlast
  · have hno : ∀ msg, t.messaging.pushed ≠ s.messaging.pushed ++ [.message msg] := by
      intro msg hnew
      have hlast := (List.append_inj' (hpushed.symm.trans hnew) rfl).2
      cases hlast
    have hanswer := (h.answer r hr).2
    rw [hpushed] at heq
    rcases eq_append_history_cons heq with ⟨post', rfl, hbefore⟩ | ⟨rfl, hlast, -⟩
    · rw [← List.cons_append, flowOf_history] at hm
      split_ifs at hm with hroom
      · exact .inl (hanswer m hm)
      · exact kept hstep (h.flow pre batch post' hbefore m hm) fun msg hnew _ => hno msg hnew
    · cases hlast
      rw [← List.nil_append [GcsEvent.messageHistory r.history], flowOf_history, if_pos rfl] at hm
      exact .inl (hanswer m hm)

theorem step (h : s.Finishing) (hstep : M.Step s l t)
    (hunpushed : ∀ a ∈ s.unpushed, a.message.state = .complete)
    (hsends : ∀ c ∈ s.sends, c.message.state = .complete)
    (hscan : ∀ T entries, l = .scan T → entries.Perm (s.underPrefix T) →
      (MessageHistory.ids ⟨T, M.historyMessages T entries⟩).Nodup ∧
        ∀ m ∈ M.historyMessages T entries, m.state = .complete) : t.Finishing where
  answer r hr := by
    rcases hstep.replays hr with ⟨r', hr', heq⟩ | ⟨T, entries, hl, hentries, -, -, heq⟩
    · exact heq ▸ h.answer r' hr'
    · rw [heq]
      exact hscan T entries hl hentries
  batches batch hbatch := by
    rcases hstep.pushes with ⟨hpushed, -⟩ | ⟨msg, hpushed, -⟩ | ⟨r, hr, -, hpushed⟩
    · exact h.batches batch (hpushed ▸ hbatch)
    · rw [hpushed, List.mem_append, List.mem_singleton] at hbatch
      exact h.batches batch (hbatch.resolve_right (by simp))
    · rw [hpushed, List.mem_append, List.mem_singleton] at hbatch
      rcases hbatch with hold | hnew
      · exact h.batches batch hold
      · cases hnew
        exact (h.answer r hr).1
  flow := h.flow_step hstep hunpushed hsends

end NodeState.Finishing

/-- What has been shown is stored, or on its way to the store, or of a send that is not finished. -/
structure NodeState.Archiving (s : NodeState) : Prop where
  shown : ∀ T x, ShownIn s.messaging.pushed T x →
    s.Stored T x ∨ s.Queued T x ∨ s.Unfinished T x
  answered : ∀ T x, s.Answered T x → s.Stored T x
  sent : ∀ c ∈ s.sends, c.stage = .archived ∨ c.stage = .returned true →
    s.Stored c.message.roomTopic c.message.id

namespace NodeState.Archiving

variable {s t : NodeState} {M : Messaging} {l : Label}

theorem fresh : NodeState.fresh.Archiving where
  shown T x hx := by
    rcases hx with ⟨_, hmem, -⟩ | ⟨_, hmem, -⟩ <;> cases hmem
  answered T x hx := by
    obtain ⟨r, hr, -⟩ := hx
    cases hr
  sent := List.forall_mem_nil _

theorem shown_step (h : s.Archiving) (hstep : M.Step s l t) (hl : l ≠ .put false) (T x : Bytes)
    (hx : ShownIn t.messaging.pushed T x) : t.Stored T x ∨ t.Queued T x ∨ t.Unfinished T x := by
  have hold : ShownIn s.messaging.pushed T x →
      t.Stored T x ∨ t.Queued T x ∨ t.Unfinished T x := by
    intro hshown
    rcases h.shown T x hshown with hstored | hqueued | hopen
    · exact .inl (hstep.stored_mono hstored)
    · exact (hstep.queued hl hqueued).elim (fun h => .inr (.inl h)) .inl
    · rcases hstep.unfinished hopen with hstill | ⟨c, hc, rfl, rfl, hstage, -⟩
      · exact .inr (.inr hstill)
      · exact .inl (hstep.stored_mono (h.sent c hc (.inl hstage)))
  rcases hstep.pushes with ⟨hpushed, -⟩ | ⟨msg, hpushed, -, -, hmsg⟩ | ⟨r, hr, -, hpushed⟩
  · exact hold (hpushed ▸ hx)
  · rw [hpushed] at hx
    rcases shownIn_append_message hx with hx | ⟨rfl, rfl⟩
    · exact hold hx
    · rcases hmsg with ⟨a, _, _, hqueued⟩ | ⟨c, hc, rfl, hstage⟩ | hopen
      · exact .inr (.inl hqueued)
      · exact .inl (hstep.stored_mono (h.sent c hc (.inl hstage)))
      · exact .inr (.inr hopen)
  · rw [hpushed] at hx
    rcases shownIn_append_history hx with hx | ⟨hroom, hmem⟩
    · exact hold hx
    · exact .inl (hstep.stored_mono (h.answered T x ⟨r, hr, hroom, hmem⟩))

theorem answered_step (h : s.Archiving) (hstep : M.Step s l t)
    (hscan : ∀ T entries, l = .scan T → entries.Perm (s.underPrefix T) →
      ∀ x ∈ MessageHistory.ids ⟨T, M.historyMessages T entries⟩, s.Stored T x) (T x : Bytes)
    (hx : t.Answered T x) : t.Stored T x := by
  obtain ⟨r, hr, hroom, hmem⟩ := hx
  apply hstep.stored_mono
  rcases hstep.replays hr with ⟨r', hr', heq⟩ | ⟨T', entries, hl, hentries, -, -, heq⟩
  · exact h.answered T x ⟨r', hr', heq ▸ hroom, heq ▸ hmem⟩
  · rw [heq] at hroom hmem
    obtain rfl : T' = T := hroom
    exact hscan _ entries hl hentries x hmem

theorem sent_step (h : s.Archiving) (hstep : M.Step s l t) : ∀ c ∈ t.sends,
    c.stage = .archived ∨ c.stage = .returned true →
      t.Stored c.message.roomTopic c.message.id := by
  have hold : ∀ c ∈ s.sends, c.stage = .archived ∨ c.stage = .returned true →
      t.Stored c.message.roomTopic c.message.id := fun c hc hstage =>
    hstep.stored_mono (h.sent c hc hstage)
  rcases hstep.moves with heq | ⟨c, heq, hminted⟩ |
    ⟨before, c, c', after, hs, ht, hmessage, hstored, hreturned⟩
  · exact heq ▸ hold
  · rw [heq, List.forall_mem_append, List.forall_mem_singleton, hminted]
    exact ⟨hold, by simp⟩
  · rw [hs, List.forall_mem_append, List.forall_mem_cons] at hold
    rw [ht, List.forall_mem_append, List.forall_mem_cons, hmessage]
    refine ⟨hold.1, fun hstage => ?_, hold.2.2⟩
    rcases hstage with harchived | hend
    · exact hstored harchived
    · exact hold.2.1 (.inl (hreturned hend).1)

theorem step (h : s.Archiving) (hstep : M.Step s l t) (hl : l ≠ .put false)
    (hscan : ∀ T entries, l = .scan T → entries.Perm (s.underPrefix T) →
      ∀ x ∈ MessageHistory.ids ⟨T, M.historyMessages T entries⟩, s.Stored T x) : t.Archiving where
  shown := h.shown_step hstep hl
  answered := h.answered_step hstep hscan
  sent := h.sent_step hstep

end NodeState.Archiving

end GcsChat
