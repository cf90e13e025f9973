import GcsChat.FlowScreen
import GcsChat.Network

/-!
# What the screens of a network show

Nodes that replicate each other's archives, each with a shell that handles what its core pushes.
Whatever the network loses, repeats or delays, a bubble on a screen is a message that some node has
sent, and as complete only one that its sender has published.
-/

namespace GcsChat

open ByteString

/-- The sends are complete records of the node, those past the publish were published, and nothing
else was. -/
structure Messaging.OwnSends (M : Messaging) (sends : List Sending)
    (published : List (Bytes × Bytes)) : Prop where
  composed : ∀ c ∈ sends, c.message.state = .complete ∧ c.message.sender = M.sender
  handed : ∀ c ∈ sends, c.stage = .published ∨ c.stage = .archived →
    ∃ v, c.payload = some v ∧ (c.message.roomTopic, v) ∈ published
  sent : ∀ p ∈ published, ∃ c ∈ sends, c.message.roomTopic = p.1 ∧ c.payload = some p.2

namespace Messaging.OwnSends

variable {M : Messaging} {sends : List Sending} {published : List (Bytes × Bytes)}

theorem nil (M : Messaging) : M.OwnSends [] [] where
  composed := List.forall_mem_nil _
  handed := List.forall_mem_nil _
  sent := List.forall_mem_nil _

theorem compose (h : M.OwnSends sends published) (T text id : Bytes) (nowMs : ℤ) :
    M.OwnSends (sends ++ [⟨M.completeMessage T text id nowMs, none, .minted⟩]) published where
  composed := List.forall_mem_append.2 ⟨h.composed, List.forall_mem_singleton.2 ⟨rfl, rfl⟩⟩
  handed := by
    refine List.forall_mem_append.2 ⟨h.handed, List.forall_mem_singleton.2 fun hstage => ?_⟩
    rcases hstage with hstage | hstage <;> cases hstage
  sent p hp := by
    obtain ⟨c, hc, hcp⟩ := h.sent p hp
    exact ⟨c, List.mem_append_left _ hc, hcp⟩

theorem advance {before after : List Sending} {c c' : Sending}
    (h : M.OwnSends (before ++ c :: after) published) (hadv : M.Advances c c')
    {new : List (Bytes × Bytes)}
    (hnew : ∀ p ∈ new, c.message.roomTopic = p.1 ∧ c'.payload = some p.2)
    (hstage : c'.stage = .published ∨ c'.stage = .archived →
      ∃ v, c'.payload = some v ∧ (c.message.roomTopic, v) ∈ published ++ new) :
    M.OwnSends (before ++ c' :: after) (published ++ new) := by
  have hcomposed := h.composed
  have hhanded := h.handed
  rw [List.forall_mem_append, List.forall_mem_cons] at hcomposed hhanded
  have hkeep : ∀ d : Sending, (d.stage = .published ∨ d.stage = .archived →
      ∃ v, d.payload = some v ∧ (d.message.roomTopic, v) ∈ published) →
      d.stage = .published ∨ d.stage = .archived →
      ∃ v, d.payload = some v ∧ (d.message.roomTopic, v) ∈ published ++ new := by
    intro d hd hstage
    obtain ⟨v, hv, hmem⟩ := hd hstage
    exact ⟨v, hv, List.mem_append_left _ hmem⟩
  refine ⟨?_, ?_, ?_⟩
  · rw [List.forall_mem_append, List.forall_mem_cons, hadv.message]
    exact hcomposed
  · rw [List.forall_mem_append, List.forall_mem_cons, hadv.message]
    exact ⟨fun d hd => hkeep d (hhanded.1 d hd), hstage, fun d hd => hkeep d (hhanded.2.2 d hd)⟩
  · have hself : c' ∈ before ++ c' :: after := List.mem_append_right _ List.mem_cons_self
    refine List.forall_mem_append.2 ⟨fun p hp => ?_, fun p hp => ?_⟩
    · obtain ⟨d, hd, hroom, hpayload⟩ := h.sent p hp
      rw [List.mem_append, List.mem_cons] at hd
      rcases hd with hd | rfl | hd
      · exact ⟨d, List.mem_append_left _ hd, hroom, hpayload⟩
      · exact ⟨c', hself, hadv.message ▸ hroom, hadv.keeps _ hpayload⟩
      · exact ⟨d, List.mem_append_right _ (List.mem_cons_of_mem _ hd), hroom, hpayload⟩
    · exact ⟨c', hself, hadv.message ▸ hnew p hp⟩

theorem advance_silent {before after : List Sending} {c c' : Sending}
    (h : M.OwnSends (before ++ c :: after) published) (hadv : M.Advances c c')
    (hstage : c'.stage = .published ∨ c'.stage = .archived →
      ∃ v, c'.payload = some v ∧ (c.message.roomTopic, v) ∈ published) :
    M.OwnSends (before ++ c' :: after) published := by
  have hadvance := h.advance hadv (List.forall_mem_nil _) (by rwa [List.append_nil])
  rwa [List.append_nil] at hadvance

theorem step {s t : NodeState} {l : Label} (h : M.OwnSends s.sends s.published)
    (hstep : M.Step s l t) : M.OwnSends t.sends t.published := by
  cases hstep with
  | live T v =>
      obtain ⟨hsends, hpublished⟩ := Messaging.receive_sends M s T v
      rwa [hsends, hpublished]
  | callback before cb after _ =>
      obtain ⟨hsends, hpublished⟩ := Messaging.arrive_sends M
        { s with callbacks := before ++ after } (slash :: cb.key) cb.valueBytes
      rwa [hsends, hpublished]
  | send T text id nowMs => exact h.compose T text id nowMs
  | sendEcho before msg after hlist =>
      rw [hlist] at h
      exact h.advance_silent (.stage msg none _ _) (by simp)
  | sendSeal before msg after random payload hlist hsealed =>
      rw [hlist] at h
      refine h.advance_silent ⟨rfl, by simp, ?_⟩ (by simp)
      rintro v ⟨⟩
      exact Or.inr ⟨random, hsealed⟩
  | sendSealFailed before msg after _ hlist =>
      rw [hlist] at h
      exact h.advance_silent (.stage msg none _ _) (by simp)
  | sendPublish before msg payload after hlist =>
      rw [hlist] at h
      refine h.advance (.stage msg (some payload) _ _) (List.forall_mem_singleton.2 ⟨rfl, rfl⟩) ?_
      exact fun _ => ⟨payload, rfl, List.mem_append_right _ List.mem_cons_self⟩
  | sendPublishFailed before msg payload after hlist =>
      rw [hlist] at h
      exact h.advance_silent (.stage msg (some payload) _ _) (by simp)
  | sendPut before msg payload after hlist =>
      rw [hlist] at h
      have hhanded := h.handed _ (List.mem_append_right _ List.mem_cons_self) (Or.inl rfl)
      exact h.advance_silent (.stage msg (some payload) _ _) fun _ => hhanded
  | sendPutFailed before msg payload after hlist =>
      rw [hlist] at h
      exact h.advance_silent (.stage msg (some payload) _ _) (by simp)
  | sendReturn before msg payload after hlist =>
      rw [hlist] at h
      exact h.advance_silent (.stage msg (some payload) _ _) (by simp)
  | sendReturnFailed before msg payload after hlist =>
      rw [hlist] at h
      exact h.advance_silent (.stage msg payload _ _) (by simp)
  | _ => exact h

end Messaging.OwnSends

/-- What is past the dedupe check satisfies `A`, what was pushed or is about to be, `E`. -/
structure NodeState.Tells (A : Accepted → Prop) (E : GcsEvent → Prop) (s : NodeState) : Prop where
  unpushed : ∀ a ∈ s.unpushed, A a
  pushed : ∀ e ∈ s.messaging.pushed, E e
  replay : ∀ r ∈ s.replay, E (.messageHistory r.history)

namespace NodeState.Tells

variable {A A' : Accepted → Prop} {E E' : GcsEvent → Prop} {s t : NodeState} {M : Messaging}

theorem fresh (A : Accepted → Prop) (E : GcsEvent → Prop) : NodeState.fresh.Tells A E where
  unpushed := List.forall_mem_nil _
  pushed := List.forall_mem_nil _
  replay _ hr := by cases hr

theorem mono (h : s.Tells A E) (hA : ∀ a, A a → A' a) (hE : ∀ e, E e → E' e) : s.Tells A' E' where
  unpushed a ha := hA a (h.unpushed a ha)
  pushed e he := hE e (h.pushed e he)
  replay r hr := hE _ (h.replay r hr)

theorem receive (h : s.Tells A E) {T v : Bytes}
    (hopen : ∀ msg, M.openMessage T v = some msg → A ⟨msg, v⟩) : (M.receive s T v).Tells A E := by
  rcases M.receive_cases s T v with heq | ⟨msg, hmsg, _, heq⟩
  · rwa [heq]
  · rw [heq]
    exact { h with
      unpushed := List.forall_mem_append.2
        ⟨h.unpushed, List.forall_mem_singleton.2 (hopen msg hmsg)⟩ }

theorem arrive (h : s.Tells A E) {key v : Bytes}
    (hopen : ∀ T msg, roomTopicFromKey key = some T → M.openMessage T v = some msg → A ⟨msg, v⟩) :
    (M.arrive s key v).Tells A E := by
  rcases M.arrive_cases s key v with heq | ⟨T, msg, hkey, hmsg, _, heq⟩
  · rwa [heq]
  · rw [heq]
    exact { h with
      unpushed := List.forall_mem_append.2
        ⟨h.unpushed, List.forall_mem_singleton.2 (hopen T msg hkey hmsg)⟩ }

theorem push (h : s.Tells A E) {msg : ChatMessageState} (hmsg : E (.message (M.withRole msg))) :
    NodeState.Tells A E { s with messaging := M.pushMessage s.messaging msg } :=
  { h with pushed := List.forall_mem_append.2 ⟨h.pushed, List.forall_mem_singleton.2 hmsg⟩ }

/-- A step tells the shell of a message that was past the dedupe check, of the answer to a scan or
of a send. -/
theorem step {l : Label} (h : s.Tells A E) (hstep : M.Step s l t)
    (hlive : ∀ T v msg, l = .live T v → M.openMessage T v = some msg → A ⟨msg, v⟩)
    (hcallback : ∀ cb ∈ s.callbacks, ∀ T msg, roomTopicFromKey (slash :: cb.key) = some T →
      M.openMessage T cb.valueBytes = some msg → A ⟨msg, cb.valueBytes⟩)
    (hpush : ∀ a, A a → E (.message (M.withRole a.message)))
    (hscan : ∀ T entries, l = .scan T → entries.Perm (s.underPrefix T) →
      E (.messageHistory ⟨T, M.historyMessages T entries⟩))
    (hsend : ∀ c ∈ s.sends, ∀ state, state = .pending ∨ state = .error →
      E (.message (M.withRole { c.message with state := state })))
    (hreturn : ∀ c ∈ s.sends, c.stage = .archived → E (.message (M.withRole c.message))) :
    t.Tells A E := by
  cases hstep with
  | live T v => exact h.receive (hlive T v · rfl)
  | callback before cb after hcbs =>
      have hmem : cb ∈ s.callbacks := hcbs ▸ List.mem_append_right _ List.mem_cons_self
      have hrest : NodeState.Tells A E { s with callbacks := before ++ after } := { h with }
      exact hrest.arrive (hcallback cb hmem)
  | push before a after hlist _ =>
      obtain ⟨hrest, ha⟩ := forall_mem_of_eq_append_cons h.unpushed hlist
      have hpushed := h.push (hpush a ha)
      exact { hpushed with unpushed := hrest }
  | scan T entries hentries _ =>
      refine { h with replay := fun r hr => ?_ }
      cases hr
      exact hscan T entries rfl hentries
  | absorb history hreplay =>
      refine { h with replay := fun r hr => ?_ }
      cases hr
      have hbatch := h.replay _ hreplay
      exact hbatch
  | reply history hreplay =>
      refine ⟨h.unpushed, ?_, fun r hr => by cases hr⟩
      exact List.forall_mem_append.2 ⟨h.pushed, List.forall_mem_singleton.2 (h.replay _ hreplay)⟩
  | sendEcho before msg after hlist _ =>
      have hmem := hsend ⟨msg, none, .minted⟩ (by simp [hlist]) .pending (Or.inl rfl)
      exact { h.push hmem with }
  | sendReturn before msg payload after hlist _ =>
      have hmem := hreturn ⟨msg, some payload, .archived⟩ (by simp [hlist]) rfl
      exact { h.push hmem with }
  | sendReturnFailed before msg payload after hlist _ =>
      have hmem := hsend ⟨msg, payload, .failing⟩ (by simp [hlist]) .error (Or.inr rfl)
      exact { h.push hmem with }
  | _ => exact { h with }

end NodeState.Tells

namespace Network

variable {ι : Type*} (N : Network ι)

/-- Only a room that can be joined has its history replayed. -/
def joinedScans : TransitionSystem (ι → NodeState) (ι × Label) :=
  N.system.restrict fun _ il => ∀ T, il.2 = .scan T → isValidRoomTopicShape T = true

def Composed (s : ι → NodeState) (j : ι) (msg : ChatMessageState) : Prop :=
  ∃ c ∈ (s j).sends, c.message = msg

def Handed (s : ι → NodeState) (j : ι) (msg : ChatMessageState) (v : Bytes) : Prop :=
  (msg.roomTopic, v) ∈ (s j).published ∧ ∃ c ∈ (s j).sends, c.message = msg ∧ c.payload = some v

/-- What node `i` may say of a record: its own on the way or failed, and any that was published. -/
inductive TrueMessage (s : ι → NodeState) (i : ι) : ChatMessageState → Prop
  | own {msg : ChatMessageState} {state : MessageState} (h : Composed s i msg)
      (hstate : state = .pending ∨ state = .error) :
      TrueMessage s i ((N.messaging i).withRole { msg with state := state })
  | complete {j : ι} {msg : ChatMessageState} {v : Bytes} (h : Handed s j msg v) :
      TrueMessage s i ((N.messaging i).withRole msg)

def TrueEvent (s : ι → NodeState) (i : ι) : GcsEvent → Prop
  | .message msg => N.TrueMessage s i msg
  | .messageHistory history =>
      ∀ msg ∈ history.message, N.TrueMessage s i msg ∧ msg.roomTopic = history.roomTopic
  | _ => True

/-- Everything held, awaited and told goes back to a publish. -/
structure Honest (s : ι → NodeState) : Prop where
  own : ∀ i, (N.messaging i).OwnSends (s i).sends (s i).published
  holds : ∀ i, (s i).Holds fun record =>
    ∃ j msg, Handed s j msg record.2 ∧ record.1 = buildKey msg.roomTopic msg.id
  tells : ∀ i, (s i).Tells (fun a => ∃ j, Handed s j a.message a.valueBytes) (N.TrueEvent s i)

variable {N} {s t : ι → NodeState} {il : ι × Label} {i j : ι} {msg : ChatMessageState} {v : Bytes}

theorem Handed.minted (h : Handed s j msg v) : Minted s msg.roomTopic msg.id v := by
  obtain ⟨-, c, hc, rfl, hv⟩ := h
  exact ⟨j, c, hc, rfl, rfl, hv⟩

theorem Handed.isSent (hinv : N.Invariant s) (h : Handed s j msg v) :
    isValidRoomTopicShape msg.roomTopic = true ∧ IsKeySegment msg.id ∧
      (N.messaging i).openMessage msg.roomTopic v = some msg := by
  obtain ⟨-, c, hc, rfl, hv⟩ := h
  have hsent := hinv.sent j c hc
  exact ⟨hsent.shape, hsent.segment, hsent.opens v hv⟩

theorem Handed.eq_of_open (hinv : N.Invariant s) (h : Handed s j msg v) {msg' : ChatMessageState}
    (hopen : (N.messaging i).openMessage msg.roomTopic v = some msg') : msg' = msg :=
  Option.some.inj (hopen.symm.trans (h.isSent hinv).2.2)

/-- Whoever published bytes for a room has sent the record in them. -/
theorem Honest.exists_handed (h : N.Honest s) {T : Bytes} (hp : (T, v) ∈ (s j).published) :
    ∃ msg, Handed s j msg v ∧ msg.roomTopic = T := by
  obtain ⟨c, hc, hroom, hv⟩ := (h.own j).sent _ hp
  exact ⟨c.message, ⟨hroom ▸ hp, c, hc, rfl, hv⟩, hroom⟩

section Step

variable (hstep : N.system.step s il t)

include hstep

theorem send_step {c : Sending} (hc : c ∈ (s j).sends) : ∃ c' ∈ (t j).sends,
    c'.message = c.message ∧ ∀ v, c.payload = some v → c'.payload = some v := by
  by_cases hj : j = il.1
  · subst hj
    rcases hstep.1.sends with heq | ⟨_, _, _, _, _, heq⟩ | ⟨before, d, d', after, hlist, heq, hadv⟩
    · exact ⟨c, heq ▸ hc, rfl, fun _ h => h⟩
    · exact ⟨c, heq ▸ List.mem_append_left _ hc, rfl, fun _ h => h⟩
    · rw [hlist, List.mem_append, List.mem_cons] at hc
      rcases hc with hc | rfl | hc
      · exact ⟨c, by simp [heq, hc], rfl, fun _ h => h⟩
      · exact ⟨d', by simp [heq], hadv.message, hadv.keeps⟩
      · exact ⟨c, by simp [heq, hc], rfl, fun _ h => h⟩
  · exact ⟨c, hstep.2.1 j hj ▸ hc, rfl, fun _ h => h⟩

theorem Composed.step (h : Composed s j msg) : Composed t j msg := by
  obtain ⟨c, hc, hmsg⟩ := h
  obtain ⟨c', hc', hmessage, -⟩ := send_step hstep hc
  exact ⟨c', hc', hmessage.trans hmsg⟩

theorem Handed.step (h : Handed s j msg v) : Handed t j msg v := by
  obtain ⟨hp, c, hc, hmsg, hv⟩ := h
  obtain ⟨c', hc', hmessage, hkeeps⟩ := send_step hstep hc
  refine ⟨?_, c', hc', hmessage.trans hmsg, hkeeps v hv⟩
  by_cases hj : j = il.1
  · subst hj
    rcases hstep.1.published with heq | ⟨_, _, _, heq⟩
    · exact heq ▸ hp
    · exact heq ▸ List.mem_append_left _ hp
  · exact hstep.2.1 j hj ▸ hp

theorem TrueMessage.step (h : N.TrueMessage s i msg) : N.TrueMessage t i msg := by
  cases h with
  | own h hstate => exact .own (h.step hstep) hstate
  | complete h => exact .complete (h.step hstep)

theorem TrueEvent.step {e : GcsEvent} (h : N.TrueEvent s i e) : N.TrueEvent t i e := by
  cases e with
  | message msg => exact TrueMessage.step hstep h
  | messageHistory history => exact fun msg hmsg => ⟨(h msg hmsg).1.step hstep, (h msg hmsg).2⟩
  | readiness ready => trivial
  | roomList roomTopics => trivial
  | spaceTree space room => trivial
  | error message => trivial

end Step

theorem Honest.trueEvent_scan (h : N.Honest s) (hinv : N.Invariant s) {T : Bytes}
    (hT : isValidRoomTopicShape T = true) {entries : List (Bytes × Bytes)}
    (hentries : entries.Perm ((s i).underPrefix T)) :
    N.TrueEvent s i (.messageHistory ⟨T, (N.messaging i).historyMessages T entries⟩) := by
  intro msg hmsg
  obtain ⟨entry, hentry, m, hopen, rfl⟩ := Messaging.mem_historyMessages.1 hmsg
  obtain ⟨hfind, hprefix⟩ := mem_underPrefix.1 (hentries.mem_iff.1 hentry)
  obtain ⟨j, sent, hhanded, hkey⟩ := (h.holds i).store _ _ hfind
  have hroom : sent.roomTopic = T :=
    (eq_of_historyPrefix_isPrefix hT (hhanded.isSent (i := i) hinv).1 (hkey ▸ hprefix)).symm
  have hsame : m = sent := hhanded.eq_of_open hinv (hroom ▸ hopen)
  exact ⟨hsame ▸ .complete hhanded, hsame ▸ hroom⟩

theorem Handed.callback (hinv : N.Invariant s) (h : Handed s j msg v) {T : Bytes}
    {msg' : ChatMessageState}
    (hkey : roomTopicFromKey (slash :: buildKey msg.roomTopic msg.id) = some T)
    (hopen : (N.messaging i).openMessage T v = some msg') : Handed s j msg' v := by
  rw [roomTopicFromKey_cons_buildKey _ (h.isSent (i := i) hinv).2.1] at hkey
  obtain rfl := Option.some.inj hkey
  exact h.eq_of_open hinv hopen ▸ h

theorem honest_fresh (h : ∀ i, s i = .fresh) : N.Honest s where
  own i := by
    rw [h i]
    exact .nil _
  holds i := by
    rw [h i]
    exact .fresh _
  tells i := by
    rw [h i]
    exact .fresh _ _

theorem Honest.holds_step (h : N.Honest s) (hinv : N.Invariant s) (hstep : N.system.step s il t) :
    (t il.1).Holds fun record =>
      ∃ j msg, Handed s j msg record.2 ∧ record.1 = buildKey msg.roomTopic msg.id := by
  have hallowed := hstep.2.2
  refine (h.holds il.1).step hstep.1 ?_ ?_ ?_ ?_
  · intro T v msg hl hopen
    rw [hl] at hallowed
    obtain ⟨k, hpublished⟩ := hallowed
    obtain ⟨sent, hhanded, rfl⟩ := h.exists_handed hpublished
    exact ⟨k, msg, hhanded.eq_of_open hinv hopen ▸ hhanded, rfl⟩
  · intro k v wins hl
    rw [hl] at hallowed
    obtain ⟨j, hwritten⟩ := hallowed
    exact (h.holds j).written _ hwritten
  · rintro k v T msg ⟨j, sent, hhanded, rfl⟩ hkey hopen
    exact ⟨j, msg, hhanded.callback hinv hkey hopen, rfl⟩
  · intro msg payload hmem
    obtain ⟨v, hv, hpublished⟩ := (h.own il.1).handed _ hmem (Or.inl rfl)
    cases hv
    exact ⟨il.1, msg, ⟨hpublished, _, hmem, rfl, rfl⟩, rfl⟩

theorem Honest.tells_step (h : N.Honest s) (hinv : N.Invariant s) (hstep : N.system.step s il t)
    (hscan : ∀ T, il.2 = .scan T → isValidRoomTopicShape T = true) :
    (t il.1).Tells (fun a => ∃ j, Handed s j a.message a.valueBytes) (N.TrueEvent s il.1) := by
  have hallowed := hstep.2.2
  refine (h.tells il.1).step hstep.1 ?_ ?_ ?_ ?_ ?_ ?_
  · intro T v msg hl hopen
    rw [hl] at hallowed
    obtain ⟨k, hpublished⟩ := hallowed
    obtain ⟨sent, hhanded, rfl⟩ := h.exists_handed hpublished
    exact ⟨k, hhanded.eq_of_open hinv hopen ▸ hhanded⟩
  · intro cb hcb T msg hkey hopen
    obtain ⟨j, sent, hhanded, hrecord⟩ := (h.holds il.1).callbacks cb hcb
    rw [show cb.key = _ from hrecord] at hkey
    exact ⟨j, hhanded.callback hinv hkey hopen⟩
  · rintro a ⟨j, hhanded⟩
    exact .complete hhanded
  · exact fun T entries hl hentries => h.trueEvent_scan hinv (hscan T hl) hentries
  · exact fun c hc state hstate => .own ⟨c, hc, rfl⟩ hstate
  · intro c hc hstage
    obtain ⟨v, hv, hpublished⟩ := (h.own il.1).handed c hc (Or.inr hstage)
    exact .complete ⟨hpublished, c, hc, rfl, hv⟩

theorem Honest.step (h : N.Honest s) (hinv : N.Invariant s) (hstep : N.joinedScans.step s il t) :
    N.Honest t := by
  obtain ⟨hstep, hscan⟩ := hstep
  have hrecord : ∀ record : Bytes × Bytes,
      (∃ j msg, Handed s j msg record.2 ∧ record.1 = buildKey msg.roomTopic msg.id) →
      ∃ j msg, Handed t j msg record.2 ∧ record.1 = buildKey msg.roomTopic msg.id := by
    rintro record ⟨j, msg, hhanded, hkey⟩
    exact ⟨j, msg, hhanded.step hstep, hkey⟩
  have haccepted : ∀ a : Accepted, (∃ j, Handed s j a.message a.valueBytes) →
      ∃ j, Handed t j a.message a.valueBytes := by
    rintro a ⟨j, hhanded⟩
    exact ⟨j, hhanded.step hstep⟩
  have hevent : ∀ i e, N.TrueEvent s i e → N.TrueEvent t i e := fun i e he => he.step hstep
  refine ⟨fun i => ?_, fun i => ?_, fun i => ?_⟩
  · by_cases hi : i = il.1
    · exact hi ▸ (h.own il.1).step hstep.1
    · exact hstep.2.1 i hi ▸ h.own i
  · by_cases hi : i = il.1
    · exact hi ▸ (h.holds_step hinv hstep).mono hrecord
    · exact hstep.2.1 i hi ▸ (h.holds i).mono hrecord
  · by_cases hi : i = il.1
    · exact hi ▸ (h.tells_step hinv hstep hscan).mono haccepted (hevent _)
    · exact hstep.2.1 i hi ▸ (h.tells i).mono haccepted (hevent i)

theorem honest_of_reachable (h : N.joinedScans.Reachable s) : N.Invariant s ∧ N.Honest s :=
  h.invariant (I := fun s => N.Invariant s ∧ N.Honest s)
    (fun _ h₀ => ⟨invariant_fresh h₀, honest_fresh h₀⟩)
    fun s il t hs (hstep : N.joinedScans.step s il t) =>
      ⟨Invariant.step s il t hs.1 hstep.1, hs.2.step hs.1 hstep⟩

end Network

def GcsEvent.ofMessages : GcsEvent → Bool
  | .message _ => true
  | .messageHistory _ => true
  | _ => false

/-- A bubble is left from before or carried by the event. -/
theorem ShellState.mem_flow_handle {s : ShellState} {l : ShellStep} {bubble : ChatFlowItem}
    (h : bubble ∈ (s.handle l).flow) : bubble ∈ s.flow ∨
      (∃ msg, l = .pushed (.ok (.message msg)) ∧
        bubble = MessageFlow.buildChatFlowItemTextBubble msg.roomTopic msg) ∨
      ∃ history, l = .pushed (.ok (.messageHistory history)) ∧ ∃ msg ∈ history.message,
        bubble = MessageFlow.buildChatFlowItemTextBubble history.roomTopic msg := by
  have hrail : ∀ u : ShellState, bubble ∈ (SessionCubit.onRailStateChanged u).flow →
      bubble ∈ u.flow := by
    intro u hu
    unfold SessionCubit.onRailStateChanged at hu
    split at hu
    · exact hu
    · split at hu
      · exact hu
      · cases hu
  cases l with
  | selectRoom roomTopic =>
      rw [ShellState.handle] at h
      split at h
      · exact .inl h
      · have hold := hrail _ h
        exact .inl hold
  | pushed event =>
      cases event with
      | error text => exact .inl h
      | ok event =>
          cases event with
          | spaceTree space room =>
              have hold := hrail _ h
              exact .inl hold
          | roomList roomTopics =>
              have hold := hrail _ h
              exact .inl hold
          | readiness ready => exact .inl h
          | error message => exact .inl h
          | message msg =>
              simp only [ShellState.handle, SessionCubit.dispatchEvent] at h
              split_ifs at h
              · dsimp only at h
                rcases MessageFlow.mem_of_mem_upsert h with hnew | hold
                · exact .inr (.inl ⟨msg, rfl, hnew⟩)
                · exact .inl hold
              · exact .inl h
          | messageHistory history =>
              simp only [ShellState.handle, SessionCubit.dispatchEvent] at h
              split_ifs at h
              · dsimp only [MessageFlow.replaceAll] at h
                obtain ⟨msg, hmsg, rfl⟩ :=
                  List.mem_map.1 (MessageFlow.mem_of_mem_cappedItems h)
                exact .inr (.inr ⟨history, rfl, msg, hmsg, rfl⟩)
              · exact .inl h

namespace Network

variable {ι : Type*} {N : Network ι} {s : ι → NodeState} {i j : ι} {bubble : ChatFlowItem}

/-- Some shell, whose message events are among those that the node has pushed, has the bubble. -/
def OnScreen (s : ι → NodeState) (i : ι) (bubble : ChatFlowItem) : Prop :=
  ∃ (s₀ : ShellState) (ls : List ShellStep), s₀.Starts ∧
    (∀ e : GcsEvent, ShellStep.pushed (.ok e) ∈ ls → e.ofMessages = true →
      e ∈ (s i).messaging.pushed) ∧
    bubble ∈ (ls.foldl ShellState.handle s₀).flow

def TrueBubble (N : Network ι) (s : ι → NodeState) (i : ι) (bubble : ChatFlowItem) : Prop :=
  bubble.instanceId = bubble.message.id ∧ bubble.origin = bubble.message.roomTopic ∧
    N.TrueMessage s i bubble.message

theorem OnScreen.trueBubble (h : N.Honest s) (hscreen : OnScreen s i bubble) :
    N.TrueBubble s i bubble := by
  obtain ⟨s₀, ls, hstarts, hfed, hbubble⟩ := hscreen
  induction ls using List.reverseRecOn generalizing bubble with
  | nil =>
      rw [List.foldl_nil, hstarts.1] at hbubble
      cases hbubble
  | append_singleton ls l ih =>
      rw [List.foldl_append, List.foldl_cons, List.foldl_nil] at hbubble
      have hfed_last : ∀ e : GcsEvent, l = .pushed (.ok e) → e.ofMessages = true →
          N.TrueEvent s i e := by
        rintro e rfl he
        exact (h.tells i).pushed e (hfed e (List.mem_append_right _ List.mem_cons_self) he)
      rcases ShellState.mem_flow_handle hbubble with
        hold | ⟨msg, hl, rfl⟩ | ⟨history, hl, msg, hmsg, rfl⟩
      · exact ih (fun e he => hfed e (List.mem_append_left _ he)) hold
      · exact ⟨rfl, rfl, hfed_last _ hl rfl⟩
      · obtain ⟨htrue, hroom⟩ := hfed_last _ hl rfl msg hmsg
        exact ⟨rfl, hroom.symm, htrue⟩

/-- What the message of a bubble may be: the record of the send, as its reader sees it, complete if it
was published and otherwise the reader's own. -/
structure TellsOf (N : Network ι) (s : ι → NodeState) (i j : ι) (c : Sending)
    (msg : ChatMessageState) : Prop where
  record : msg = (N.messaging i).withRole { c.message with state := msg.state }
  sender : c.message.sender = N.sender j
  published : msg.state = .complete ∧
      (∃ v, c.payload = some v ∧ (c.message.roomTopic, v) ∈ (s j).published) ∨
    j = i ∧ (msg.state = .pending ∨ msg.state = .error)

theorem TrueMessage.exists_send (h : N.Honest s) {msg : ChatMessageState}
    (htrue : N.TrueMessage s i msg) : ∃ j, ∃ c ∈ (s j).sends, N.TellsOf s i j c msg := by
  cases htrue with
  | own hcomposed hstate =>
      obtain ⟨c, hc, rfl⟩ := hcomposed
      exact ⟨i, c, hc, rfl, ((h.own i).composed c hc).2, .inr ⟨rfl, hstate⟩⟩
  | @complete j msg v hhanded =>
      obtain ⟨hpublished, c, hc, rfl, hv⟩ := hhanded
      obtain ⟨hcomplete, hsender⟩ := (h.own j).composed c hc
      exact ⟨j, c, hc, rfl, hsender, .inl ⟨hcomplete, v, hv, hpublished⟩⟩

theorem TellsOf.fields {c : Sending} {msg : ChatMessageState} (h : N.TellsOf s i j c msg) :
    msg.id = c.message.id ∧ msg.roomTopic = c.message.roomTopic ∧ msg.text = c.message.text ∧
      msg.sender = c.message.sender ∧ msg.timestamp = c.message.timestamp := by
  rw [h.record]
  exact ⟨rfl, rfl, rfl, rfl, rfl⟩

/-- No state that a message can be told with hides its text. -/
theorem TellsOf.text {c : Sending} {msg : ChatMessageState} (h : N.TellsOf s i j c msg)
    (codeUnits : Bytes → List UInt16) :
    (messageView codeUnits msg).text = some c.message.text := by
  obtain ⟨-, -, htext, -, -⟩ := h.fields
  have hchrome : messageChrome msg.state ≠ .thinkingDots := by
    rcases h.published with ⟨hstate, -⟩ | ⟨-, hstate | hstate⟩ <;> rw [hstate] <;> decide
  rw [messageView, if_neg hchrome, htext]

theorem Invariant.eq_of_id (h : N.Invariant s) {c d : Sending} (hc : c ∈ (s i).sends)
    (hd : d ∈ (s j).sends) (hid : c.message.id = d.message.id) : c = d := by
  obtain rfl := h.distinct i j c hc d hd hid
  exact List.inj_on_of_nodup_map (h.nodup i) hc hd hid

/-- Whatever the network did, a bubble on the screen of any node is a message that some node has
sent, in the room it was sent to and drawn with the text that was sent. It is complete only if it
was published, and pending or failed only for the node that sent it. Bubbles of one id agree, on
whichever screens they are. -/
theorem bubbles_were_sent (hs : N.joinedScans.Reachable s) (codeUnits : Bytes → List UInt16) :
    (∀ i bubble, OnScreen s i bubble → ∃ j, ∃ c ∈ (s j).sends,
      bubble.instanceId = c.message.id ∧ bubble.origin = c.message.roomTopic ∧
        N.TellsOf s i j c bubble.message ∧
        (messageView codeUnits bubble.message).text = some c.message.text) ∧
    ∀ i k bubble bubble', OnScreen s i bubble → OnScreen s k bubble' →
      bubble.instanceId = bubble'.instanceId →
        bubble.origin = bubble'.origin ∧ bubble.message.sender = bubble'.message.sender ∧
          bubble.message.timestamp = bubble'.message.timestamp ∧
          (messageView codeUnits bubble.message).text =
            (messageView codeUnits bubble'.message).text := by
  obtain ⟨hinv, hhonest⟩ := honest_of_reachable hs
  have hsent : ∀ i bubble, OnScreen s i bubble → ∃ j, ∃ c ∈ (s j).sends,
      bubble.instanceId = c.message.id ∧ bubble.origin = c.message.roomTopic ∧
        N.TellsOf s i j c bubble.message := by
    intro i bubble hscreen
    obtain ⟨hid, horigin, htrue⟩ := hscreen.trueBubble hhonest
    obtain ⟨j, c, hc, htells⟩ := htrue.exists_send hhonest
    obtain ⟨hmsg, hroom, -⟩ := htells.fields
    exact ⟨j, c, hc, hid.trans hmsg, horigin.trans hroom, htells⟩
  refine ⟨fun i bubble hscreen => ?_, fun i k bubble bubble' hscreen hscreen' hid => ?_⟩
  · obtain ⟨j, c, hc, hid, horigin, htells⟩ := hsent i bubble hscreen
    exact ⟨j, c, hc, hid, horigin, htells, htells.text codeUnits⟩
  · obtain ⟨j, c, hc, hcid, horigin, htells⟩ := hsent i bubble hscreen
    obtain ⟨j', d, hd, hdid, horigin', htells'⟩ := hsent k bubble' hscreen'
    obtain rfl := hinv.eq_of_id hc hd (hcid.symm.trans (hid.trans hdid))
    obtain ⟨-, -, -, hsender, htime⟩ := htells.fields
    obtain ⟨-, -, -, hsender', htime'⟩ := htells'.fields
    exact ⟨horigin.trans horigin'.symm, hsender.trans hsender'.symm, htime.trans htime'.symm,
      (htells.text codeUnits).trans (htells'.text codeUnits).symm⟩

theorem joined_update [DecidableEq ι] (s : ι → NodeState) (i : ι) {l : Label} {t : NodeState}
    (hstep : (N.messaging i).Step (s i) l t) (hallowed : Allowed s l)
    (hl : ∀ T, l ≠ .scan T) : N.joinedScans.step s (i, l) (Function.update s i t) :=
  ⟨step_update s i hstep hallowed, fun T hscan => absurd hscan (hl T)⟩

def bobBubble : ChatFlowItem :=
  MessageFlow.buildChatFlowItemTextBubble kSmokeTopicA
    ((plaintextNetwork.messaging false).withRole aliceMessage)

def bobSteps : List ShellStep :=
  [.pushed (.ok (.roomList [kSmokeTopicA])), .selectRoom kSmokeTopicA,
    .pushed (.ok (.message bobBubble.message))]

theorem exists_reachable_shown : ∃ s, plaintextNetwork.joinedScans.Reachable s ∧
    OnScreen s false bobBubble := by
  have hfresh : plaintextNetwork.joinedScans.Reachable fun _ => NodeState.fresh :=
    .initial fun _ => rfl
  have hsend := hfresh.step (joined_update _ true
    (Messaging.Step.send _ kSmokeTopicA [] (nextMessageId 0 0 0) 0)
    ⟨by decide, validUtf8_ofString _, validUtf8_nil, isInt64_zero, ⟨0, 0, 0, rfl⟩,
      fun _ => List.forall_mem_nil _⟩ (by simp))
  have hecho := hsend.step (joined_update _ true
    (Messaging.Step.sendEcho _ [] aliceMessage [] rfl rfl) trivial (by simp))
  have hseal := hecho.step (joined_update _ true
    (Messaging.Step.sendSeal _ [] aliceMessage [] [] aliceEnvelope rfl rfl) trivial (by simp))
  have hpublish := hseal.step (joined_update _ true
    (Messaging.Step.sendPublish _ [] aliceMessage aliceEnvelope [] rfl) trivial (by simp))
  have hlive := hpublish.step (joined_update _ false
    (Messaging.Step.live _ kSmokeTopicA aliceEnvelope)
    ⟨true, List.mem_append_right _ List.mem_cons_self⟩ (by simp))
  have hopen : (plaintextNetwork.messaging false).openMessage kSmokeTopicA aliceEnvelope =
      some aliceMessage :=
    Messaging.openMessage_plaintext (ofString "bob") kSmokeTopicA
      (Messaging.valid_completeMessage (validUtf8_ofString _) (validUtf8_ofString _) validUtf8_nil
        (validUtf8_mintId (validUtf8_ofString _) 0 0 0) isInt64_zero)
  rw [Messaging.receive_of_notMem hopen (Finset.notMem_empty _)] at hlive
  have hpush := hlive.step (joined_update _ false
    (Messaging.Step.push _ [] ⟨aliceMessage, aliceEnvelope⟩ [] rfl rfl) trivial (by simp))
  refine ⟨_, hpush, ShellState.started, bobSteps, ⟨rfl, rfl, rfl⟩, ?_, ?_⟩
  · intro e he hmessages
    simp only [bobSteps, List.mem_cons, List.not_mem_nil, or_false, ShellStep.pushed.injEq,
      Except.ok.injEq, reduceCtorEq, false_or] at he
    rcases he with rfl | rfl
    · cases hmessages
    · exact List.mem_singleton_self _
  · exact List.mem_singleton_self _

def asciiUnits (string : Bytes) : List UInt16 := string.map UInt8.toUInt16

theorem bubbles_were_sent_shown : ∃ s, OnScreen s false bobBubble ∧
    (messageView asciiUnits bobBubble.message).senderLabel = some (asciiUnits (ofString "alice")) ∧
    ∃ j, ∃ c ∈ (s j).sends,
      bobBubble.instanceId = c.message.id ∧ bobBubble.origin = c.message.roomTopic ∧
        plaintextNetwork.TellsOf s false j c bobBubble.message ∧
        (messageView asciiUnits bobBubble.message).text = some c.message.text := by
  obtain ⟨s, hs, hscreen⟩ := exists_reachable_shown
  exact ⟨s, hscreen, by decide, (bubbles_were_sent hs asciiUnits).1 false bobBubble hscreen⟩

end Network

end GcsChat
