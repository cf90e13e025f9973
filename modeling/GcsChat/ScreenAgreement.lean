import GcsChat.NetworkScreens
import GcsChat.ShownRecords

/-!
# Screens that agree

A shell that has handled all that its node pushed, the history of its room among it, shows once the
node is at rest what the archive of the node holds for the room: every record, and nothing else.
Nodes with the same archive then show the same messages.
-/

namespace GcsChat

open ByteString

def ShellStep.message? : ShellStep → Option GcsEvent
  | .pushed (.ok e) => if e.ofMessages then some e else none
  | _ => none

/-- The flow of a shell that has handled what was pushed of messages, and that has shown the room
since it got a history of it. -/
def CaughtUp (pushed : List GcsEvent) (T : Bytes) (flow : List ChatFlowItem) : Prop :=
  ∃ (s₀ : ShellState) (before after : List ShellStep) (batch : MessageHistory), s₀.Starts ∧
    batch.roomTopic = T ∧
    (before ++ .pushed (.ok (.messageHistory batch)) :: after).filterMap ShellStep.message? =
      pushed ∧
    (∀ steps, steps <+: after →
      ((before ++ .pushed (.ok (.messageHistory batch)) :: steps).foldl
        ShellState.handle s₀).rail.activeRoom = some T) ∧
    ((before ++ .pushed (.ok (.messageHistory batch)) :: after).foldl ShellState.handle s₀).flow =
      flow

/-- The screen shows what `QueryHistory` answers from the archive, whatever the order of its scan:
a bubble for every record of the room, and each message once and complete. -/
structure ShowsArchive (M : Messaging) (s : NodeState) (T : Bytes) (flow : List ChatFlowItem) :
    Prop where
  answer : ∀ entries, entries.Perm (s.underPrefix T) →
    ∃ messages, (M.queryHistory s.messaging T (some entries)).2 = some ⟨T, messages⟩ ∧
      (flow.map (·.message)).Perm messages
  every : ∀ entry ∈ s.underPrefix T, ∃ bubble ∈ flow, entry.1 = buildKey T bubble.message.id
  once : (flow.map (·.message.id)).Nodup
  complete : ∀ bubble ∈ flow, bubble.message.state = .complete

theorem Messaging.historyMessages_perm {M : Messaging} {T : Bytes}
    {scan scan' : List (Bytes × Bytes)} (h : scan.Perm scan') :
    (M.historyMessages T scan).Perm (M.historyMessages T scan') := by
  have hread := h.filterMap fun entry => (M.openMessage T entry.2).map M.withRole
  exact (List.perm_insertionSort _ _).trans (hread.trans (List.perm_insertionSort _ _).symm)

namespace ShellState

open MessageFlow

variable {s : ShellState} {T : Bytes} {F : List ChatMessageState}

theorem replaceFirst_map (T : Bytes) (msg : ChatMessageState) (F : List ChatMessageState) :
    replaceFirst (buildChatFlowItemTextBubble T msg) (F.map (buildChatFlowItemTextBubble T)) =
      (upsert F msg).map (buildChatFlowItemTextBubble T) := by
  induction F with
  | nil => rfl
  | cons existing rest ih =>
      rw [List.map_cons, replaceFirst, upsert, ih]
      change (if existing.id = msg.id then _ else _) = _
      split_ifs <;> rfl

theorem cappedItems_of_length_le {items : List ChatFlowItem} (h : items.length ≤ kMaxFlowItems) :
    cappedItems items = items := by
  rw [cappedItems, Nat.sub_eq_zero_of_le h, List.drop_zero]

theorem onRailStateChanged_of_seen (hactive : s.rail.activeRoom = some T)
    (hseen : s.lastSeenActiveRoom = some T) : SessionCubit.onRailStateChanged s = s := by
  rw [SessionCubit.onRailStateChanged, hactive]
  exact if_pos hseen.symm

theorem heard_foldl {s₀ : ShellState} (hstart : s₀.Starts) (ls : List ShellStep) :
    (ls.foldl ShellState.handle s₀).Heard := by
  induction ls using List.reverseRecOn with
  | nil => exact hstart.2.2.trans hstart.2.1.symm
  | append_singleton ls l ih =>
      rw [List.foldl_concat]
      exact ih.handle l

theorem flow_handle (hheard : s.Heard) (hactive : s.rail.activeRoom = some T)
    (hflow : s.flow = F.map (buildChatFlowItemTextBubble T)) {l : ShellStep}
    (hnext : (s.handle l).rail.activeRoom = some T)
    (hshort : (l.message?.toList.foldl (flowStep T) F).length ≤ kMaxFlowItems) :
    (s.handle l).flow =
      (l.message?.toList.foldl (flowStep T) F).map (buildChatFlowItemTextBubble T) := by
  have hseen : s.lastSeenActiveRoom = some T := hheard.trans hactive
  have hrail : ∀ rail : RailState,
      (SessionCubit.onRailStateChanged { s with rail := rail }).rail.activeRoom = some T →
      (SessionCubit.onRailStateChanged { s with rail := rail }).flow = s.flow := by
    intro rail hstill
    rw [(heard_onRailStateChanged _).2] at hstill
    rw [onRailStateChanged_of_seen hstill hseen]
  cases l with
  | selectRoom roomTopic =>
      rw [ShellState.handle] at hnext ⊢
      split at hnext
      · exact hflow
      · exact (hrail _ hnext).trans hflow
  | pushed event =>
      cases event with
      | error text => exact hflow
      | ok event =>
          cases event with
          | spaceTree space room => exact (hrail _ hnext).trans hflow
          | roomList roomTopics => exact (hrail _ hnext).trans hflow
          | readiness ready => exact hflow
          | error message => exact hflow
          | message msg =>
              change (flowStep T F (.message msg)).length ≤ _ at hshort
              change _ = (flowStep T F (.message msg)).map _
              simp only [ShellState.handle, SessionCubit.dispatchEvent, hactive,
                Option.some.injEq] at hnext ⊢
              rw [flowStep] at hshort ⊢
              by_cases hroom : msg.roomTopic = T
              · rw [if_pos hroom] at hshort ⊢
                rw [if_pos hroom.symm, hroom, hflow]
                simp only [MessageFlow.upsert]
                rw [replaceFirst_map, cappedItems_of_length_le]
                rwa [List.length_map]
              · rw [if_neg hroom, if_neg (Ne.symm hroom)]
                exact hflow
          | messageHistory history =>
              change (flowStep T F (.messageHistory history)).length ≤ _ at hshort
              change _ = (flowStep T F (.messageHistory history)).map _
              simp only [ShellState.handle, SessionCubit.dispatchEvent, hactive,
                Option.some.injEq] at hnext ⊢
              rw [flowStep] at hshort ⊢
              by_cases hroom : history.roomTopic = T
              · rw [if_pos hroom] at hshort ⊢
                rw [if_pos hroom.symm, hroom]
                simp only [MessageFlow.replaceAll]
                rw [cappedItems_of_length_le]
                rwa [List.length_map]
              · rw [if_neg hroom, if_neg (Ne.symm hroom)]
                exact hflow

/-- From the history of the room on, the flow is what its events make of an empty one. -/
theorem flow_eq_flowOf {s₀ : ShellState} (hstart : s₀.Starts) {before after : List ShellStep}
    {batch : MessageHistory} (hroom : batch.roomTopic = T)
    (hactive : ∀ steps, steps <+: after →
      ((before ++ .pushed (.ok (.messageHistory batch)) :: steps).foldl
        ShellState.handle s₀).rail.activeRoom = some T)
    (hshort : ∀ steps, steps <+: after →
      (flowOf T (.messageHistory batch :: steps.filterMap ShellStep.message?)).length ≤
        kMaxFlowItems) :
    ((before ++ .pushed (.ok (.messageHistory batch)) :: after).foldl ShellState.handle s₀).flow =
      (flowOf T (.messageHistory batch :: after.filterMap ShellStep.message?)).map
        (buildChatFlowItemTextBubble T) := by
  induction after using List.reverseRecOn with
  | nil =>
      have hopen := hactive [] List.prefix_rfl
      have hfits := hshort [] List.prefix_rfl
      rw [List.foldl_concat] at hopen ⊢
      change (flowStep T [] (.messageHistory batch)).length ≤ _ at hfits
      change _ = (flowStep T [] (.messageHistory batch)).map _
      rw [flowStep, if_pos hroom] at hfits ⊢
      simp only [ShellState.handle, SessionCubit.dispatchEvent] at hopen ⊢
      split_ifs at hopen ⊢ with hshown
      · simp only [MessageFlow.replaceAll]
        rw [hroom, cappedItems_of_length_le]
        rwa [List.length_map]
      · exact absurd (hopen.trans (congrArg some hroom.symm)) hshown
  | append_singleton steps l ih =>
      have hbefore : ∀ more, more <+: steps → more <+: steps ++ [l] := fun more hmore =>
        hmore.trans (List.prefix_append _ _)
      have hflow := ih (fun more h => hactive more (hbefore more h))
        fun more h => hshort more (hbefore more h)
      have hnext := hactive _ List.prefix_rfl
      have hfits := hshort _ List.prefix_rfl
      rw [← List.cons_append, ← List.append_assoc, List.foldl_concat] at hnext ⊢
      have hmessages : flowOf T (.messageHistory batch ::
          (steps ++ [l]).filterMap ShellStep.message?) = l.message?.toList.foldl (flowStep T)
            (flowOf T (.messageHistory batch :: steps.filterMap ShellStep.message?)) := by
        rw [List.filterMap_append, ← List.cons_append, flowOf, List.foldl_append, flowOf,
          List.filterMap_cons, List.filterMap_nil]
        cases l.message? <;> rfl
      rw [hmessages] at hfits ⊢
      exact flow_handle (heard_foldl hstart _) (hactive steps (List.prefix_append _ _)) hflow hnext
        hfits

end ShellState

namespace Network

variable {ι : Type*} {N : Network ι} {s t : ι → NodeState} {il : ι × Label} {i j : ι} {T x : Bytes}

def SentTo (s : ι → NodeState) (T x : Bytes) : Prop :=
  ∃ j, ∃ c ∈ (s j).sends, c.message.roomTopic = T ∧ c.message.id = x

theorem SentTo.unique (h : N.Invariant s) {T' : Bytes} (hT : SentTo s T x) (hT' : SentTo s T' x) :
    T = T' := by
  obtain ⟨i, c, hc, rfl, rfl⟩ := hT
  obtain ⟨j, d, hd, rfl, hid⟩ := hT'
  rw [h.eq_of_id hd hc hid]

theorem SentTo.segment (h : N.Invariant s) (hT : SentTo s T x) : IsKeySegment x := by
  obtain ⟨i, c, hc, -, rfl⟩ := hT
  exact (h.sent i c hc).segment

theorem Composed.sentTo {msg : ChatMessageState} (h : Composed s j msg) :
    SentTo s msg.roomTopic msg.id := by
  obtain ⟨c, hc, rfl⟩ := h
  exact ⟨j, c, hc, rfl, rfl⟩

theorem Handed.composed {msg : ChatMessageState} {v : Bytes} (h : Handed s j msg v) :
    Composed s j msg := by
  obtain ⟨-, c, hc, hmsg, -⟩ := h
  exact ⟨c, hc, hmsg⟩

theorem SentTo.step (hstep : N.system.step s il t) (h : SentTo s T x) : SentTo t T x := by
  obtain ⟨j, c, hc, rfl, rfl⟩ := h
  have hcomposed : Composed s j c.message := ⟨c, hc, rfl⟩
  exact (hcomposed.step hstep).sentTo

theorem TrueMessage.sentTo {msg : ChatMessageState} (h : N.TrueMessage s i msg) :
    SentTo s msg.roomTopic msg.id := by
  cases h with
  | own h _ => exact h.sentTo
  | complete h => exact h.composed.sentTo

namespace Honest

variable (h : N.Honest s) (hinv : N.Invariant s)

include h

theorem sentTo_of_coming (hcoming : (s i).Coming T x) : SentTo s T x := by
  rcases hcoming with ⟨a, ha, rfl, rfl⟩ | ⟨c, hc, rfl, rfl, -⟩
  · obtain ⟨j, hhanded⟩ := (h.tells i).unpushed a ha
    exact hhanded.composed.sentTo
  · exact ⟨i, c, hc, rfl, rfl⟩

theorem sentTo_of_answered (hanswered : (s i).Answered T x) : SentTo s T x := by
  obtain ⟨r, hr, rfl, hx⟩ := hanswered
  obtain ⟨msg, hmsg, rfl⟩ := List.mem_map.1 hx
  obtain ⟨htrue, hroom⟩ := (h.tells i).replay r hr msg hmsg
  exact hroom ▸ htrue.sentTo

include hinv

theorem sentTo_of_stored (hx : IsKeySegment x) (hstored : (s i).Stored T x) : SentTo s T x := by
  obtain ⟨v, hv⟩ := Option.isSome_iff_exists.1 hstored
  obtain ⟨j, msg, hhanded, hkey⟩ := (h.holds i).store _ _ hv
  obtain ⟨rfl, rfl⟩ := buildKey_inj hx.slash_notMem (hhanded.isSent (i := i) hinv).2.1.slash_notMem
    hkey
  exact hhanded.composed.sentTo

theorem opens (hof : SentTo t T x) (ht : N.Invariant t) {cb : Callback}
    (hcb : cb ∈ (s i).callbacks) (hkey : cb.key = buildKey T x) :
    roomTopicFromKey (slash :: cb.key) = some T ∧ T ≠ [] ∧
      ∃ msg, (N.messaging i).openMessage T cb.valueBytes = some msg ∧ msg.roomTopic = T ∧
        msg.id = x := by
  obtain ⟨j, msg, hhanded, hrecord⟩ := (h.holds i).callbacks cb hcb
  obtain ⟨hshape, hsegment, hopen⟩ := hhanded.isSent (i := i) hinv
  have hx := hof.segment ht
  obtain ⟨rfl, rfl⟩ := buildKey_inj hx.slash_notMem hsegment.slash_notMem (hkey.symm.trans hrecord)
  refine ⟨hkey ▸ roomTopicFromKey_cons_buildKey _ hx, ?_, msg, hopen, rfl, rfl⟩
  rintro hnil
  rw [hnil] at hshape
  cases hshape

theorem scanned (hT : isValidRoomTopicShape T = true) {entry : Bytes × Bytes}
    (hentry : entry ∈ (s i).underPrefix T) : ∃ j msg, Handed s j msg entry.2 ∧
      entry.1 = buildKey T msg.id ∧ msg.roomTopic = T ∧
      (N.messaging i).openMessage T entry.2 = some msg := by
  obtain ⟨hfind, hprefix⟩ := mem_underPrefix.1 hentry
  obtain ⟨j, msg, hhanded, hkey⟩ := (h.holds i).store _ _ hfind
  obtain ⟨hshape, -, hopen⟩ := hhanded.isSent (i := i) hinv
  have hkey : entry.1 = buildKey msg.roomTopic msg.id := hkey
  obtain rfl := eq_of_historyPrefix_isPrefix hT hshape (hkey ▸ hprefix)
  exact ⟨j, msg, hhanded, hkey, rfl, hopen⟩

variable {entries : List (Bytes × Bytes)} (hT : isValidRoomTopicShape T = true)
  (hentries : entries.Perm ((s i).underPrefix T))

include hT hentries

theorem mem_scan_of_stored (hx : IsKeySegment x) (hstored : (s i).Stored T x) :
    x ∈ MessageHistory.ids ⟨T, (N.messaging i).historyMessages T entries⟩ := by
  obtain ⟨v, hv⟩ := Option.isSome_iff_exists.1 hstored
  have hunder : (buildKey T x, v) ∈ (s i).underPrefix T :=
    mem_underPrefix.2 ⟨hv, historyPrefix_prefix_buildKey T x⟩
  obtain ⟨j, msg, hhanded, hkey, -, hopen⟩ := h.scanned hinv hT hunder
  obtain ⟨-, rfl⟩ := buildKey_inj hx.slash_notMem
    (hhanded.isSent (i := i) hinv).2.1.slash_notMem hkey
  exact List.mem_map.2 ⟨_, Messaging.mem_historyMessages.2
    ⟨_, hentries.mem_iff.2 hunder, msg, hopen, rfl⟩, rfl⟩

theorem of_mem_scan {m : ChatMessageState} (hm : m ∈ (N.messaging i).historyMessages T entries) :
    ∃ j msg v, Handed s j msg v ∧ m = (N.messaging i).withRole msg ∧ msg.roomTopic = T ∧
      (s i).store.find? (buildKey T msg.id) = some v := by
  obtain ⟨entry, hentry, msg, hopen, rfl⟩ := Messaging.mem_historyMessages.1 hm
  have hunder := hentries.mem_iff.1 hentry
  obtain ⟨j, sent, hhanded, hkey, hroom, hsent⟩ := h.scanned hinv hT hunder
  obtain rfl := Option.some.inj (hopen.symm.trans hsent)
  have hfind := (mem_underPrefix.1 hunder).1
  rw [hkey] at hfind
  exact ⟨j, msg, _, hhanded, rfl, hroom, hfind⟩

theorem stored_of_mem_scan (hmem : x ∈ MessageHistory.ids
    ⟨T, (N.messaging i).historyMessages T entries⟩) : (s i).Stored T x := by
  obtain ⟨m, hm, rfl⟩ := List.mem_map.1 hmem
  obtain ⟨j, msg, v, -, rfl, -, hfind⟩ := h.of_mem_scan hinv hT hentries hm
  exact Option.isSome_iff_exists.2 ⟨v, hfind⟩

theorem nodup_scan :
    (MessageHistory.ids ⟨T, (N.messaging i).historyMessages T entries⟩).Nodup := by
  have hkeys := keys_nodup_of_perm_underPrefix hentries
  have hdistinct : entries.Pairwise fun e e' =>
      ∀ m ∈ ((N.messaging i).openMessage T e.2).map (N.messaging i).withRole,
        ∀ m' ∈ ((N.messaging i).openMessage T e'.2).map (N.messaging i).withRole, m.id ≠ m'.id := by
    rw [List.nodup_iff_pairwise_ne, List.pairwise_map] at hkeys
    refine hkeys.imp_of_mem fun {e e'} he he' hne m hm m' hm' hid => hne ?_
    obtain ⟨j, msg, -, hkey, -, hopen⟩ := h.scanned hinv hT (hentries.mem_iff.1 he)
    obtain ⟨j', msg', -, hkey', -, hopen'⟩ := h.scanned hinv hT (hentries.mem_iff.1 he')
    rw [hopen] at hm
    rw [hopen'] at hm'
    cases hm
    cases hm'
    rw [hkey, hkey']
    exact congrArg (buildKey T) hid
  have hsorted := (List.perm_insertionSort Messaging.historyLE (entries.filterMap fun entry =>
    ((N.messaging i).openMessage T entry.2).map (N.messaging i).withRole)).map (·.id)
  refine hsorted.nodup_iff.2 ?_
  rw [List.nodup_iff_pairwise_ne, List.pairwise_map, List.pairwise_filterMap]
  exact hdistinct

theorem complete_scan : ∀ m ∈ (N.messaging i).historyMessages T entries, m.state = .complete := by
  intro m hm
  obtain ⟨j, msg, v, ⟨-, c, hc, rfl, -⟩, rfl, -, -⟩ := h.of_mem_scan hinv hT hentries hm
  exact ((h.own j).composed c hc).1

end Honest

variable (N) in
/-- Histories are scanned of settled rooms that can be joined, and no archive write fails. -/
def settledScans : TransitionSystem (ι → NodeState) (ι × Label) :=
  N.joinedScans.restrict fun s il =>
    (∀ T, il.2 = .scan T → (s il.1).Settled T) ∧ il.2 ≠ .put false

/-- Every node shows what it stores, and stores what it shows. -/
structure Faithful (s : ι → NodeState) : Prop where
  tracked : ∀ i, (s i).Tracked (SentTo s)
  finishing : ∀ i, (s i).Finishing
  archiving : ∀ i, (s i).Archiving

theorem faithful_fresh (h : ∀ i, s i = .fresh) : Faithful s where
  tracked i := h i ▸ .fresh _
  finishing i := h i ▸ .fresh
  archiving i := h i ▸ .fresh

theorem Honest.knows (h : N.Honest s) (hinv : N.Invariant s) (ht : N.Honest t)
    (htinv : N.Invariant t) (hstep : N.system.step s il t) :
    (N.messaging il.1).Knows (SentTo t) (s il.1) (t il.1) where
  unique _ _ _ hT hT' := hT.unique htinv hT'
  coming _ _ hcoming := ht.sentTo_of_coming hcoming
  answered _ _ hanswered := (h.sentTo_of_answered hanswered).step hstep
  opens _ _ hof _ hcb hkey := h.opens hinv hof htinv hcb hkey

/-- A step of another node may send a message that this one has not met. -/
theorem Honest.tracked (h : N.Honest s) (hinv : N.Invariant s) (htinv : N.Invariant t)
    (hstep : N.system.step s il t) (htracked : (s i).Tracked (SentTo s)) :
    (s i).Tracked (SentTo t) := by
  refine htracked.extend (fun _ _ hof => hof.step hstep) fun T x hof hmet => ?_
  rcases hmet with hseen | hstored
  · obtain ⟨T', hof', -⟩ := htracked.seen x hseen
    rwa [hof.unique htinv (hof'.step hstep)]
  · exact h.sentTo_of_stored hinv (hof.segment htinv) hstored

theorem Faithful.step (h : Faithful s) (hs : N.Invariant s ∧ N.Honest s)
    (ht : N.Invariant t ∧ N.Honest t) (hstep : N.settledScans.step s il t) : Faithful t := by
  obtain ⟨hinv, hhonest⟩ := hs
  obtain ⟨⟨hstep, hshape⟩, hsettled, hput⟩ := hstep
  have htracked : ∀ i, (s i).Tracked (SentTo t) := fun i =>
    hhonest.tracked hinv ht.1 hstep (h.tracked i)
  have hsends : ∀ c ∈ (s il.1).sends, c.message.state = .complete := fun c hc =>
    ((hhonest.own il.1).composed c hc).1
  have hunpushed : ∀ a ∈ (s il.1).unpushed, a.message.state = .complete := by
    intro a ha
    obtain ⟨j, -, c, hc, hmsg, -⟩ := (hhonest.tells il.1).unpushed a ha
    exact hmsg ▸ ((hhonest.own j).composed c hc).1
  refine ⟨fun i => ?_, fun i => ?_, fun i => ?_⟩ <;> by_cases hi : i = il.1
  · subst hi
    refine (hhonest.knows hinv ht.2 ht.1 hstep).tracked hstep.1 (htracked il.1) hsettled ?_
    intro T entries hl hentries x hof hstored
    exact hhonest.mem_scan_of_stored hinv (hshape T hl) hentries (hof.segment ht.1) hstored
  · exact hstep.2.1 i hi ▸ htracked i
  · subst hi
    refine (h.finishing il.1).step hstep.1 hunpushed hsends fun T entries hl hentries => ?_
    exact ⟨hhonest.nodup_scan hinv (hshape T hl) hentries,
      hhonest.complete_scan hinv (hshape T hl) hentries⟩
  · exact hstep.2.1 i hi ▸ h.finishing i
  · subst hi
    refine (h.archiving il.1).step hstep.1 hput fun T entries hl hentries x hx => ?_
    exact hhonest.stored_of_mem_scan hinv (hshape T hl) hentries hx
  · exact hstep.2.1 i hi ▸ h.archiving i

theorem faithful_of_reachable (h : N.settledScans.Reachable s) :
    (N.Invariant s ∧ N.Honest s) ∧ Faithful s := by
  refine h.invariant (I := fun s => (N.Invariant s ∧ N.Honest s) ∧ Faithful s)
    (fun _ h₀ => ⟨⟨invariant_fresh h₀, honest_fresh h₀⟩, faithful_fresh h₀⟩) ?_
  rintro s il t ⟨hs, hfaithful⟩ hstep
  have ht : N.Invariant t ∧ N.Honest t :=
    ⟨Invariant.step s il t hs.1 hstep.1.1, hs.2.step hs.1 hstep.1⟩
  exact ⟨ht, hfaithful.step hs ht hstep⟩

end Network

namespace NodeState

variable (s : NodeState) (T : Bytes)

structure Quiet : Prop where
  announced : ∀ x, ¬ s.Announced T x
  coming : ∀ x, ¬ s.Coming T x
  queued : ∀ x, ¬ s.Queued T x
  answered : ∀ x, ¬ s.Answered T x

variable {s T}

theorem quiet_of_idle (hcallbacks : s.callbacks = []) (hunpushed : s.unpushed = [])
    (hwaiting : s.waiting = []) (hreplay : s.replay = none)
    (hsends : ∀ c ∈ s.sends, c.stage = .returned true) : s.Quiet T where
  announced x := by
    rintro ⟨cb, hcb, -⟩
    rw [hcallbacks] at hcb
    cases hcb
  coming x := by
    rintro (⟨a, ha, -⟩ | ⟨c, hc, -, -, hstage⟩)
    · rw [hunpushed] at ha
      cases ha
    · exact hstage (hsends c hc)
  queued x := by
    rintro ⟨record, hrecord, -⟩
    rw [hwaiting] at hrecord
    cases hrecord
  answered x := by
    rintro ⟨r, hr, -⟩
    rw [hreplay] at hr
    cases hr

theorem length_le_of_stored {ids : List Bytes} (hnodup : ids.Nodup)
    (h : ∀ x ∈ ids, s.Stored T x) : ids.length ≤ (s.underPrefix T).length := by
  have hinj : Function.Injective (buildKey T) := fun x y hxy => by simpa [buildKey] using hxy
  have hsub : ids.map (buildKey T) ⊆ (s.underPrefix T).map Prod.fst := by
    intro k hk
    obtain ⟨x, hx, rfl⟩ := List.mem_map.1 hk
    obtain ⟨v, hv⟩ := Option.isSome_iff_exists.1 (h x hx)
    exact List.mem_map.2 ⟨(buildKey T x, v),
      Network.mem_underPrefix.2 ⟨hv, historyPrefix_prefix_buildKey T x⟩, rfl⟩
  have hlength := (List.subperm_of_subset (hnodup.map hinj) hsub).length_le
  rwa [List.length_map, List.length_map] at hlength

end NodeState

namespace Network

variable {ι : Type*} {N : Network ι} {s : ι → NodeState} {i j k : ι} {T x : Bytes}

theorem Handed.eq_of_id (hinv : N.Invariant s) {msg msg' : ChatMessageState} {v v' : Bytes}
    (h : Handed s j msg v) (h' : Handed s k msg' v') (hid : msg.id = msg'.id) : msg = msg' := by
  obtain ⟨-, c, hc, rfl, -⟩ := h
  obtain ⟨-, d, hd, rfl, -⟩ := h'
  rw [hinv.eq_of_id hc hd hid]

theorem TrueMessage.exists_handed {m : ChatMessageState} (h : N.TrueMessage s i m)
    (hcomplete : m.state = .complete) :
    ∃ j msg v, Handed s j msg v ∧ m = (N.messaging i).withRole msg := by
  cases h with
  | own h hstate =>
      have hstate' : _ = MessageState.complete := hcomplete
      rcases hstate with rfl | rfl <;> cases hstate'
  | @complete j msg v h => exact ⟨j, msg, v, h, rfl⟩

theorem Honest.of_mem_flowOf (h : N.Honest s) (hfaithful : Faithful s) {events : List GcsEvent}
    (hevents : events ⊆ (s i).messaging.pushed) {m : ChatMessageState}
    (hm : m ∈ flowOf T events) : N.TrueMessage s i m ∧ m.roomTopic = T := by
  induction events using List.reverseRecOn with
  | nil => cases hm
  | append_singleton events e ih =>
      have hbefore : events ⊆ (s i).messaging.pushed :=
        List.Subset.trans (List.subset_append_left _ _) hevents
      have htold := (h.tells i).pushed e (hevents (List.mem_append_right _ List.mem_cons_self))
      rw [flowOf_append_singleton] at hm
      cases e with
      | message msg =>
          rw [flowStep] at hm
          split_ifs at hm with hroom
          · have hnodup : (flowIds T events).Nodup := nodup_flowIds fun batch hbatch =>
              (hfaithful.finishing i).batches batch (hbefore hbatch)
            rcases mem_upsert hnodup hm with rfl | ⟨hold, -⟩
            · exact ⟨htold, hroom⟩
            · exact ih hbefore hold
          · exact ih hbefore hm
      | messageHistory batch =>
          rw [flowStep] at hm
          split_ifs at hm with hroom
          · exact ⟨(htold m hm).1, (htold m hm).2.trans hroom⟩
          · exact ih hbefore hm
      | readiness ready => exact ih hbefore hm
      | roomList roomTopics => exact ih hbefore hm
      | spaceTree space room => exact ih hbefore hm
      | error message => exact ih hbefore hm

section Quiet

variable (hs : N.settledScans.Reachable s) (hquiet : (s i).Quiet T)

include hs hquiet

theorem stored_of_shown (hshown : ShownIn (s i).messaging.pushed T x) : (s i).Stored T x := by
  rcases ((faithful_of_reachable hs).2.archiving i).shown T x hshown with hstored | hqueued | hopen
  · exact hstored
  · exact absurd hqueued (hquiet.queued x)
  · exact absurd (.inr hopen) (hquiet.coming x)

/-- Once the room is quiet, a flow that starts from a history of it has what the archive has. -/
theorem flow_perm_history (hT : isValidRoomTopicShape T = true) {before : List GcsEvent}
    {batch : MessageHistory} {after : List GcsEvent} (hroom : batch.roomTopic = T)
    (hpushed : (s i).messaging.pushed = before ++ .messageHistory batch :: after) :
    (flowOf T (.messageHistory batch :: after)).Perm
      ((N.messaging i).historyMessages T ((s i).underPrefix T)) := by
  obtain ⟨⟨hinv, hhonest⟩, hfaithful⟩ := faithful_of_reachable hs
  have hevents : (.messageHistory batch :: after) ⊆ (s i).messaging.pushed :=
    hpushed ▸ List.subset_append_right _ _
  have hperm := List.Perm.refl ((s i).underPrefix T)
  have hnodup : (flowIds T (.messageHistory batch :: after)).Nodup := nodup_flowIds fun b hb =>
    (hfaithful.finishing i).batches b (hevents hb)
  have hcomplete : ∀ m ∈ flowOf T (.messageHistory batch :: after), ∃ j msg v,
      Handed s j msg v ∧ m = (N.messaging i).withRole msg ∧ msg.roomTopic = T := by
    intro m hm
    obtain ⟨htrue, hmroom⟩ := hhonest.of_mem_flowOf hfaithful hevents hm
    have hdone := (hfaithful.finishing i).flow before batch after hpushed m (hroom ▸ hm)
    rw [hroom] at hdone
    have hstate := hdone.resolve_right fun hopen => hquiet.coming m.id (.inr hopen)
    obtain ⟨j, msg, v, hhanded, rfl⟩ := htrue.exists_handed hstate
    exact ⟨j, msg, v, hhanded, rfl, hmroom⟩
  refine (List.perm_ext_iff_of_nodup (hnodup.of_map _) ((hhonest.nodup_scan hinv hT
    hperm).of_map _)).2 fun m => ⟨fun hm => ?_, fun hm => ?_⟩
  · obtain ⟨j, msg, v, hhanded, rfl, hmroom⟩ := hcomplete m hm
    have hshown : ShownIn (s i).messaging.pushed T msg.id :=
      (shownIn_of_mem_flowIds (List.mem_map_of_mem hm)).mono hevents
    have hsegment := (hhanded.isSent (i := i) hinv).2.1
    have hscanned := hhonest.mem_scan_of_stored hinv hT hperm hsegment
      (stored_of_shown hs hquiet hshown)
    obtain ⟨m', hm', hid⟩ := List.mem_map.1 hscanned
    obtain ⟨j', msg', v', hhanded', rfl, -, -⟩ := hhonest.of_mem_scan hinv hT hperm hm'
    rwa [hhanded.eq_of_id hinv hhanded' hid.symm]
  · obtain ⟨j, msg, v, hhanded, rfl, hmroom, hfind⟩ := hhonest.of_mem_scan hinv hT hperm hm
    have hsent : SentTo s T msg.id := hmroom ▸ hhanded.composed.sentTo
    have hcovered := (hfaithful.tracked i).flow before batch after hpushed
    rw [hroom] at hcovered
    rcases (hcovered msg.id hsent).2 (Option.isSome_iff_exists.2 ⟨v, hfind⟩) with
      (hflow | hanswered) | hcoming | hannounced
    · obtain ⟨m', hm', hid⟩ := List.mem_map.1 hflow
      obtain ⟨j', msg', v', hhanded', rfl, -⟩ := hcomplete m' hm'
      rwa [hhanded.eq_of_id hinv hhanded' hid.symm]
    · exact absurd hanswered (hquiet.answered msg.id)
    · exact absurd hcoming (hquiet.coming msg.id)
    · exact absurd hannounced (hquiet.announced msg.id)

theorem screen_perm_history (hT : isValidRoomTopicShape T = true)
    (hfew : ((s i).underPrefix T).length ≤ kMaxFlowItems) {flow : List ChatFlowItem}
    (hcaught : CaughtUp (s i).messaging.pushed T flow) :
    (flow.map (·.message)).Perm
      ((N.messaging i).historyMessages T ((s i).underPrefix T)) := by
  obtain ⟨s₀, before, after, batch, hstart, hroom, hpushed, hactive, rfl⟩ := hcaught
  have hsplit : (s i).messaging.pushed = before.filterMap ShellStep.message? ++
      .messageHistory batch :: after.filterMap ShellStep.message? := by
    rw [← hpushed, List.filterMap_append, List.filterMap_cons]
    rfl
  have hshort : ∀ steps, steps <+: after →
      (flowOf T (.messageHistory batch :: steps.filterMap ShellStep.message?)).length ≤
        kMaxFlowItems := by
    intro steps hsteps
    have hevents : (.messageHistory batch :: steps.filterMap ShellStep.message?) ⊆
        (s i).messaging.pushed := by
      rw [hsplit]
      refine List.Subset.trans ?_ (List.subset_append_right _ _)
      exact List.cons_subset_cons _ (hsteps.filterMap _).subset
    have hnodup : (flowIds T (.messageHistory batch ::
        steps.filterMap ShellStep.message?)).Nodup := nodup_flowIds fun b hb =>
      ((faithful_of_reachable hs).2.finishing i).batches b (hevents hb)
    refine le_trans ?_ hfew
    rw [← List.length_map (f := (·.id))]
    exact NodeState.length_le_of_stored hnodup fun x hx =>
      stored_of_shown hs hquiet ((shownIn_of_mem_flowIds hx).mono hevents)
  rw [ShellState.flow_eq_flowOf hstart hroom hactive hshort, List.map_map]
  have hsame : (fun b : ChatFlowItem => b.message) ∘ MessageFlow.buildChatFlowItemTextBubble T =
      id := rfl
  rw [hsame, List.map_id]
  exact flow_perm_history hs hquiet hT hroom hsplit

/-- A screen that is caught up has a bubble for each record, and each bubble is complete. -/
theorem showsArchive (hT : isValidRoomTopicShape T = true)
    (hfew : ((s i).underPrefix T).length ≤ kMaxFlowItems) {flow : List ChatFlowItem}
    (hcaught : CaughtUp (s i).messaging.pushed T flow) :
    ShowsArchive (N.messaging i) (s i) T flow := by
  obtain ⟨⟨hinv, hhonest⟩, -⟩ := faithful_of_reachable hs
  have hscreen := screen_perm_history hs hquiet hT hfew hcaught
  have hall := List.Perm.refl ((s i).underPrefix T)
  constructor
  · intro entries hentries
    exact ⟨_, rfl, hscreen.trans (Messaging.historyMessages_perm hentries.symm)⟩
  · intro entry hentry
    obtain ⟨j, msg, -, hkey, -, hopen⟩ := hhonest.scanned hinv hT hentry
    have hanswer := Messaging.mem_historyMessages.2 ⟨entry, hentry, msg, hopen, rfl⟩
    obtain ⟨bubble, hbubble, hmsg⟩ := List.mem_map.1 (hscreen.mem_iff.2 hanswer)
    exact ⟨bubble, hbubble, hmsg ▸ hkey⟩
  · have hids := hscreen.map (·.id)
    rw [List.map_map] at hids
    exact hids.nodup_iff.2 (hhonest.nodup_scan hinv hT hall)
  · intro bubble hbubble
    exact hhonest.complete_scan hinv hT hall _ (hscreen.mem_iff.1 (List.mem_map_of_mem hbubble))

end Quiet

/-- Two screens of one room show the archives of their nodes once the room is quiet, and the same
messages when the archives have the same keys for it. -/
theorem screens_agree (hs : N.settledScans.Reachable s) (hT : isValidRoomTopicShape T = true)
    (hi : (s i).Quiet T) (hk : (s k).Quiet T) (hkeys : SameKeys (s i) (s k) T)
    (hfew : ((s i).underPrefix T).length ≤ kMaxFlowItems) {flow flow' : List ChatFlowItem}
    (hflow : CaughtUp (s i).messaging.pushed T flow)
    (hflow' : CaughtUp (s k).messaging.pushed T flow') :
    ShowsArchive (N.messaging i) (s i) T flow ∧ ShowsArchive (N.messaging k) (s k) T flow' ∧
      (flow.map fun bubble => Messaging.withoutRole bubble.message).Perm
        (flow'.map fun bubble => Messaging.withoutRole bubble.message) := by
  have hinv := (faithful_of_reachable hs).1.1
  have hscreen := screen_perm_history hs hi hT hfew hflow
  have hfew' : ((s k).underPrefix T).length ≤ kMaxFlowItems :=
    (hkeys.underPrefix_perm hinv).length_eq ▸ hfew
  have hscreen' := screen_perm_history hs hk hT hfew' hflow'
  refine ⟨showsArchive hs hi hT hfew hflow, showsArchive hs hk hT hfew' hflow', ?_⟩
  have hhistory := history_converges hinv hkeys (List.Perm.refl _) (List.Perm.refl _) (.inl hT)
  have hroles := hscreen.map Messaging.withoutRole
  have hroles' := hscreen'.map Messaging.withoutRole
  rw [List.map_map] at hroles hroles'
  exact hroles.trans (hhistory ▸ hroles'.symm)

theorem reachable_update [DecidableEq ι] {u v : NodeState} {l : Label}
    (h : N.settledScans.Reachable (Function.update s i u)) (hstep : (N.messaging i).Step u l v)
    (hallowed : Allowed (Function.update s i u) l)
    (hscan : ∀ T, l = .scan T → isValidRoomTopicShape T = true ∧ u.messaging.pushed = [])
    (hput : l ≠ .put false) : N.settledScans.Reachable (Function.update s i v) := by
  have hself : Function.update s i u i = u := Function.update_self _ _ _
  have hnext := step_update (Function.update s i u) i (hself.symm ▸ hstep) hallowed
  rw [Function.update_idem] at hnext
  refine h.step (l := (i, l)) ⟨⟨hnext, fun T hl => (hscan T hl).1⟩, fun T hl x hx => ?_, hput⟩
  rw [show (i, l).1 = i from rfl, hself, (hscan T hl).2] at hx
  rcases hx with ⟨_, hmem, -⟩ | ⟨_, hmem, -⟩ <;> cases hmem

def aliceRecord : Bytes × Bytes := (buildKey kSmokeTopicA aliceMessage.id, aliceEnvelope)

def aliceEvents : List GcsEvent :=
  [.messageHistory ⟨kSmokeTopicA, []⟩,
    .message ((plaintextNetwork.messaging true).withRole { aliceMessage with state := .pending }),
    .message ((plaintextNetwork.messaging true).withRole aliceMessage)]

def bobEvents : List GcsEvent := [.messageHistory ⟨kSmokeTopicA, [bobBubble.message]⟩]

theorem openMessage_aliceEnvelope (i : Bool) :
    (plaintextNetwork.messaging i).openMessage kSmokeTopicA aliceEnvelope = some aliceMessage :=
  Messaging.openMessage_plaintext (plaintextNetwork.sender i) kSmokeTopicA
    (Messaging.valid_completeMessage (validUtf8_ofString _) (validUtf8_ofString _) validUtf8_nil
      (validUtf8_mintId (validUtf8_ofString _) 0 0 0) isInt64_zero)

theorem historyMessages_aliceRecord :
    (plaintextNetwork.messaging false).historyMessages kSmokeTopicA [aliceRecord] =
      [bobBubble.message] := by
  rw [Messaging.historyMessages, List.filterMap_cons, List.filterMap_nil]
  simp only [aliceRecord, openMessage_aliceEnvelope, Option.map_some, List.insertionSort_cons,
    List.insertionSort_nil, List.orderedInsert_nil]
  rfl

theorem step_callback (i own : Bool) {u : NodeState}
    (hcallbacks : u.callbacks = [⟨aliceRecord.1, aliceRecord.2, own⟩])
    (hseen : aliceMessage.id ∈ u.messaging.seenIds) : (plaintextNetwork.messaging i).Step u
      (.callback ⟨aliceRecord.1, aliceRecord.2, own⟩) { u with callbacks := [] } := by
  have hstep := Messaging.Step.callback (M := plaintextNetwork.messaging i) u []
    ⟨aliceRecord.1, aliceRecord.2, own⟩ [] hcallbacks
  have hroom : roomTopicFromKey (slash :: aliceRecord.1) = some kSmokeTopicA :=
    roomTopicFromKey_cons_buildKey kSmokeTopicA (isKeySegment_nextMessageId 0 0 0)
  have hsame : (plaintextNetwork.messaging i).receive { u with callbacks := [] } kSmokeTopicA
      aliceRecord.2 = { u with callbacks := [] } :=
    Messaging.receive_of_mem (openMessage_aliceEnvelope i) hseen
  rw [List.append_nil, Messaging.arrive_of_roomTopic hroom (by decide), hsame] at hstep
  exact hstep

def aliceState (callbacks : List Callback) : NodeState where
  messaging := ⟨insert aliceMessage.id ∅, [], aliceEvents⟩
  unpushed := []
  unqueued := []
  archiving := none
  store := OrderedMap.empty.insertOrAssign aliceRecord.1 aliceRecord.2
  written := [aliceRecord]
  callbacks := callbacks
  sends := [⟨aliceMessage, some aliceEnvelope, .returned true⟩]
  published := [(kSmokeTopicA, aliceEnvelope)]
  replay := none

theorem reachable_alice :
    plaintextNetwork.settledScans.Reachable (Function.update (fun _ => .fresh) true
      (aliceState [])) := by
  have hfresh : plaintextNetwork.settledScans.Reachable
      (Function.update (fun _ => .fresh) true .fresh) := by
    rw [Function.update_eq_self]
    exact .initial fun _ => rfl
  have hscan := reachable_update hfresh
    (Messaging.Step.scan _ kSmokeTopicA [] (List.Perm.refl _) rfl) trivial
    (fun T hl => by cases hl; exact ⟨by decide, rfl⟩) (by simp)
  have habsorb := reachable_update hscan
    (Messaging.Step.absorb _ ⟨kSmokeTopicA, []⟩ rfl) trivial (by simp) (by simp)
  have hreply := reachable_update habsorb
    (Messaging.Step.reply _ ⟨kSmokeTopicA, []⟩ rfl) trivial (by simp) (by simp)
  have hsend := reachable_update hreply
    (Messaging.Step.send _ kSmokeTopicA [] (nextMessageId 0 0 0) 0)
    ⟨by decide, validUtf8_ofString _, validUtf8_nil, isInt64_zero, ⟨0, 0, 0, rfl⟩,
      by rintro (_ | _) <;> exact List.forall_mem_nil _⟩ (by simp) (by simp)
  have hecho := reachable_update hsend
    (Messaging.Step.sendEcho _ [] aliceMessage [] rfl rfl) trivial (by simp) (by simp)
  have hseal := reachable_update hecho
    (Messaging.Step.sendSeal _ [] aliceMessage [] [] aliceEnvelope rfl rfl) trivial (by simp)
    (by simp)
  have hpublish := reachable_update hseal
    (Messaging.Step.sendPublish _ [] aliceMessage aliceEnvelope [] rfl) trivial (by simp) (by simp)
  have hput := reachable_update hpublish
    (Messaging.Step.sendPut _ [] aliceMessage aliceEnvelope [] rfl) trivial (by simp) (by simp)
  have hreturn : plaintextNetwork.settledScans.Reachable (Function.update (fun _ => .fresh) true
      (aliceState [⟨aliceRecord.1, aliceRecord.2, true⟩])) := reachable_update hput
    (Messaging.Step.sendReturn _ [] aliceMessage aliceEnvelope [] rfl rfl) trivial (by simp)
    (by simp)
  exact reachable_update hreturn (step_callback true true rfl (Finset.mem_insert_self _ _)) trivial
    (by simp) (by simp)

/-- The node that has got the record and then shown the history. -/
def bobState (callbacks : List Callback) : NodeState where
  messaging := ⟨ClearOnFull.enter kMaxSeenIds ∅ aliceMessage.id, [], bobEvents⟩
  unpushed := []
  unqueued := []
  archiving := none
  store := OrderedMap.empty.insertOrAssign aliceRecord.1 aliceRecord.2
  written := [aliceRecord]
  callbacks := callbacks
  sends := []
  published := []
  replay := none

def twoNodes : Bool → NodeState
  | true => aliceState []
  | false => bobState []

theorem reachable_twoNodes : plaintextNetwork.settledScans.Reachable twoNodes := by
  have halice := reachable_alice
  rw [← Function.update_eq_self (a := false) (f := Function.update _ _ _)] at halice
  have hreplicate := reachable_update halice
    (Messaging.Step.replicate _ aliceRecord.1 aliceRecord.2 true)
    ⟨true, List.mem_singleton_self _⟩ (by simp) (by simp)
  have hscan := reachable_update hreplicate
    (Messaging.Step.scan _ kSmokeTopicA [aliceRecord] (List.Perm.refl _) rfl) trivial
    (fun T hl => by cases hl; exact ⟨by decide, rfl⟩) (by simp)
  rw [historyMessages_aliceRecord] at hscan
  have habsorb := reachable_update hscan
    (Messaging.Step.absorb _ ⟨kSmokeTopicA, [bobBubble.message]⟩ rfl) trivial (by simp) (by simp)
  have hreply : plaintextNetwork.settledScans.Reachable (Function.update (Function.update
      (fun _ => .fresh) true (aliceState [])) false
        (bobState [⟨aliceRecord.1, aliceRecord.2, false⟩])) := reachable_update habsorb
    (Messaging.Step.reply _ ⟨kSmokeTopicA, [bobBubble.message]⟩ rfl) trivial (by simp) (by simp)
  have hcallback := reachable_update hreply
    (step_callback false false rfl (ClearOnFull.mem_enter_self _ _)) trivial (by simp) (by simp)
  refine (funext fun i => ?_ : _ = twoNodes) ▸ hcallback
  cases i <;> rfl

theorem quiet_twoNodes (i : Bool) : (twoNodes i).Quiet kSmokeTopicA := by
  cases i with
  | true => exact NodeState.quiet_of_idle rfl rfl rfl rfl (List.forall_mem_singleton.2 rfl)
  | false => exact NodeState.quiet_of_idle rfl rfl rfl rfl (List.forall_mem_nil _)

def aliceBubble : ChatFlowItem :=
  MessageFlow.buildChatFlowItemTextBubble kSmokeTopicA
    ((plaintextNetwork.messaging true).withRole aliceMessage)

def joinSteps : List ShellStep :=
  [.pushed (.ok (.roomList [kSmokeTopicA])), .selectRoom kSmokeTopicA]

theorem caughtUp_alice : CaughtUp (twoNodes true).messaging.pushed kSmokeTopicA [aliceBubble] := by
  refine ⟨ShellState.started, joinSteps, aliceEvents.tail.map fun e => .pushed (.ok e),
    ⟨kSmokeTopicA, []⟩, ⟨rfl, rfl, rfl⟩, rfl, rfl, fun steps hsteps => ?_, rfl⟩
  simp only [aliceEvents, List.tail_cons, List.map_cons, List.map_nil, List.prefix_cons_iff,
    List.prefix_nil] at hsteps
  rcases hsteps with rfl | ⟨_, rfl, rfl | ⟨_, rfl, rfl⟩⟩ <;> rfl

theorem caughtUp_bob : CaughtUp (twoNodes false).messaging.pushed kSmokeTopicA [bobBubble] := by
  refine ⟨ShellState.started, joinSteps, [], ⟨kSmokeTopicA, [bobBubble.message]⟩, ⟨rfl, rfl, rfl⟩,
    rfl, rfl, fun steps hsteps => ?_, rfl⟩
  obtain rfl := List.prefix_nil.1 hsteps
  rfl

theorem screens_agree_twoNodes :
    ShowsArchive (plaintextNetwork.messaging true) (twoNodes true) kSmokeTopicA [aliceBubble] ∧
      ShowsArchive (plaintextNetwork.messaging false) (twoNodes false) kSmokeTopicA [bobBubble] ∧
      ([aliceBubble].map fun bubble => Messaging.withoutRole bubble.message).Perm
        ([bobBubble].map fun bubble => Messaging.withoutRole bubble.message) :=
  screens_agree reachable_twoNodes (by decide) (quiet_twoNodes true) (quiet_twoNodes false)
    (fun _ _ => Iff.rfl) (by decide) caughtUp_alice caughtUp_bob

end Network

end GcsChat
