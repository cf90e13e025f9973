import GcsChat.FlowCubits

/-!
# The message flow on the screen

The session fills the flow, and once a frame the widget gets the items that the flow has then. Every
bubble is drawn as the message it was built from says, whichever frames were skipped and whenever its
builder runs.
-/

namespace GcsChat

open ByteString

def kRoleVariants : MessageRole → Option Bytes
  | .userSelf => some (ofString "user_self")
  | .userPeer => some (ofString "user_peer")
  | .assistant => some (ofString "assistant")
  | .system => some (ofString "system")
  | .unspecified => none
  | .unrecognized _ => none

def kStateVariants : MessageState → Option Bytes
  | .pending => some (ofString "pending")
  | .streaming => some (ofString "streaming")
  | .thinking => some (ofString "thinking")
  | .complete => some (ofString "complete")
  | .error => some (ofString "error")
  | .unspecified => none
  | .unrecognized _ => none

def kSenderShortPrefixLength : ℕ := 8
def kSenderShortSuffixLength : ℕ := 8
def kSenderShortMarkerLength : ℕ := 2 + 1
def kSenderShortHeadroomLength : ℕ := 1

/-- The `0x` and the ellipsis are written anew. -/
def truncateSender (address : List UInt16) : List UInt16 :=
  if address.length > kSenderShortPrefixLength + kSenderShortSuffixLength +
      kSenderShortMarkerLength + kSenderShortHeadroomLength then
    [0x30, 0x78] ++ (address.drop 2).take kSenderShortPrefixLength ++ [0x2026] ++
      address.drop (address.length - kSenderShortSuffixLength)
  else address

section Bubbles

variable (codeUnits : Bytes → List UInt16)

def senderLabel (sender : Bytes) : Option (List UInt16) :=
  if sender = [] then none else some (truncateSender (codeUnits sender))

/-- The fields of a bubble; `codeUnits` reads a string of the wire. -/
def flowTextBubble (bubble : ChatFlowItem) : FlowTextBubble where
  instanceId := bubble.instanceId
  role := (kRoleVariants bubble.message.role).getD (ofString "system")
  state := (kStateVariants bubble.message.state).getD (ofString "complete")
  text := bubble.message.text
  senderName := senderLabel codeUnits bubble.message.sender

def flowItems (flow : List ChatFlowItem) : List FlowItem :=
  flow.map fun bubble => .textBubble (flowTextBubble codeUnits bubble)

def roleVariant : MessageRole → BubbleVariant
  | .userSelf => .userSelf
  | .userPeer => .userPeer
  | .assistant => .assistant
  | _ => .system

def messageChrome : MessageState → StateChrome
  | .pending => .dimmed
  | .error => .errorTint
  | .thinking => .thinkingDots
  | _ => .identity

def messageView (message : ChatMessageState) : BubbleView where
  variant := roleVariant message.role
  senderLabel :=
    if (roleVariant message.role).showsSenderLabel then senderLabel codeUnits message.sender
    else none
  chrome := messageChrome message.state
  text := if messageChrome message.state = .thinkingDots then none else some message.text

theorem bubbleVariant_kRoleVariants (role : MessageRole) :
    bubbleVariant ((kRoleVariants role).getD (ofString "system")) = roleVariant role := by
  cases role <;> rfl

theorem bubbleChrome_kStateVariants (state : MessageState) :
    bubbleChrome ((kStateVariants state).getD (ofString "complete")) = messageChrome state := by
  cases state <;> rfl

/-- The names that the two registries agree on do not show. -/
theorem plainView_flowTextBubble (bubble : ChatFlowItem) :
    ChatMessageFlow.plainView (.textBubble (flowTextBubble codeUnits bubble)) =
      .bubble (messageView codeUnits bubble.message) := by
  have hvariant := bubbleVariant_kRoleVariants bubble.message.role
  have hchrome := bubbleChrome_kStateVariants bubble.message.state
  simp only [ChatMessageFlow.plainView, HolderKind.plainView, ChatMessageFlow.bubbleKind,
    ChatMessageFlow.bubbleView, flowTextBubble, hvariant, hchrome, messageView]

end Bubbles

namespace MessageFlow

variable {items : List ChatFlowItem} {item : ChatFlowItem}

theorem ids_replaceFirst (item : ChatFlowItem) (items : List ChatFlowItem) :
    ids (replaceFirst item items) =
      if item.instanceId ∈ ids items then ids items else ids items ++ [item.instanceId] := by
  induction items with
  | nil => rfl
  | cons existing rest ih =>
      rw [replaceFirst]
      by_cases hkey : existing.instanceId = item.instanceId
      · rw [if_pos hkey, if_pos (show item.instanceId ∈ ids (existing :: rest) from
          List.mem_cons.2 (.inl hkey.symm))]
        exact congrArg (· :: ids rest) hkey.symm
      · rw [if_neg hkey]
        have hmem : item.instanceId ∈ ids (existing :: rest) ↔ item.instanceId ∈ ids rest :=
          List.mem_cons.trans (or_iff_right (Ne.symm hkey))
        simp only [hmem]
        split
        · next hrest => exact congrArg (existing.instanceId :: ·) (ih.trans (if_pos hrest))
        · next hrest => exact congrArg (existing.instanceId :: ·) (ih.trans (if_neg hrest))

theorem nodup_ids_cappedItems (h : (ids items).Nodup) : (ids (cappedItems items)).Nodup :=
  h.sublist ((List.drop_sublist _ _).map _)

theorem nodup_ids_upsert (h : (ids items).Nodup) (item : ChatFlowItem) :
    (ids (upsert items item)).Nodup := by
  apply nodup_ids_cappedItems
  rw [ids_replaceFirst]
  split
  · exact h
  · next hnew =>
      exact h.append (List.nodup_singleton _) (List.disjoint_singleton.2 hnew)

end MessageFlow

namespace ShellState

open MessageFlow (ids)

def HistoryDistinct (l : ShellStep) : Prop :=
  ∀ history, l = .pushed (.ok (.messageHistory history)) →
    (history.message.map (·.id)).Nodup

theorem nodup_onRailStateChanged {s : ShellState} (h : (ids s.flow).Nodup) :
    (ids (SessionCubit.onRailStateChanged s).flow).Nodup := by
  unfold SessionCubit.onRailStateChanged
  split
  · exact h
  · split
    · exact h
    · exact List.nodup_nil

theorem nodup_handle {s : ShellState} (h : (ids s.flow).Nodup) {l : ShellStep}
    (hl : HistoryDistinct l) : (ids (s.handle l).flow).Nodup := by
  cases l with
  | selectRoom roomTopic =>
      rw [ShellState.handle]
      split
      · exact h
      · exact nodup_onRailStateChanged h
  | pushed event =>
      cases event with
      | error text => exact h
      | ok event =>
          cases event with
          | spaceTree space room => exact nodup_onRailStateChanged h
          | roomList roomTopic => exact nodup_onRailStateChanged h
          | readiness ready => exact h
          | error message => exact h
          | message message =>
              simp only [ShellState.handle, SessionCubit.dispatchEvent]
              split_ifs
              · dsimp only
                exact MessageFlow.nodup_ids_upsert h _
              · exact h
          | messageHistory history =>
              have hids := hl history rfl
              simp only [ShellState.handle, SessionCubit.dispatchEvent]
              split_ifs
              · dsimp only [MessageFlow.replaceAll]
                apply MessageFlow.nodup_ids_cappedItems
                rw [ids, List.map_map]
                exact hids
              · exact h

end ShellState

/-- The shell, and the widget with the items of some frame. -/
structure FlowScreen where
  shell : ShellState
  widget : FlowWidget

inductive ScreenStep
  | shell (l : ShellStep)
  | frame
  | build (item : FlowItem)
  | dispose

namespace FlowScreen

variable (codeUnits : Bytes → List UInt16)

/-- A frame gives the widget what the flow has at that moment. -/
def Step (s : FlowScreen) (l : ScreenStep) (t : FlowScreen) : Prop :=
  match l with
  | .shell l => t = { s with shell := s.shell.handle l }
  | .frame => t.shell = s.shell ∧
      s.widget.Step (.update (flowItems codeUnits s.shell.flow)) t.widget
  | .build item => t.shell = s.shell ∧ s.widget.Step (.build item) t.widget
  | .dispose => t.shell = s.shell ∧ s.widget.Step .dispose t.widget

def system : TransitionSystem FlowScreen ScreenStep where
  initial s := s.shell.Starts ∧ s.widget = .ofItems []
  step := Step codeUnits

/-- The flow and the widget have items with different ids, and the cubits of the widget show them. -/
structure Sound (s : FlowScreen) : Prop where
  distinct : (MessageFlow.ids s.shell.flow).Nodup
  shows : s.widget.Shows

variable {codeUnits} {s₀ s t : FlowScreen} {ls : List ScreenStep} {l : ScreenStep}

theorem uniqueIds_flowItems {flow : List ChatFlowItem} (h : (MessageFlow.ids flow).Nodup) :
    FlowWidget.UniqueIds (flowItems codeUnits flow) := by
  rw [FlowWidget.UniqueIds, flowItems, List.map_map]
  exact h

theorem sound_of_initial (h : (system codeUnits).initial s) : s.Sound := by
  obtain ⟨hstarts, hwidget⟩ := h
  refine ⟨hstarts.1 ▸ List.nodup_nil, hwidget ▸ ?_⟩
  exact FlowWidget.shows_ofItems List.nodup_nil

theorem Sound.step (h : s.Sound) (hstep : s.Step codeUnits l t)
    (hl : ∀ l', l = .shell l' → ShellState.HistoryDistinct l') : t.Sound := by
  cases l with
  | shell l =>
      obtain rfl := hstep
      exact ⟨ShellState.nodup_handle h.distinct (hl l rfl), h.shows⟩
  | frame =>
      obtain ⟨hshell, hstep⟩ := hstep
      have hunique : FlowWidget.UniqueIds (flowItems codeUnits s.shell.flow) :=
        uniqueIds_flowItems h.distinct
      refine ⟨hshell ▸ h.distinct, h.shows.step hstep fun items hitems => ?_⟩
      cases hitems
      exact hunique
  | build item =>
      obtain ⟨hshell, hstep⟩ := hstep
      refine ⟨hshell ▸ h.distinct, h.shows.step hstep fun items hitems => ?_⟩
      cases hitems
  | dispose =>
      obtain ⟨hshell, hstep⟩ := hstep
      refine ⟨hshell ▸ h.distinct, h.shows.step hstep fun items hitems => ?_⟩
      cases hitems

theorem sound_of_run (hinit : (system codeUnits).initial s₀) (hrun : (system codeUnits).Run s₀ ls s)
    (hls : ∀ l, ScreenStep.shell l ∈ ls → ShellState.HistoryDistinct l) : s.Sound := by
  induction hrun with
  | nil => exact sound_of_initial hinit
  | snoc hrun hstep ih =>
      apply (ih fun l hl => hls l (List.mem_append_left _ hl)).step hstep
      rintro l rfl
      exact hls l (List.mem_append_right _ List.mem_cons_self)

theorem items_of_step (hstep : s.Step codeUnits l t) (hl : l ≠ .frame) :
    t.widget.items = s.widget.items := by
  cases l with
  | shell l => exact congrArg (fun x => x.widget.items) hstep
  | frame => exact absurd rfl hl
  | build item => exact hstep.2.2.2 ▸ FlowWidget.items_buildFlowItem s.widget item
  | dispose => exact hstep.2.2 ▸ rfl

theorem items_of_frame (hstep : s.Step codeUnits .frame t) :
    t.widget.items = flowItems codeUnits t.shell.flow := by
  rw [hstep.1, ← hstep.2.2, FlowWidget.didUpdateWidget_eq]

theorem exists_last_frame (hinit : (system codeUnits).initial s₀)
    (hrun : (system codeUnits).Run s₀ ls s) : ∃ before after t, ls = before ++ after ∧
      (system codeUnits).Run s₀ before t ∧ ScreenStep.frame ∉ after ∧
      s.widget.items = flowItems codeUnits t.shell.flow := by
  induction hrun with
  | nil =>
      refine ⟨[], [], s₀, rfl, .nil s₀, List.not_mem_nil, ?_⟩
      rw [hinit.2, hinit.1.1]
      rfl
  | @snoc u w ls l hrun hstep ih =>
      by_cases hframe : l = .frame
      · subst hframe
        exact ⟨ls ++ [.frame], [], w, (List.append_nil _).symm, .snoc hrun hstep,
          List.not_mem_nil, items_of_frame hstep⟩
      · obtain ⟨before, after, t, rfl, hbefore, hafter, hitems⟩ := ih
        refine ⟨before, after ++ [l], t, List.append_assoc _ _ _, hbefore, ?_, ?_⟩
        · rw [List.mem_append, List.mem_singleton]
          exact not_or.2 ⟨hafter, Ne.symm hframe⟩
        · exact (items_of_step hstep hframe).trans hitems

/-- Whatever the session was pushed since and whichever builders ran, the widget has the bubbles of
the flow at the last frame, and each of them is drawn as its message says. -/
theorem drawn_as_messages (hinit : (system codeUnits).initial s₀)
    (hrun : (system codeUnits).Run s₀ ls s)
    (hls : ∀ l, ScreenStep.shell l ∈ ls → ShellState.HistoryDistinct l) :
    ∃ before after t, ls = before ++ after ∧ (system codeUnits).Run s₀ before t ∧
      ScreenStep.frame ∉ after ∧ s.widget.items = flowItems codeUnits t.shell.flow ∧
      ∀ bubble ∈ t.shell.flow,
        (s.widget.buildFlowItem (.textBubble (flowTextBubble codeUnits bubble))).2 =
          .bubble (messageView codeUnits bubble.message) := by
  obtain ⟨before, after, t, hsplit, hbefore, hafter, hitems⟩ := exists_last_frame hinit hrun
  refine ⟨before, after, t, hsplit, hbefore, hafter, hitems, fun bubble hbubble => ?_⟩
  rw [← plainView_flowTextBubble]
  apply (sound_of_run hinit hrun hls).shows.view_buildFlowItem
  rw [hitems]
  exact List.mem_map_of_mem hbubble

/-- The session may handle any number of events between two frames. -/
theorem run_shell (s : FlowScreen) (ls : List ShellStep) : (system codeUnits).Run s
    (ls.map .shell) { s with shell := ls.foldl ShellState.handle s.shell } := by
  induction ls using List.reverseRecOn with
  | nil => exact .nil s
  | append_singleton ls l ih =>
      rw [List.map_append, List.foldl_append]
      exact .snoc ih rfl

def greetingSteps : List ShellStep :=
  [.pushed (.ok (.roomList [ofString "gcs/chat/a"])), .selectRoom (ofString "gcs/chat/a"),
    .pushed (.ok (.message ShellState.shownMessage))]

def greeted : FlowScreen :=
  let shell := greetingSteps.foldl ShellState.handle ShellState.started
  ⟨shell, (FlowWidget.ofItems []).didUpdateWidget (flowItems (fun _ => []) shell.flow)⟩

theorem drawn_as_messages_greeted :
    ∃ before after t, greetingSteps.map .shell ++ [.frame] = before ++ after ∧
      (system fun _ => []).Run ⟨ShellState.started, .ofItems []⟩ before t ∧
      ScreenStep.frame ∉ after ∧ greeted.widget.items = flowItems (fun _ => []) t.shell.flow ∧
      ∀ bubble ∈ t.shell.flow,
        (greeted.widget.buildFlowItem (.textBubble (flowTextBubble (fun _ => []) bubble))).2 =
          .bubble (messageView (fun _ => []) bubble.message) := by
  have hrun : (system fun _ => []).Run ⟨ShellState.started, .ofItems []⟩
      (greetingSteps.map .shell ++ [.frame]) greeted :=
    .snoc (run_shell _ greetingSteps) ⟨rfl, rfl, rfl⟩
  refine drawn_as_messages ⟨⟨rfl, rfl, rfl⟩, rfl⟩ hrun fun l hl history hpushed => ?_
  subst hpushed
  simp [greetingSteps] at hl

end FlowScreen

end GcsChat
