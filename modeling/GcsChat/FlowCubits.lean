import GcsChat.FlowCap
import GcsChat.SnapshotCache

/-!
# The cubits of the message flow

`ChatMessageFlow` draws its items through cubits: one for each `instanceId` and type of item, made
when the item is first built, reconciled when the widget gets other items and closed when the item
is gone. The builder of an item runs when the sliver needs it, which may be frames later or never.
-/

namespace GcsChat

open ByteString

/-- The label is in UTF-16 code units, in which the shell cuts a long sender. -/
structure FlowTextBubble where
  instanceId : Bytes
  state : Bytes
  role : Bytes
  text : Bytes
  senderName : Option (List UInt16)

structure FlowCodeBlock where
  instanceId : Bytes
  state : Bytes
  code : Bytes
  language : Bytes
  filename : Bytes

structure FlowMedia where
  instanceId : Bytes
  state : Bytes
  mediaRef : Bytes
  title : Bytes

inductive FlowItem
  | textBubble (item : FlowTextBubble)
  | codeBlock (item : FlowCodeBlock)
  | media (item : FlowMedia)

namespace FlowItem

def instanceId : FlowItem → Bytes
  | textBubble item => item.instanceId
  | codeBlock item => item.instanceId
  | media item => item.instanceId

def textBubble? : FlowItem → Option FlowTextBubble
  | textBubble item => some item
  | _ => none

def codeBlock? : FlowItem → Option FlowCodeBlock
  | codeBlock item => some item
  | _ => none

def media? : FlowItem → Option FlowMedia
  | media item => some item
  | _ => none

end FlowItem

inductive BubbleVariant
  | userSelf
  | userPeer
  | assistant
  | system
  deriving DecidableEq

inductive StateChrome
  | identity
  | dimmed
  | errorTint
  | thinkingDots
  deriving DecidableEq

/-- Roles outside the registry are drawn as system notices. -/
def bubbleVariant (role : Bytes) : BubbleVariant :=
  if role = ofString "user_self" then .userSelf
  else if role = ofString "user_peer" then .userPeer
  else if role = ofString "assistant" then .assistant
  else .system

def BubbleVariant.showsSenderLabel : BubbleVariant → Bool
  | .userPeer => true
  | .assistant => true
  | _ => false

def bubbleChrome (state : Bytes) : StateChrome :=
  if state = ofString "pending" then .dimmed
  else if state = ofString "error" then .errorTint
  else if state = ofString "thinking" then .thinkingDots
  else .identity

/-- Code and media have no dots. -/
def itemChrome (state : Bytes) : StateChrome :=
  if state = ofString "pending" then .dimmed
  else if state = ofString "error" then .errorTint
  else .identity

/-- Without a text the dots stand in its place. -/
structure BubbleView where
  variant : BubbleVariant
  senderLabel : Option (List UInt16)
  chrome : StateChrome
  text : Option Bytes

structure CodeBlockView where
  chrome : StateChrome
  lines : List Bytes
  language : Option Bytes
  filename : Option Bytes

structure MediaView where
  chrome : StateChrome
  title : Option Bytes

inductive ItemView
  | bubble (view : BubbleView)
  | codeBlock (view : CodeBlockView)
  | media (view : MediaView)

def snapshotLines (code : Bytes) : List Bytes := if code = [] then [] else code.splitOn 10

def nonEmpty (text : Bytes) : Option Bytes := if text = [] then none else some text

structure ChatMessageBubbleState where
  role : Bytes
  state : Bytes
  text : Bytes

structure ChatMessageCodeBlockState where
  state : Bytes
  code : Bytes
  language : Bytes
  filename : Bytes

structure ChatMessageMediaState where
  state : Bytes
  mediaRef : Bytes
  title : Bytes

namespace ChatMessageFlow

/-- The role is not reconciled. -/
def reconcileBubbleCubit (item : FlowTextBubble) (cubit : ChatMessageBubbleState) :
    ChatMessageBubbleState :=
  let applied := if cubit.state ≠ item.state then { cubit with state := item.state } else cubit
  if applied.text ≠ item.text then { applied with text := item.text } else applied

def reconcileCodeBlockCubit (item : FlowCodeBlock) (cubit : ChatMessageCodeBlockState) :
    ChatMessageCodeBlockState :=
  let applied := if cubit.state ≠ item.state then { cubit with state := item.state } else cubit
  let coded := if applied.code ≠ item.code then { applied with code := item.code } else applied
  let tagged :=
    if coded.language ≠ item.language then { coded with language := item.language } else coded
  if tagged.filename ≠ item.filename then { tagged with filename := item.filename } else tagged

def reconcileMediaCubit (item : FlowMedia) (cubit : ChatMessageMediaState) :
    ChatMessageMediaState :=
  let applied := if cubit.state ≠ item.state then { cubit with state := item.state } else cubit
  let referred :=
    if applied.mediaRef ≠ item.mediaRef then { applied with mediaRef := item.mediaRef } else applied
  if referred.title ≠ item.title then { referred with title := item.title } else referred

/-- The variant and the label are the item's, the state and the text are the cubit's. -/
def bubbleView (item : FlowTextBubble) (cubit : ChatMessageBubbleState) : BubbleView where
  variant := bubbleVariant item.role
  senderLabel := if (bubbleVariant item.role).showsSenderLabel then item.senderName else none
  chrome := bubbleChrome cubit.state
  text := if bubbleChrome cubit.state = .thinkingDots then none else some cubit.text

def codeBlockView (_ : FlowCodeBlock) (cubit : ChatMessageCodeBlockState) : CodeBlockView where
  chrome := itemChrome cubit.state
  lines := snapshotLines cubit.code
  language := nonEmpty cubit.language
  filename := nonEmpty cubit.filename

def mediaView (_ : FlowMedia) (cubit : ChatMessageMediaState) : MediaView where
  chrome := itemChrome cubit.state
  title := nonEmpty cubit.title

theorem reconcileBubbleCubit_eq (item : FlowTextBubble) (cubit : ChatMessageBubbleState) :
    reconcileBubbleCubit item cubit = ⟨cubit.role, item.state, item.text⟩ := by
  cases cubit
  grind [reconcileBubbleCubit]

theorem reconcileCodeBlockCubit_eq (item : FlowCodeBlock) (cubit : ChatMessageCodeBlockState) :
    reconcileCodeBlockCubit item cubit =
      ⟨item.state, item.code, item.language, item.filename⟩ := by
  cases cubit
  grind [reconcileCodeBlockCubit]

theorem reconcileMediaCubit_eq (item : FlowMedia) (cubit : ChatMessageMediaState) :
    reconcileMediaCubit item cubit = ⟨item.state, item.mediaRef, item.title⟩ := by
  cases cubit
  grind [reconcileMediaCubit]

theorem bubbleView_reconcile (item : FlowTextBubble) (cubit : ChatMessageBubbleState) :
    bubbleView item (reconcileBubbleCubit item cubit) =
      bubbleView item ⟨item.role, item.state, item.text⟩ := by
  rw [reconcileBubbleCubit_eq]
  rfl

theorem codeBlockView_reconcile (item : FlowCodeBlock) (cubit : ChatMessageCodeBlockState) :
    codeBlockView item (reconcileCodeBlockCubit item cubit) =
      codeBlockView item ⟨item.state, item.code, item.language, item.filename⟩ :=
  congrArg (codeBlockView item) (reconcileCodeBlockCubit_eq item cubit)

theorem mediaView_reconcile (item : FlowMedia) (cubit : ChatMessageMediaState) :
    mediaView item (reconcileMediaCubit item cubit) =
      mediaView item ⟨item.state, item.mediaRef, item.title⟩ :=
  congrArg (mediaView item) (reconcileMediaCubit_eq item cubit)

def bubbleKind : HolderKind FlowTextBubble Bytes ChatMessageBubbleState BubbleView where
  key := FlowTextBubble.instanceId
  seed item := ⟨item.role, item.state, item.text⟩
  reconcile := reconcileBubbleCubit
  view := bubbleView
  view_reconcile := bubbleView_reconcile

def codeBlockKind : HolderKind FlowCodeBlock Bytes ChatMessageCodeBlockState CodeBlockView where
  key := FlowCodeBlock.instanceId
  seed item := ⟨item.state, item.code, item.language, item.filename⟩
  reconcile := reconcileCodeBlockCubit
  view := codeBlockView
  view_reconcile := codeBlockView_reconcile

def mediaKind : HolderKind FlowMedia Bytes ChatMessageMediaState MediaView where
  key := FlowMedia.instanceId
  seed item := ⟨item.state, item.mediaRef, item.title⟩
  reconcile := reconcileMediaCubit
  view := mediaView
  view_reconcile := mediaView_reconcile

/-- An item drawn from its own snapshot, without any cubit. -/
def plainView : FlowItem → ItemView
  | .textBubble item => .bubble (bubbleKind.plainView item)
  | .codeBlock item => .codeBlock (codeBlockKind.plainView item)
  | .media item => .media (mediaKind.plainView item)

end ChatMessageFlow

structure FlowWidget where
  items : List FlowItem
  bubbleCubits : SnapshotCache Bytes ChatMessageBubbleState
  codeBlockCubits : SnapshotCache Bytes ChatMessageCodeBlockState
  mediaCubits : SnapshotCache Bytes ChatMessageMediaState
  mounted : Bool

namespace FlowWidget

open ChatMessageFlow

def ofItems (items : List FlowItem) : FlowWidget := ⟨items, .empty, .empty, .empty, true⟩

def releaseRetiredCubits (s : FlowWidget) : FlowWidget :=
  let liveIds := s.items.map FlowItem.instanceId
  { s with
    bubbleCubits := s.bubbleCubits.release liveIds
    codeBlockCubits := s.codeBlockCubits.release liveIds
    mediaCubits := s.mediaCubits.release liveIds }

def reconcileItem (s : FlowWidget) : FlowItem → FlowWidget
  | .textBubble item => { s with bubbleCubits := s.bubbleCubits.reconcile bubbleKind item }
  | .codeBlock item => { s with codeBlockCubits := s.codeBlockCubits.reconcile codeBlockKind item }
  | .media item => { s with mediaCubits := s.mediaCubits.reconcile mediaKind item }

def reconcileCubits (s : FlowWidget) : FlowWidget := s.items.foldl reconcileItem s

def didUpdateWidget (s : FlowWidget) (items : List FlowItem) : FlowWidget :=
  ({ s with items := items }).releaseRetiredCubits.reconcileCubits

def buildFlowItem (s : FlowWidget) : FlowItem → FlowWidget × ItemView
  | .textBubble item =>
      let made := s.bubbleCubits.obtainHolder bubbleKind item
      ({ s with bubbleCubits := made.1 }, .bubble (bubbleView item made.2.value))
  | .codeBlock item =>
      let made := s.codeBlockCubits.obtainHolder codeBlockKind item
      ({ s with codeBlockCubits := made.1 }, .codeBlock (codeBlockView item made.2.value))
  | .media item =>
      let made := s.mediaCubits.obtainHolder mediaKind item
      ({ s with mediaCubits := made.1 }, .media (mediaView item made.2.value))

def dispose (s : FlowWidget) : FlowWidget :=
  { s with
    bubbleCubits := s.bubbleCubits.closeAll
    codeBlockCubits := s.codeBlockCubits.closeAll
    mediaCubits := s.mediaCubits.closeAll
    mounted := false }

end FlowWidget

/-- The framework gives the widget other items, has it build one of them, or disposes of it. -/
inductive FlowStep
  | update (items : List FlowItem)
  | build (item : FlowItem)
  | dispose

namespace FlowWidget

open ChatMessageFlow

/-- Only an item that the widget has is built, and nothing happens after `dispose`. -/
def Step (s : FlowWidget) (l : FlowStep) (t : FlowWidget) : Prop :=
  s.mounted = true ∧ match l with
    | .update items => s.didUpdateWidget items = t
    | .build item => item ∈ s.items ∧ (s.buildFlowItem item).1 = t
    | .dispose => s.dispose = t

def system : TransitionSystem FlowWidget FlowStep where
  initial s := ∃ items, s = ofItems items
  step := Step

section Parts

variable {s : FlowWidget} {items : List FlowItem}

/-- Each item reconciles the cubits of its own type only. -/
theorem foldl_reconcileItem (s : FlowWidget) (l : List FlowItem) : l.foldl reconcileItem s =
    { s with
      bubbleCubits := s.bubbleCubits.reconcileAll bubbleKind (l.filterMap FlowItem.textBubble?)
      codeBlockCubits :=
        s.codeBlockCubits.reconcileAll codeBlockKind (l.filterMap FlowItem.codeBlock?)
      mediaCubits := s.mediaCubits.reconcileAll mediaKind (l.filterMap FlowItem.media?) } := by
  induction l generalizing s with
  | nil => rfl
  | cons item rest ih =>
      rw [List.foldl_cons, ih]
      cases item <;> rfl

theorem didUpdateWidget_eq (s : FlowWidget) (items : List FlowItem) : s.didUpdateWidget items =
    { s with
      items := items
      bubbleCubits := (s.bubbleCubits.release (items.map FlowItem.instanceId)).reconcileAll
        bubbleKind (items.filterMap FlowItem.textBubble?)
      codeBlockCubits := (s.codeBlockCubits.release (items.map FlowItem.instanceId)).reconcileAll
        codeBlockKind (items.filterMap FlowItem.codeBlock?)
      mediaCubits := (s.mediaCubits.release (items.map FlowItem.instanceId)).reconcileAll
        mediaKind (items.filterMap FlowItem.media?) } :=
  foldl_reconcileItem _ items

theorem items_buildFlowItem (s : FlowWidget) (item : FlowItem) :
    (s.buildFlowItem item).1.items = s.items := by
  cases item <;> rfl

theorem step_update (h : s.mounted = true) (items : List FlowItem) :
    system.step s (.update items) (s.didUpdateWidget items) := ⟨h, rfl⟩

theorem step_build (h : s.mounted = true) {item : FlowItem} (hitem : item ∈ s.items) :
    system.step s (.build item) (s.buildFlowItem item).1 := ⟨h, hitem, rfl⟩

end Parts

def liveIds (s : FlowWidget) : List Bytes :=
  if s.mounted = true then s.items.map FlowItem.instanceId else []

/-- Every cubit that was ever made is the only one that is kept for a current item, or was closed
once. -/
structure CubitsManaged (s : FlowWidget) : Prop where
  bubble : s.bubbleCubits.Managed s.liveIds
  codeBlock : s.codeBlockCubits.Managed s.liveIds
  media : s.mediaCubits.Managed s.liveIds

theorem cubitsManaged_ofItems (items : List FlowItem) : (ofItems items).CubitsManaged :=
  ⟨.empty _, .empty _, .empty _⟩

namespace CubitsManaged

variable {s : FlowWidget}

theorem didUpdateWidget (h : s.CubitsManaged) (hmounted : s.mounted = true)
    (items : List FlowItem) : (s.didUpdateWidget items).CubitsManaged := by
  rw [didUpdateWidget_eq]
  constructor <;> rw [liveIds, if_pos hmounted]
  · exact .update h.bubble.toAccounted _ _
  · exact .update h.codeBlock.toAccounted _ _
  · exact .update h.media.toAccounted _ _

theorem buildFlowItem (h : s.CubitsManaged) (hmounted : s.mounted = true) {item : FlowItem}
    (hitem : item ∈ s.items) : (s.buildFlowItem item).1.CubitsManaged := by
  have hid : item.instanceId ∈ s.liveIds := by
    rw [liveIds, if_pos hmounted]
    exact List.mem_map_of_mem hitem
  cases item with
  | textBubble item => exact ⟨h.bubble.obtainHolder hid, h.codeBlock, h.media⟩
  | codeBlock item => exact ⟨h.bubble, h.codeBlock.obtainHolder hid, h.media⟩
  | media item => exact ⟨h.bubble, h.codeBlock, h.media.obtainHolder hid⟩

theorem dispose (h : s.CubitsManaged) : s.dispose.CubitsManaged :=
  ⟨.closeAll h.bubble.toAccounted, .closeAll h.codeBlock.toAccounted,
    .closeAll h.media.toAccounted⟩

theorem step (h : s.CubitsManaged) {l : FlowStep} {t : FlowWidget} (hstep : s.Step l t) :
    t.CubitsManaged := by
  obtain ⟨hmounted, hstep⟩ := hstep
  cases l with
  | update items => exact hstep ▸ h.didUpdateWidget hmounted items
  | build item => exact hstep.2 ▸ h.buildFlowItem hmounted hstep.1
  | dispose => exact hstep ▸ h.dispose

/-- A widget that is gone has closed every cubit that it ever made. -/
theorem closed_perm (h : s.CubitsManaged) (hgone : s.mounted = false) :
    s.bubbleCubits.closed.Perm (List.range s.bubbleCubits.created) ∧
      s.codeBlockCubits.closed.Perm (List.range s.codeBlockCubits.created) ∧
      s.mediaCubits.closed.Perm (List.range s.mediaCubits.created) := by
  have hnone : s.liveIds = [] := by rw [liveIds, hgone, if_neg Bool.false_ne_true]
  obtain ⟨hbubble, hcodeBlock, hmedia⟩ := h
  rw [hnone] at hbubble hcodeBlock hmedia
  exact ⟨hbubble.closed_perm, hcodeBlock.closed_perm, hmedia.closed_perm⟩

end CubitsManaged

theorem cubitsManaged_of_reachable {s : FlowWidget} (h : system.Reachable s) : s.CubitsManaged := by
  apply h.invariant
  · rintro _ ⟨items, rfl⟩
    exact cubitsManaged_ofItems items
  · exact fun s l t hs hstep => hs.step hstep

def typedBubble (text : String) : FlowItem :=
  .textBubble ⟨ofString "msg", ofString "streaming", ofString "assistant", ofString text, none⟩

def sharedCode (code : String) : FlowItem :=
  .codeBlock ⟨ofString "code", ofString "complete", ofString code, [], []⟩

/-- A bubble is built and then gone. -/
theorem cubitsManaged_retired :
    (((ofItems [typedBubble "a"]).buildFlowItem (typedBubble "a")).1.didUpdateWidget []).CubitsManaged :=
  cubitsManaged_of_reachable
    ⟨_, _, ⟨_, rfl⟩, .snoc (.snoc (.nil _) (step_build rfl List.mem_cons_self)) (step_update rfl [])⟩

def UniqueIds (items : List FlowItem) : Prop := (items.map FlowItem.instanceId).Nodup

theorem nodup_filterMap {β : Type} {f : FlowItem → Option β} {key : β → Bytes}
    (hkey : ∀ item b, f item = some b → key b = item.instanceId) {items : List FlowItem}
    (h : UniqueIds items) : ((items.filterMap f).map key).Nodup := by
  have hsub : ((items.filterMap f).map key).Sublist (items.map FlowItem.instanceId) := by
    induction items with
    | nil => exact List.Sublist.refl _
    | cons item rest ih =>
        have hrest := ih (List.nodup_cons.1 h).2
        cases hf : f item with
        | none =>
            rw [List.filterMap_cons_none hf]
            exact hrest.cons _
        | some b =>
            rw [List.filterMap_cons_some hf, List.map_cons, List.map_cons, hkey item b hf]
            exact hrest.cons_cons _
  exact h.sublist hsub

theorem nodup_textBubbles {items : List FlowItem} (h : UniqueIds items) :
    ((items.filterMap FlowItem.textBubble?).map bubbleKind.key).Nodup := by
  refine nodup_filterMap (fun item b hitem => ?_) h
  cases item <;> cases hitem
  rfl

theorem nodup_codeBlocks {items : List FlowItem} (h : UniqueIds items) :
    ((items.filterMap FlowItem.codeBlock?).map codeBlockKind.key).Nodup := by
  refine nodup_filterMap (fun item b hitem => ?_) h
  cases item <;> cases hitem
  rfl

theorem nodup_media {items : List FlowItem} (h : UniqueIds items) :
    ((items.filterMap FlowItem.media?).map mediaKind.key).Nodup := by
  refine nodup_filterMap (fun item b hitem => ?_) h
  cases item <;> cases hitem
  rfl

structure Shows (s : FlowWidget) : Prop where
  unique : UniqueIds s.items
  bubble : s.bubbleCubits.Current bubbleKind (s.items.filterMap FlowItem.textBubble?)
  codeBlock : s.codeBlockCubits.Current codeBlockKind (s.items.filterMap FlowItem.codeBlock?)
  media : s.mediaCubits.Current mediaKind (s.items.filterMap FlowItem.media?)

theorem shows_ofItems {items : List FlowItem} (h : UniqueIds items) : (ofItems items).Shows :=
  ⟨h, .empty _, .empty _, .empty _⟩

theorem shows_didUpdateWidget (s : FlowWidget) {items : List FlowItem} (h : UniqueIds items) :
    (s.didUpdateWidget items).Shows := by
  rw [didUpdateWidget_eq]
  exact ⟨h, .reconcileAll _ (nodup_textBubbles h), .reconcileAll _ (nodup_codeBlocks h),
    .reconcileAll _ (nodup_media h)⟩

namespace Shows

variable {s : FlowWidget} {item : FlowItem}

theorem buildFlowItem (h : s.Shows) (hitem : item ∈ s.items) : (s.buildFlowItem item).1.Shows := by
  cases item with
  | textBubble item =>
      have hmem : item ∈ s.items.filterMap FlowItem.textBubble? :=
        List.mem_filterMap.2 ⟨_, hitem, rfl⟩
      exact ⟨h.unique, h.bubble.obtainHolder (nodup_textBubbles h.unique) hmem, h.codeBlock,
        h.media⟩
  | codeBlock item =>
      have hmem : item ∈ s.items.filterMap FlowItem.codeBlock? :=
        List.mem_filterMap.2 ⟨_, hitem, rfl⟩
      exact ⟨h.unique, h.bubble, h.codeBlock.obtainHolder (nodup_codeBlocks h.unique) hmem,
        h.media⟩
  | media item =>
      have hmem : item ∈ s.items.filterMap FlowItem.media? :=
        List.mem_filterMap.2 ⟨_, hitem, rfl⟩
      exact ⟨h.unique, h.bubble, h.codeBlock, h.media.obtainHolder (nodup_media h.unique) hmem⟩

theorem view_buildFlowItem (h : s.Shows) (hitem : item ∈ s.items) :
    (s.buildFlowItem item).2 = plainView item := by
  cases item with
  | textBubble item =>
      exact congrArg ItemView.bubble
        (h.bubble.view_obtainHolder (List.mem_filterMap.2 ⟨_, hitem, rfl⟩))
  | codeBlock item =>
      exact congrArg ItemView.codeBlock
        (h.codeBlock.view_obtainHolder (List.mem_filterMap.2 ⟨_, hitem, rfl⟩))
  | media item =>
      exact congrArg ItemView.media
        (h.media.view_obtainHolder (List.mem_filterMap.2 ⟨_, hitem, rfl⟩))

theorem step (h : s.Shows) {l : FlowStep} {t : FlowWidget} (hstep : s.Step l t)
    (hl : ∀ items, l = .update items → UniqueIds items) : t.Shows := by
  obtain ⟨-, hstep⟩ := hstep
  cases l with
  | update items => exact hstep ▸ shows_didUpdateWidget s (hl items rfl)
  | build item => exact hstep.2 ▸ h.buildFlowItem hstep.1
  | dispose => exact hstep ▸ ⟨h.unique, .closeAll _ _, .closeAll _ _, .closeAll _ _⟩

end Shows

theorem shows_of_run {items : List FlowItem} {ls : List FlowStep} {s : FlowWidget}
    (hrun : system.Run (ofItems items) ls s) (hitems : UniqueIds items)
    (hls : ∀ items', FlowStep.update items' ∈ ls → UniqueIds items') : s.Shows := by
  generalize hstart : ofItems items = s₀ at hrun
  induction hrun with
  | nil => exact hstart ▸ shows_ofItems hitems
  | snoc hrun hstep ih =>
      have hbefore := ih fun items' hmem => hls items' (List.mem_append_left _ hmem)
      apply hbefore.step hstep
      rintro items' rfl
      exact hls items' (List.mem_append_right _ List.mem_cons_self)

/-- Whichever items were built before, and when, an item is drawn through its cubit as from its own
snapshot. -/
theorem drawn_eq_plainView {items : List FlowItem} {ls : List FlowStep} {s : FlowWidget}
    (hrun : system.Run (ofItems items) ls s) (hitems : UniqueIds items)
    (hls : ∀ items', FlowStep.update items' ∈ ls → UniqueIds items') {item : FlowItem}
    (hitem : item ∈ s.items) : (s.buildFlowItem item).2 = plainView item :=
  (shows_of_run hrun hitems hls).view_buildFlowItem hitem

/-- A bubble is built, and then its text grows and a code block comes after it. -/
theorem drawn_eq_plainView_grown :
    ((((ofItems [typedBubble "a"]).buildFlowItem (typedBubble "a")).1.didUpdateWidget
      [typedBubble "ab", sharedCode "x"]).buildFlowItem (typedBubble "ab")).2 =
      plainView (typedBubble "ab") := by
  have hids : UniqueIds [typedBubble "ab", sharedCode "x"] := by
    rw [UniqueIds]
    decide
  have hrun : system.Run (ofItems [typedBubble "a"]) _ _ :=
    .snoc (.snoc (.nil _) (step_build rfl List.mem_cons_self))
      (step_update rfl [typedBubble "ab", sharedCode "x"])
  refine drawn_eq_plainView hrun (List.nodup_singleton _) (fun items' hmem => ?_) List.mem_cons_self
  rcases List.mem_cons.1 hmem with hbuild | hupdate
  · cases hbuild
  · cases List.mem_singleton.1 hupdate
    exact hids

end FlowWidget

end GcsChat
