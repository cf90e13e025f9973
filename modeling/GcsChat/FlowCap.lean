import GcsChat.KeyedWindow
import GcsChat.MessageFlow

/-!
# The cap of the message flow

`MessageFlowCubit` caps its list after every call. The capped list is the end of the list that is
never capped, until an upsert comes for a message that the cap has dropped: the cubit does not find
it, and shows it at the bottom of the flow.
-/

namespace GcsChat

open ByteString KeyedWindow

inductive FlowCall
  | append (item : ChatFlowItem)
  | upsert (item : ChatFlowItem)
  | replaceAll (items : List ChatFlowItem)
  | clear

namespace MessageFlow

def call (items : List ChatFlowItem) : FlowCall → List ChatFlowItem
  | .append item => append items item
  | .upsert item => upsert items item
  | .replaceAll items => replaceAll items
  | .clear => clear

def uncappedCall (items : List ChatFlowItem) : FlowCall → List ChatFlowItem
  | .append item => items ++ [item]
  | .upsert item => upsertOn ChatFlowItem.instanceId item items
  | .replaceAll items => items
  | .clear => []

def retained (initialItems : List ChatFlowItem) (calls : List FlowCall) : List ChatFlowItem :=
  calls.foldl call (cappedItems initialItems)

def uncapped (initialItems : List ChatFlowItem) (calls : List FlowCall) : List ChatFlowItem :=
  calls.foldl uncappedCall initialItems

def ids (items : List ChatFlowItem) : List Bytes := items.map ChatFlowItem.instanceId

/-- At every point of the calls the flow is the end of the uncapped list, and no upsert of a known
message moves a bubble. -/
def CapTransparent (initialItems : List ChatFlowItem) (calls : List FlowCall) : Prop :=
  (∀ before, before <+: calls →
    retained initialItems before = (uncapped initialItems before).rtake kMaxFlowItems) ∧
  ∀ before item, before ++ [.upsert item] <+: calls →
    item.instanceId ∈ ids (uncapped initialItems before) →
      ids (retained initialItems (before ++ [.upsert item])) = ids (retained initialItems before)

/-- No upsert is of a message that an entry dropped by the cap has, unless the flow shows its bubble
as it is. -/
def UpsertsShowable (initialItems : List ChatFlowItem) (calls : List FlowCall) : Prop :=
  ∀ before item, before ++ [.upsert item] <+: calls →
    Showable ChatFlowItem.instanceId kMaxFlowItems item (uncapped initialItems before)

theorem cappedItems_eq_rtake (items : List ChatFlowItem) :
    cappedItems items = items.rtake kMaxFlowItems := rfl

theorem replaceFirst_eq_upsertOn (item : ChatFlowItem) (items : List ChatFlowItem) :
    replaceFirst item items = upsertOn ChatFlowItem.instanceId item items := by
  induction items with
  | nil => rfl
  | cons existing rest ih => rw [replaceFirst, upsertOn, ih]

section Steps

variable {initialItems : List ChatFlowItem} {calls : List FlowCall} {l : FlowCall}

theorem retained_concat (initialItems : List ChatFlowItem) (calls : List FlowCall) (l : FlowCall) :
    retained initialItems (calls ++ [l]) = call (retained initialItems calls) l :=
  List.foldl_concat ..

theorem uncapped_concat (initialItems : List ChatFlowItem) (calls : List FlowCall) (l : FlowCall) :
    uncapped initialItems (calls ++ [l]) = uncappedCall (uncapped initialItems calls) l :=
  List.foldl_concat ..

theorem upsert_rtake_iff (item : ChatFlowItem) (items : List ChatFlowItem) :
    upsert (items.rtake kMaxFlowItems) item =
        (uncappedCall items (.upsert item)).rtake kMaxFlowItems ↔
      Showable ChatFlowItem.instanceId kMaxFlowItems item items := by
  rw [upsert, replaceFirst_eq_upsertOn, cappedItems_eq_rtake]
  exact rtake_upsertOn_rtake_iff (Nat.zero_lt_succ _)

/-- One call keeps the flow at the end of the uncapped list, unless it is an upsert that cannot be
shown. -/
theorem call_rtake (items : List ChatFlowItem) (l : FlowCall)
    (h : ∀ item, l = .upsert item →
      Showable ChatFlowItem.instanceId kMaxFlowItems item items) :
    call (items.rtake kMaxFlowItems) l = (uncappedCall items l).rtake kMaxFlowItems := by
  cases l with
  | append item => exact rtake_rtake_append items [item] kMaxFlowItems
  | upsert item => exact (upsert_rtake_iff item items).2 (h item rfl)
  | replaceAll items => rfl
  | clear => rfl

theorem UpsertsShowable.retained_eq (h : UpsertsShowable initialItems calls) :
    retained initialItems calls = (uncapped initialItems calls).rtake kMaxFlowItems := by
  induction calls using List.reverseRecOn with
  | nil => rw [retained, uncapped, List.foldl_nil, List.foldl_nil, cappedItems_eq_rtake]
  | append_singleton calls l ih =>
      have hbefore : UpsertsShowable initialItems calls := fun before item hupsert =>
        h before item (hupsert.trans (List.prefix_append _ _))
      rw [retained_concat, ih hbefore, uncapped_concat]
      apply call_rtake
      rintro item rfl
      exact h calls item List.prefix_rfl

theorem ids_upsert_rtake {item : ChatFlowItem} {items : List ChatFlowItem}
    (hshow : Showable ChatFlowItem.instanceId kMaxFlowItems item items)
    (hknown : item.instanceId ∈ ids items) :
    ids (upsert (items.rtake kMaxFlowItems) item) = ids (items.rtake kMaxFlowItems) := by
  have hretained : item.instanceId ∈ ids (items.rtake kMaxFlowItems) := by
    rcases hshow with hkept | hshown
    · rw [← rdrop_append_rtake items kMaxFlowItems, ids, List.map_append] at hknown
      exact (List.mem_append.1 hknown).resolve_left hkept
    · exact List.mem_map_of_mem (List.mem_of_find?_eq_some hshown)
  have hshort : (upsertOn ChatFlowItem.instanceId item (items.rtake kMaxFlowItems)).length ≤
      kMaxFlowItems := by
    rw [length_upsertOn hretained, length_rtake]
    exact Nat.min_le_left _ _
  rw [upsert, replaceFirst_eq_upsertOn, cappedItems_eq_rtake, rtake_of_length_le hshort]
  exact map_key_upsertOn hretained

end Steps

/-- The cap is transparent to a sequence of calls exactly when each of its upserts is of a message
that no dropped entry has, or of a bubble that the flow shows as it is. -/
theorem capTransparent_iff_upsertsShowable (initialItems : List ChatFlowItem)
    (calls : List FlowCall) :
    CapTransparent initialItems calls ↔ UpsertsShowable initialItems calls := by
  constructor
  · rintro ⟨hlast, -⟩ before item hupsert
    have hbefore := hlast before ((List.prefix_append _ _).trans hupsert)
    have hafter := hlast _ hupsert
    rw [retained_concat, hbefore, uncapped_concat] at hafter
    exact (upsert_rtake_iff item _).1 hafter
  · intro h
    have hlast : ∀ before, before <+: calls →
        retained initialItems before = (uncapped initialItems before).rtake kMaxFlowItems :=
      fun before hbefore => UpsertsShowable.retained_eq fun earlier item hearlier =>
        h earlier item (hearlier.trans hbefore)
    refine ⟨hlast, fun before item hupsert hknown => ?_⟩
    rw [retained_concat, hlast before ((List.prefix_append _ _).trans hupsert)]
    exact ids_upsert_rtake (h before item hupsert) hknown

section Counterexample

/-- The bubble of message number `n`, whose id is `n` letters longer than the first one's. -/
def numberedBubble (state : MessageState) (n : ℕ) : ChatFlowItem :=
  buildChatFlowItemTextBubble (ofString "gcs/chat/room-0-0-0")
    { id := ofString "msg-" ++ List.replicate n 49
      roomTopic := ofString "gcs/chat/room-0-0-0"
      role := .userSelf
      state := state
      text := ofString "hi"
      timestamp := n
      sender := []
      deleted := false
      deletedAtMs := 0
      unknownFields := [] }

def newerBubbles : List ChatFlowItem :=
  (List.range kMaxFlowItems).map fun n => numberedBubble .complete (n + 1)

def longHistory : List ChatFlowItem := numberedBubble .pending 0 :: newerBubbles

/-- The history of the room, and then the first message is complete. -/
def lateCompletion : List FlowCall :=
  [.replaceAll longHistory, .upsert (numberedBubble .complete 0)]

theorem rtake_longHistory : longHistory.rtake kMaxFlowItems = newerBubbles := by
  have hlength : newerBubbles.length = kMaxFlowItems := by
    rw [newerBubbles, List.length_map, List.length_range]
  rw [longHistory, ← List.singleton_append, rtake_append_of_le_length _ hlength.ge,
    rtake_of_length_le hlength.le]

theorem first_notMem_newerBubbles :
    (numberedBubble .complete 0).instanceId ∉ ids newerBubbles := by
  intro hmem
  obtain ⟨item, hitem, hid⟩ := List.mem_map.1 hmem
  obtain ⟨n, -, rfl⟩ := List.mem_map.1 hitem
  have hlength := congrArg List.length hid
  simp [numberedBubble, buildChatFlowItemTextBubble] at hlength

theorem first_not_showable :
    ¬ Showable ChatFlowItem.instanceId kMaxFlowItems (numberedBubble .complete 0) longHistory := by
  rintro (hkept | hshown)
  · apply hkept
    have hknown : (numberedBubble .complete 0).instanceId ∈ ids longHistory := List.mem_cons_self
    rw [← rdrop_append_rtake longHistory kMaxFlowItems, ids, List.map_append] at hknown
    apply (List.mem_append.1 hknown).resolve_right
    rw [rtake_longHistory]
    exact first_notMem_newerBubbles
  · rw [rtake_longHistory] at hshown
    exact first_notMem_newerBubbles (List.mem_map_of_mem (List.mem_of_find?_eq_some hshown))

theorem retained_lateCompletion : retained [] lateCompletion =
    upsert (longHistory.rtake kMaxFlowItems) (numberedBubble .complete 0) := by
  rw [lateCompletion, retained, List.foldl_cons, List.foldl_cons, List.foldl_nil]
  simp only [call, replaceAll, cappedItems_eq_rtake]

theorem uncapped_lateCompletion : uncapped [] lateCompletion =
    uncappedCall longHistory (.upsert (numberedBubble .complete 0)) := by
  rw [lateCompletion, uncapped, List.foldl_cons, List.foldl_cons, List.foldl_nil]
  simp only [uncappedCall]

/-- The first of 501 messages completes late, and its bubble goes to the bottom of the flow. -/
theorem late_completion_moves_to_bottom :
    ¬ CapTransparent [] lateCompletion ∧
      (retained [] lateCompletion).getLast? = some (numberedBubble .complete 0) := by
  constructor
  · rintro ⟨hlast, -⟩
    have hafter := hlast lateCompletion List.prefix_rfl
    rw [retained_lateCompletion, uncapped_lateCompletion] at hafter
    exact first_not_showable ((upsert_rtake_iff _ longHistory).1 hafter)
  · rw [retained_lateCompletion, rtake_longHistory, upsert, replaceFirst_eq_upsertOn,
      upsertOn_of_new first_notMem_newerBubbles, cappedItems_eq_rtake,
      show kMaxFlowItems = 499 + 1 from rfl, List.rtake_concat_succ, List.getLast?_concat]

end Counterexample

end MessageFlow

end GcsChat
