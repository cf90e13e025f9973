import GcsChat.RailCubit
import GcsChat.TransitionSystem

/-!
# The message flow of the shell

`SessionCubit` dispatches the pushed events, lets only those of the active room through to the flow,
and clears the flow when it hears from the rail that another room is active. It does not clear it
when the rail has no active room any more, so a RoomList that drops the active room leaves its
messages on the screen.
-/

namespace GcsChat

open ByteString

def kMaxFlowItems : ℕ := 500

/-- A bubble of the flow, with the room of the event it was built from. -/
structure ChatFlowItem where
  instanceId : Bytes
  message : ChatMessageState
  origin : Bytes
  deriving DecidableEq

namespace MessageFlow

/-- The oldest entries go first. -/
def cappedItems (items : List ChatFlowItem) : List ChatFlowItem :=
  items.drop (items.length - kMaxFlowItems)

def buildChatFlowItemTextBubble (origin : Bytes) (message : ChatMessageState) : ChatFlowItem :=
  ⟨message.id, message, origin⟩

def replaceFirst (item : ChatFlowItem) : List ChatFlowItem → List ChatFlowItem
  | [] => [item]
  | existing :: rest =>
      if existing.instanceId = item.instanceId then item :: rest
      else existing :: replaceFirst item rest

def append (items : List ChatFlowItem) (item : ChatFlowItem) : List ChatFlowItem :=
  cappedItems (items ++ [item])

def upsert (items : List ChatFlowItem) (item : ChatFlowItem) : List ChatFlowItem :=
  cappedItems (replaceFirst item items)

def replaceAll (items : List ChatFlowItem) : List ChatFlowItem := cappedItems items

def clear : List ChatFlowItem := cappedItems []

theorem mem_of_mem_cappedItems {items : List ChatFlowItem} {item : ChatFlowItem}
    (h : item ∈ cappedItems items) : item ∈ items := List.mem_of_mem_drop h

theorem mem_of_mem_replaceFirst {items : List ChatFlowItem} {item x : ChatFlowItem}
    (h : x ∈ replaceFirst item items) : x = item ∨ x ∈ items := by
  induction items with
  | nil =>
      rw [replaceFirst, List.mem_singleton] at h
      exact .inl h
  | cons existing rest ih =>
      rw [replaceFirst] at h
      split_ifs at h
      · exact (List.mem_cons.1 h).imp_right (List.mem_cons_of_mem _)
      · rcases List.mem_cons.1 h with rfl | hrest
        · exact .inr List.mem_cons_self
        · exact (ih hrest).imp_right (List.mem_cons_of_mem _)

theorem mem_of_mem_upsert {items : List ChatFlowItem} {item x : ChatFlowItem}
    (h : x ∈ upsert items item) : x = item ∨ x ∈ items :=
  mem_of_mem_replaceFirst (mem_of_mem_cappedItems h)

end MessageFlow

/-- The session, the rail and the flow, and the rooms whose `join_topic` the session has asked
for. -/
structure ShellState where
  rail : RailState
  lastSeenActiveRoom : Option Bytes
  flow : List ChatFlowItem
  isReady : Bool
  error : Option Bytes
  joins : List Bytes

namespace SessionCubit

def onRailStateChanged (s : ShellState) : ShellState :=
  match s.rail.activeRoom with
  | none => { s with lastSeenActiveRoom := none }
  | some activeRoom =>
      if some activeRoom = s.lastSeenActiveRoom then s
      else { s with
        lastSeenActiveRoom := some activeRoom
        flow := MessageFlow.clear
        joins := s.joins ++ [activeRoom] }

def dispatchEvent (s : ShellState) : GcsEvent → ShellState
  | .spaceTree space room =>
      onRailStateChanged { s with rail := RailCubit.setTree s.rail space room }
  | .roomList roomTopic =>
      onRailStateChanged { s with rail := RailCubit.setRooms s.rail roomTopic }
  | .readiness ready => { s with isReady := ready }
  | .message message =>
      let bubble := MessageFlow.buildChatFlowItemTextBubble message.roomTopic message
      if s.rail.activeRoom = some message.roomTopic then
        { s with flow := MessageFlow.upsert s.flow bubble }
      else s
  | .messageHistory history =>
      let bubbles := history.message.map
        (MessageFlow.buildChatFlowItemTextBubble history.roomTopic)
      if s.rail.activeRoom = some history.roomTopic then
        { s with flow := MessageFlow.replaceAll bubbles }
      else s
  | .error message => { s with error := some message }

end SessionCubit

/-- A pushed event, or the text of the exception its bytes raise, or a tap on a room. -/
inductive ShellStep
  | pushed (event : Except Bytes GcsEvent)
  | selectRoom (roomTopic : Bytes)

namespace ShellState

def handle (s : ShellState) : ShellStep → ShellState
  | .pushed (.ok event) => SessionCubit.dispatchEvent s event
  | .pushed (.error text) => { s with error := some text }
  | .selectRoom roomTopic =>
      match RailCubit.selectRoom s.rail roomTopic with
      | none => s
      | some rail => SessionCubit.onRailStateChanged { s with rail := rail }

def Starts (s : ShellState) : Prop :=
  s.flow = [] ∧ s.rail.activeRoom = none ∧ s.lastSeenActiveRoom = none

/-- The shell with any sequence of pushed events and selections, each heard by the session before
the next. -/
def system : TransitionSystem ShellState ShellStep where
  initial := Starts
  step s l t := s.handle l = t

/-- What the flow shows was built from events of the active room, and without one it is empty. -/
def ShowsActiveRoom (s : ShellState) : Prop :=
  (∀ item ∈ s.flow, s.rail.activeRoom = some item.origin) ∧
    (s.rail.activeRoom = none → s.flow = [])

/-- A RoomList without the active room, while its messages are shown. -/
def DropsShownRoom (s : ShellState) (l : ShellStep) : Prop :=
  ∃ roomTopics activeRoom, l = .pushed (.ok (.roomList roomTopics)) ∧
    s.rail.activeRoom = some activeRoom ∧ activeRoom ∉ roomTopics ∧ s.flow ≠ []

def Heard (s : ShellState) : Prop := s.lastSeenActiveRoom = s.rail.activeRoom

variable {s : ShellState}

theorem showsActiveRoom_iff : s.ShowsActiveRoom ↔
    ∀ item ∈ s.flow, s.rail.activeRoom = some item.origin := by
  refine ⟨And.left, fun h => ⟨h, fun hnone => ?_⟩⟩
  apply List.eq_nil_iff_forall_not_mem.2
  intro item hitem
  exact Option.some_ne_none _ ((h item hitem).symm.trans hnone)

theorem heard_onRailStateChanged (s : ShellState) :
    (SessionCubit.onRailStateChanged s).Heard ∧
      (SessionCubit.onRailStateChanged s).rail = s.rail := by
  rw [SessionCubit.onRailStateChanged]
  cases hactive : s.rail.activeRoom with
  | none => exact ⟨hactive.symm, rfl⟩
  | some activeRoom =>
      by_cases hsame : some activeRoom = s.lastSeenActiveRoom
      · simp only [if_pos hsame]
        exact ⟨hsame.symm.trans hactive.symm, trivial⟩
      · simp only [if_neg hsame]
        exact ⟨hactive.symm, trivial⟩

theorem Heard.handle (h : s.Heard) (l : ShellStep) : (s.handle l).Heard := by
  cases l with
  | selectRoom roomTopic =>
      rw [ShellState.handle]
      split
      · exact h
      · exact (heard_onRailStateChanged _).1
  | pushed event =>
      cases event with
      | error text => exact h
      | ok event =>
          cases event with
          | spaceTree space room => exact (heard_onRailStateChanged _).1
          | roomList roomTopic => exact (heard_onRailStateChanged _).1
          | readiness ready => exact h
          | error message => exact h
          | message message =>
              simp only [ShellState.handle, SessionCubit.dispatchEvent]
              split_ifs
              · rw [Heard] at h ⊢
                exact h
              · exact h
          | messageHistory history =>
              simp only [ShellState.handle, SessionCubit.dispatchEvent]
              split_ifs
              · rw [Heard] at h ⊢
                exact h
              · exact h

/-- After the listener has heard of a selection, only items of the active room are left. -/
theorem origin_of_onRailStateChanged (hheard : s.lastSeenActiveRoom = none ∨
      ∃ activeRoom, s.lastSeenActiveRoom = some activeRoom ∧
        ∀ item ∈ s.flow, item.origin = activeRoom) (hactive : s.rail.activeRoom ≠ none) :
    ∀ item ∈ (SessionCubit.onRailStateChanged s).flow, s.rail.activeRoom = some item.origin := by
  obtain ⟨activeRoom, hactive⟩ := Option.ne_none_iff_exists'.1 hactive
  rw [SessionCubit.onRailStateChanged, hactive]
  by_cases hsame : some activeRoom = s.lastSeenActiveRoom
  · simp only [if_pos hsame]
    intro item hitem
    rcases hheard with hnone | ⟨seen, hseen, horigin⟩
    · exact absurd (hsame.trans hnone) nofun
    · rw [horigin item hitem, hsame, hseen]
  · simp only [if_neg hsame]
    exact List.forall_mem_nil _

theorem showsActiveRoom_handle_iff (hheard : s.Heard) (h : s.ShowsActiveRoom) (l : ShellStep) :
    (s.handle l).ShowsActiveRoom ↔ ¬ s.DropsShownRoom l := by
  rw [showsActiveRoom_iff] at h
  have hseen : s.lastSeenActiveRoom = none ∨ ∃ activeRoom,
      s.lastSeenActiveRoom = some activeRoom ∧ ∀ item ∈ s.flow, item.origin = activeRoom := by
    rw [hheard]
    cases hactive : s.rail.activeRoom with
    | none => exact .inl rfl
    | some activeRoom =>
        exact .inr ⟨activeRoom, rfl, fun item hitem =>
          Option.some.inj ((h item hitem).symm.trans hactive)⟩
  have hlisten : ∀ rail : RailState, rail.activeRoom ≠ none →
      (SessionCubit.onRailStateChanged { s with rail := rail }).ShowsActiveRoom := by
    intro rail hrail
    rw [showsActiveRoom_iff, (heard_onRailStateChanged _).2]
    exact origin_of_onRailStateChanged hseen hrail
  have hquiet : ∀ rail : RailState, rail.activeRoom = none →
      ((SessionCubit.onRailStateChanged { s with rail := rail }).ShowsActiveRoom ↔ s.flow = []) := by
    intro rail hrail
    simp only [ShowsActiveRoom, SessionCubit.onRailStateChanged, hrail, forall_const]
    refine ⟨And.right, fun hnil => ⟨?_, hnil⟩⟩
    rw [hnil]
    exact List.forall_mem_nil _
  cases l with
  | selectRoom roomTopic =>
      refine iff_of_true ?_ nofun
      rw [ShellState.handle]
      split
      · exact showsActiveRoom_iff.2 h
      · next rail hrail =>
          obtain ⟨-, -, rfl⟩ := RailCubit.selectRoom_eq_some hrail
          exact hlisten _ nofun
  | pushed event =>
      cases event with
      | error text => exact iff_of_true (showsActiveRoom_iff.2 h) nofun
      | ok event =>
          cases event with
          | readiness ready => exact iff_of_true (showsActiveRoom_iff.2 h) nofun
          | error message => exact iff_of_true (showsActiveRoom_iff.2 h) nofun
          | spaceTree space room =>
              refine iff_of_true ?_ nofun
              by_cases hactive : s.rail.activeRoom = none
              · exact (hquiet (RailCubit.setTree s.rail space room) hactive).2
                  ((showsActiveRoom_iff.2 h).2 hactive)
              · exact hlisten (RailCubit.setTree s.rail space room) hactive
          | roomList roomTopics =>
              have hrail := RailCubit.setRooms_activeRoom s.rail roomTopics
              cases hactive : s.rail.activeRoom with
              | none =>
                  rw [hactive] at hrail
                  refine iff_of_true ((hquiet _ hrail).2 ((showsActiveRoom_iff.2 h).2 hactive)) ?_
                  rintro ⟨_, _, -, hsome, -⟩
                  exact absurd (hactive.symm.trans hsome) nofun
              | some activeRoom =>
                  rw [hactive] at hrail
                  by_cases hmem : activeRoom ∈ roomTopics
                  · have hkept : (RailCubit.setRooms s.rail roomTopics).activeRoom ≠ none := by
                      simp [hrail, Option.filter, hmem]
                    refine iff_of_true (hlisten _ hkept) ?_
                    rintro ⟨_, _, heq, hsome, hnot, -⟩
                    cases heq
                    exact hnot (Option.some.inj (hactive.symm.trans hsome) ▸ hmem)
                  · have hdropped : (RailCubit.setRooms s.rail roomTopics).activeRoom = none := by
                      simp [hrail, Option.filter, hmem]
                    refine (hquiet _ hdropped).trans ⟨?_, fun hnot => ?_⟩
                    · rintro hnil ⟨_, _, -, -, -, hne⟩
                      exact hne hnil
                    · by_contra hne
                      exact hnot ⟨roomTopics, activeRoom, rfl, hactive, hmem, hne⟩
          | message message =>
              refine iff_of_true ?_ nofun
              simp only [ShellState.handle, SessionCubit.dispatchEvent]
              split_ifs with hactive
              · rw [showsActiveRoom_iff]
                dsimp only
                intro item hitem
                rcases MessageFlow.mem_of_mem_upsert hitem with rfl | hold
                · exact hactive
                · exact h item hold
              · exact showsActiveRoom_iff.2 h
          | messageHistory history =>
              refine iff_of_true ?_ nofun
              simp only [ShellState.handle, SessionCubit.dispatchEvent]
              split_ifs with hactive
              · rw [showsActiveRoom_iff]
                dsimp only
                intro item hitem
                obtain ⟨message, -, rfl⟩ :=
                  List.mem_map.1 (MessageFlow.mem_of_mem_cappedItems hitem)
                exact hactive
              · exact showsActiveRoom_iff.2 h

/-- Along a run from an empty flow without a selection, the flow always belongs to the active room
exactly when no RoomList of the run drops the active room while its messages are shown. -/
theorem showsActiveRoom_path_iff (p : system.Path) (hstart : (p.state 0).Starts) :
    (∀ i ≤ p.length, (p.state i).ShowsActiveRoom) ↔
      ∀ i < p.length, ¬ (p.state i).DropsShownRoom (p.label i) := by
  have hnext : ∀ i < p.length, p.state (i + 1) = (p.state i).handle (p.label i) :=
    fun i hi => (p.step i hi).symm
  have hheard : ∀ i ≤ p.length, (p.state i).Heard := by
    intro i
    induction i with
    | zero => exact fun _ => hstart.2.2.trans hstart.2.1.symm
    | succ i ih =>
        intro hi
        rw [hnext i hi]
        exact (ih (Nat.le_of_succ_le hi)).handle _
  constructor
  · intro h i hi
    apply (showsActiveRoom_handle_iff (hheard i hi.le) (h i hi.le) _).1
    rw [← hnext i hi]
    exact h (i + 1) hi
  · intro h i
    induction i with
    | zero =>
        intro _
        refine showsActiveRoom_iff.2 ?_
        rw [hstart.1]
        exact List.forall_mem_nil _
    | succ i ih =>
        intro hi
        have hle := Nat.le_of_succ_le hi
        rw [hnext i hi]
        exact (showsActiveRoom_handle_iff (hheard i hle) (ih hle) _).2 (h i hi)

def started : ShellState := ⟨.initial, none, [], false, none, []⟩

def shownMessage : ChatMessageState where
  id := ofString "msg"
  roomTopic := ofString "gcs/chat/a"
  role := .userPeer
  state := .complete
  text := []
  timestamp := 0
  sender := []
  deleted := false
  deletedAtMs := 0
  unknownFields := []

def shownRoom : system.Path :=
  ((TransitionSystem.Path.single (S := system) (s := started)
    (l := .pushed (.ok (.roomList [ofString "gcs/chat/a"]))) rfl).snoc
    (l := .selectRoom (ofString "gcs/chat/a")) rfl).snoc
    (l := .pushed (.ok (.message shownMessage))) rfl

theorem showsActiveRoom_shownRoom :
    (shownRoom.state 0).Starts ∧ ∀ i ≤ shownRoom.length, (shownRoom.state i).ShowsActiveRoom := by
  refine ⟨⟨rfl, rfl, rfl⟩, (showsActiveRoom_path_iff shownRoom ⟨rfl, rfl, rfl⟩).2 fun i hi => ?_⟩
  have hi : i < 3 := hi
  rintro ⟨roomTopics, activeRoom, hlabel, hactive, -, -⟩
  interval_cases i
  · exact absurd hactive nofun
  all_goals cases hlabel

/-- A RoomList without the room leaves its message in the flow. -/
theorem not_showsActiveRoom : ¬ ∀ s, system.Reachable s → s.ShowsActiveRoom := by
  intro h
  have hshown : system.Reachable (shownRoom.state 3) :=
    shownRoom.reachable (.initial ⟨rfl, rfl, rfl⟩) le_rfl
  have hleft := h _ (hshown.step (l := .pushed (.ok (.roomList []))) rfl)
  exact List.cons_ne_nil _ _ (hleft.2 rfl)

end ShellState

end GcsChat
