import GcsChat.CatalogFiles
import GcsChat.CatalogMirror
import GcsChat.RailMirror
import GcsChat.RailTree

/-!
# The rows of the rail

`RoomRail` draws a node for each space, with the rows of its rooms while it is expanded, and the
standalone rooms after them. A row can be tapped when its topic is in the room list. Whenever no
command is in progress, the rows are the rooms of the core's catalog, each of them once, and those
that can be tapped are the ones the core has joined.
-/

namespace GcsChat

open ByteString ProtoSchema Interactive

/-- Derived, never stored. -/
def RailRoom.topic (room : RailRoom) : Bytes := ofString "gcs/chat/" ++ room.id

structure RoomRow where
  space : Option Bytes
  room : RailRoom
  joined : Bool
  selected : Bool
  deriving DecidableEq

structure SpaceNode where
  space : RailSpace
  expanded : Bool
  rows : List RoomRow

inductive RailView
  | loading
  | empty
  | tree (nodes : List SpaceNode) (standalone : List RoomRow)

def RailView.rows : RailView → List RoomRow
  | tree nodes standalone => nodes.flatMap SpaceNode.rows ++ standalone
  | _ => []

namespace RoomRail

/-- The map of the widget: whether a space is expanded, for those that were toggled. -/
abbrev CollapsedSpaceIds := Bytes → Option Bool

def isExpanded (m : CollapsedSpaceIds) (spaceId : Bytes) : Bool := (m spaceId).getD true

def toggleExpanded (m : CollapsedSpaceIds) (spaceId : Bytes) : CollapsedSpaceIds :=
  Function.update m spaceId (some !isExpanded m spaceId)

/-- Spaces that are not in the tree any more are forgotten. -/
def prune (m : CollapsedSpaceIds) (rail : RailState) : CollapsedSpaceIds := fun id =>
  if id ∈ rail.spaces.map (·.id) then m id else none

def treeRoomRow (rail : RailState) (space : Option Bytes) (room : RailRoom) : RoomRow where
  space := space
  room := room
  joined := room.topic ∈ rail.rooms
  selected := rail.activeRoom = some room.topic

def spaceNode (rail : RailState) (m : CollapsedSpaceIds) (space : RailSpace) : SpaceNode where
  space := space
  expanded := isExpanded m space.id
  rows := if isExpanded m space.id then space.rooms.map (treeRoomRow rail (some space.id)) else []

/-- Nothing is pruned before the first tree or while the catalog is empty. -/
def build (rail : RailState) (m : CollapsedSpaceIds) : CollapsedSpaceIds × RailView :=
  if rail.treeReceived = false then (m, .loading)
  else if rail.spaces = [] ∧ rail.standaloneRooms = [] then (m, .empty)
  else
    let kept := prune m rail
    (kept, .tree (rail.spaces.map (spaceNode rail kept))
      (rail.standaloneRooms.map (treeRoomRow rail none)))

/-- A row that is not joined is disabled. -/
def tap (rail : RailState) (row : RoomRow) : RailState :=
  if row.joined then (RailCubit.selectRoom rail row.room.topic).getD rail else rail

/-- Whether the rows under the space are shown; standalone rooms always are. -/
def shown (m : CollapsedSpaceIds) : Option Bytes → Bool
  | none => true
  | some spaceId => isExpanded m spaceId

section Rows

variable {rail : RailState} {m : CollapsedSpaceIds}

theorem isExpanded_prune {space : RailSpace} (h : space ∈ rail.spaces) :
    isExpanded (prune m rail) space.id = isExpanded m space.id := by
  rw [isExpanded, prune, if_pos (List.mem_map_of_mem h)]
  rfl

/-- The rows are the placements of the tree, less those under spaces that are not expanded. -/
theorem rows_build (htree : rail.treeReceived = true) : (build rail m).2.rows =
    ((RailCubit.placements rail).filter fun p => shown m p.1).map
      fun p => treeRoomRow rail p.1 p.2 := by
  rw [build, if_neg (by simp [htree])]
  split
  · next hempty =>
      rw [RailCubit.placements, hempty.1, hempty.2]
      rfl
  · have hnode : ∀ space ∈ rail.spaces, (spaceNode rail (prune m rail) space).rows =
        ((space.rooms.map fun room => (some space.id, room)).filter fun p => shown m p.1).map
          fun p => treeRoomRow rail p.1 p.2 := by
      intro space hspace
      rw [spaceNode, isExpanded_prune hspace]
      cases hexpanded : isExpanded m space.id with
      | true =>
          have hall : (space.rooms.map fun room => (some space.id, room)).filter
              (fun p => shown m p.1) = space.rooms.map fun room => (some space.id, room) := by
            rw [List.filter_eq_self]
            intro p hp
            obtain ⟨room, -, rfl⟩ := List.mem_map.1 hp
            exact hexpanded
          rw [hall, List.map_map]
          rfl
      | false =>
          have hnone : (space.rooms.map fun room => (some space.id, room)).filter
              (fun p => shown m p.1) = [] := by
            rw [List.filter_eq_nil_iff]
            intro p hp
            obtain ⟨room, -, rfl⟩ := List.mem_map.1 hp
            exact ne_true_of_eq_false hexpanded
          rw [hnone]
          rfl
    have hstandalone : (rail.standaloneRooms.map fun room => ((none : Option Bytes), room)).filter
        (fun p => shown m p.1) = rail.standaloneRooms.map fun room => (none, room) := by
      rw [List.filter_eq_self]
      intro p hp
      obtain ⟨room, -, rfl⟩ := List.mem_map.1 hp
      rfl
    rw [RailCubit.placements, List.filter_append, List.map_append, hstandalone, List.map_map,
      List.filter_flatMap, List.map_flatMap]
    change (rail.spaces.map (spaceNode rail (prune m rail))).flatMap SpaceNode.rows ++
      rail.standaloneRooms.map (treeRoomRow rail none) = _
    rw [List.flatMap_map]
    exact congrArg (· ++ _) (List.flatMap_congr hnode)

theorem exists_of_mem_rows {row : RoomRow} (htree : rail.treeReceived = true)
    (h : row ∈ (build rail m).2.rows) : ∃ space room, row = treeRoomRow rail space room := by
  rw [rows_build htree] at h
  obtain ⟨p, -, rfl⟩ := List.mem_map.1 h
  exact ⟨p.1, p.2, rfl⟩

theorem activeRoom_tap (rail : RailState) (space : Option Bytes) (room : RailRoom) :
    (tap rail (treeRoomRow rail space room)).activeRoom =
      if room.topic ∈ rail.rooms then some room.topic else rail.activeRoom := by
  rw [tap]
  by_cases hjoined : room.topic ∈ rail.rooms
  · rw [if_pos hjoined, if_pos (show (treeRoomRow rail space room).joined = true from
      decide_eq_true hjoined)]
    by_cases hactive : rail.activeRoom = some room.topic
    · have hnone : RailCubit.selectRoom rail room.topic = none := if_pos (.inr hactive)
      exact (congrArg (fun t => (Option.getD t rail).activeRoom) hnone).trans hactive
    · have hsome : RailCubit.selectRoom rail room.topic =
          some { rail with activeRoom := some room.topic } :=
        if_neg (not_or.2 ⟨not_not.2 hjoined, hactive⟩)
      exact congrArg (fun t => (Option.getD t rail).activeRoom) hsome
  · rw [if_neg hjoined, if_neg (show ¬ (treeRoomRow rail space room).joined = true from
      fun h => hjoined (of_decide_eq_true h))]

end Rows

def rowOf (g : Globals) (activeRoom : Option Bytes) (record : RoomRecord) : RoomRow where
  space := RailCubit.home g.entities.spaces record
  room := RailCubit.railRoom record
  joined := kRoomTopicPrefix ++ record.id ∈ g.roomTopics
  selected := activeRoom = some (kRoomTopicPrefix ++ record.id)

/-- A rail that mirrors the core has a row for each room of the catalog. -/
theorem rows_perm_of_mirrors {rail : RailState} {g : Globals} (h : rail.Mirrors g)
    (htree : rail.treeReceived = true) (hids : (g.entities.spaces.map (·.id)).Nodup)
    (m : CollapsedSpaceIds) : (build rail m).2.rows.Perm
      ((g.entities.rooms.filter fun record =>
        shown m (RailCubit.home g.entities.spaces record)).map (rowOf g rail.activeRoom)) := by
  obtain ⟨⟨hrooms, -⟩, hspaces, hstandalone⟩ := h
  have hplacements : RailCubit.placements rail =
      RailCubit.placements (RailCubit.setTree rail g.entities.spaces g.entities.rooms) := by
    rw [RailCubit.placements, RailCubit.placements, hspaces, hstandalone,
      RailCubit.setTree_spaces, RailCubit.setTree_standaloneRooms]
  have honce := (RailCubit.setTree_showsTree hids rail g.entities.rooms).once
  have hrow : (rowOf g rail.activeRoom) = (fun p => treeRoomRow rail p.1 p.2) ∘
      fun record => (RailCubit.home g.entities.spaces record, RailCubit.railRoom record) := by
    funext record
    rw [Function.comp_apply, treeRoomRow, hrooms]
    rfl
  rw [rows_build htree, hplacements, hrow, ← List.map_map]
  refine ((honce.filter fun p => shown m p.1).map _).trans ?_
  rw [List.filter_map]
  exact List.Perm.refl _

end RoomRail

namespace RailState

theorem treeReceived_handle {s : RailState} (h : s.treeReceived = true) (input : RailInput) :
    (s.handle input).treeReceived = true := by
  cases input with
  | selectRoom roomTopic =>
      rcases s.selectRoom_cases roomTopic with hsame | ⟨-, hselected⟩
      · rw [hsame]
        exact h
      · rw [hselected]
        exact h
  | pushed event =>
      cases event with
      | roomList roomTopics =>
          rw [handle, RailCubit.setRooms]
          split
          · exact h
          · split_ifs <;> exact h
      | spaceTree space room => rfl
      | readiness ready => exact h
      | error message => exact h
      | message message => exact h
      | messageHistory history => exact h

theorem treeReceived_foldl (s : RailState) {inputs : List RailInput} {event : GcsEvent}
    (h : Snapshot.spaceTree.latest (inputs.filterMap RailInput.event) = some event) :
    (inputs.foldl handle s).treeReceived = true := by
  induction inputs using List.reverseRecOn with
  | nil => cases h
  | append_singleton inputs input ih =>
      rw [latest_snoc] at h
      rw [List.foldl_append, List.foldl_cons, List.foldl_nil]
      cases hread : input.event.bind Snapshot.spaceTree.read with
      | none =>
          rw [hread, Option.none_or] at h
          exact treeReceived_handle (ih h) input
      | some event =>
          cases input with
          | selectRoom roomTopic => cases hread
          | pushed event =>
              cases event with
              | spaceTree space room => rfl
              | roomList roomTopics => cases hread
              | readiness ready => cases hread
              | error message => cases hread
              | message message => cases hread
              | messageHistory history => cases hread

end RailState

open FfiProcess

/-- Whenever no command is in progress after an accepted `gcs_subscribe`, and whichever spaces are
expanded, the rows are the rooms of the core's catalog, each under its space and once. A row that is
selected is joined, and a tap selects its room exactly when the core has joined its topic. -/
theorem rows_of_core {C : Core} {ι : Type} [DecidableEq ι] {p : (ffiSystem C ι).Path}
    (h : Subscribed p) (hquiet : (p.state p.length).NoCommand) (rail₀ : RailState)
    {inputs : List RailInput} (hdelivered : inputs.filterMap RailInput.event = pushed p p.length)
    (m : RoomRail.CollapsedSpaceIds) :
    let g := (p.state p.length).globals
    let rail := inputs.foldl RailState.handle rail₀
    (RoomRail.build rail m).2.rows.Perm ((g.entities.rooms.filter fun record =>
        RoomRail.shown m (RailCubit.home g.entities.spaces record)).map
          (RoomRail.rowOf g rail.activeRoom)) ∧
      ((RoomRail.build rail m).2.rows.map (·.room.id)).Nodup ∧
      ∀ row ∈ (RoomRail.build rail m).2.rows, (row.selected = true → row.joined = true) ∧
        (RoomRail.tap rail row).activeRoom =
          if row.room.topic ∈ g.roomTopics then some row.room.topic else rail.activeRoom := by
  intro g rail
  have hmirrors : rail.Mirrors g := rail_mirrors h hquiet rail₀ hdelivered
  have htree : rail.treeReceived = true := by
    have hlatest := h.latest_eq hquiet .spaceTree
    rw [← hdelivered] at hlatest
    exact RailState.treeReceived_foldl rail₀ hlatest
  have hfiled : g.entities.Filed := filed_of_reachable (p.reachable h.reachable le_rfl)
  have hrows := RoomRail.rows_perm_of_mirrors hmirrors htree hfiled.nodup_spaces m
  refine ⟨hrows, ?_, fun row hrow => ?_⟩
  · have hids := hrows.map (·.room.id)
    rw [List.map_map] at hids
    exact hids.nodup_iff.2 (hfiled.nodup_rooms.sublist (List.filter_sublist.map _))
  · obtain ⟨space, room, rfl⟩ := RoomRail.exists_of_mem_rows htree hrow
    constructor
    · intro hselected
      exact decide_eq_true (hmirrors.1.activeRoom _ (of_decide_eq_true hselected))
    · rw [RoomRail.activeRoom_tap, hmirrors.1.rooms]
      rfl

theorem ends_loadRecords_stored {α : Type} {V : α → Prop} (codec : MessageCodec α V) (idOf : α → Bytes)
    (keyPrefix : Bytes) {records : List α} (h : ∀ r ∈ records, V r) (m : OrderedMap Bytes α)
    (w : Globals) :
    ∃ tr, Ends serialWorld (EntityStore.loadRecords codec.parse idOf keyPrefix (records.map idOf) m) w tr
      (records.foldl (fun m r => m.emplace (idOf r) r) m) w := by
  induction records generalizing m with
  | nil => exact ⟨[], .nil _ _⟩
  | cons r rest ih =>
      obtain ⟨tr, hrest⟩ := ih (fun r' hr' => h r' (List.mem_cons_of_mem r hr')) (m.emplace (idOf r) r)
      have hparse : (some (codec.serialize r)).bind codec.parse = some r :=
        codec.parse_serialize r (h r List.mem_cons_self)
      refine ⟨_, ends_ask_iff.2 ⟨some (codec.serialize r), w, tr, rfl, ?_, rfl⟩⟩
      dsimp only [Interactive.bind]
      rw [hparse]
      exact hrest

def catalogOf (spaces : List SpaceRecord) (rooms : List RoomRecord) : EntityStore where
  mSpaces := spaces.foldl (fun m r => m.emplace r.id r) .empty
  mRooms := rooms.foldl (fun m r => m.emplace r.id r) .empty

theorem ends_loadFromStore_catalogOf (codecs : Codecs) {spaces : List SpaceRecord}
    {rooms : List RoomRecord} (hspaces : ∀ r ∈ spaces, spaceSchema.Valid r)
    (hrooms : ∀ r ∈ rooms, roomSchema.Valid r) (w : Globals) :
    ∃ tr, Ends serialWorld (EntityStore.loadFromStore codecs) w tr (catalogOf spaces rooms) w := by
  let manifest : EntityManifest := ⟨spaces.map (·.id), rooms.map (·.id), []⟩
  have hmanifest : (some (codecs.manifest.serialize manifest)).bind codecs.manifest.parse =
      some manifest := by
    refine codecs.manifest.parse_serialize _ (manifestSchema_valid_iff.2
      ⟨⟨List.forall_mem_map.2 fun r hr => ?_, List.forall_mem_map.2 fun r hr => ?_⟩,
        List.forall_mem_nil _⟩)
    · exact (spaceSchema_valid_iff.1 (hspaces r hr)).1.1
    · exact (roomSchema_valid_iff.1 (hrooms r hr)).1.1
  obtain ⟨tr, hloaded⟩ := ends_loadRecords_stored codecs.space (·.id) kSpacesKeyPrefix hspaces .empty w
  obtain ⟨tr', hloaded'⟩ := ends_loadRecords_stored codecs.room (·.id) kRoomsKeyPrefix hrooms .empty w
  refine ⟨_, ends_ask_iff.2 ⟨some (codecs.manifest.serialize manifest), w, tr ++ (tr' ++ []), rfl, ?_,
    rfl⟩⟩
  dsimp only [Interactive.bind]
  rw [hmanifest]
  exact Ends.bind hloaded (Ends.bind hloaded' (.nil _ _))

def workSpace : SpaceRecord := EntityStore.newSpace (ofString "space-1") (ofString "work") true false 0

def generalRoom : RoomRecord :=
  EntityStore.newRoom (ofString "room-1") (ofString "general") workSpace.id 0

def loungeRoom : RoomRecord := EntityStore.newRoom (ofString "room-2") (ofString "lounge") [] 0

def generalTopic : Bytes := kRoomTopicPrefix ++ generalRoom.id

/-- A session on a store with a space and two rooms, one of them in the space. -/
def workSession : FfiProcess ℕ :=
  (fresh ℕ true).stocked 1 (catalogOf [workSpace] [generalRoom, loungeRoom])

def generalSession : FfiProcess ℕ := workSession.joined generalTopic

theorem reachable_generalSession (M : Messaging) :
    (ffiSystem (protoCore M) ℕ).Reachable generalSession := by
  have hspaces : ∀ r ∈ [workSpace], spaceSchema.Valid r :=
    List.forall_mem_singleton.2 (valid_newSpace (validUtf8_ofString _) (validUtf8_ofString _) _ _
      isInt64_zero)
  have hrooms : ∀ r ∈ [generalRoom, loungeRoom], roomSchema.Valid r :=
    List.forall_mem_cons.2 ⟨valid_newRoom (validUtf8_ofString _) (validUtf8_ofString _)
      (validUtf8_ofString _) isInt64_zero, List.forall_mem_singleton.2 (valid_newRoom
        (validUtf8_ofString _) (validUtf8_ofString _) validUtf8_nil isInt64_zero)⟩
  obtain ⟨tr, hload⟩ := ends_loadFromStore_catalogOf (protoCore M).codecs hspaces hrooms .fresh
  have hstocked : Leads (protoCore M) (fresh ℕ true) workSession :=
    leads_stocked (i := 0) rfl rfl rfl rfl (fun _ hn => Bool.noConfusion hn) hload (by decide)
      fun _ _ _ => trivial
  have hvalid : (GcsCommand.joinTopic generalTopic).Valid :=
    (validUtf8_ofString _).append (validUtf8_ofString _)
  have hup : workSession.globals.session = some (⟨1, 1⟩ : Handle).address := rfl
  have hjoined : Leads (protoCore M) workSession generalSession :=
    leads_join (i := 0) rfl rfl hup (GcsCommand.parse_serialize hvalid) (by decide)
      (by decide) (by decide) (by decide)
  exact (hstocked.trans hjoined).reachable (TransitionSystem.Reachable.initial ⟨true, rfl⟩)

def generalInputs : List RailInput :=
  [.pushed (Core.buildSpaceTreeEvent generalSession.globals),
    .pushed (Core.buildRoomListEvent generalSession.globals), .selectRoom generalTopic,
    .pushed (.readiness true)]

def generalRow : RoomRow := ⟨some workSpace.id, RailCubit.railRoom generalRoom, true, true⟩

def loungeRow : RoomRow := ⟨none, RailCubit.railRoom loungeRoom, false, false⟩

/-- The room of the space is joined and selected, and the other room cannot be selected. -/
theorem rows_of_core_general :
    let rail := generalInputs.foldl RailState.handle .initial
    (RoomRail.build rail fun _ => none).2.rows.Perm [generalRow, loungeRow] ∧
      (RoomRail.tap rail loungeRow).activeRoom = some generalTopic := by
  intro rail
  let C := protoCore (Messaging.plaintext (ofString "self"))
  have hup : generalSession.globals.session ≠ none := nofun
  have hsubscribed : Subscribed (greetingPath generalSession C hup) :=
    subscribed_greetingPath (reachable_generalSession _) (fun _ => rfl) rfl rfl hup
  have hdelivered : generalInputs.filterMap RailInput.event =
      pushed (greetingPath generalSession C hup) 6 := rfl
  obtain ⟨hrows, -, htap⟩ := rows_of_core hsubscribed (noCommand_greetingPath C (fun _ => rfl) hup)
    .initial hdelivered fun _ => none
  have hcatalog : (generalSession.globals.entities.rooms.filter fun record => RoomRail.shown
      (fun _ => none) (RailCubit.home generalSession.globals.entities.spaces record)).map
        (RoomRail.rowOf generalSession.globals rail.activeRoom) = [generalRow, loungeRow] := by
    decide
  have hperm : (RoomRail.build rail fun _ => none).2.rows.Perm [generalRow, loungeRow] :=
    hcatalog ▸ hrows
  have hunjoined : loungeRow.room.topic ∉ generalSession.globals.roomTopics := by decide
  refine ⟨hperm, ?_⟩
  rw [(htap loungeRow (hperm.mem_iff.2 (List.mem_cons_of_mem _ List.mem_cons_self))).2]
  refine (if_neg hunjoined).trans ?_
  decide

end GcsChat
