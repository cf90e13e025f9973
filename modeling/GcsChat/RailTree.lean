import GcsChat.Grouping
import GcsChat.RailCubit

/-!
# Every room has one place in the rail

`setTree` joins the spaces and the rooms of a SpaceTree event. A room goes home to the space that it
names as its parent, if that space was pushed with it, and to the standalone rooms otherwise.
-/

namespace GcsChat

open ByteString Grouping

namespace RailCubit

/-- The id of the space that shows the room, or nothing for a standalone room. -/
def home (spaces : List SpaceRecord) (record : RoomRecord) : Option Bytes :=
  if record.parentSpaceId ≠ [] ∧ record.parentSpaceId ∈ spaces.map (·.id) then
    some record.parentSpaceId
  else none

def placements (s : RailState) : List (Option Bytes × RailRoom) :=
  (s.spaces.flatMap fun space => space.rooms.map fun room => (some space.id, room)) ++
    s.standaloneRooms.map fun room => (none, room)

structure ShowsTree (spaces : List SpaceRecord) (rooms : List RoomRecord) (s t : RailState) :
    Prop where
  once : (placements t).Perm (rooms.map fun record => (home spaces record, railRoom record))
  spaces_order : t.spaces.map (fun space =>
      (space.id, space.name, space.isPublic, space.autoJoinRooms)) =
    spaces.map fun record => (record.id, record.name, record.isPublic, record.autoJoinRooms)
  rooms_order : ∀ space ∈ t.spaces, space.rooms =
    (rooms.filter fun record => home spaces record = some space.id).map railRoom
  standalone_order : t.standaloneRooms =
    (rooms.filter fun record => home spaces record = none).map railRoom
  joined_rooms : t.rooms = s.rooms
  activeRoom : t.activeRoom = s.activeRoom

variable {spaces : List SpaceRecord}

theorem home_eq_some_iff {record : RoomRecord} {id : Bytes} (hid : id ∈ spaces.map (·.id)) :
    home spaces record = some id ↔ record.parentSpaceId ≠ [] ∧ record.parentSpaceId = id := by
  rw [home]
  split_ifs with hparent
  · rw [Option.some_inj]
    exact (and_iff_right hparent.1).symm
  · refine iff_of_false not_false ?_
    rintro ⟨hne, rfl⟩
    exact hparent ⟨hne, hid⟩

theorem home_eq_none_iff {record : RoomRecord} :
    home spaces record = none ↔
      record.parentSpaceId = [] ∨ record.parentSpaceId ∉ spaces.map (·.id) := by
  rw [home]
  split_ifs with hparent
  · refine iff_of_false not_false ?_
    exact not_or.2 ⟨hparent.1, not_not.2 hparent.2⟩
  · rw [not_and_or, not_not] at hparent
    exact iff_of_true rfl hparent

theorem home_notMem_iff {record : RoomRecord} :
    home spaces record ∉ spaces.map (fun space => some space.id) ↔ home spaces record = none := by
  rw [home]
  split_ifs with hparent
  · refine iff_of_false (not_not.2 ?_) not_false
    obtain ⟨space, hspace, hid⟩ := List.mem_map.1 hparent.2
    exact List.mem_map.2 ⟨space, hspace, congrArg some hid⟩
  · simp

theorem roomsOf_eq (rooms : List RoomRecord) {id : Bytes} (hid : id ∈ spaces.map (·.id)) :
    roomsOf rooms id = (group (home spaces) rooms (some id)).map railRoom := by
  rw [roomsOf, group]
  refine congrArg _ (List.filter_congr fun record _ => ?_)
  exact decide_eq_decide.2 (home_eq_some_iff hid).symm

theorem roomsOutside_eq (rooms : List RoomRecord) : roomsOutside spaces rooms =
    (rooms.filter fun record => home spaces record = none).map railRoom := by
  rw [roomsOutside]
  exact congrArg _ (List.filter_congr fun record _ => decide_eq_decide.2 home_eq_none_iff.symm)

theorem leftOver_home (rooms : List RoomRecord) :
    leftOver (home spaces) rooms (spaces.map fun space => some space.id) =
      rooms.filter fun record => home spaces record = none :=
  List.filter_congr fun _ _ => decide_eq_decide.2 home_notMem_iff

/-- The placements are the groups of the homes and what is left over. -/
theorem placements_setTree (s : RailState) (rooms : List RoomRecord) :
    placements (setTree s spaces rooms) =
      ((spaces.map fun space => some space.id).flatMap (group (home spaces) rooms) ++
        leftOver (home spaces) rooms (spaces.map fun space => some space.id)).map
          fun record => (home spaces record, railRoom record) := by
  rw [placements, setTree_spaces, setTree_standaloneRooms, roomsOutside_eq, ← leftOver_home,
    List.map_append, List.flatMap_map, List.flatMap_map, List.map_flatMap, List.map_map]
  congr 1
  · refine List.flatMap_congr fun space hspace => ?_
    rw [roomsOf_eq rooms (List.mem_map_of_mem hspace), List.map_map]
    refine List.map_congr_left fun record hrecord => ?_
    rw [Function.comp_apply, (mem_group.1 hrecord).2]
  · refine List.map_congr_left fun record hrecord => ?_
    rw [leftOver_home, List.mem_filter, decide_eq_true_eq] at hrecord
    rw [Function.comp_apply, hrecord.2]

/-- No room is lost and none is shown twice. -/
theorem setTree_showsTree (h : (spaces.map (·.id)).Nodup) (s : RailState)
    (rooms : List RoomRecord) : ShowsTree spaces rooms s (setTree s spaces rooms) where
  once := by
    have hkeys : (spaces.map fun space => some space.id).Nodup := by
      rw [← Function.comp_def some, ← List.map_map]
      exact h.map (Option.some_injective _)
    rw [placements_setTree]
    exact (flatMap_group_append_leftOver_perm hkeys).map _
  spaces_order := by
    rw [setTree_spaces, List.map_map]
    rfl
  rooms_order := by
    intro space hspace
    rw [setTree_spaces] at hspace
    obtain ⟨record, hrecord, rfl⟩ := List.mem_map.1 hspace
    exact roomsOf_eq rooms (List.mem_map_of_mem hrecord)
  standalone_order := by rw [setTree_standaloneRooms, roomsOutside_eq]
  joined_rooms := rfl
  activeRoom := rfl

def pushedSpace (id name : Bytes) : SpaceRecord := ⟨id, name, true, false, 0, 0, false, 0, []⟩

def pushedRoom (id name parentSpaceId : Bytes) : RoomRecord :=
  ⟨id, name, parentSpaceId, 0, 0, false, 0, []⟩

/-- Two rooms of one space, one whose space was not pushed, and one without a parent. -/
theorem setTree_shows_orphan_standalone :
    let ops := pushedSpace (ofString "space-1") (ofString "ops")
    let general := pushedRoom (ofString "room-1") (ofString "general") ops.id
    let orphan := pushedRoom (ofString "room-2") (ofString "orphan") (ofString "space-9")
    let lounge := pushedRoom (ofString "room-3") (ofString "lounge") []
    let alerts := pushedRoom (ofString "room-4") (ofString "alerts") ops.id
    let spaces := [pushedSpace (ofString "space-2") (ofString "empty"), ops]
    let rooms := [general, orphan, lounge, alerts]
    let tree := setTree .initial spaces rooms
    ShowsTree spaces rooms .initial tree ∧
      tree.spaces.map (·.rooms) = [[], [railRoom general, railRoom alerts]] ∧
      tree.standaloneRooms = [railRoom orphan, railRoom lounge] := by
  intro ops general orphan lounge alerts spaces rooms tree
  exact ⟨setTree_showsTree (by decide) .initial rooms, by decide, by decide⟩

end RailCubit

end GcsChat
