import GcsChat.Records

/-!
# The rail of the shell

`RailCubit` holds what the last RoomList and the last SpaceTree event said, and the selection. It
never adds anything of its own: `setRooms` and `setTree` replace, `selectRoom` chooses among the
rooms that were pushed.
-/

namespace GcsChat

open ByteString

structure RailRoom where
  id : Bytes
  name : Bytes
  deriving DecidableEq

structure RailSpace where
  id : Bytes
  name : Bytes
  isPublic : Bool
  autoJoinRooms : Bool
  rooms : List RailRoom
  deriving DecidableEq

structure RailState where
  rooms : List Bytes
  activeRoom : Option Bytes
  spaces : List RailSpace
  standaloneRooms : List RailRoom
  treeReceived : Bool
  deriving DecidableEq

def RailState.initial : RailState := ⟨[], none, [], [], false⟩

namespace RailCubit

/-- A selection that is no longer in the list is cleared. -/
def setRooms (s : RailState) (rooms : List Bytes) : RailState :=
  match s.activeRoom with
  | none => { s with rooms := rooms }
  | some active =>
      if active ∈ rooms then { s with rooms := rooms }
      else { s with rooms := rooms, activeRoom := none }

/-- Topics outside the list and the active room itself are ignored, and nothing is emitted. -/
def selectRoom (s : RailState) (roomTopic : Bytes) : Option RailState :=
  if roomTopic ∉ s.rooms ∨ s.activeRoom = some roomTopic then none
  else some { s with activeRoom := some roomTopic }

/-- The rooms placed so far: those grouped under the id of a space, and the standalone ones. -/
structure Placed where
  grouped : Bytes → Option (List RailRoom)
  standalone : List RailRoom

/-- A room goes to the space of its parent id, and is standalone without one. -/
def Placed.add (p : Placed) (record : RoomRecord) : Placed :=
  let room : RailRoom := ⟨record.id, record.name⟩
  match p.grouped record.parentSpaceId with
  | none => { p with standalone := p.standalone ++ [room] }
  | some siblings =>
      if record.parentSpaceId = [] then { p with standalone := p.standalone ++ [room] }
      else { p with grouped :=
        Function.update p.grouped record.parentSpaceId (some (siblings ++ [room])) }

def emptyGroups (spaces : List SpaceRecord) : Bytes → Option (List RailRoom) :=
  spaces.foldl (fun grouped record => Function.update grouped record.id (some [])) fun _ => none

def setTree (s : RailState) (spaces : List SpaceRecord) (rooms : List RoomRecord) : RailState :=
  let placed := rooms.foldl Placed.add ⟨emptyGroups spaces, []⟩
  { s with
    spaces := spaces.map fun record => ⟨record.id, record.name, record.isPublic,
      record.autoJoinRooms, (placed.grouped record.id).getD []⟩
    standaloneRooms := placed.standalone
    treeReceived := true }

@[simp] theorem setRooms_rooms (s : RailState) (rooms : List Bytes) :
    (setRooms s rooms).rooms = rooms := by
  rw [setRooms]
  split
  · rfl
  · split_ifs <;> rfl

theorem setRooms_activeRoom (s : RailState) (rooms : List Bytes) :
    (setRooms s rooms).activeRoom = s.activeRoom.filter (· ∈ rooms) := by
  rw [setRooms]
  cases hactive : s.activeRoom with
  | none => rfl
  | some active =>
      by_cases hmem : active ∈ rooms
      · simp [Option.filter, hmem]
      · simp [Option.filter, hmem]

@[simp] theorem setTree_rooms (s : RailState) (spaces : List SpaceRecord) (rooms : List RoomRecord) :
    (setTree s spaces rooms).rooms = s.rooms := rfl

@[simp] theorem setTree_activeRoom (s : RailState) (spaces : List SpaceRecord)
    (rooms : List RoomRecord) : (setTree s spaces rooms).activeRoom = s.activeRoom := rfl

theorem selectRoom_eq_some {s t : RailState} {roomTopic : Bytes}
    (h : selectRoom s roomTopic = some t) :
    roomTopic ∈ s.rooms ∧ s.activeRoom ≠ some roomTopic ∧
      t = { s with activeRoom := some roomTopic } := by
  rw [selectRoom] at h
  split_ifs at h with hignored
  rw [not_or, not_not] at hignored
  exact ⟨hignored.1, hignored.2, (Option.some.inj h).symm⟩

def railRoom (record : RoomRecord) : RailRoom := ⟨record.id, record.name⟩

/-- The rooms that name the space as their parent, in the order of the catalog. -/
def roomsOf (rooms : List RoomRecord) (spaceId : Bytes) : List RailRoom :=
  (rooms.filter fun record => record.parentSpaceId ≠ [] ∧ record.parentSpaceId = spaceId).map railRoom

/-- The rooms without a parent, or whose parent is not among the spaces. -/
def roomsOutside (spaces : List SpaceRecord) (rooms : List RoomRecord) : List RailRoom :=
  (rooms.filter fun record => record.parentSpaceId = [] ∨
    record.parentSpaceId ∉ spaces.map (·.id)).map railRoom

theorem emptyGroups_eq (spaces : List SpaceRecord) (id : Bytes) :
    emptyGroups spaces id = if id ∈ spaces.map (·.id) then some [] else none := by
  induction spaces using List.reverseRecOn with
  | nil => rfl
  | append_singleton spaces record ih =>
      rw [emptyGroups, List.foldl_append, List.foldl_cons, List.foldl_nil, ← emptyGroups]
      by_cases hid : id = record.id
      · rw [hid, Function.update_self, if_pos (by simp)]
      · rw [Function.update_of_ne hid, ih]
        simp [hid]

theorem roomsOf_snoc (rooms : List RoomRecord) (record : RoomRecord) (id : Bytes) :
    roomsOf (rooms ++ [record]) id = roomsOf rooms id ++
      if record.parentSpaceId ≠ [] ∧ record.parentSpaceId = id then [railRoom record] else [] := by
  rw [roomsOf, List.filter_append, List.map_append, List.filter_singleton]
  congr 1
  by_cases hchild : record.parentSpaceId ≠ [] ∧ record.parentSpaceId = id
  · rw [decide_eq_true hchild, if_pos hchild]
    rfl
  · rw [decide_eq_false hchild, if_neg hchild]
    rfl

theorem roomsOutside_snoc (spaces : List SpaceRecord) (rooms : List RoomRecord)
    (record : RoomRecord) : roomsOutside spaces (rooms ++ [record]) = roomsOutside spaces rooms ++
      if record.parentSpaceId = [] ∨ record.parentSpaceId ∉ spaces.map (·.id) then
        [railRoom record] else [] := by
  rw [roomsOutside, List.filter_append, List.map_append, List.filter_singleton]
  congr 1
  by_cases houtside : record.parentSpaceId = [] ∨ record.parentSpaceId ∉ spaces.map (·.id)
  · rw [decide_eq_true houtside, if_pos houtside]
    rfl
  · rw [decide_eq_false houtside, if_neg houtside]
    rfl

/-- Induction on the rooms from the last one, which `add` places. -/
theorem placed_eq (spaces : List SpaceRecord) (rooms : List RoomRecord) :
    let placed := rooms.foldl Placed.add ⟨emptyGroups spaces, []⟩
    (∀ id, placed.grouped id = if id ∈ spaces.map (·.id) then some (roomsOf rooms id) else none) ∧
      placed.standalone = roomsOutside spaces rooms := by
  induction rooms using List.reverseRecOn with
  | nil => exact ⟨emptyGroups_eq spaces, rfl⟩
  | append_singleton rooms record ih =>
      obtain ⟨hgrouped, hstandalone⟩ := ih
      simp only [List.foldl_append, List.foldl_cons, List.foldl_nil, roomsOf_snoc,
        roomsOutside_snoc]
      generalize rooms.foldl Placed.add ⟨emptyGroups spaces, []⟩ = placed at hgrouped hstandalone ⊢
      have hparent := hgrouped record.parentSpaceId
      rw [Placed.add]
      by_cases hmem : record.parentSpaceId ∈ spaces.map (·.id)
      · rw [if_pos hmem] at hparent
        rw [hparent]
        by_cases hempty : record.parentSpaceId = []
        · rw [if_pos (.inl hempty)]
          simp only [if_pos hempty]
          refine ⟨fun id => ?_, ?_⟩
          · have hnot : ¬ (record.parentSpaceId ≠ [] ∧ record.parentSpaceId = id) :=
              fun h => h.1 hempty
            rw [hgrouped id, if_neg hnot, List.append_nil]
          · rw [hstandalone]
            rfl
        · rw [if_neg fun h => h.elim hempty fun h => h hmem]
          simp only [if_neg hempty]
          refine ⟨fun id => ?_, ?_⟩
          · by_cases hid : id = record.parentSpaceId
            · subst hid
              rw [Function.update_self, if_pos hmem, if_pos ⟨hempty, rfl⟩]
              rfl
            · have hnot : ¬ (record.parentSpaceId ≠ [] ∧ record.parentSpaceId = id) :=
                fun h => hid h.2.symm
              rw [Function.update_of_ne hid, hgrouped id, if_neg hnot, List.append_nil]
          · rw [hstandalone, List.append_nil]
      · rw [if_neg hmem] at hparent
        rw [hparent, if_pos (.inr hmem)]
        refine ⟨fun id => ?_, ?_⟩
        · rw [hgrouped id]
          by_cases hid : id ∈ spaces.map (·.id)
          · have hnot : ¬ (record.parentSpaceId ≠ [] ∧ record.parentSpaceId = id) :=
              fun h => hmem (h.2 ▸ hid)
            rw [if_neg hnot, List.append_nil]
          · rw [if_neg hid, if_neg hid]
        · rw [hstandalone]
          rfl

theorem setTree_spaces (s : RailState) (spaces : List SpaceRecord) (rooms : List RoomRecord) :
    (setTree s spaces rooms).spaces = spaces.map fun record => ⟨record.id, record.name,
      record.isPublic, record.autoJoinRooms, roomsOf rooms record.id⟩ := by
  refine List.map_congr_left fun record hrecord => ?_
  have hmem : record.id ∈ spaces.map (·.id) := List.mem_map_of_mem hrecord
  rw [(placed_eq spaces rooms).1 record.id, if_pos hmem, Option.getD_some]

theorem setTree_standaloneRooms (s : RailState) (spaces : List SpaceRecord)
    (rooms : List RoomRecord) :
    (setTree s spaces rooms).standaloneRooms = roomsOutside spaces rooms :=
  (placed_eq spaces rooms).2

end RailCubit

end GcsChat
