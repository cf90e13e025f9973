import GcsChat.Session

/-!
# The cap on entity names

`create_space`, `create_room` and `update_space` check a name before they touch the catalog, and the
cap counts code points. A command whose name is refused only posts a notice that says so.
-/

namespace GcsChat

open ByteString Interactive

/-- The bytes that do not continue a code point are as many as the code points. -/
theorem utf8CodePointCount_utf8 (cs : List Char) : utf8CodePointCount (utf8 cs) = cs.length :=
  countP_utf8 cs

def NameFits (name : Bytes) : Prop :=
  name ≠ [] ∧ utf8CodePointCount name ≤ kMaxEntityNameLength

theorem utf8_eq_nil_iff {cs : List Char} : utf8 cs = [] ↔ cs.length = 0 := by
  constructor
  · intro h
    rw [← utf8CodePointCount_utf8, h]
    rfl
  · intro h
    rw [List.length_eq_zero_iff.1 h]
    rfl

theorem nameFits_utf8_iff {cs : List Char} :
    NameFits (utf8 cs) ↔ 1 ≤ cs.length ∧ cs.length ≤ 64 := by
  rw [NameFits, utf8CodePointCount_utf8, Ne, utf8_eq_nil_iff, Nat.one_le_iff_ne_zero]
  rfl

namespace Core

variable (C : Core)

def nameCheckNotices (arm : Bytes) : List Bytes :=
  [arm ++ ofString " rejected: name is empty",
    arm ++ ofString " rejected: name exceeds maximum length"]

def nameNotices : GcsCommand → List Bytes
  | .createSpace _ _ _ => nameCheckNotices (ofString "create_space")
  | .createRoom _ _ => nameCheckNotices (ofString "create_room")
  | .updateSpace _ _ _ _ =>
      [ofString "update_space rejected: space_id and name must be non-empty",
        ofString "update_space rejected: name exceeds maximum length"]
  | _ => []

def PassesNameCheck (g : Globals) (command : GcsCommand) : Prop :=
  ∀ notice ∈ nameNotices command, C.runCommand g command ≠ reject g notice

theorem eq_post_of_ask_eq_reject {e : Effect Globals}
    {next : e.Answer → Program Globals (Globals × GcsStatus)} {g : Globals} {notice : Bytes}
    (h : Interactive.ask e next = reject g notice) : e = .post (.error notice) :=
  (Interactive.ask.inj h).1

theorem ask_post_ne_reject {beginning notice rest : Bytes} {g : Globals}
    {next : Unit → Program Globals (Globals × GcsStatus)} (h : ¬ beginning <+: notice) :
    Interactive.ask (.post (.error (beginning ++ rest))) next ≠ reject g notice := by
  intro heq
  have hpost := eq_post_of_ask_eq_reject heq
  exact h ⟨rest, GcsEvent.error.inj (Effect.post.inj hpost)⟩

theorem nameRejection_eq_none_iff {arm name : Bytes} :
    nameRejection arm name = none ↔ NameFits name := by
  rw [nameRejection, NameFits]
  split_ifs with hempty hlong
  · exact iff_of_false not_false fun h => h.1 hempty
  · exact iff_of_false not_false fun h => absurd hlong h.2.not_gt
  · exact iff_of_true rfl ⟨hempty, not_lt.1 hlong⟩

theorem mem_nameCheckNotices_of_nameRejection {arm name notice : Bytes}
    (h : nameRejection arm name = some notice) : notice ∈ nameCheckNotices arm := by
  rw [nameRejection] at h
  split_ifs at h
  · rw [← Option.some.inj h]
    exact .head _
  · rw [← Option.some.inj h]
    exact .tail _ (.head _)

theorem passesNameCheck_createSpace_iff (g : Globals) (name : Bytes)
    (isPublic autoJoinRooms : Bool) :
    C.PassesNameCheck g (.createSpace name isPublic autoJoinRooms) ↔ NameFits name := by
  rw [← nameRejection_eq_none_iff, PassesNameCheck, runCommand, createSpace]
  cases hname : nameRejection (ofString "create_space") name with
  | some notice =>
      refine iff_of_false (fun h => ?_) (Option.some_ne_none _)
      exact h notice (mem_nameCheckNotices_of_nameRejection hname) rfl
  | none =>
      refine iff_of_true (fun notice _ h => ?_) rfl
      cases eq_post_of_ask_eq_reject (show Interactive.ask _ _ = _ from h)

/-- The parent check comes after the name check, and has a notice of its own. -/
theorem passesNameCheck_createRoom_iff (g : Globals) (name parentSpaceId : Bytes) :
    C.PassesNameCheck g (.createRoom name parentSpaceId) ↔ NameFits name := by
  rw [← nameRejection_eq_none_iff, PassesNameCheck, runCommand, createRoom]
  cases hname : nameRejection (ofString "create_room") name with
  | some notice =>
      refine iff_of_false (fun h => ?_) (Option.some_ne_none _)
      exact h notice (mem_nameCheckNotices_of_nameRejection hname) rfl
  | none =>
      refine iff_of_true (fun notice hnotice h => ?_) rfl
      dsimp only at h
      by_cases hparent : parentSpaceId ≠ [] ∧ ¬ g.entities.isValidParentSpace parentSpaceId
      · have hother : ∀ notice ∈ nameCheckNotices (ofString "create_room"),
            ¬ ofString "create_room rejected: parent space '" <+: notice := by decide
        rw [if_pos hparent, List.append_assoc] at h
        exact ask_post_ne_reject (hother notice hnotice) h
      · rw [if_neg hparent, EntityStore.createRoom, if_neg hparent] at h
        cases eq_post_of_ask_eq_reject (show Interactive.ask _ _ = _ from h)

/-- The notice of an update that the catalog refuses is no name notice either. -/
theorem passesNameCheck_updateSpace_iff (g : Globals) (spaceId name : Bytes)
    (isPublic autoJoinRooms : Bool) :
    C.PassesNameCheck g (.updateSpace spaceId name isPublic autoJoinRooms) ↔
      spaceId ≠ [] ∧ NameFits name := by
  rw [PassesNameCheck, runCommand, updateSpace]
  by_cases hempty : spaceId = [] ∨ name = []
  · rw [if_pos hempty]
    refine iff_of_false (fun h => h _ (.head _) rfl) ?_
    rintro ⟨hid, hname, _⟩
    exact hempty.elim hid hname
  obtain ⟨hid, hname⟩ := not_or.1 hempty
  rw [if_neg hempty]
  by_cases hlong : kMaxEntityNameLength < utf8CodePointCount name
  · rw [if_pos hlong]
    refine iff_of_false (fun h => h _ (.tail _ (.head _)) rfl) ?_
    rintro ⟨_, _, hfits⟩
    exact absurd hlong hfits.not_gt
  rw [if_neg hlong]
  refine iff_of_true (fun notice hnotice h => ?_) ⟨hid, hname, not_lt.1 hlong⟩
  have hother : ∀ notice ∈ nameNotices (.updateSpace spaceId name isPublic autoJoinRooms),
      ¬ ofString "update_space failed for '" <+: notice := by
    rw [nameNotices]
    decide
  rw [EntityStore.updateSpace, List.append_assoc] at h
  cases hfound : g.entities.mSpaces.find? (desiredSpace spaceId name isPublic autoJoinRooms).id with
  | none =>
      rw [hfound] at h
      exact ask_post_ne_reject (hother notice hnotice) h
  | some existing =>
      rw [hfound] at h
      dsimp only at h
      by_cases hdeleted : existing.deleted
      · rw [if_pos hdeleted] at h
        exact ask_post_ne_reject (hother notice hnotice) h
      · rw [if_neg hdeleted] at h
        cases eq_post_of_ask_eq_reject (show Interactive.ask _ _ = _ from h)

end Core

/-- The cap counts code points, whatever the number of bytes of their encodings. -/
theorem nameCap_counts_codePoints (cs : List Char) :
    utf8CodePointCount (utf8 cs) = cs.length ∧
    ∀ (C : Core) (g : Globals),
      (∀ isPublic autoJoinRooms,
        C.PassesNameCheck g (.createSpace (utf8 cs) isPublic autoJoinRooms) ↔
          1 ≤ cs.length ∧ cs.length ≤ 64) ∧
      (∀ parentSpaceId, C.PassesNameCheck g (.createRoom (utf8 cs) parentSpaceId) ↔
        1 ≤ cs.length ∧ cs.length ≤ 64) ∧
      ∀ spaceId isPublic autoJoinRooms,
        C.PassesNameCheck g (.updateSpace spaceId (utf8 cs) isPublic autoJoinRooms) ↔
          spaceId ≠ [] ∧ 1 ≤ cs.length ∧ cs.length ≤ 64 := by
  refine ⟨utf8CodePointCount_utf8 cs, fun C g => ⟨fun _ _ => ?_, fun _ => ?_, fun _ _ _ => ?_⟩⟩
  · rw [C.passesNameCheck_createSpace_iff, nameFits_utf8_iff]
  · rw [C.passesNameCheck_createRoom_iff, nameFits_utf8_iff]
  · rw [C.passesNameCheck_updateSpace_iff, nameFits_utf8_iff]

end GcsChat
