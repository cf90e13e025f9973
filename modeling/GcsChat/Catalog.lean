import GcsChat.EntityStore
import GcsChat.TransitionSystem

/-!
# The catalog over a store

The operations of the entity catalog against a key-value store, call by call: a `Put` that fails
leaves the store as it is, and a `Get` finds what is stored unless reads may fail. The lemmas say
once what each operation asks and what it does to the store.
-/

namespace GcsChat

open ByteString ProtoSchema Interactive

structure StoreState where
  records : OrderedMap Bytes Bytes
  minted : List Bytes

def StoreState.empty : StoreState := ⟨.empty, []⟩

def StoreState.write (w : StoreState) (key value : Bytes) : StoreState :=
  { w with records := w.records.insertOrAssign key value }

def StoreState.mint (w : StoreState) (id : Bytes) : StoreState :=
  { w with minted := w.minted ++ [id] }

@[simp] theorem StoreState.write_records (w : StoreState) (key value : Bytes) :
    (w.write key value).records = w.records.insertOrAssign key value := rfl

@[simp] theorem StoreState.write_minted (w : StoreState) (key value : Bytes) :
    (w.write key value).minted = w.minted := rfl

@[simp] theorem StoreState.mint_records (w : StoreState) (id : Bytes) :
    (w.mint id).records = w.records := rfl

@[simp] theorem StoreState.mint_minted (w : StoreState) (id : Bytes) :
    (w.mint id).minted = w.minted ++ [id] := rfl

/-- What the store may answer, with reads that may fail or ids that may repeat. -/
def storeWorld (readsMayFail idsMayRepeat : Prop) : World (Effect Unit) Effect.Answer StoreState :=
  fun w e a w' => match e, a with
    | .get key, a => w' = w ∧ (a = w.records.find? key ∨ readsMayFail ∧ a = none)
    | .put key value, a => w' = if a then w.write key value else w
    | .nextId idPrefix, a => w' = w.mint a ∧ (a ∉ w.minted ∨ idsMayRepeat) ∧
        ∃ ms token seq, a = mintId idPrefix ms token seq
    | .nowMs, a => w' = w ∧ IsInt64 a
    | _, _ => w' = w

inductive CatalogOp
  | loadFromStore
  | createSpace (name : Bytes) (isPublic autoJoinRooms : Bool)
  | createRoom (name parentSpaceId : Bytes)
  | updateSpace (desired : SpaceRecord)

def CatalogOp.program (codecs : Codecs) (e : EntityStore) : CatalogOp → Program Unit EntityStore
  | .loadFromStore => EntityStore.loadFromStore codecs
  | .createSpace name isPublic autoJoinRooms => do
      let created ← e.createSpace codecs name isPublic autoJoinRooms
      pure created.1
  | .createRoom name parentSpaceId => do
      let created ← e.createRoom codecs name parentSpaceId
      pure created.1
  | .updateSpace desired => do
      let updated ← e.updateSpace codecs desired
      pure updated.1

def idPrefix (isSpaceId : Bool) : Bytes := if isSpaceId then kSpaceIdPrefix else kRoomIdPrefix

def recordsKeyPrefix (isSpaceId : Bool) : Bytes :=
  if isSpaceId then kSpacesKeyPrefix else kRoomsKeyPrefix

def listed (codecs : Codecs) (records : OrderedMap Bytes Bytes) (isSpaceId : Bool) : List Bytes :=
  match (records.find? kManifestKey).bind codecs.manifest.parse with
  | none => []
  | some manifest => manifest.ids isSpaceId

theorem recordsKeyPrefix_append_ne_kManifestKey (isSpaceId : Bool) (id : Bytes) :
    recordsKeyPrefix isSpaceId ++ id ≠ kManifestKey := by
  have hapart : ¬ recordsKeyPrefix isSpaceId <+: kManifestKey := by cases isSpaceId <;> decide
  exact fun h => hapart ⟨id, h⟩

theorem recordsKeyPrefix_append_inj {isSpaceId isSpaceId' : Bool} {id id' : Bytes}
    (h : recordsKeyPrefix isSpaceId ++ id = recordsKeyPrefix isSpaceId' ++ id') :
    isSpaceId = isSpaceId' ∧ id = id' := by
  have hkind : isSpaceId = isSpaceId' := by
    have hprefix := List.prefix_or_prefix_of_prefix ⟨id, h⟩ (List.prefix_append _ id')
    revert hprefix
    cases isSpaceId <;> cases isSpaceId' <;> decide
  subst hkind
  exact ⟨rfl, List.append_cancel_left h⟩

namespace EntityManifest

theorem mem_ids_insert {m : EntityManifest} {isSpaceId isSpaceId' : Bool} {id x : Bytes} :
    x ∈ (m.insert isSpaceId id).ids isSpaceId' ↔
      x ∈ m.ids isSpaceId' ∨ isSpaceId' = isSpaceId ∧ x = id := by
  unfold insert
  split_ifs with hid
  · constructor
    · exact Or.inl
    · rintro (h | ⟨rfl, rfl⟩)
      · exact h
      · exact hid
  · cases isSpaceId <;> cases isSpaceId' <;> simp [add, ids]

theorem ids_empty (isSpaceId : Bool) : empty.ids isSpaceId = [] := by cases isSpaceId <;> rfl

theorem valid_empty : manifestSchema.Valid empty := manifestSchema.valid_initial

theorem valid_insert {m : EntityManifest} (h : manifestSchema.Valid m) (isSpaceId : Bool)
    {id : Bytes} (hid : ValidUtf8 id) : manifestSchema.Valid (m.insert isSpaceId id) := by
  rw [manifestSchema_valid_iff] at h ⊢
  unfold insert
  split_ifs
  · exact h
  · obtain ⟨⟨hspaces, hrooms⟩, hunknown⟩ := h
    cases isSpaceId with
    | true =>
        exact ⟨⟨List.forall_mem_append.2 ⟨hspaces, List.forall_mem_singleton.2 hid⟩, hrooms⟩,
          hunknown⟩
    | false =>
        exact ⟨⟨hspaces, List.forall_mem_append.2 ⟨hrooms, List.forall_mem_singleton.2 hid⟩⟩,
          hunknown⟩

end EntityManifest

/-- The manifest that `AppendToManifest` starts from. -/
def readManifest (codecs : Codecs) (stored : Option Bytes) : EntityManifest :=
  (stored.bind codecs.manifest.parse).getD .empty

theorem valid_readManifest (codecs : Codecs) (stored : Option Bytes) :
    manifestSchema.Valid (readManifest codecs stored) := by
  unfold readManifest
  cases h : stored.bind codecs.manifest.parse with
  | none => exact EntityManifest.valid_empty
  | some m =>
      obtain ⟨b, _, hb⟩ := Option.bind_eq_some_iff.1 h
      exact codecs.manifest.valid_of_parse b m hb

theorem ids_readManifest (codecs : Codecs) (records : OrderedMap Bytes Bytes) (isSpaceId : Bool) :
    (readManifest codecs (records.find? kManifestKey)).ids isSpaceId =
      listed codecs records isSpaceId := by
  unfold readManifest listed
  cases (records.find? kManifestKey).bind codecs.manifest.parse with
  | none => exact EntityManifest.ids_empty isSpaceId
  | some m => rfl

def manifestWith (codecs : Codecs) (stored : Option Bytes) (isSpaceId : Bool) (id : Bytes) : Bytes :=
  codecs.manifest.serialize ((readManifest codecs stored).insert isSpaceId id)

theorem listed_write_manifest (codecs : Codecs) (w : StoreState) (stored : Option Bytes)
    (isSpaceId : Bool) {id : Bytes} (hid : ValidUtf8 id) (isSpaceId' : Bool) {x : Bytes} :
    x ∈ listed codecs
        (w.write kManifestKey (manifestWith codecs stored isSpaceId id)).records isSpaceId' ↔
      x ∈ (readManifest codecs stored).ids isSpaceId' ∨ isSpaceId' = isSpaceId ∧ x = id := by
  have hvalid := EntityManifest.valid_insert (valid_readManifest codecs stored) isSpaceId hid
  simp only [listed, StoreState.write_records, OrderedMap.find?_insertOrAssign, if_true,
    manifestWith, Option.bind_some, codecs.manifest.parse_serialize _ hvalid,
    EntityManifest.mem_ids_insert]

theorem listed_write_record (codecs : Codecs) (w : StoreState) (isSpaceId : Bool) (id v : Bytes)
    (isSpaceId' : Bool) :
    listed codecs (w.write (recordsKeyPrefix isSpaceId ++ id) v).records isSpaceId' =
      listed codecs w.records isSpaceId' := by
  simp only [listed, StoreState.write_records, OrderedMap.find?_insertOrAssign,
    if_neg (recordsKeyPrefix_append_ne_kManifestKey isSpaceId id).symm]

section Asks

variable {readsMayFail idsMayRepeat : Prop} {codecs : Codecs} {w w' : StoreState}
  {tr : Trace (Effect Unit) Effect.Answer}

theorem ends_writeEntity {isSpaceId : Bool} {id key record : Bytes} {ok : Bool}
    (h : Ends (storeWorld readsMayFail idsMayRepeat)
      (EntityStore.writeEntity codecs isSpaceId id key record) w tr ok w') :
    ∃ stored, (stored = w.records.find? kManifestKey ∨ readsMayFail ∧ stored = none) ∧
      ((ok = false ∧ w' = w ∧
          tr = [⟨.get kManifestKey, stored⟩,
            ⟨.put kManifestKey (manifestWith codecs stored isSpaceId id), false⟩]) ∨
        (w' = (if ok then
            (w.write kManifestKey (manifestWith codecs stored isSpaceId id)).write key record
          else w.write kManifestKey (manifestWith codecs stored isSpaceId id)) ∧
          tr = [⟨.get kManifestKey, stored⟩,
            ⟨.put kManifestKey (manifestWith codecs stored isSpaceId id), true⟩,
            ⟨.put key record, ok⟩])) := by
  simp only [EntityStore.writeEntity, EntityStore.appendToManifest, ask_bind, done_bind,
    ends_ask_iff] at h
  obtain ⟨stored, _, _, ⟨rfl, hread⟩, ⟨manifestOk, _, _, rfl, hrest, rfl⟩, rfl⟩ := h
  refine ⟨stored, hread, ?_⟩
  cases manifestOk with
  | false =>
      simp only [Bool.false_eq_true, if_false, pure_eq_done, ends_done_iff] at hrest
      obtain ⟨rfl, rfl, rfl⟩ := hrest
      exact Or.inl ⟨rfl, rfl, rfl⟩
  | true =>
      simp only [if_true, ends_ask_iff, ends_done_iff] at hrest
      obtain ⟨recordOk, _, _, rfl, ⟨rfl, rfl, rfl⟩, rfl⟩ := hrest
      exact Or.inr ⟨rfl, rfl⟩

theorem ends_createSpace {e e' : EntityStore} {name : Bytes} {isPublic autoJoinRooms : Bool}
    (h : Ends (storeWorld readsMayFail idsMayRepeat)
      ((CatalogOp.createSpace name isPublic autoJoinRooms).program codecs e) w tr e' w') :
    ∃ id now tr' ok, (id ∉ w.minted ∨ idsMayRepeat) ∧
      (∃ ms token seq, id = mintId kSpaceIdPrefix ms token seq) ∧ IsInt64 now ∧
      tr = ⟨.nextId kSpaceIdPrefix, id⟩ :: ⟨.nowMs, now⟩ :: tr' ∧
      Ends (storeWorld readsMayFail idsMayRepeat) (EntityStore.writeEntity codecs true id
        (kSpacesKeyPrefix ++ id)
        (codecs.space.serialize (EntityStore.newSpace id name isPublic autoJoinRooms now)))
        (w.mint id) tr' ok w' ∧
      e' = if ok then e.emplaceSpace (EntityStore.newSpace id name isPublic autoJoinRooms now)
        else e := by
  simp only [CatalogOp.program, EntityStore.createSpace, ask_bind, done_bind, bind_assoc,
    ends_ask_iff] at h
  obtain ⟨id, _, _, ⟨rfl, hfresh, hmint⟩, ⟨now, _, _, ⟨rfl, hnow⟩, hbind, rfl⟩, rfl⟩ := h
  obtain ⟨ok, tr₁, tr₂, u, hwrite, hrest, rfl⟩ := ends_bind_iff.1 hbind
  refine ⟨id, now, tr₁, ok, hfresh, hmint, hnow, ?_⟩
  cases ok <;>
    simp only [Bool.false_eq_true, if_true, if_false, pure_eq_done, done_bind,
      ends_done_iff] at hrest ⊢ <;>
    obtain ⟨rfl, rfl, rfl⟩ := hrest <;>
    exact ⟨by simp, hwrite, rfl⟩

theorem ends_createRoom {e e' : EntityStore} {name parentSpaceId : Bytes}
    (h : Ends (storeWorld readsMayFail idsMayRepeat)
      ((CatalogOp.createRoom name parentSpaceId).program codecs e) w tr e' w') :
    (e' = e ∧ w' = w ∧ tr = []) ∨
    ∃ id now tr' ok, (id ∉ w.minted ∨ idsMayRepeat) ∧
      (∃ ms token seq, id = mintId kRoomIdPrefix ms token seq) ∧ IsInt64 now ∧
      tr = ⟨.nextId kRoomIdPrefix, id⟩ :: ⟨.nowMs, now⟩ :: tr' ∧
      Ends (storeWorld readsMayFail idsMayRepeat) (EntityStore.writeEntity codecs false id
        (kRoomsKeyPrefix ++ id)
        (codecs.room.serialize (EntityStore.newRoom id name parentSpaceId now)))
        (w.mint id) tr' ok w' ∧
      e' = if ok then e.emplaceRoom (EntityStore.newRoom id name parentSpaceId now) else e := by
  simp only [CatalogOp.program, EntityStore.createRoom] at h
  split_ifs at h with hparent
  · simp only [pure_eq_done, done_bind, ends_done_iff] at h
    obtain ⟨rfl, rfl, rfl⟩ := h
    exact Or.inl ⟨rfl, rfl, rfl⟩
  · simp only [ask_bind, done_bind, bind_assoc, ends_ask_iff] at h
    obtain ⟨id, _, _, ⟨rfl, hfresh, hmint⟩, ⟨now, _, _, ⟨rfl, hnow⟩, hbind, rfl⟩, rfl⟩ := h
    obtain ⟨ok, tr₁, tr₂, u, hwrite, hrest, rfl⟩ := ends_bind_iff.1 hbind
    refine Or.inr ⟨id, now, tr₁, ok, hfresh, hmint, hnow, ?_⟩
    cases ok <;>
      simp only [Bool.false_eq_true, if_true, if_false, pure_eq_done, done_bind,
        ends_done_iff] at hrest ⊢ <;>
      obtain ⟨rfl, rfl, rfl⟩ := hrest <;>
      exact ⟨by simp, hwrite, rfl⟩

theorem ends_updateSpace {e e' : EntityStore} {desired : SpaceRecord}
    (h : Ends (storeWorld readsMayFail idsMayRepeat)
      ((CatalogOp.updateSpace desired).program codecs e) w tr e' w') :
    (e' = e ∧ w' = w ∧ tr = []) ∨
    ∃ existing now ok, e.mSpaces.find? desired.id = some existing ∧ IsInt64 now ∧
      tr = [⟨.nowMs, now⟩, ⟨.put (kSpacesKeyPrefix ++ desired.id)
        (codecs.space.serialize (EntityStore.updatedSpace desired existing now)), ok⟩] ∧
      w' = (if ok then w.write (kSpacesKeyPrefix ++ desired.id)
        (codecs.space.serialize (EntityStore.updatedSpace desired existing now)) else w) ∧
      e' = if ok then e.assignSpace (EntityStore.updatedSpace desired existing now) else e := by
  simp only [CatalogOp.program, EntityStore.updateSpace] at h
  cases hfind : e.mSpaces.find? desired.id with
  | none =>
      simp only [hfind, pure_eq_done, done_bind, ends_done_iff] at h
      obtain ⟨rfl, rfl, rfl⟩ := h
      exact Or.inl ⟨rfl, rfl, rfl⟩
  | some existing =>
      simp only [hfind] at h
      split_ifs at h with hdeleted
      · simp only [pure_eq_done, done_bind, ends_done_iff] at h
        obtain ⟨rfl, rfl, rfl⟩ := h
        exact Or.inl ⟨rfl, rfl, rfl⟩
      · simp only [ask_bind, done_bind, ends_ask_iff] at h
        obtain ⟨now, _, _, ⟨rfl, hnow⟩, ⟨ok, _, _, rfl, hrest, rfl⟩, rfl⟩ := h
        refine Or.inr ⟨existing, now, ok, rfl, hnow, ?_⟩
        cases ok <;>
          simp only [Bool.false_eq_true, if_true, if_false, pure_eq_done, done_bind,
            ends_done_iff] at hrest ⊢ <;>
          obtain ⟨rfl, rfl, rfl⟩ := hrest <;>
          exact ⟨rfl, rfl, rfl⟩

theorem ends_loadRecords {α : Type} {parse : Bytes → Option α} {idOf : α → Bytes}
    {keyPrefix : Bytes} {ids : List Bytes} {m m' : OrderedMap Bytes α}
    (h : Ends (storeWorld readsMayFail idsMayRepeat)
      (EntityStore.loadRecords parse idOf keyPrefix ids m) w tr m' w') : w' = w := by
  induction ids generalizing m tr with
  | nil => exact (ends_done_iff.1 h).2.2
  | cons id rest ih =>
      simp only [EntityStore.loadRecords, ask_bind, done_bind, ends_ask_iff] at h
      obtain ⟨a, _, _, ⟨rfl, _⟩, hrest, _⟩ := h
      cases hparse : a.bind parse with
      | none => exact ih (by simpa only [hparse] using hrest)
      | some record => exact ih (by simpa only [hparse] using hrest)

theorem ends_loadFromStore {e' : EntityStore}
    (h : Ends (storeWorld readsMayFail idsMayRepeat) (EntityStore.loadFromStore codecs) w tr e' w') :
    w' = w := by
  simp only [EntityStore.loadFromStore, ask_bind, done_bind, ends_ask_iff] at h
  obtain ⟨a, _, _, ⟨rfl, _⟩, hrest, _⟩ := h
  cases hparse : a.bind codecs.manifest.parse with
  | none =>
      rw [hparse] at hrest
      exact (ends_done_iff.1 hrest).2.2
  | some manifest =>
      simp only [hparse, ends_bind_iff] at hrest
      obtain ⟨_, _, _, u, hspaces, ⟨_, _, _, v, hrooms, hdone, _⟩, _⟩ := hrest
      obtain rfl := ends_loadRecords hspaces
      obtain rfl := ends_loadRecords hrooms
      exact (ends_done_iff.1 hdone).2.2

end Asks

end GcsChat
