import GcsChat.CatalogIndex

/-!
# Memory and store

With reads that find what is stored and fresh ids, the two maps of the catalog are at any time what
a fresh object would load. The invariant is about the store alone: every listed id was minted, and
every record lies under the key of its own id, which the manifest lists. A process that stops
between two calls leaves a store that failing `Put`s could have left too.
-/

namespace GcsChat

open ByteString ProtoSchema Interactive

def entityId (codecs : Codecs) (isSpaceId : Bool) (v : Bytes) : Option Bytes :=
  if isSpaceId then (codecs.space.parse v).map (·.id) else (codecs.room.parse v).map (·.id)

def storedSpace (codecs : Codecs) (records : OrderedMap Bytes Bytes) (id : Bytes) :
    Option SpaceRecord :=
  (records.find? (kSpacesKeyPrefix ++ id)).bind codecs.space.parse

def storedRoom (codecs : Codecs) (records : OrderedMap Bytes Bytes) (id : Bytes) :
    Option RoomRecord :=
  (records.find? (kRoomsKeyPrefix ++ id)).bind codecs.room.parse

def CatalogOp.WellFormed : CatalogOp → Prop
  | .loadFromStore => True
  | .createSpace name _ _ => ValidUtf8 name
  | .createRoom name parentSpaceId => ValidUtf8 name ∧ ValidUtf8 parentSpaceId
  | .updateSpace desired => spaceSchema.Valid desired

inductive MirrorLabel
  | op (o : CatalogOp)
  | crash (o : CatalogOp)

/-- Catalog operations with reliable reads and fresh ids, each of which may be cut short by the end
of the process. The next process loads the catalog from the store it finds. -/
def mirrorSystem (codecs : Codecs) : TransitionSystem CatalogState MirrorLabel where
  initial s := s = ⟨.fresh, .empty⟩
  step s l t := match l with
    | .op o => o.WellFormed ∧ ∃ tr,
        Ends (storeWorld False False) (o.program codecs s.memory) s.store tr t.memory t.store
    | .crash o => o.WellFormed ∧ ∃ tr q w tr',
        Steps (storeWorld False False) (o.program codecs s.memory) s.store tr q w ∧
          Ends (storeWorld False False) (EntityStore.loadFromStore codecs) w tr' t.memory t.store

section Load

variable {codecs : Codecs} {w w' : StoreState} {tr : Trace (Effect Unit) Effect.Answer}

/-- The first listed record with an id inside is the one that is kept under it. -/
theorem find?_of_ends_loadRecords {α : Type} {parse : Bytes → Option α} {idOf : α → Bytes}
    {keyPrefix : Bytes} {ids : List Bytes} {m m' : OrderedMap Bytes α}
    (h : Ends (storeWorld False False) (EntityStore.loadRecords parse idOf keyPrefix ids m) w tr
      m' w') (y : Bytes) :
    m'.find? y = (m.find? y).or
      ((ids.filterMap fun x => (w.records.find? (keyPrefix ++ x)).bind parse).find?
        fun r => idOf r = y) := by
  induction ids generalizing m tr with
  | nil =>
      rw [(ends_done_iff.1 h).2.1]
      simp
  | cons id rest ih =>
      simp only [EntityStore.loadRecords, ask_bind, done_bind, ends_ask_iff] at h
      obtain ⟨a, u, tr', ⟨rfl, hread⟩, hrest, _⟩ := h
      have ha : a = u.records.find? (keyPrefix ++ id) := by simpa using hread
      subst ha
      cases hparse : (u.records.find? (keyPrefix ++ id)).bind parse with
      | none =>
          simp only [hparse] at hrest
          simp only [ih hrest, List.filterMap_cons, hparse]
      | some record =>
          simp only [hparse] at hrest
          simp only [ih hrest, List.filterMap_cons, hparse, List.find?_cons,
            OrderedMap.find?_emplace]
          by_cases hy : idOf record = y
          · subst hy
            cases hm : m.find? (idOf record) <;> simp
          · have hy' : ¬ y = idOf record := fun h => hy h.symm
            simp [hy, hy']

/-- What a load keeps under an id, of the listed records. -/
def loadedSpace (codecs : Codecs) (records : OrderedMap Bytes Bytes) (y : Bytes) :
    Option SpaceRecord :=
  ((listed codecs records true).filterMap (storedSpace codecs records)).find? fun r => r.id = y

def loadedRoom (codecs : Codecs) (records : OrderedMap Bytes Bytes) (y : Bytes) :
    Option RoomRecord :=
  ((listed codecs records false).filterMap (storedRoom codecs records)).find? fun r => r.id = y

theorem find?_of_ends_loadFromStore {e : EntityStore}
    (h : Ends (storeWorld False False) (EntityStore.loadFromStore codecs) w tr e w') (y : Bytes) :
    e.mSpaces.find? y = loadedSpace codecs w.records y ∧
      e.mRooms.find? y = loadedRoom codecs w.records y := by
  simp only [EntityStore.loadFromStore, ask_bind, done_bind, ends_ask_iff] at h
  obtain ⟨a, u, tr', ⟨rfl, hread⟩, hrest, _⟩ := h
  have ha : a = u.records.find? kManifestKey := by simpa using hread
  subst ha
  cases hparse : (u.records.find? kManifestKey).bind codecs.manifest.parse with
  | none =>
      simp only [hparse, pure_eq_done, ends_done_iff] at hrest
      have hempty : ∀ b, listed codecs u.records b = [] := fun b => by simp only [listed, hparse]
      rw [hrest.2.1, loadedSpace, loadedRoom, hempty, hempty]
      exact ⟨rfl, rfl⟩
  | some manifest =>
      have hids : ∀ b, listed codecs u.records b = manifest.ids b := fun b => by
        simp only [listed, hparse]
      simp only [hparse, ends_bind_iff] at hrest
      obtain ⟨spaces, _, _, u₁, hspaces, ⟨rooms, _, _, u₂, hrooms, hdone, _⟩, _⟩ := hrest
      obtain rfl := ends_loadRecords hspaces
      rw [(ends_done_iff.1 hdone).2.1, loadedSpace, loadedRoom, hids, hids,
        find?_of_ends_loadRecords hspaces, find?_of_ends_loadRecords hrooms]
      exact ⟨rfl, rfl⟩

theorem find?_filterMap_own {α : Type} {stored : Bytes → Option α} {idOf : α → Bytes}
    (hown : ∀ x r, stored x = some r → idOf r = x) (ids : List Bytes) (y : Bytes) :
    ((ids.filterMap stored).find? fun r => idOf r = y) = if y ∈ ids then stored y else none := by
  induction ids with
  | nil => rfl
  | cons id rest ih =>
      cases hstored : stored id with
      | none =>
          rw [List.filterMap_cons_none hstored, ih]
          by_cases hy : y = id
          · simp [hy, hstored]
          · simp [hy]
      | some r =>
          rw [List.filterMap_cons_some hstored, List.find?_cons, hown id r hstored, ih]
          by_cases hy : y = id
          · simp [hy, hstored]
          · simp [hy, Ne.symm hy]

/-- Every record lies under the key of its own id, which the manifest lists, and every listed id was
minted. -/
structure StoreInvariant (codecs : Codecs) (w : StoreState) : Prop where
  minted : ∀ isSpaceId, ∀ x ∈ listed codecs w.records isSpaceId, x ∈ w.minted
  own : ∀ isSpaceId x v, w.records.find? (recordsKeyPrefix isSpaceId ++ x) = some v →
    entityId codecs isSpaceId v = some x ∧ x ∈ listed codecs w.records isSpaceId

/-- The maps hold what the store holds. -/
structure Mirrors (codecs : Codecs) (e : EntityStore) (records : OrderedMap Bytes Bytes) : Prop where
  spaces : ∀ x, e.mSpaces.find? x = storedSpace codecs records x
  rooms : ∀ x, e.mRooms.find? x = storedRoom codecs records x

theorem Mirrors.unique {e e' : EntityStore} {records : OrderedMap Bytes Bytes}
    (h : Mirrors codecs e records) (h' : Mirrors codecs e' records) : e = e' := by
  have hspaces : e.mSpaces = e'.mSpaces :=
    OrderedMap.ext_find? fun x => (h.spaces x).trans (h'.spaces x).symm
  have hrooms : e.mRooms = e'.mRooms :=
    OrderedMap.ext_find? fun x => (h.rooms x).trans (h'.rooms x).symm
  cases e
  cases e'
  simp_all

theorem StoreInvariant.storedSpace_id (h : StoreInvariant codecs w) {x : Bytes} {r : SpaceRecord}
    (hr : storedSpace codecs w.records x = some r) :
    r.id = x ∧ x ∈ listed codecs w.records true := by
  obtain ⟨v, hv, hparse⟩ := Option.bind_eq_some_iff.1 hr
  obtain ⟨hid, hlisted⟩ := h.own true x v hv
  simp only [entityId, if_true, hparse, Option.map_some, Option.some.injEq] at hid
  exact ⟨hid, hlisted⟩

theorem StoreInvariant.storedRoom_id (h : StoreInvariant codecs w) {x : Bytes} {r : RoomRecord}
    (hr : storedRoom codecs w.records x = some r) :
    r.id = x ∧ x ∈ listed codecs w.records false := by
  obtain ⟨v, hv, hparse⟩ := Option.bind_eq_some_iff.1 hr
  obtain ⟨hid, hlisted⟩ := h.own false x v hv
  simp only [entityId, Bool.false_eq_true, if_false, hparse, Option.map_some,
    Option.some.injEq] at hid
  exact ⟨hid, hlisted⟩

theorem mirrors_of_ends_loadFromStore (hinv : StoreInvariant codecs w) {e : EntityStore}
    (h : Ends (storeWorld False False) (EntityStore.loadFromStore codecs) w tr e w') :
    Mirrors codecs e w.records := by
  have hspace : ∀ x r, storedSpace codecs w.records x = some r → r.id = x :=
    fun x r hr => (hinv.storedSpace_id hr).1
  have hroom : ∀ x r, storedRoom codecs w.records x = some r → r.id = x :=
    fun x r hr => (hinv.storedRoom_id hr).1
  refine ⟨fun x => ?_, fun x => ?_⟩
  · rw [(find?_of_ends_loadFromStore h x).1, loadedSpace, find?_filterMap_own hspace,
      ite_eq_left_iff]
    intro hx
    exact (Option.eq_none_iff_forall_ne_some.2 fun r hr => hx (hinv.storedSpace_id hr).2).symm
  · rw [(find?_of_ends_loadFromStore h x).2, loadedRoom, find?_filterMap_own hroom,
      ite_eq_left_iff]
    intro hx
    exact (Option.eq_none_iff_forall_ne_some.2 fun r hr => hx (hinv.storedRoom_id hr).2).symm

end Load

section Writes

variable {codecs : Codecs} {w w' : StoreState} {tr : Trace (Effect Unit) Effect.Answer}

theorem StoreInvariant.empty (codecs : Codecs) : StoreInvariant codecs .empty where
  minted isSpaceId x hx := by simp [listed, StoreState.empty] at hx
  own isSpaceId x v hv := by simp [StoreState.empty] at hv

theorem StoreInvariant.mint (h : StoreInvariant codecs w) (id : Bytes) :
    StoreInvariant codecs (w.mint id) where
  minted isSpaceId x hx := List.mem_append_left _ (h.minted isSpaceId x hx)
  own := h.own

theorem StoreInvariant.writeManifest (h : StoreInvariant codecs w) (isSpaceId : Bool) {id : Bytes}
    (hid : ValidUtf8 id) (hminted : id ∈ w.minted) :
    StoreInvariant codecs (w.write kManifestKey
      (manifestWith codecs (w.records.find? kManifestKey) isSpaceId id)) := by
  have hlisted : ∀ isSpaceId' x, x ∈ listed codecs (w.write kManifestKey
      (manifestWith codecs (w.records.find? kManifestKey) isSpaceId id)).records isSpaceId' ↔
        x ∈ listed codecs w.records isSpaceId' ∨ isSpaceId' = isSpaceId ∧ x = id := by
    intro isSpaceId' x
    rw [listed_write_manifest codecs w _ isSpaceId hid, ids_readManifest]
  refine ⟨fun isSpaceId' x hx => ?_, fun isSpaceId' x v hv => ?_⟩
  · rcases (hlisted isSpaceId' x).1 hx with hx | ⟨_, rfl⟩
    · exact h.minted isSpaceId' x hx
    · exact hminted
  · rw [StoreState.write_records, OrderedMap.find?_insertOrAssign,
      if_neg (recordsKeyPrefix_append_ne_kManifestKey isSpaceId' x)] at hv
    exact ⟨(h.own isSpaceId' x v hv).1, (hlisted isSpaceId' x).2 (Or.inl (h.own isSpaceId' x v hv).2)⟩

theorem find?_write_record (w : StoreState) (isSpaceId : Bool) (id v : Bytes) (isSpaceId' : Bool)
    (x : Bytes) :
    (w.write (recordsKeyPrefix isSpaceId ++ id) v).records.find? (recordsKeyPrefix isSpaceId' ++ x) =
      if isSpaceId' = isSpaceId ∧ x = id then some v
      else w.records.find? (recordsKeyPrefix isSpaceId' ++ x) := by
  rw [StoreState.write_records, OrderedMap.find?_insertOrAssign]
  by_cases hsame : isSpaceId' = isSpaceId ∧ x = id
  · obtain ⟨rfl, rfl⟩ := hsame
    simp
  · rw [if_neg fun h => hsame (recordsKeyPrefix_append_inj h), if_neg hsame]

theorem StoreInvariant.writeRecord (h : StoreInvariant codecs w) {isSpaceId : Bool} {id v : Bytes}
    (hid : entityId codecs isSpaceId v = some id)
    (hlisted : id ∈ listed codecs w.records isSpaceId) :
    StoreInvariant codecs (w.write (recordsKeyPrefix isSpaceId ++ id) v) := by
  refine ⟨fun isSpaceId' x hx => ?_, fun isSpaceId' x u hu => ?_⟩
  · rw [listed_write_record] at hx
    exact h.minted isSpaceId' x hx
  · rw [listed_write_record]
    rw [find?_write_record] at hu
    split_ifs at hu with hsame
    · obtain ⟨rfl, rfl⟩ := hsame
      obtain rfl := Option.some.inj hu
      exact ⟨hid, hlisted⟩
    · exact h.own isSpaceId' x u hu

theorem find?_of_ends_writeEntity {readsMayFail idsMayRepeat : Prop} {isSpaceId : Bool}
    {id record : Bytes} {ok : Bool}
    (hends : Ends (storeWorld readsMayFail idsMayRepeat)
      (EntityStore.writeEntity codecs isSpaceId id (recordsKeyPrefix isSpaceId ++ id) record)
      (w.mint id) tr ok w') (isSpaceId' : Bool) (x : Bytes) :
    w'.records.find? (recordsKeyPrefix isSpaceId' ++ x) =
      if ok = true ∧ isSpaceId' = isSpaceId ∧ x = id then some record
      else w.records.find? (recordsKeyPrefix isSpaceId' ++ x) := by
  obtain ⟨stored, _, ⟨rfl, rfl, _⟩ | ⟨rfl, _⟩⟩ := ends_writeEntity hends
  · simp
  · have hkept : ((w.mint id).write kManifestKey
        (manifestWith codecs stored isSpaceId id)).records.find?
          (recordsKeyPrefix isSpaceId' ++ x) =
        w.records.find? (recordsKeyPrefix isSpaceId' ++ x) := by
      rw [StoreState.write_records, OrderedMap.find?_insertOrAssign,
        if_neg (recordsKeyPrefix_append_ne_kManifestKey isSpaceId' x), StoreState.mint_records]
    cases ok with
    | false => simpa using hkept
    | true =>
        rw [if_pos rfl, find?_write_record, hkept]
        simp

theorem StoreInvariant.writeEntity (h : StoreInvariant codecs w) {isSpaceId : Bool}
    {id record : Bytes} {ok : Bool} (hutf8 : ValidUtf8 id)
    (hrecord : entityId codecs isSpaceId record = some id)
    (hends : Ends (storeWorld False False) (EntityStore.writeEntity codecs isSpaceId id
      (recordsKeyPrefix isSpaceId ++ id) record) (w.mint id) tr ok w') :
    StoreInvariant codecs w' := by
  obtain ⟨stored, hread, ⟨rfl, rfl, _⟩ | ⟨rfl, _⟩⟩ := ends_writeEntity hends
  · exact h.mint id
  · have hstored : stored = (w.mint id).records.find? kManifestKey := by simpa using hread
    subst hstored
    have hmanifest := (h.mint id).writeManifest isSpaceId hutf8 (by simp)
    cases ok with
    | false =>
        rw [if_neg Bool.false_ne_true]
        exact hmanifest
    | true =>
        rw [if_pos rfl]
        apply hmanifest.writeRecord hrecord
        exact (listed_write_manifest codecs _ _ isSpaceId hutf8 isSpaceId).2 (Or.inr ⟨rfl, rfl⟩)

end Writes

theorem valid_newSpace {id name : Bytes} (hid : ValidUtf8 id) (hname : ValidUtf8 name)
    (isPublic autoJoinRooms : Bool) {now : ℤ} (hnow : IsInt64 now) :
    spaceSchema.Valid (EntityStore.newSpace id name isPublic autoJoinRooms now) :=
  spaceSchema_valid_iff.2 ⟨⟨hid, hname, hnow, hnow, isInt64_zero⟩, List.forall_mem_nil _⟩

theorem valid_newRoom {id name parentSpaceId : Bytes} (hid : ValidUtf8 id) (hname : ValidUtf8 name)
    (hparent : ValidUtf8 parentSpaceId) {now : ℤ} (hnow : IsInt64 now) :
    roomSchema.Valid (EntityStore.newRoom id name parentSpaceId now) :=
  roomSchema_valid_iff.2 ⟨⟨hid, hname, hparent, hnow, hnow, isInt64_zero⟩, List.forall_mem_nil _⟩

theorem valid_updatedSpace {desired existing : SpaceRecord} (hdesired : spaceSchema.Valid desired)
    (hexisting : spaceSchema.Valid existing) {now : ℤ} (hnow : IsInt64 now) :
    spaceSchema.Valid (EntityStore.updatedSpace desired existing now) := by
  rw [spaceSchema_valid_iff] at hdesired hexisting ⊢
  exact ⟨⟨hdesired.1.1, hdesired.1.2.1, hexisting.1.2.2.1, hnow, hexisting.1.2.2.2.2⟩, hdesired.2⟩

section Step

variable {codecs : Codecs} {s t : CatalogState} {tr : Trace (Effect Unit) Effect.Answer}

theorem storedSpace_eq_none_of_fresh {w : StoreState} (h : StoreInvariant codecs w) {id : Bytes}
    (hfresh : id ∉ w.minted) : storedSpace codecs w.records id = none :=
  Option.eq_none_iff_forall_ne_some.2 fun _ hr => hfresh (h.minted true id (h.storedSpace_id hr).2)

theorem storedRoom_eq_none_of_fresh {w : StoreState} (h : StoreInvariant codecs w) {id : Bytes}
    (hfresh : id ∉ w.minted) : storedRoom codecs w.records id = none :=
  Option.eq_none_iff_forall_ne_some.2 fun _ hr => hfresh (h.minted false id (h.storedRoom_id hr).2)

/-- The records after a write that replaced those that meet a condition. -/
theorem storedSpace_of_find? {records records' : OrderedMap Bytes Bytes} {record : Bytes}
    {P : Bool → Bytes → Prop} [∀ b x, Decidable (P b x)]
    (hfind : ∀ b x, records'.find? (recordsKeyPrefix b ++ x) =
      if P b x then some record else records.find? (recordsKeyPrefix b ++ x)) (x : Bytes) :
    storedSpace codecs records' x =
      if P true x then codecs.space.parse record else storedSpace codecs records x := by
  have hx : records'.find? (kSpacesKeyPrefix ++ x) = _ := hfind true x
  rw [storedSpace, hx]
  split_ifs <;> rfl

theorem storedRoom_of_find? {records records' : OrderedMap Bytes Bytes} {record : Bytes}
    {P : Bool → Bytes → Prop} [∀ b x, Decidable (P b x)]
    (hfind : ∀ b x, records'.find? (recordsKeyPrefix b ++ x) =
      if P b x then some record else records.find? (recordsKeyPrefix b ++ x)) (x : Bytes) :
    storedRoom codecs records' x =
      if P false x then codecs.room.parse record else storedRoom codecs records x := by
  have hx : records'.find? (kRoomsKeyPrefix ++ x) = _ := hfind false x
  rw [storedRoom, hx]
  split_ifs <;> rfl

theorem storedSpace_update {w : StoreState} {k : Bytes} {updated : SpaceRecord}
    (hvalid : spaceSchema.Valid updated) (x : Bytes) :
    storedSpace codecs
        (w.write (kSpacesKeyPrefix ++ k) (codecs.space.serialize updated)).records x =
      if x = k then some updated else storedSpace codecs w.records x := by
  refine (storedSpace_of_find? (find?_write_record w true k _) x).trans ?_
  simp only [true_and, codecs.space.parse_serialize _ hvalid]

theorem storedRoom_update {w : StoreState} (k v x : Bytes) :
    storedRoom codecs (w.write (kSpacesKeyPrefix ++ k) v).records x =
      storedRoom codecs w.records x := by
  refine (storedRoom_of_find? (find?_write_record w true k v) x).trans (if_neg ?_)
  simp

structure CatalogInvariant (codecs : Codecs) (s : CatalogState) : Prop where
  store : StoreInvariant codecs s.store
  memory : Mirrors codecs s.memory s.store.records

theorem CatalogInvariant.createSpace (h : CatalogInvariant codecs s) {name : Bytes}
    {isPublic autoJoinRooms : Bool} (hname : ValidUtf8 name)
    (hends : Ends (storeWorld False False)
      ((CatalogOp.createSpace name isPublic autoJoinRooms).program codecs s.memory) s.store tr
      t.memory t.store) : CatalogInvariant codecs t := by
  obtain ⟨id, now, tr', ok, hfresh, ⟨ms, token, seq, rfl⟩, hnow, _, hwrite, hmemory⟩ :=
    ends_createSpace hends
  rw [or_false] at hfresh
  have hutf8 : ValidUtf8 (mintId kSpaceIdPrefix ms token seq) :=
    validUtf8_mintId (validUtf8_ofString _) ms token seq
  have hparse := codecs.space.parse_serialize _
    (valid_newSpace hutf8 hname isPublic autoJoinRooms hnow)
  have hstore := h.store.writeEntity hutf8 (by simp only [entityId, if_true, hparse]; rfl) hwrite
  have hfind := find?_of_ends_writeEntity hwrite
  have hnone := (h.memory.spaces _).trans (storedSpace_eq_none_of_fresh h.store hfresh)
  refine ⟨hstore, fun x => ?_, fun x => ?_⟩
  · rw [storedSpace_of_find? hfind, ← h.memory.spaces x, hmemory, hparse]
    cases ok with
    | false => simp
    | true =>
        by_cases hid : x = mintId kSpaceIdPrefix ms token seq
        · subst hid
          simp [OrderedMap.find?_emplace, EntityStore.newSpace, hnone]
        · simp [OrderedMap.find?_emplace, EntityStore.newSpace, hid]
  · rw [storedRoom_of_find? hfind, ← h.memory.rooms x, hmemory]
    cases ok <;> simp

theorem CatalogInvariant.createRoom (h : CatalogInvariant codecs s) {name parentSpaceId : Bytes}
    (hname : ValidUtf8 name) (hparent : ValidUtf8 parentSpaceId)
    (hends : Ends (storeWorld False False)
      ((CatalogOp.createRoom name parentSpaceId).program codecs s.memory) s.store tr
      t.memory t.store) : CatalogInvariant codecs t := by
  rcases ends_createRoom hends with ⟨hmemory, hstore, _⟩ |
    ⟨id, now, tr', ok, hfresh, ⟨ms, token, seq, rfl⟩, hnow, _, hwrite, hmemory⟩
  · exact ⟨hstore ▸ h.store, hmemory ▸ hstore ▸ h.memory⟩
  · rw [or_false] at hfresh
    have hutf8 : ValidUtf8 (mintId kRoomIdPrefix ms token seq) :=
      validUtf8_mintId (validUtf8_ofString _) ms token seq
    have hparse := codecs.room.parse_serialize _ (valid_newRoom hutf8 hname hparent hnow)
    have hstore := h.store.writeEntity hutf8
      (by simp only [entityId, Bool.false_eq_true, if_false, hparse]; rfl) hwrite
    have hfind := find?_of_ends_writeEntity hwrite
    have hnone := (h.memory.rooms _).trans (storedRoom_eq_none_of_fresh h.store hfresh)
    refine ⟨hstore, fun x => ?_, fun x => ?_⟩
    · rw [storedSpace_of_find? hfind, ← h.memory.spaces x, hmemory]
      cases ok <;> simp
    · rw [storedRoom_of_find? hfind, ← h.memory.rooms x, hmemory, hparse]
      cases ok with
      | false => simp
      | true =>
          by_cases hid : x = mintId kRoomIdPrefix ms token seq
          · subst hid
            simp [OrderedMap.find?_emplace, EntityStore.newRoom, hnone]
          · simp [OrderedMap.find?_emplace, EntityStore.newRoom, hid]

theorem CatalogInvariant.updateSpace (h : CatalogInvariant codecs s) {desired : SpaceRecord}
    (hdesired : spaceSchema.Valid desired)
    (hends : Ends (storeWorld False False)
      ((CatalogOp.updateSpace desired).program codecs s.memory) s.store tr t.memory t.store) :
    CatalogInvariant codecs t := by
  rcases ends_updateSpace hends with ⟨hmemory, hstore, _⟩ |
    ⟨existing, now, ok, hexisting, hnow, _, hstore, hmemory⟩
  · exact ⟨hstore ▸ h.store, hmemory ▸ hstore ▸ h.memory⟩
  · cases ok with
    | false => exact ⟨hstore ▸ h.store, hmemory ▸ hstore ▸ h.memory⟩
    | true =>
        rw [if_pos rfl] at hstore hmemory
        have hstored := (h.memory.spaces desired.id).symm.trans hexisting
        obtain ⟨v, _, hv⟩ := Option.bind_eq_some_iff.1 hstored
        have hvalid := valid_updatedSpace hdesired (codecs.space.valid_of_parse v existing hv) hnow
        refine ⟨?_, fun x => ?_, fun x => ?_⟩
        · rw [hstore]
          refine StoreInvariant.writeRecord h.store ?_ (h.store.storedSpace_id hstored).2
          simp only [entityId, if_true, codecs.space.parse_serialize _ hvalid]
          rfl
        · rw [hstore, storedSpace_update hvalid, ← h.memory.spaces x, hmemory]
          simp [EntityStore.updatedSpace]
        · rw [hstore, storedRoom_update, ← h.memory.rooms x, hmemory]
          rfl

end Step

theorem exists_fresh_id (idPrefix : Bytes) (used : List Bytes) :
    ∃ seq, mintId idPrefix 0 0 seq ∉ used := by
  obtain ⟨x, ⟨seq, rfl⟩, hx⟩ := (Set.infinite_range_of_injective
    (mintId_seq_injective idPrefix 0 0)).exists_notMem_finset used.toFinset
  exact ⟨seq, fun h => hx (List.mem_toFinset.2 h)⟩

/-- A program that is stopped could have gone on with `Put`s that fail, minting no id of a given
list. -/
theorem exists_ends_without_writes {α : Type} (p : Program Unit α) (w : StoreState)
    (avoid : List Bytes) : ∃ tr a w', Ends (storeWorld False False) p w tr a w' ∧
      w'.records = w.records ∧ ∀ x ∈ w'.minted, x ∈ w.minted ∨ x ∉ avoid := by
  induction p generalizing w with
  | done a => exact ⟨[], a, w, .nil _ _, rfl, fun x hx => Or.inl hx⟩
  | ask e next ih =>
      have hgo : ∀ a u, storeWorld False False w e a u → u.records = w.records →
          (∀ x ∈ u.minted, x ∈ w.minted ∨ x ∉ avoid) →
          ∃ tr b w', Ends (storeWorld False False) (ask e next) w tr b w' ∧
            w'.records = w.records ∧ ∀ x ∈ w'.minted, x ∈ w.minted ∨ x ∉ avoid := by
        intro a u hstep hrecords hminted
        obtain ⟨tr, b, w', hends, hsame, hnew⟩ := ih a u
        refine ⟨_, b, w', .cons a hstep hends, hsame.trans hrecords, fun x hx => ?_⟩
        exact (hnew x hx).elim (hminted x) Or.inr
      have hstay : ∀ x ∈ w.minted, x ∈ w.minted ∨ x ∉ avoid := fun x hx => Or.inl hx
      cases e with
      | get key => exact hgo (w.records.find? key) w ⟨rfl, Or.inl rfl⟩ rfl hstay
      | put key value => exact hgo false w rfl rfl hstay
      | nextId idPrefix =>
          obtain ⟨seq, hseq⟩ := exists_fresh_id idPrefix (w.minted ++ avoid)
          rw [List.mem_append, not_or] at hseq
          refine hgo (mintId idPrefix 0 0 seq) (w.mint _) ⟨rfl, Or.inl hseq.1, 0, 0, seq, rfl⟩ rfl
            fun x hx => ?_
          rcases List.mem_append.1 hx with hx | hx
          · exact Or.inl hx
          · exact Or.inr (List.mem_singleton.1 hx ▸ hseq.2)
      | nowMs => exact hgo (0 : ℤ) w ⟨rfl, isInt64_zero⟩ rfl hstay
      | lock => exact hgo () w rfl rfl hstay
      | unlock _ => exact hgo () w rfl rfl hstay
      | _ => exact hgo default w rfl rfl hstay

section Runs

variable {codecs : Codecs} {s t : CatalogState} {tr : Trace (Effect Unit) Effect.Answer}

theorem CatalogInvariant.op (h : CatalogInvariant codecs s) {o : CatalogOp} (ho : o.WellFormed)
    (hends : Ends (storeWorld False False) (o.program codecs s.memory) s.store tr t.memory t.store) :
    CatalogInvariant codecs t := by
  cases o with
  | loadFromStore =>
      have hstore := ends_loadFromStore hends
      exact ⟨hstore ▸ h.store, hstore ▸ mirrors_of_ends_loadFromStore h.store hends⟩
  | createSpace name isPublic autoJoinRooms => exact h.createSpace ho hends
  | createRoom name parentSpaceId => exact h.createRoom ho.1 ho.2 hends
  | updateSpace desired => exact h.updateSpace ho hends

/-- The store that a stopped operation leaves. -/
theorem CatalogInvariant.storeInvariant_of_steps (h : CatalogInvariant codecs s) {o : CatalogOp}
    (ho : o.WellFormed) {q : Program Unit EntityStore} {w : StoreState}
    (hsteps : Steps (storeWorld False False) (o.program codecs s.memory) s.store tr q w) :
    StoreInvariant codecs w := by
  obtain ⟨tr', e, w', hends, hrecords, hminted⟩ := exists_ends_without_writes q w
    (listed codecs w.records true ++ listed codecs w.records false)
  have hall := (h.op ho (t := ⟨e, w'⟩) (hsteps.append hends)).store
  refine ⟨fun isSpaceId x hx => ?_, fun isSpaceId x v hv => ?_⟩
  · refine (hminted x (hall.minted isSpaceId x (hrecords ▸ hx))).resolve_right fun havoid => ?_
    apply havoid
    cases isSpaceId
    · exact List.mem_append_right _ hx
    · exact List.mem_append_left _ hx
  · have hown := hall.own isSpaceId x v (hrecords ▸ hv)
    exact hrecords ▸ hown

theorem CatalogInvariant.step {l : MirrorLabel} (h : CatalogInvariant codecs s)
    (hstep : (mirrorSystem codecs).step s l t) : CatalogInvariant codecs t := by
  cases l with
  | op o =>
      obtain ⟨ho, tr, hends⟩ := hstep
      exact h.op ho hends
  | crash o =>
      obtain ⟨ho, tr, q, w, tr', hsteps, hload⟩ := hstep
      have hstore := h.storeInvariant_of_steps ho hsteps
      have hsame := ends_loadFromStore hload
      exact ⟨hsame ▸ hstore, hsame ▸ mirrors_of_ends_loadFromStore hstore hload⟩

theorem catalogInvariant_of_reachable (h : (mirrorSystem codecs).Reachable s) :
    CatalogInvariant codecs s := by
  refine h.invariant (fun s hs => ?_) fun s l t hs hstep => hs.step hstep
  rw [hs]
  exact ⟨StoreInvariant.empty codecs,
    fun x => by simp [EntityStore.fresh, storedSpace, StoreState.empty],
    fun x => by simp [EntityStore.fresh, storedRoom, StoreState.empty]⟩

/-- In every reachable state, after any failures and restarts, a fresh object that loads from the
store ends with exactly the maps that are in memory. -/
theorem loadFromStore_iff_memory (h : (mirrorSystem codecs).Reachable s) (e : EntityStore) :
    (∃ tr w, Ends (storeWorld False False) (EntityStore.loadFromStore codecs) s.store tr e w) ↔
      e = s.memory := by
  have hinv := catalogInvariant_of_reachable h
  have hload : ∀ e tr w,
      Ends (storeWorld False False) (EntityStore.loadFromStore codecs) s.store tr e w →
        e = s.memory :=
    fun e tr w hends => (mirrors_of_ends_loadFromStore hinv.store hends).unique hinv.memory
  constructor
  · rintro ⟨tr, w, hends⟩
    exact hload e tr w hends
  · rintro rfl
    obtain ⟨tr, e, w, hends, _⟩ := exists_ends_without_writes (EntityStore.loadFromStore codecs)
      s.store []
    exact ⟨tr, w, hload e tr w hends ▸ hends⟩

/-- After one space was created, loading gives the map with that space. -/
theorem loadFromStore_iff_memory_created : ∃ s, (mirrorSystem protoCodecs).Reachable s ∧
    (s.memory.mSpaces.find? (mintId kSpaceIdPrefix 0 0 0)).isSome ∧
    ∀ e, (∃ tr w, Ends (storeWorld False False) (EntityStore.loadFromStore protoCodecs) s.store
      tr e w) ↔ e = s.memory := by
  have hcreate := ends_afterCreateSpace False False protoCodecs ⟨.fresh, .empty⟩ none
    (ofString "a") 0 (Or.inl rfl) (Or.inl List.not_mem_nil)
  have hreach : (mirrorSystem protoCodecs).Reachable _ :=
    (TransitionSystem.Reachable.initial rfl).step (l := .op (.createSpace (ofString "a") false false))
      ⟨validUtf8_ofString _, _, hcreate⟩
  refine ⟨_, hreach, ?_, loadFromStore_iff_memory hreach⟩
  simp [afterCreateSpace, EntityStore.fresh, OrderedMap.find?_emplace, EntityStore.newSpace]

end Runs

end GcsChat
