import GcsChat.CatalogMirror

/-!
# What a run of the catalog keeps

Reads and writes may fail here; only the minted ids are fresh. Every record lies under the key of
its own id and is parsed back, and the maps hold records that are stored. So a record keeps the
fields that `UpdateSpace` restores from memory, and a room keeps its bytes.
-/

namespace GcsChat

open ByteString ProtoSchema Interactive

def freshCatalogSystem (codecs : Codecs) :
    TransitionSystem CatalogState (CatalogOp × Trace (Effect Unit) Effect.Answer) where
  initial s := s = ⟨.fresh, .empty⟩
  step s l t := l.1.WellFormed ∧
    Ends (storeWorld True False) (l.1.program codecs s.memory) s.store l.2 t.memory t.store

/-- The fields of a space that are set when it is created. -/
structure SameAuthority (r r' : SpaceRecord) : Prop where
  id : r'.id = r.id
  createdAtMs : r'.createdAtMs = r.createdAtMs
  deleted : r'.deleted = r.deleted
  deletedAtMs : r'.deletedAtMs = r.deletedAtMs

def HoldsSpace (codecs : Codecs) (s : CatalogState) (x : Bytes) (r : SpaceRecord) : Prop :=
  s.memory.mSpaces.find? x = some r ∨ storedSpace codecs s.store.records x = some r

def HoldsRoom (codecs : Codecs) (s : CatalogState) (x : Bytes) (r : RoomRecord) : Prop :=
  s.memory.mRooms.find? x = some r ∨ storedRoom codecs s.store.records x = some r

/-- What later states of a run have of the records of an earlier one: the store has every space
still, with the same authority fields wherever it is held, and the bytes of every room. -/
structure KeepsCatalog (codecs : Codecs) (s t : CatalogState) : Prop where
  storedSpaces : ∀ x r, storedSpace codecs s.store.records x = some r →
    ∃ r', storedSpace codecs t.store.records x = some r'
  spaces : ∀ x r r', HoldsSpace codecs s x r → HoldsSpace codecs t x r' → SameAuthority r r'
  storedRooms : ∀ x v, s.store.records.find? (kRoomsKeyPrefix ++ x) = some v →
    t.store.records.find? (kRoomsKeyPrefix ++ x) = some v
  rooms : ∀ x r r', HoldsRoom codecs s x r → HoldsRoom codecs t x r' → r' = r

/-- An update puts nothing but the record of its own space, and nothing else is different after
it. -/
structure UpdatesOnly (id : Bytes) (s : CatalogState) (tr : Trace (Effect Unit) Effect.Answer)
    (t : CatalogState) : Prop where
  puts : ∀ key value ok, (⟨.put key value, ok⟩ : (e : Effect Unit) × e.Answer) ∈ tr →
    key = kSpacesKeyPrefix ++ id
  records : ∀ key, key ≠ kSpacesKeyPrefix ++ id →
    t.store.records.find? key = s.store.records.find? key
  manifest : t.store.records.find? kManifestKey = s.store.records.find? kManifestKey
  spaces : ∀ x, x ≠ id → t.memory.mSpaces.find? x = s.memory.mSpaces.find? x
  rooms : t.memory.mRooms = s.memory.mRooms

/-- Every record lies under the key of its own id, which was minted, and what is in memory is
stored. -/
structure FrameInvariant (codecs : Codecs) (s : CatalogState) : Prop where
  own : ∀ isSpaceId x v, s.store.records.find? (recordsKeyPrefix isSpaceId ++ x) = some v →
    entityId codecs isSpaceId v = some x ∧ x ∈ s.store.minted
  spaces : ∀ x r, s.memory.mSpaces.find? x = some r → storedSpace codecs s.store.records x = some r
  rooms : ∀ x r, s.memory.mRooms.find? x = some r → storedRoom codecs s.store.records x = some r

section Invariant

variable {codecs : Codecs} {s t : CatalogState} {tr : Trace (Effect Unit) Effect.Answer}
  {w w' : StoreState} {x : Bytes}

theorem SameAuthority.refl (r : SpaceRecord) : SameAuthority r r := ⟨rfl, rfl, rfl, rfl⟩

theorem SameAuthority.trans {r r' r'' : SpaceRecord} (h : SameAuthority r r')
    (h' : SameAuthority r' r'') : SameAuthority r r'' :=
  ⟨h'.id.trans h.id, h'.createdAtMs.trans h.createdAtMs, h'.deleted.trans h.deleted,
    h'.deletedAtMs.trans h.deletedAtMs⟩

theorem FrameInvariant.holdsSpace_iff (h : FrameInvariant codecs s) {r : SpaceRecord} :
    HoldsSpace codecs s x r ↔ storedSpace codecs s.store.records x = some r :=
  ⟨fun hr => hr.elim (h.spaces x r) fun hr => hr, Or.inr⟩

theorem FrameInvariant.holdsRoom_iff (h : FrameInvariant codecs s) {r : RoomRecord} :
    HoldsRoom codecs s x r ↔ storedRoom codecs s.store.records x = some r :=
  ⟨fun hr => hr.elim (h.rooms x r) fun hr => hr, Or.inr⟩

theorem FrameInvariant.storedSpace_id (h : FrameInvariant codecs s) {r : SpaceRecord}
    (hr : storedSpace codecs s.store.records x = some r) : r.id = x ∧ x ∈ s.store.minted := by
  obtain ⟨v, hv, hparse⟩ := Option.bind_eq_some_iff.1 hr
  obtain ⟨hid, hminted⟩ := h.own true x v hv
  simp only [entityId, if_true, hparse, Option.map_some, Option.some.injEq] at hid
  exact ⟨hid, hminted⟩

theorem FrameInvariant.storedRoom_id (h : FrameInvariant codecs s) {r : RoomRecord}
    (hr : storedRoom codecs s.store.records x = some r) : r.id = x ∧ x ∈ s.store.minted := by
  obtain ⟨v, hv, hparse⟩ := Option.bind_eq_some_iff.1 hr
  obtain ⟨hid, hminted⟩ := h.own false x v hv
  simp only [entityId, Bool.false_eq_true, if_false, hparse, Option.map_some,
    Option.some.injEq] at hid
  exact ⟨hid, hminted⟩

theorem find?_of_ends_loadRecords_some {readsMayFail idsMayRepeat : Prop} {α : Type}
    {parse : Bytes → Option α} {idOf : α → Bytes} {keyPrefix : Bytes} {ids : List Bytes}
    {m m' : OrderedMap Bytes α} {r : α}
    (h : Ends (storeWorld readsMayFail idsMayRepeat)
      (EntityStore.loadRecords parse idOf keyPrefix ids m) w tr m' w')
    (hr : m'.find? x = some r) :
    m.find? x = some r ∨
      idOf r = x ∧ ∃ y, (w.records.find? (keyPrefix ++ y)).bind parse = some r := by
  induction ids generalizing m tr with
  | nil =>
      rw [(ends_done_iff.1 h).2.1] at hr
      exact Or.inl hr
  | cons id rest ih =>
      simp only [EntityStore.loadRecords, ask_bind, done_bind, ends_ask_iff] at h
      obtain ⟨a, u, tr', ⟨rfl, hread⟩, hrest, _⟩ := h
      cases hparse : a.bind parse with
      | none =>
          rw [hparse] at hrest
          exact ih hrest
      | some record =>
          rw [hparse] at hrest
          refine (ih hrest).elim (fun hm => ?_) Or.inr
          rw [OrderedMap.find?_emplace] at hm
          split_ifs at hm with hsame
          · obtain rfl := Option.some.inj hm
            obtain rfl | ⟨-, rfl⟩ := hread
            · exact Or.inr ⟨hsame.1.symm, id, hparse⟩
            · exact absurd hparse.symm (Option.some_ne_none record)
          · exact Or.inl hm

theorem FrameInvariant.loadFromStore (h : FrameInvariant codecs s) {e : EntityStore}
    (hends : Ends (storeWorld True False) (EntityStore.loadFromStore codecs) s.store tr e w') :
    FrameInvariant codecs ⟨e, w'⟩ := by
  obtain rfl := ends_loadFromStore hends
  simp only [EntityStore.loadFromStore, ask_bind, done_bind, ends_ask_iff] at hends
  obtain ⟨a, _, _, ⟨rfl, _⟩, hrest, _⟩ := hends
  cases hparse : a.bind codecs.manifest.parse with
  | none =>
      rw [hparse] at hrest
      rw [(ends_done_iff.1 hrest).2.1]
      exact ⟨h.own, fun x r hr => by simp [EntityStore.fresh] at hr,
        fun x r hr => by simp [EntityStore.fresh] at hr⟩
  | some manifest =>
      simp only [hparse, ends_bind_iff] at hrest
      obtain ⟨spaces, _, _, u₁, hspaces, ⟨rooms, _, _, u₂, hrooms, hdone, _⟩, _⟩ := hrest
      obtain rfl := ends_loadRecords hspaces
      rw [(ends_done_iff.1 hdone).2.1]
      refine ⟨h.own, fun x r hr => ?_, fun x r hr => ?_⟩
      · obtain hm | ⟨rfl, y, hy⟩ := find?_of_ends_loadRecords_some hspaces hr
        · simp at hm
        · have hown : r.id = y := (h.storedSpace_id hy).1
          exact hown ▸ hy
      · obtain hm | ⟨rfl, y, hy⟩ := find?_of_ends_loadRecords_some hrooms hr
        · simp at hm
        · have hown : r.id = y := (h.storedRoom_id hy).1
          exact hown ▸ hy

end Invariant

structure StoredKept (codecs : Codecs) (records records' : OrderedMap Bytes Bytes) : Prop where
  spaces : ∀ x r, storedSpace codecs records x = some r →
    ∃ r', storedSpace codecs records' x = some r' ∧ SameAuthority r r'
  rooms : ∀ x v, records.find? (kRoomsKeyPrefix ++ x) = some v →
    records'.find? (kRoomsKeyPrefix ++ x) = some v

section Steps

variable {codecs : Codecs} {s t : CatalogState} {tr : Trace (Effect Unit) Effect.Answer}
  {w' : StoreState}

theorem StoredKept.refl (codecs : Codecs) (records : OrderedMap Bytes Bytes) :
    StoredKept codecs records records :=
  ⟨fun _ r hr => ⟨r, hr, .refl r⟩, fun _ _ hv => hv⟩

theorem StoredKept.trans {records records' records'' : OrderedMap Bytes Bytes}
    (h : StoredKept codecs records records') (h' : StoredKept codecs records' records'') :
    StoredKept codecs records records'' := by
  refine ⟨fun x r hr => ?_, fun x v hv => h'.rooms x v (h.rooms x v hv)⟩
  obtain ⟨r', hr', hsame⟩ := h.spaces x r hr
  obtain ⟨r'', hr'', hsame'⟩ := h'.spaces x r' hr'
  exact ⟨r'', hr'', hsame.trans hsame'⟩

theorem minted_of_ends_writeEntity {readsMayFail idsMayRepeat : Prop} {isSpaceId : Bool}
    {id key record : Bytes} {ok : Bool} {w : StoreState}
    (h : Ends (storeWorld readsMayFail idsMayRepeat)
      (EntityStore.writeEntity codecs isSpaceId id key record) w tr ok w') :
    w'.minted = w.minted := by
  obtain ⟨stored, _, ⟨-, rfl, -⟩ | ⟨rfl, -⟩⟩ := ends_writeEntity h
  · rfl
  · split_ifs <;> rfl

theorem FrameInvariant.created (h : FrameInvariant codecs s) {isSpaceId : Bool}
    {id record : Bytes} {ok : Bool} (hfresh : id ∉ s.store.minted)
    (hrecord : entityId codecs isSpaceId record = some id)
    (hends : Ends (storeWorld True False) (EntityStore.writeEntity codecs isSpaceId id
      (recordsKeyPrefix isSpaceId ++ id) record) (s.store.mint id) tr ok w') :
    FrameInvariant codecs ⟨s.memory, w'⟩ ∧ StoredKept codecs s.store.records w'.records := by
  have hfind := find?_of_ends_writeEntity hends
  have hminted : w'.minted = s.store.minted ++ [id] := minted_of_ends_writeEntity hends
  have hkept : ∀ b x v, s.store.records.find? (recordsKeyPrefix b ++ x) = some v →
      w'.records.find? (recordsKeyPrefix b ++ x) = some v := by
    intro b x v hv
    rw [hfind, if_neg, hv]
    rintro ⟨-, rfl, rfl⟩
    exact hfresh (h.own _ _ v hv).2
  have hspace : ∀ x r, storedSpace codecs s.store.records x = some r →
      storedSpace codecs w'.records x = some r := by
    intro x r hr
    obtain ⟨v, hv, hparse⟩ := Option.bind_eq_some_iff.1 hr
    exact Option.bind_eq_some_iff.2 ⟨v, hkept true x v hv, hparse⟩
  have hroom : ∀ x r, storedRoom codecs s.store.records x = some r →
      storedRoom codecs w'.records x = some r := by
    intro x r hr
    obtain ⟨v, hv, hparse⟩ := Option.bind_eq_some_iff.1 hr
    exact Option.bind_eq_some_iff.2 ⟨v, hkept false x v hv, hparse⟩
  refine ⟨⟨fun b x v hv => ?_, fun x r hr => hspace x r (h.spaces x r hr),
    fun x r hr => hroom x r (h.rooms x r hr)⟩, fun x r hr => ⟨r, hspace x r hr, .refl r⟩,
    hkept false⟩
  show _ ∧ x ∈ w'.minted
  rw [hminted, List.mem_append]
  rw [hfind] at hv
  split_ifs at hv with hnew
  · obtain ⟨-, rfl, rfl⟩ := hnew
    obtain rfl := Option.some.inj hv
    exact ⟨hrecord, Or.inr List.mem_cons_self⟩
  · exact ⟨(h.own b x v hv).1, Or.inl (h.own b x v hv).2⟩

theorem FrameInvariant.emplaceSpace (h : FrameInvariant codecs s) {space : SpaceRecord}
    (hstored : storedSpace codecs s.store.records space.id = some space) :
    FrameInvariant codecs ⟨s.memory.emplaceSpace space, s.store⟩ := by
  refine ⟨h.own, fun x r hr => ?_, h.rooms⟩
  rw [EntityStore.emplaceSpace_mSpaces, OrderedMap.find?_emplace] at hr
  split_ifs at hr with hnew
  · obtain ⟨rfl, -⟩ := hnew
    exact hr ▸ hstored
  · exact h.spaces x r hr

theorem FrameInvariant.emplaceRoom (h : FrameInvariant codecs s) {room : RoomRecord}
    (hstored : storedRoom codecs s.store.records room.id = some room) :
    FrameInvariant codecs ⟨s.memory.emplaceRoom room, s.store⟩ := by
  refine ⟨h.own, h.spaces, fun x r hr => ?_⟩
  rw [EntityStore.emplaceRoom_mRooms, OrderedMap.find?_emplace] at hr
  split_ifs at hr with hnew
  · obtain ⟨rfl, -⟩ := hnew
    exact hr ▸ hstored
  · exact h.rooms x r hr

theorem FrameInvariant.createSpace (h : FrameInvariant codecs s) {name : Bytes}
    {isPublic autoJoinRooms : Bool} (hname : ValidUtf8 name)
    (hends : Ends (storeWorld True False)
      ((CatalogOp.createSpace name isPublic autoJoinRooms).program codecs s.memory) s.store tr
      t.memory t.store) :
    FrameInvariant codecs t ∧ StoredKept codecs s.store.records t.store.records := by
  obtain ⟨id, now, tr', ok, hfresh, ⟨ms, token, seq, rfl⟩, hnow, _, hwrite, hmemory⟩ :=
    ends_createSpace hends
  rw [or_false] at hfresh
  have hutf8 : ValidUtf8 (mintId kSpaceIdPrefix ms token seq) :=
    validUtf8_mintId (validUtf8_ofString _) ms token seq
  have hparse := codecs.space.parse_serialize _
    (valid_newSpace hutf8 hname isPublic autoJoinRooms hnow)
  obtain ⟨hinv, hkept⟩ := h.created hfresh (by simp only [entityId, if_true, hparse]; rfl) hwrite
  refine ⟨?_, hkept⟩
  obtain ⟨memory, store⟩ := t
  cases ok with
  | false =>
      obtain rfl : memory = s.memory := hmemory
      exact hinv
  | true =>
      obtain rfl : memory = s.memory.emplaceSpace _ := hmemory
      apply hinv.emplaceSpace
      refine (storedSpace_of_find? (find?_of_ends_writeEntity hwrite) _).trans ?_
      rw [if_pos ⟨rfl, rfl, rfl⟩, hparse]

theorem FrameInvariant.createRoom (h : FrameInvariant codecs s) {name parentSpaceId : Bytes}
    (hname : ValidUtf8 name) (hparent : ValidUtf8 parentSpaceId)
    (hends : Ends (storeWorld True False)
      ((CatalogOp.createRoom name parentSpaceId).program codecs s.memory) s.store tr
      t.memory t.store) :
    FrameInvariant codecs t ∧ StoredKept codecs s.store.records t.store.records := by
  obtain ⟨memory, store⟩ := t
  rcases ends_createRoom hends with ⟨rfl, rfl, _⟩ |
    ⟨id, now, tr', ok, hfresh, ⟨ms, token, seq, rfl⟩, hnow, _, hwrite, hmemory⟩
  · exact ⟨h, .refl codecs _⟩
  · rw [or_false] at hfresh
    have hutf8 : ValidUtf8 (mintId kRoomIdPrefix ms token seq) :=
      validUtf8_mintId (validUtf8_ofString _) ms token seq
    have hparse := codecs.room.parse_serialize _ (valid_newRoom hutf8 hname hparent hnow)
    obtain ⟨hinv, hkept⟩ := h.created hfresh
      (by simp only [entityId, Bool.false_eq_true, if_false, hparse]; rfl) hwrite
    refine ⟨?_, hkept⟩
    cases ok with
    | false =>
        obtain rfl : memory = s.memory := hmemory
        exact hinv
    | true =>
        obtain rfl : memory = s.memory.emplaceRoom _ := hmemory
        apply hinv.emplaceRoom
        refine (storedRoom_of_find? (find?_of_ends_writeEntity hwrite) _).trans ?_
        rw [if_pos ⟨rfl, rfl, rfl⟩, hparse]

/-- An update that keeps the authority fields of the record in memory keeps those of the stored
one. -/
theorem FrameInvariant.assigned (h : FrameInvariant codecs s) {updated existing : SpaceRecord}
    (hexisting : s.memory.mSpaces.find? updated.id = some existing)
    (hvalid : spaceSchema.Valid updated) (hsame : SameAuthority existing updated) :
    FrameInvariant codecs ⟨s.memory.assignSpace updated,
      s.store.write (kSpacesKeyPrefix ++ updated.id) (codecs.space.serialize updated)⟩ ∧
    StoredKept codecs s.store.records (s.store.write (kSpacesKeyPrefix ++ updated.id)
      (codecs.space.serialize updated)).records := by
  have hstored := h.spaces updated.id existing hexisting
  have hspace : ∀ x, storedSpace codecs (s.store.write (kSpacesKeyPrefix ++ updated.id)
      (codecs.space.serialize updated)).records x = _ := storedSpace_update hvalid
  have hfind := find?_write_record s.store true updated.id (codecs.space.serialize updated)
  refine ⟨⟨fun b x v hv => ?_, fun x r hr => (hspace x).trans ?_, fun x r hr => ?_⟩,
    fun x r hr => ?_, fun x v hv => (hfind false x).trans ?_⟩
  · have hw := (hfind b x).symm.trans hv
    split_ifs at hw with hown
    · obtain ⟨rfl, rfl⟩ := hown
      obtain rfl := Option.some.inj hw
      refine ⟨?_, (h.storedSpace_id hstored).2⟩
      rw [entityId, if_pos rfl, codecs.space.parse_serialize _ hvalid]
      rfl
    · exact h.own b x v hw
  · rw [EntityStore.assignSpace_mSpaces, OrderedMap.find?_insertOrAssign] at hr
    split_ifs at hr ⊢
    · exact hr
    · exact h.spaces x r hr
  · exact (storedRoom_update _ _ x).trans (h.rooms x r hr)
  · rw [hspace]
    split_ifs with hx
    · rw [hx, hstored] at hr
      exact ⟨updated, rfl, Option.some.inj hr ▸ hsame⟩
    · exact ⟨r, hr, .refl r⟩
  · rw [if_neg (by simp)]
    exact hv

/-- An update restores the authority fields from memory, where they are as stored. -/
theorem FrameInvariant.updateSpace (h : FrameInvariant codecs s) {desired : SpaceRecord}
    (hdesired : spaceSchema.Valid desired)
    (hends : Ends (storeWorld True False)
      ((CatalogOp.updateSpace desired).program codecs s.memory) s.store tr t.memory t.store) :
    FrameInvariant codecs t ∧ StoredKept codecs s.store.records t.store.records := by
  obtain ⟨memory, store⟩ := t
  rcases ends_updateSpace hends with ⟨rfl, rfl, _⟩ |
    ⟨existing, now, ok, hexisting, hnow, _, hstore, hmemory⟩
  · exact ⟨h, .refl codecs _⟩
  · cases ok with
    | false =>
        obtain rfl : memory = s.memory := hmemory
        obtain rfl : store = s.store := hstore
        exact ⟨h, .refl codecs _⟩
    | true =>
        obtain rfl : memory = s.memory.assignSpace _ := hmemory
        obtain rfl : store = s.store.write _ _ := hstore
        have hstored := h.spaces desired.id existing hexisting
        obtain ⟨v, _, hv⟩ := Option.bind_eq_some_iff.1 hstored
        have hupdated : s.memory.mSpaces.find?
            (EntityStore.updatedSpace desired existing now).id = some existing := hexisting
        apply h.assigned hupdated
        · exact valid_updatedSpace hdesired (codecs.space.valid_of_parse v existing hv) hnow
        · exact ⟨(h.storedSpace_id hstored).1.symm, rfl, rfl, rfl⟩

theorem updatesOnly_of_ends {readsMayFail idsMayRepeat : Prop} {desired : SpaceRecord}
    (hends : Ends (storeWorld readsMayFail idsMayRepeat)
      ((CatalogOp.updateSpace desired).program codecs s.memory) s.store tr t.memory t.store) :
    UpdatesOnly desired.id s tr t := by
  obtain ⟨memory, store⟩ := t
  have hmanifest : kManifestKey ≠ kSpacesKeyPrefix ++ desired.id :=
    (recordsKeyPrefix_append_ne_kManifestKey true desired.id).symm
  rcases ends_updateSpace hends with ⟨rfl, rfl, rfl⟩ |
    ⟨existing, now, ok, _, _, rfl, hstore, hmemory⟩
  · exact ⟨fun _ _ _ h => absurd h List.not_mem_nil, fun _ _ => rfl, rfl, fun _ _ => rfl, rfl⟩
  · have hrecords : ∀ key, key ≠ kSpacesKeyPrefix ++ desired.id →
        store.records.find? key = s.store.records.find? key := by
      intro key hkey
      rw [show store = _ from hstore]
      split_ifs
      · rw [StoreState.write_records, OrderedMap.find?_insertOrAssign, if_neg hkey]
      · rfl
    refine ⟨fun key value ok h => ?_, hrecords, hrecords _ hmanifest, fun x hx => ?_, ?_⟩
    · simp only [List.mem_cons, List.not_mem_nil, or_false] at h
      rcases h with h | h
      · cases h
      · cases h
        rfl
    · rw [show memory = _ from hmemory]
      split_ifs
      · rw [EntityStore.assignSpace_mSpaces, OrderedMap.find?_insertOrAssign]
        exact if_neg hx
      · rfl
    · rw [show memory = _ from hmemory]
      split_ifs <;> rfl

theorem eq_of_ends_updateSpace_absent {readsMayFail idsMayRepeat : Prop} {desired : SpaceRecord}
    (hends : Ends (storeWorld readsMayFail idsMayRepeat)
      ((CatalogOp.updateSpace desired).program codecs s.memory) s.store tr t.memory t.store)
    (habsent : ∀ existing, s.memory.mSpaces.find? desired.id = some existing →
      existing.deleted = true) : tr = [] ∧ t = s := by
  obtain ⟨memory, store⟩ := t
  simp only [CatalogOp.program, EntityStore.updateSpace] at hends
  cases hfind : s.memory.mSpaces.find? desired.id with
  | none =>
      simp only [hfind, pure_eq_done, done_bind, ends_done_iff] at hends
      obtain ⟨rfl, rfl, rfl⟩ := hends
      exact ⟨rfl, rfl⟩
  | some existing =>
      simp only [hfind, habsent existing hfind, if_true, pure_eq_done, done_bind,
        ends_done_iff] at hends
      obtain ⟨rfl, rfl, rfl⟩ := hends
      exact ⟨rfl, rfl⟩

theorem FrameInvariant.step {l : CatalogOp × Trace (Effect Unit) Effect.Answer}
    (h : FrameInvariant codecs s) (hstep : (freshCatalogSystem codecs).step s l t) :
    FrameInvariant codecs t ∧ StoredKept codecs s.store.records t.store.records := by
  obtain ⟨op, tr⟩ := l
  obtain ⟨hop, hends⟩ := hstep
  cases op with
  | loadFromStore =>
      have hstore : t.store = s.store := ends_loadFromStore hends
      exact ⟨h.loadFromStore hends, hstore ▸ .refl codecs _⟩
  | createSpace name isPublic autoJoinRooms => exact h.createSpace hop hends
  | createRoom name parentSpaceId => exact h.createRoom hop.1 hop.2 hends
  | updateSpace desired => exact h.updateSpace hop hends

end Steps

section Runs

variable {codecs : Codecs} {s t : CatalogState}
  {ls : List (CatalogOp × Trace (Effect Unit) Effect.Answer)}

theorem frameInvariant_of_reachable (h : (freshCatalogSystem codecs).Reachable s) :
    FrameInvariant codecs s := by
  refine h.invariant (fun s hs => ?_) fun s l t hs hstep => (hs.step hstep).1
  rw [hs]
  exact ⟨fun b x v hv => by simp [StoreState.empty] at hv,
    fun x r hr => by simp [EntityStore.fresh] at hr,
    fun x r hr => by simp [EntityStore.fresh] at hr⟩

theorem storedKept_of_run (hs : FrameInvariant codecs s)
    (h : (freshCatalogSystem codecs).Run s ls t) :
    StoredKept codecs s.store.records t.store.records := by
  induction h with
  | nil => exact .refl codecs _
  | snoc hrun hstep ih =>
      have hinv := hrun.invariant (fun s l t hs hstep => (hs.step hstep).1) hs
      exact ih.trans (hinv.step hstep).2

theorem keepsCatalog_of_run (hs : (freshCatalogSystem codecs).Reachable s)
    (h : (freshCatalogSystem codecs).Run s ls t) : KeepsCatalog codecs s t := by
  have hinv := frameInvariant_of_reachable hs
  have hinv' := frameInvariant_of_reachable (hs.run h)
  have hkept := storedKept_of_run hinv h
  refine ⟨fun x r hr => ?_, fun x r r' hr hr' => ?_, hkept.rooms, fun x r r' hr hr' => ?_⟩
  · obtain ⟨r', hr', _⟩ := hkept.spaces x r hr
    exact ⟨r', hr'⟩
  · obtain ⟨r'', hr'', hsame⟩ := hkept.spaces x r (hinv.holdsSpace_iff.1 hr)
    rw [hinv'.holdsSpace_iff, hr''] at hr'
    exact Option.some.inj hr' ▸ hsame
  · obtain ⟨v, hv, hparse⟩ := Option.bind_eq_some_iff.1 (hinv.holdsRoom_iff.1 hr)
    have hroom : storedRoom codecs t.store.records x = some r :=
      Option.bind_eq_some_iff.2 ⟨v, hkept.rooms x v hv, hparse⟩
    rw [hinv'.holdsRoom_iff, hroom] at hr'
    exact (Option.some.inj hr').symm

/-- Whatever reads and writes fail in a run, no space changes an authority field and no room changes
at all. An update puts the record of its own space only, and nothing if the id is unknown or
tombstoned. -/
theorem catalog_frame (hs : (freshCatalogSystem codecs).Reachable s)
    (h : (freshCatalogSystem codecs).Run s ls t) :
    KeepsCatalog codecs s t ∧ ∀ desired tr u,
      (freshCatalogSystem codecs).step t (.updateSpace desired, tr) u →
        UpdatesOnly desired.id t tr u ∧
          ((∀ existing, t.memory.mSpaces.find? desired.id = some existing →
            existing.deleted = true) → tr = [] ∧ u = t) :=
  ⟨keepsCatalog_of_run hs h, fun _ _ _ hstep =>
    ⟨updatesOnly_of_ends hstep.2, eq_of_ends_updateSpace_absent hstep.2⟩⟩

/-- A space is created and renamed. -/
theorem catalog_frame_renamed : ∃ s ls t, (freshCatalogSystem protoCodecs).Reachable s ∧
    (freshCatalogSystem protoCodecs).Run s ls t ∧
    (t.memory.mSpaces.find? (mintId kSpaceIdPrefix 0 0 0)).map (·.name) = some (ofString "b") ∧
    KeepsCatalog protoCodecs s t ∧ ∀ desired tr u,
      (freshCatalogSystem protoCodecs).step t (.updateSpace desired, tr) u →
        UpdatesOnly desired.id t tr u ∧
          ((∀ existing, t.memory.mSpaces.find? desired.id = some existing →
            existing.deleted = true) → tr = [] ∧ u = t) := by
  let s := afterCreateSpace protoCodecs ⟨.fresh, .empty⟩ none (ofString "a") 0
  let id := mintId kSpaceIdPrefix 0 0 0
  let created := EntityStore.newSpace id (ofString "a") false false 0
  let desired := EntityStore.newSpace id (ofString "b") true true 0
  have hcreate := ends_afterCreateSpace True False protoCodecs ⟨.fresh, .empty⟩ none
    (ofString "a") 0 (Or.inl rfl) (Or.inl List.not_mem_nil)
  have hreach : (freshCatalogSystem protoCodecs).Reachable s :=
    (TransitionSystem.Reachable.initial rfl).step
      (l := (.createSpace (ofString "a") false false, _)) ⟨validUtf8_ofString _, hcreate⟩
  have hfind : s.memory.mSpaces.find? desired.id = some created := by
    refine (OrderedMap.find?_emplace _ _ _ _).trans (if_pos ⟨rfl, ?_⟩)
    simp [EntityStore.fresh]
  obtain ⟨tr, hupdate⟩ := ends_updateSpace_zero True False hfind rfl s.store
  have hdesired : spaceSchema.Valid desired :=
    valid_newSpace (validUtf8_mintId (validUtf8_ofString _) 0 0 0) (validUtf8_ofString _) _ _
      isInt64_zero
  let t : CatalogState := ⟨s.memory.assignSpace (EntityStore.updatedSpace desired created 0),
    s.store.write (kSpacesKeyPrefix ++ id)
      (protoCodecs.space.serialize (EntityStore.updatedSpace desired created 0))⟩
  have hends : Ends (storeWorld True False)
      ((CatalogOp.updateSpace desired).program protoCodecs s.memory) s.store (tr ++ []) t.memory
      t.store := ends_bind_iff.2 ⟨_, tr, [], _, hupdate, ends_done_iff.2 ⟨rfl, rfl, rfl⟩, rfl⟩
  have hrun : (freshCatalogSystem protoCodecs).Run s [(.updateSpace desired, tr ++ [])] t :=
    .single ⟨hdesired, hends⟩
  refine ⟨s, _, t, hreach, hrun, ?_, catalog_frame hreach hrun⟩
  simp [t, desired, id, EntityStore.updatedSpace, EntityStore.newSpace]

end Runs

end GcsChat
