import GcsChat.CatalogMirror

/-!
# Loading from arbitrary bytes

`LoadFromStore` reads a record under an id of the manifest and keeps it under the id inside the
record, unless an earlier record has taken that one. It is sound for the stores where the two ids
belong together. Elsewhere it shows records that the store does not have under their own keys, and
the next load loses an update of such a space.
-/

namespace GcsChat

open ByteString ProtoSchema Interactive

/-- The first listed id whose record has the id `k` inside. -/
def firstListedSpace (codecs : Codecs) (records : OrderedMap Bytes Bytes) (k : Bytes) :
    Option Bytes :=
  (listed codecs records true).find? fun x => (storedSpace codecs records x).any fun r => r.id = k

def firstListedRoom (codecs : Codecs) (records : OrderedMap Bytes Bytes) (k : Bytes) :
    Option Bytes :=
  (listed codecs records false).find? fun x => (storedRoom codecs records x).any fun r => r.id = k

def Loads (codecs : Codecs) (w : StoreState) (e : EntityStore) : Prop :=
  ∃ tr w', Ends (storeWorld False False) (EntityStore.loadFromStore codecs) w tr e w'

/-- What is loaded is listed and stored under its own key, and a successful update of a visible
space is visible after the next load. -/
structure LoadsSoundly (codecs : Codecs) (w : StoreState) : Prop where
  spaces : ∀ e, Loads codecs w e → ∀ k space, e.mSpaces.find? k = some space →
    k ∈ listed codecs w.records true ∧ storedSpace codecs w.records k = some space
  rooms : ∀ e, Loads codecs w e → ∀ k room, e.mRooms.find? k = some room →
    k ∈ listed codecs w.records false ∧ storedRoom codecs w.records k = some room
  updates : ∀ e, Loads codecs w e → ∀ space ∈ e.spaces, ∀ desired, spaceSchema.Valid desired →
    desired.id = space.id → ∀ tr e' updated w',
      Ends (storeWorld False False) (e.updateSpace codecs desired) w tr (e', some updated) w' →
        ∀ e'', Loads codecs w' e'' → ∃ visible ∈ e''.spaces, visible.id = space.id ∧
          visible.name = desired.name ∧ visible.isPublic = desired.isPublic ∧
          visible.autoJoinRooms = desired.autoJoinRooms

/-- The first listed record with an id inside is the one stored under that id, which is listed too,
and of a visible space it is the record's own key that comes first. -/
structure OwnRecords (codecs : Codecs) (records : OrderedMap Bytes Bytes) : Prop where
  spaces : ∀ k x, firstListedSpace codecs records k = some x → k ∈ listed codecs records true ∧
    storedSpace codecs records k = storedSpace codecs records x ∧
    ((storedSpace codecs records x).any (fun r => !r.deleted) = true → x = k)
  rooms : ∀ k x, firstListedRoom codecs records k = some x → k ∈ listed codecs records false ∧
    storedRoom codecs records k = storedRoom codecs records x

section First

variable {codecs : Codecs} {records : OrderedMap Bytes Bytes} {k x : Bytes}

theorem loadedSpace_eq (codecs : Codecs) (records : OrderedMap Bytes Bytes) (k : Bytes) :
    loadedSpace codecs records k =
      (firstListedSpace codecs records k).bind (storedSpace codecs records) :=
  List.find?_filterMap

theorem loadedRoom_eq (codecs : Codecs) (records : OrderedMap Bytes Bytes) (k : Bytes) :
    loadedRoom codecs records k =
      (firstListedRoom codecs records k).bind (storedRoom codecs records) :=
  List.find?_filterMap

theorem hit_of_firstListedSpace (h : firstListedSpace codecs records k = some x) :
    ((storedSpace codecs records x).any fun r => r.id = k) = true := by
  rw [firstListedSpace] at h
  exact (List.find?_some h :)

theorem hit_of_firstListedRoom (h : firstListedRoom codecs records k = some x) :
    ((storedRoom codecs records x).any fun r => r.id = k) = true := by
  rw [firstListedRoom] at h
  exact (List.find?_some h :)

theorem loadedSpace_of_first (h : firstListedSpace codecs records k = some x) :
    ∃ r, storedSpace codecs records x = some r ∧ r.id = k ∧
      loadedSpace codecs records k = some r := by
  obtain ⟨r, hr, hid⟩ := (Option.any_eq_true _ _).1 (hit_of_firstListedSpace h)
  exact ⟨r, hr, of_decide_eq_true hid, by rw [loadedSpace_eq, h, Option.bind_some, hr]⟩

theorem loadedRoom_of_first (h : firstListedRoom codecs records k = some x) :
    ∃ r, storedRoom codecs records x = some r ∧ r.id = k ∧
      loadedRoom codecs records k = some r := by
  obtain ⟨r, hr, hid⟩ := (Option.any_eq_true _ _).1 (hit_of_firstListedRoom h)
  exact ⟨r, hr, of_decide_eq_true hid, by rw [loadedRoom_eq, h, Option.bind_some, hr]⟩

theorem id_of_loadedSpace {r : SpaceRecord} (h : loadedSpace codecs records k = some r) :
    r.id = k := by
  rw [loadedSpace] at h
  exact of_decide_eq_true (List.find?_some h :)

/-- Changing what a search says of `k`, where `k` was a hit, leaves the first hit if it still is
one. -/
theorem find?_of_off {α : Type} {p p' : α → Bool} {l : List α} {x k : α}
    (hoff : ∀ a, a ≠ k → p' a = p a) (hk : p k = true) (hx : p' x = true)
    (h : l.find? p = some x) : l.find? p' = some x := by
  obtain ⟨-, before, after, rfl, hbefore⟩ := List.find?_eq_some_iff_append.1 h
  refine List.find?_eq_some_iff_append.2 ⟨hx, before, after, rfl, fun a ha => ?_⟩
  have hmiss := hbefore a ha
  rw [hoff a]
  · exact hmiss
  · rintro rfl
    rw [hk] at hmiss
    exact absurd hmiss Bool.false_ne_true

end First

section Loads

variable {codecs : Codecs} {w w' : StoreState} {e e' : EntityStore} {k x : Bytes}
  {desired updated : SpaceRecord} {tr : Trace (Effect Unit) Effect.Answer}

theorem exists_loads (codecs : Codecs) (w : StoreState) : ∃ e, Loads codecs w e := by
  obtain ⟨tr, e, w', hends, -, -⟩ := exists_ends_without_writes
    (EntityStore.loadFromStore codecs) w []
  exact ⟨e, tr, w', hends⟩

theorem Loads.find?_mSpaces (h : Loads codecs w e) (k : Bytes) :
    e.mSpaces.find? k = loadedSpace codecs w.records k := by
  obtain ⟨tr, w', hends⟩ := h
  exact (find?_of_ends_loadFromStore hends k).1

theorem Loads.find?_mRooms (h : Loads codecs w e) (k : Bytes) :
    e.mRooms.find? k = loadedRoom codecs w.records k := by
  obtain ⟨tr, w', hends⟩ := h
  exact (find?_of_ends_loadFromStore hends k).2

theorem Loads.mem_spaces_iff (h : Loads codecs w e) {space : SpaceRecord} :
    space ∈ e.spaces ↔
      loadedSpace codecs w.records space.id = some space ∧ space.deleted = false := by
  rw [EntityStore.spaces, List.mem_filter, OrderedMap.mem_values_iff, Bool.not_eq_true']
  refine and_congr_left fun _ => ⟨?_, fun hspace => ⟨_, (h.find?_mSpaces _).trans hspace⟩⟩
  rintro ⟨k, hk⟩
  rw [h.find?_mSpaces] at hk
  rw [id_of_loadedSpace hk]
  exact hk

theorem ends_updateSpace_some (h : Ends (storeWorld False False) (e.updateSpace codecs desired) w tr
      (e', some updated) w') :
    ∃ existing now, e.mSpaces.find? desired.id = some existing ∧ existing.deleted = false ∧
      IsInt64 now ∧ updated = EntityStore.updatedSpace desired existing now ∧
      w' = w.write (kSpacesKeyPrefix ++ desired.id) (codecs.space.serialize updated) := by
  rw [EntityStore.updateSpace] at h
  cases hfind : e.mSpaces.find? desired.id with
  | none =>
      rw [hfind, pure_eq_done, ends_done_iff] at h
      exact (Option.some_ne_none _ (congrArg Prod.snd h.2.1)).elim
  | some existing =>
      rw [hfind] at h
      cases hdeleted : existing.deleted with
      | true =>
          simp only [hdeleted, if_true, pure_eq_done, ends_done_iff] at h
          exact (Option.some_ne_none _ (congrArg Prod.snd h.2.1)).elim
      | false =>
          simp only [hdeleted, Bool.false_eq_true, if_false, ask_bind, done_bind,
            ends_ask_iff] at h
          obtain ⟨now, _, _, ⟨rfl, hnow⟩, ⟨ok, u, _, rfl, hrest, _⟩, _⟩ := h
          cases ok with
          | false =>
              rw [if_neg Bool.false_ne_true, pure_eq_done, ends_done_iff] at hrest
              exact (Option.some_ne_none _ (congrArg Prod.snd hrest.2.1)).elim
          | true =>
              rw [if_pos rfl, pure_eq_done, ends_done_iff] at hrest
              obtain ⟨-, hresult, rfl⟩ := hrest
              obtain rfl : updated = _ := Option.some.inj (congrArg Prod.snd hresult)
              exact ⟨existing, now, rfl, hdeleted, hnow, rfl, rfl⟩

theorem firstListedSpace_update (hvalid : spaceSchema.Valid updated) (h : updated.id = k)
    {r : SpaceRecord} (hown : storedSpace codecs w.records k = some r) (hr : r.id = k)
    (hfirst : firstListedSpace codecs w.records k = some x) :
    firstListedSpace codecs
      (w.write (kSpacesKeyPrefix ++ k) (codecs.space.serialize updated)).records k = some x := by
  have hlisted := listed_write_record codecs w true k (codecs.space.serialize updated) true
  have hhit := hit_of_firstListedSpace hfirst
  rw [firstListedSpace, recordsKeyPrefix, if_pos rfl] at *
  rw [hlisted]
  refine find?_of_off (k := k) (fun a ha => ?_) ?_ ?_ hfirst
  · rw [storedSpace_update hvalid, if_neg ha]
  · rw [hown, Option.any_some, hr]
    exact decide_eq_true rfl
  · rw [storedSpace_update hvalid]
    split_ifs
    · rw [Option.any_some, h]
      exact decide_eq_true rfl
    · exact hhit

theorem loadedSpace_update (hvalid : spaceSchema.Valid updated) (h : updated.id = k)
    {r : SpaceRecord} (hown : storedSpace codecs w.records k = some r) (hr : r.id = k)
    (hfirst : firstListedSpace codecs w.records k = some x) :
    loadedSpace codecs
        (w.write (kSpacesKeyPrefix ++ k) (codecs.space.serialize updated)).records k =
      if x = k then some updated else storedSpace codecs w.records x := by
  rw [loadedSpace_eq, firstListedSpace_update hvalid h hown hr hfirst, Option.bind_some,
    storedSpace_update hvalid]

end Loads

variable {codecs : Codecs} {w : StoreState}

theorem LoadsSoundly.ownRecords (h : LoadsSoundly codecs w) : OwnRecords codecs w.records := by
  obtain ⟨e, he⟩ := exists_loads codecs w
  refine ⟨fun k x hfirst => ?_, fun k x hfirst => ?_⟩
  · obtain ⟨r, hr, rfl, hloaded⟩ := loadedSpace_of_first hfirst
    have hfind : e.mSpaces.find? r.id = some r := (he.find?_mSpaces r.id).trans hloaded
    obtain ⟨hlisted, hown⟩ := h.spaces e he r.id r hfind
    refine ⟨hlisted, hown.trans hr.symm, fun hvisible => ?_⟩
    rw [hr, Option.any_some, Bool.not_eq_true'] at hvisible
    by_contra hne
    -- a record that is read under another key hides whatever an update writes
    obtain ⟨name, hname, hnew⟩ : ∃ name, ValidUtf8 name ∧ name ≠ r.name := by
      by_cases hempty : r.name = []
      · exact ⟨ofString "a", validUtf8_ofString _, by rw [hempty]; decide⟩
      · exact ⟨[], validUtf8_nil, fun h => hempty h.symm⟩
    obtain ⟨v, _, hv⟩ := Option.bind_eq_some_iff.1 hr
    have hvalid : spaceSchema.Valid r := codecs.space.valid_of_parse v r hv
    have hdesired : spaceSchema.Valid { r with name := name } := by
      rw [spaceSchema_valid_iff] at hvalid ⊢
      exact ⟨⟨hvalid.1.1, hname, hvalid.1.2.2⟩, hvalid.2⟩
    have hfind' : e.mSpaces.find? ({ r with name := name } : SpaceRecord).id = some r := hfind
    obtain ⟨tr, hends⟩ := ends_updateSpace_zero False False hfind' hvisible w
    obtain ⟨e'', he''⟩ := exists_loads codecs (w.write _ _)
    obtain ⟨visible, hmem, hsame, hshown, _⟩ := h.updates e he r
      (he.mem_spaces_iff.2 ⟨hloaded, hvisible⟩) _ hdesired rfl tr _ _ _ hends e'' he''
    have hreload := (he''.mem_spaces_iff.1 hmem).1
    have hupdated := valid_updatedSpace hdesired hvalid isInt64_zero
    have hkept := loadedSpace_update (k := r.id) hupdated rfl hown rfl hfirst
    rw [if_neg hne, hr] at hkept
    obtain rfl : visible = r := Option.some.inj ((hsame ▸ hreload).symm.trans hkept)
    exact hnew hshown.symm
  · obtain ⟨r, hr, hid, hloaded⟩ := loadedRoom_of_first hfirst
    obtain ⟨hlisted, hown⟩ := h.rooms e he k r ((he.find?_mRooms k).trans hloaded)
    exact ⟨hlisted, hown.trans hr.symm⟩

theorem OwnRecords.loadsSoundly (h : OwnRecords codecs w.records) : LoadsSoundly codecs w := by
  refine ⟨fun e he k space hspace => ?_, fun e he k room hroom => ?_, ?_⟩
  · rw [he.find?_mSpaces, loadedSpace_eq, Option.bind_eq_some_iff] at hspace
    obtain ⟨x, hfirst, hx⟩ := hspace
    obtain ⟨hlisted, hown, _⟩ := h.spaces k x hfirst
    exact ⟨hlisted, hown.trans hx⟩
  · rw [he.find?_mRooms, loadedRoom_eq, Option.bind_eq_some_iff] at hroom
    obtain ⟨x, hfirst, hx⟩ := hroom
    obtain ⟨hlisted, hown⟩ := h.rooms k x hfirst
    exact ⟨hlisted, hown.trans hx⟩
  · intro e he space hspace desired hdesired hid tr e' updated w' hends e'' he''
    obtain ⟨hloaded, hvisible⟩ := he.mem_spaces_iff.1 hspace
    obtain ⟨existing, now, hfind, hdeleted, hnow, rfl, rfl⟩ := ends_updateSpace_some hends
    rw [hid, he.find?_mSpaces, hloaded] at hfind
    obtain rfl := Option.some.inj hfind
    have hfirst := hloaded
    rw [loadedSpace_eq, Option.bind_eq_some_iff] at hfirst
    obtain ⟨x, hfirst, hx⟩ := hfirst
    have hown : x = space.id := by
      apply (h.spaces _ x hfirst).2.2
      rw [hx, Option.any_some, hvisible]
      rfl
    obtain ⟨v, _, hv⟩ := Option.bind_eq_some_iff.1 hx
    have hvalid := valid_updatedSpace hdesired (codecs.space.valid_of_parse v space hv) hnow
    have hupdated : (EntityStore.updatedSpace desired space now).id = space.id := hid
    have hreload := loadedSpace_update hvalid hupdated (hown ▸ hx) rfl hfirst
    rw [if_pos hown] at hreload
    rw [hid] at he''
    refine ⟨EntityStore.updatedSpace desired space now, ?_, hid, rfl, rfl, rfl⟩
    exact he''.mem_spaces_iff.2 ⟨hupdated.symm ▸ hreload, hdeleted⟩

/-- Loading is sound exactly for the stores whose listed records come first under their own ids. -/
theorem loadsSoundly_iff_ownRecords (codecs : Codecs) (w : StoreState) :
    LoadsSoundly codecs w ↔ OwnRecords codecs w.records :=
  ⟨LoadsSoundly.ownRecords, OwnRecords.loadsSoundly⟩

/-- A store whose manifest lists the id `x`, under which lies a space with the id `k`. -/
def misfiledStore (codecs : Codecs) (x k : Bytes) : StoreState :=
  (StoreState.empty.write kManifestKey (manifestWith codecs none true x)).write
    (kSpacesKeyPrefix ++ x)
    (codecs.space.serialize (EntityStore.newSpace k (ofString "a") false false 0))

theorem not_loadsSoundly_misfiledStore (codecs : Codecs) {x k : Bytes} (hx : ValidUtf8 x)
    (hk : ValidUtf8 k) (hne : k ≠ x) : ¬ LoadsSoundly codecs (misfiledStore codecs x k) := by
  intro h
  have hlisted : ∀ y, y ∈ listed codecs (misfiledStore codecs x k).records true ↔ y = x := by
    intro y
    have hsame : listed codecs (misfiledStore codecs x k).records true = _ :=
      listed_write_record codecs (StoreState.empty.write kManifestKey _) true x _ true
    rw [hsame, listed_write_manifest codecs _ none true hx]
    simp [readManifest, EntityManifest.ids_empty]
  have hvalid := valid_newSpace hk (validUtf8_ofString "a") false false isInt64_zero
  have hstored : storedSpace codecs (misfiledStore codecs x k).records x = some _ :=
    (storedSpace_update hvalid x).trans (if_pos rfl)
  obtain ⟨y, hfirst⟩ :
      ∃ y, firstListedSpace codecs (misfiledStore codecs x k).records k = some y := by
    refine Option.isSome_iff_exists.1 (List.find?_isSome.2 ⟨x, (hlisted x).2 rfl, ?_⟩)
    rw [hstored]
    exact decide_eq_true rfl
  exact hne ((hlisted k).1 (h.ownRecords.spaces k y hfirst).1)

/-- A space is kept under an id that the manifest does not list. -/
theorem unlisted_id_loaded : ¬ LoadsSoundly protoCodecs
    (misfiledStore protoCodecs (ofString "x") (ofString "k")) :=
  not_loadsSoundly_misfiledStore protoCodecs (validUtf8_ofString "x") (validUtf8_ofString "k")
    (by decide)

end GcsChat
