import GcsChat.Catalog

/-!
# The catalog index

`AppendToManifest` takes a manifest that it could not read for an empty one and writes the union
back. Over any run of the catalog operations against a store whose calls may fail, listed ids stay
listed exactly as long as no creation writes the manifest after failing to read one that lists
another id.
-/

namespace GcsChat

open ByteString ProtoSchema Interactive

structure CatalogState where
  memory : EntityStore
  store : StoreState

def CatalogOp.creates : CatalogOp → Option Bool
  | .createSpace _ _ _ => some true
  | .createRoom _ _ => some false
  | _ => none

def catalogSystem (codecs : Codecs) :
    TransitionSystem CatalogState (CatalogOp × Trace (Effect Unit) Effect.Answer) where
  initial s := s.memory = .fresh
  step s l t := Ends (storeWorld True True) (l.1.program codecs s.memory) s.store l.2 t.memory t.store

def ListsMore (codecs : Codecs) (s t : CatalogState) : Prop :=
  ∀ isSpaceId, listed codecs s.store.records isSpaceId ⊆ listed codecs t.store.records isSpaceId

/-- A creation could not read the stored manifest, which lists another id, and wrote its own. -/
def WritesOverUnread (codecs : Codecs) (s : CatalogState)
    (l : CatalogOp × Trace (Effect Unit) Effect.Answer) : Prop :=
  ∃ isSpaceId id value, l.1.creates = some isSpaceId ∧
    ⟨.nextId (idPrefix isSpaceId), id⟩ ∈ l.2 ∧ ⟨.get kManifestKey, none⟩ ∈ l.2 ∧
    ⟨.put kManifestKey value, true⟩ ∈ l.2 ∧
    ∃ isSpaceId' x, x ∈ listed codecs s.store.records isSpaceId' ∧
      ¬ (isSpaceId' = isSpaceId ∧ x = id)

theorem ListsMore.refl (codecs : Codecs) (s : CatalogState) : ListsMore codecs s s :=
  fun _ => List.Subset.refl _

theorem ListsMore.trans {codecs : Codecs} {s t u : CatalogState} (h : ListsMore codecs s t)
    (h' : ListsMore codecs t u) : ListsMore codecs s u :=
  fun isSpaceId => List.Subset.trans (h isSpaceId) (h' isSpaceId)

section Creation

variable {codecs : Codecs} {s t : CatalogState} {op : CatalogOp} {isSpaceId : Bool} {id : Bytes}

theorem listsMore_iff_of_manifest (hid : ValidUtf8 id) {stored : Option Bytes} {record : Bytes}
    {ok : Bool}
    (ht : t.store = if ok then ((s.store.mint id).write kManifestKey
          (manifestWith codecs stored isSpaceId id)).write (recordsKeyPrefix isSpaceId ++ id) record
        else (s.store.mint id).write kManifestKey (manifestWith codecs stored isSpaceId id)) :
    ListsMore codecs s t ↔ ∀ isSpaceId' x, x ∈ listed codecs s.store.records isSpaceId' →
      x ∈ (readManifest codecs stored).ids isSpaceId' ∨ isSpaceId' = isSpaceId ∧ x = id := by
  refine forall_congr' fun isSpaceId' => forall_congr' fun x => ?_
  have hlisted : x ∈ listed codecs t.store.records isSpaceId' ↔
      x ∈ (readManifest codecs stored).ids isSpaceId' ∨ isSpaceId' = isSpaceId ∧ x = id := by
    rw [ht]
    cases ok with
    | true =>
        rw [if_pos rfl, listed_write_record]
        exact listed_write_manifest codecs _ stored isSpaceId hid isSpaceId'
    | false => exact listed_write_manifest codecs _ stored isSpaceId hid isSpaceId'
  rw [hlisted]

theorem writesOverUnread_iff_of_manifest (hop : op.creates = some isSpaceId)
    {stored : Option Bytes} {key value record : Bytes} {now : ℤ} {ok : Bool} :
    WritesOverUnread codecs s (op, [⟨.nextId (idPrefix isSpaceId), id⟩, ⟨.nowMs, now⟩,
        ⟨.get kManifestKey, stored⟩, ⟨.put kManifestKey value, true⟩, ⟨.put key record, ok⟩]) ↔
      stored = none ∧ ∃ isSpaceId' x, x ∈ listed codecs s.store.records isSpaceId' ∧
        ¬ (isSpaceId' = isSpaceId ∧ x = id) := by
  constructor
  · rintro ⟨isSpaceId₁, id₁, value₁, hop₁, hid₁, hget, _, hother⟩
    obtain rfl := Option.some.inj (hop.symm.trans hop₁)
    have hid : id₁ = id := by simpa using hid₁
    have hnone : stored = none := by simpa [eq_comm] using hget
    exact ⟨hnone, hid ▸ hother⟩
  · rintro ⟨rfl, hother⟩
    exact ⟨isSpaceId, id, value, hop, by simp, by simp, by simp, hother⟩

/-- A creation that ran keeps the listed ids exactly when it read the manifest or did not write it
over another id. -/
theorem listsMore_writeEntity_iff {record : Bytes} {now : ℤ} {ok : Bool}
    {tr : Trace (Effect Unit) Effect.Answer} (hop : op.creates = some isSpaceId)
    (hid : ValidUtf8 id)
    (h : Ends (storeWorld True True) (EntityStore.writeEntity codecs isSpaceId id
      (recordsKeyPrefix isSpaceId ++ id) record) (s.store.mint id) tr ok t.store) :
    ListsMore codecs s t ↔ ¬ WritesOverUnread codecs s
      (op, ⟨.nextId (idPrefix isSpaceId), id⟩ :: ⟨.nowMs, now⟩ :: tr) := by
  obtain ⟨stored, hread, ⟨rfl, ht, rfl⟩ | ⟨ht, rfl⟩⟩ := ends_writeEntity h
  · refine iff_of_true (fun isSpaceId' => ?_) ?_
    · rw [ht, StoreState.mint_records]
      exact List.Subset.refl _
    · rintro ⟨_, _, _, _, _, _, hput, _⟩
      simp at hput
  · rw [listsMore_iff_of_manifest hid ht, writesOverUnread_iff_of_manifest hop]
    rcases hread with hread | ⟨_, rfl⟩
    · rw [StoreState.mint_records] at hread
      subst hread
      refine iff_of_true (fun isSpaceId' x hx => ?_) ?_
      · rw [ids_readManifest]
        exact Or.inl hx
      · rintro ⟨hnone, isSpaceId', x, hx, _⟩
        simp [listed, hnone] at hx
    · have hempty : ∀ b, (readManifest codecs none).ids b = [] := EntityManifest.ids_empty
      simp only [hempty, List.not_mem_nil, false_or, true_and, not_exists, not_and_not_right]

end Creation

theorem listsMore_iff_not_writesOverUnread {codecs : Codecs} {s t : CatalogState}
    {l : CatalogOp × Trace (Effect Unit) Effect.Answer} (h : (catalogSystem codecs).step s l t) :
    ListsMore codecs s t ↔ ¬ WritesOverUnread codecs s l := by
  obtain ⟨op, tr⟩ := l
  have hsame : op.creates = none → t.store.records = s.store.records →
      (ListsMore codecs s t ↔ ¬ WritesOverUnread codecs s (op, tr)) := by
    intro hop hrecords
    refine iff_of_true (fun isSpaceId => by rw [hrecords]; exact List.Subset.refl _) ?_
    rintro ⟨_, _, _, hop', _⟩
    simp [hop] at hop'
  cases op with
  | loadFromStore => exact hsame rfl (by rw [ends_loadFromStore h])
  | createSpace name isPublic autoJoinRooms =>
      obtain ⟨id, now, tr', ok, _, ⟨ms, token, seq, rfl⟩, _, rfl, hwrite, _⟩ := ends_createSpace h
      exact listsMore_writeEntity_iff rfl (validUtf8_mintId (validUtf8_ofString _) ms token seq)
        hwrite
  | createRoom name parentSpaceId =>
      rcases ends_createRoom h with ⟨_, hstore, rfl⟩ |
        ⟨id, now, tr', ok, _, ⟨ms, token, seq, rfl⟩, _, rfl, hwrite, _⟩
      · refine iff_of_true (fun isSpaceId => by rw [hstore]; exact List.Subset.refl _) ?_
        rintro ⟨_, _, _, _, hmint, _⟩
        simp at hmint
      · exact listsMore_writeEntity_iff rfl (validUtf8_mintId (validUtf8_ofString _) ms token seq)
          hwrite
  | updateSpace desired =>
      rcases ends_updateSpace h with ⟨_, hstore, rfl⟩ | ⟨existing, now, ok, _, _, rfl, hstore, _⟩
      · exact hsame rfl (by rw [hstore])
      · refine iff_of_true (fun isSpaceId => ?_) ?_
        · rw [hstore]
          cases ok with
          | true =>
              have hkept := listed_write_record codecs s.store true desired.id
                (codecs.space.serialize (EntityStore.updatedSpace desired existing now)) isSpaceId
              exact hkept ▸ List.Subset.refl _
          | false => exact List.Subset.refl _
        · rintro ⟨_, _, _, hop, _⟩
          cases hop

/-- Over every run, from any content of the store, listed ids stay listed exactly when no creation
writes the manifest after failing to read one that lists another id. -/
theorem index_append_only_iff (codecs : Codecs) (p : (catalogSystem codecs).Path) :
    (∀ i j, i ≤ j → j ≤ p.length → ListsMore codecs (p.state i) (p.state j)) ↔
      ∀ i < p.length, ¬ WritesOverUnread codecs (p.state i) (p.label i) :=
  p.forall_le_iff (ListsMore.refl codecs) (fun _ _ _ => ListsMore.trans)
    fun _ _ _ => listsMore_iff_not_writesOverUnread

/-- The state after a created space, with all writes through and this answer for the manifest. -/
def afterCreateSpace (codecs : Codecs) (s : CatalogState) (stored : Option Bytes) (name : Bytes)
    (seq : ℕ) : CatalogState :=
  let id := mintId kSpaceIdPrefix 0 0 seq
  let record := EntityStore.newSpace id name false false 0
  ⟨s.memory.emplaceSpace record,
    ((s.store.mint id).write kManifestKey (manifestWith codecs stored true id)).write
      (recordsKeyPrefix true ++ id) (codecs.space.serialize record)⟩

theorem ends_afterCreateSpace (readsMayFail idsMayRepeat : Prop) (codecs : Codecs)
    (s : CatalogState) (stored : Option Bytes) (name : Bytes) (seq : ℕ)
    (hread : stored = s.store.records.find? kManifestKey ∨ readsMayFail ∧ stored = none)
    (hfresh : mintId kSpaceIdPrefix 0 0 seq ∉ s.store.minted ∨ idsMayRepeat) :
    let id := mintId kSpaceIdPrefix 0 0 seq
    Ends (storeWorld readsMayFail idsMayRepeat)
      ((CatalogOp.createSpace name false false).program codecs s.memory) s.store
      [⟨.nextId kSpaceIdPrefix, id⟩, ⟨.nowMs, (0 : ℤ)⟩, ⟨.get kManifestKey, stored⟩,
        ⟨.put kManifestKey (manifestWith codecs stored true id), true⟩,
        ⟨.put (recordsKeyPrefix true ++ id)
          (codecs.space.serialize (EntityStore.newSpace id name false false 0)), true⟩]
      (afterCreateSpace codecs s stored name seq).memory
      (afterCreateSpace codecs s stored name seq).store := by
  intro id
  refine ends_ask_iff.2 ⟨id, _, _, ⟨rfl, hfresh, 0, 0, seq, rfl⟩, ?_, rfl⟩
  refine ends_ask_iff.2 ⟨(0 : ℤ), _, _, ⟨rfl, isInt64_zero⟩, ?_, rfl⟩
  refine ends_ask_iff.2 ⟨stored, _, _, ⟨rfl, hread⟩, ?_, rfl⟩
  refine ends_ask_iff.2 ⟨true, _, _, rfl, ?_, rfl⟩
  refine ends_ask_iff.2 ⟨true, _, _, rfl, ?_, rfl⟩
  exact .nil _ _

theorem ends_updateSpace_zero (readsMayFail idsMayRepeat : Prop) {codecs : Codecs}
    {e : EntityStore} {desired existing : SpaceRecord}
    (hfind : e.mSpaces.find? desired.id = some existing) (hdeleted : existing.deleted = false)
    (w : StoreState) :
    ∃ tr, Ends (storeWorld readsMayFail idsMayRepeat) (e.updateSpace codecs desired) w tr
      (e.assignSpace (EntityStore.updatedSpace desired existing 0),
        some (EntityStore.updatedSpace desired existing 0))
      (w.write (kSpacesKeyPrefix ++ desired.id)
        (codecs.space.serialize (EntityStore.updatedSpace desired existing 0))) := by
  rw [EntityStore.updateSpace, hfind]
  simp only [hdeleted, Bool.false_eq_true, if_false, ask_bind, done_bind]
  refine ⟨[⟨.nowMs, (0 : ℤ)⟩, ⟨.put (kSpacesKeyPrefix ++ desired.id)
      (codecs.space.serialize (EntityStore.updatedSpace desired existing 0)), true⟩], ?_⟩
  refine ends_ask_iff.2 ⟨(0 : ℤ), w, _, ⟨rfl, isInt64_zero⟩, ?_, rfl⟩
  refine ends_ask_iff.2 ⟨true, _, _, rfl, ?_, rfl⟩
  exact .nil _ _

theorem listed_afterCreateSpace (codecs : Codecs) (s : CatalogState) (stored : Option Bytes)
    (name : Bytes) (seq : ℕ) {x : Bytes} :
    x ∈ listed codecs (afterCreateSpace codecs s stored name seq).store.records true ↔
      x ∈ (readManifest codecs stored).ids true ∨ x = mintId kSpaceIdPrefix 0 0 seq := by
  have hid : ValidUtf8 (mintId kSpaceIdPrefix 0 0 seq) :=
    validUtf8_mintId (validUtf8_ofString _) 0 0 seq
  simp only [afterCreateSpace]
  rw [listed_write_record, listed_write_manifest codecs _ stored true hid]
  simp only [true_and]

/-- The second of two creations fails to read the manifest and writes one without the first space. -/
theorem unread_manifest_unlists : ∃ s ls t, (catalogSystem protoCodecs).Reachable s ∧
    (catalogSystem protoCodecs).Run s ls t ∧ ¬ ListsMore protoCodecs s t := by
  let s₀ : CatalogState := ⟨.fresh, .empty⟩
  let s₁ := afterCreateSpace protoCodecs s₀ none (ofString "a") 0
  have hfirst := ends_afterCreateSpace True True protoCodecs s₀ none (ofString "a") 0
    (Or.inr ⟨trivial, rfl⟩) (Or.inr trivial)
  have hsecond := ends_afterCreateSpace True True protoCodecs s₁ none (ofString "b") 1
    (Or.inr ⟨trivial, rfl⟩) (Or.inr trivial)
  have hreach : (catalogSystem protoCodecs).Reachable s₁ :=
    (TransitionSystem.Reachable.initial rfl).step (l := (_, _)) hfirst
  refine ⟨s₁, [(_, _)], _, hreach, .single hsecond, fun hmore => ?_⟩
  have hkept := hmore true ((listed_afterCreateSpace protoCodecs s₀ none _ 0).2 (Or.inr rfl))
  rcases (listed_afterCreateSpace protoCodecs s₁ none _ 1).1 hkept with hkept | hkept
  · exact List.not_mem_nil hkept
  · exact absurd (mintId_seq_injective _ _ _ hkept) (by decide)

end GcsChat
