import GcsChat.DedupeWindow
import GcsChat.HistoryExact

/-!
# The bound of the dedupe set

`kMaxSeenIds` is checked by the receive funnel and by the absorb loop of `QueryHistory`, each
before its insert, and not at all by `SendMessage`. So a send into a full set exceeds the bound,
and a batch that finds the set full in its middle forgets what it has just absorbed.
-/

namespace GcsChat.Messaging

open ByteString ProtoSchema

variable (M : Messaging)

/-- After the query, and until something is inserted into the set, every further delivery of a
message of the batch is absorbed. -/
def AbsorbsBatch (s : MessagingState) (T : Bytes) (entries : List (Bytes × Bytes)) : Prop :=
  ∀ msg ∈ M.historyMessages T entries, ∀ (t : MessagingState) (c : Call),
    t.seenIds = (M.queryHistory s T (some entries)).1.seenIds → c.Delivers M msg.id →
      newEvents t (M.perform t c) = [] ∧ newArchives t (M.perform t c) = []

/-- The ids held when the absorb loop has taken in `early` and comes to the next message: none if
it finds the set full. -/
def heldBefore (s : MessagingState) (early : List ChatMessageState) : Finset Bytes :=
  ClearOnFull.makeRoom kMaxSeenIds (absorb s early).seenIds

theorem heldBefore_eq (s : MessagingState) (early : List ChatMessageState) :
    heldBefore s early = ClearOnFull.makeRoom kMaxSeenIds
      (ClearOnFull.enterAll kMaxSeenIds s.seenIds (early.map (·.id))) := rfl

variable {M}

theorem absorbed_iff {c : Call} {x : Bytes} (h : c.Delivers M x) {s : MessagingState} :
    newEvents s (M.perform s c) = [] ∧ newArchives s (M.perform s c) = [] ↔ x ∈ s.seenIds := by
  constructor
  · intro hnone
    by_contra hx
    obtain ⟨T, v, msg, happ, hopen, rfl⟩ := h.exists_applied
    rw [perform_of_applied happ, applyMessage_of_notMem hopen hx, newEvents, accept_pushed,
      List.drop_left] at hnone
    exact List.cons_ne_nil _ _ hnone.1
  · intro hx
    rw [perform_eq_self_of_delivers h hx]
    exact ⟨List.drop_length, List.drop_length⟩

theorem exists_delivers_of_mem_historyMessages {T : Bytes} {entries : List (Bytes × Bytes)}
    {msg : ChatMessageState} (h : msg ∈ M.historyMessages T entries) :
    ∃ c : Call, c.Delivers M msg.id := by
  obtain ⟨entry, -, m, hopen, rfl⟩ := mem_historyMessages.1 h
  exact ⟨.live T entry.2, m, hopen, rfl⟩

theorem absorbsBatch_iff_mem {s : MessagingState} {T : Bytes} {entries : List (Bytes × Bytes)} :
    M.AbsorbsBatch s T entries ↔ ∀ x ∈ (M.historyMessages T entries).map (·.id),
      x ∈ ClearOnFull.enterAll kMaxSeenIds s.seenIds ((M.historyMessages T entries).map (·.id)) := by
  rw [List.forall_mem_map]
  constructor
  · intro h msg hmsg
    obtain ⟨c, hc⟩ := exists_delivers_of_mem_historyMessages hmsg
    exact (absorbed_iff hc).1 (h msg hmsg _ c rfl hc)
  · intro h msg hmsg t c ht hc
    apply (absorbed_iff hc).2
    rw [ht]
    exact h msg hmsg

/-- A message of the batch whose id no later message of the batch has stays absorbed exactly when
the ids held before it and those from it on, but the last, leave room in the set. -/
theorem absorbsBatch_iff (M : Messaging) (s : MessagingState) (T : Bytes)
    (entries : List (Bytes × Bytes)) :
    (M.AbsorbsBatch s T entries ↔
      ∀ early msg late, M.historyMessages T entries = early ++ msg :: late →
        msg.id ∉ late.map (·.id) →
          (heldBefore s early ∪ ((msg :: late).map (·.id)).dropLast.toFinset).card < kMaxSeenIds) ∧
    (((M.historyMessages T entries).map (·.id)).Nodup →
      (M.AbsorbsBatch s T entries ↔
        (heldBefore s [] ∪ ((M.historyMessages T entries).map (·.id)).dropLast.toFinset).card <
          kMaxSeenIds)) := by
  have hcap : 0 < kMaxSeenIds := by decide
  refine ⟨absorbsBatch_iff_mem.trans ?_, fun hnodup => absorbsBatch_iff_mem.trans
    (ClearOnFull.forall_mem_enterAll_iff_of_nodup hcap s.seenIds hnodup)⟩
  rw [ClearOnFull.forall_mem_enterAll_iff hcap]
  constructor
  · intro h early msg late hbatch hlate
    have hids : (M.historyMessages T entries).map (·.id) =
        early.map (·.id) ++ msg.id :: late.map (·.id) := by
      rw [hbatch, List.map_append, List.map_cons]
    rw [heldBefore_eq, List.map_cons]
    exact h _ _ _ hids hlate
  · intro h early x late hids hlate
    obtain ⟨before, rest, hbatch, rfl, hrest⟩ := List.map_eq_append_iff.1 hids
    obtain ⟨msg, after, rfl, rfl, rfl⟩ := List.map_eq_cons_iff.1 hrest
    have hroom := h before msg after hbatch hlate
    rw [heldBefore_eq, List.map_cons] at hroom
    exact hroom

theorem ids_historyMessages_numbered (sender : Bytes) {roomTopic : Bytes} (h : ValidUtf8 roomTopic)
    (ns : List ℕ) :
    (((plaintext sender).historyMessages roomTopic
      (ns.map (numberedEntry sender roomTopic))).map (·.id)).Perm
        (ns.map (nextMessageId 0 0)) := by
  have hperm := (historyMessages_perm_readable (plaintext sender) roomTopic
    (ns.map (numberedEntry sender roomTopic))).map (·.id)
  rw [map_id_map_withRole, ids_readable_numbered sender h ns] at hperm
  exact hperm

/-- Two messages in a component that has seen nothing yet. -/
theorem absorbsBatch_numbered :
    let M := plaintext (ofString "self")
    let entries := [0, 1].map (numberedEntry (ofString "self") kSmokeTopicA)
    ((M.historyMessages kSmokeTopicA entries).map (·.id)).Nodup ∧
      M.AbsorbsBatch .fresh kSmokeTopicA entries := by
  intro M entries
  have htopic : ValidUtf8 kSmokeTopicA := validUtf8_ofString _
  have hperm : ((M.historyMessages kSmokeTopicA entries).map (·.id)).Perm
      ([0, 1].map (nextMessageId 0 0)) := ids_historyMessages_numbered (ofString "self") htopic [0, 1]
  have hnodup := hperm.nodup_iff.2 (List.Nodup.map (nextMessageId_injective 0 0) (by decide))
  refine ⟨hnodup, ((absorbsBatch_iff M .fresh kSmokeTopicA entries).2 hnodup).2 ?_⟩
  have hheld : heldBefore .fresh [] = ∅ := by decide
  rw [hheld, Finset.empty_union]
  refine (List.toFinset_card_le _).trans_lt ?_
  rw [List.length_dropLast, hperm.length_eq]
  decide

def AbsorbsEveryBatch (M : Messaging) : Prop :=
  ∀ s, M.system.Reachable s → ∀ T entries, M.AbsorbsBatch s T entries

/-- A room with one message more than the set can hold. -/
theorem not_absorbsEveryBatch : ¬ AbsorbsEveryBatch (plaintext (ofString "self")) := by
  intro h
  have htopic : ValidUtf8 kSmokeTopicA := validUtf8_ofString _
  let entries := (List.range (kMaxSeenIds + 1)).map (numberedEntry (ofString "self") kSmokeTopicA)
  have hperm := ids_historyMessages_numbered (ofString "self") htopic
    (List.range (kMaxSeenIds + 1))
  have hnodup := hperm.nodup_iff.2 (List.nodup_range.map (nextMessageId_injective 0 0))
  have hroom := ((absorbsBatch_iff _ .fresh kSmokeTopicA entries).2 hnodup).1
    (h .fresh (TransitionSystem.Reachable.initial rfl) kSmokeTopicA entries)
  refine absurd hroom (not_lt.2 ?_)
  refine le_trans ?_ (Finset.card_le_card Finset.subset_union_right)
  rw [List.toFinset_card_of_nodup (hnodup.sublist (List.dropLast_sublist _)), List.length_dropLast,
    hperm.length_eq, List.length_map, List.length_range, Nat.add_sub_cancel]

/-- The send of an id that the set, exactly full, does not hold. -/
def Call.Overfills (s : MessagingState) : Call → Prop
  | .send _ _ o => s.seenIds.card = kMaxSeenIds ∧ o.id ∉ s.seenIds
  | _ => False

theorem card_applyMessage_le {s : MessagingState} (hs : s.seenIds.card ≤ kMaxSeenIds)
    (T v : Bytes) : (M.applyMessage s T v).seenIds.card ≤ kMaxSeenIds := by
  cases hopen : M.openMessage T v with
  | none =>
      rw [applyMessage_of_not_opened hopen]
      exact hs
  | some msg =>
      by_cases hseen : msg.id ∈ s.seenIds
      · rw [applyMessage_of_mem hopen hseen]
        exact hs
      · rw [applyMessage_of_notMem hopen hseen, accept_seenIds]
        exact ClearOnFull.card_enter_le (by decide) _ _

theorem card_perform_le_iff {s : MessagingState} (hs : s.seenIds.card ≤ kMaxSeenIds) (c : Call) :
    (M.perform s c).seenIds.card ≤ kMaxSeenIds ↔ ¬ c.Overfills s := by
  cases c with
  | send T text o =>
      rw [perform, sendMessage_seenIds, Call.Overfills]
      by_cases hid : o.id ∈ s.seenIds
      · rw [Finset.insert_eq_of_mem hid]
        exact iff_of_true hs fun h => h.2 hid
      · rw [Finset.card_insert_of_notMem hid]
        constructor
        · rintro hle ⟨hfull, -⟩
          omega
        · intro hnot
          have hne : s.seenIds.card ≠ kMaxSeenIds := fun hfull => hnot ⟨hfull, hid⟩
          omega
  | live T v => exact iff_of_true (card_applyMessage_le hs T v) id
  | arrived key v =>
      refine iff_of_true ?_ id
      rw [perform, onMessageArrived]
      cases roomTopicFromKey key with
      | none => exact hs
      | some roomTopic =>
          rw [Option.map_some, Option.getD_some]
          split_ifs
          · exact hs
          · exact card_applyMessage_le hs roomTopic v
  | history T scan =>
      refine iff_of_true ?_ id
      cases scan with
      | none => exact hs
      | some entries => exact ClearOnFull.card_enterAll_le (by decide) hs _
  | archive =>
      refine iff_of_true ?_ id
      rw [perform, popArchive]
      split <;> exact hs

/-- Along a run from a fresh component the set stays within the bound exactly when no send of the
run overfills it. -/
theorem card_seenIds_le_iff (M : Messaging) (p : M.system.Path) (h : p.state 0 = .fresh) :
    (∀ i ≤ p.length, (p.state i).seenIds.card ≤ kMaxSeenIds) ↔
      ∀ i < p.length, ¬ (p.label i).Overfills (p.state i) := by
  have hnext : ∀ i < p.length, p.state (i + 1) = M.perform (p.state i) (p.label i) :=
    fun i hi => (p.step i hi).symm
  constructor
  · intro hle i hi
    apply (card_perform_le_iff (hle i hi.le) (p.label i)).1
    rw [← hnext i hi]
    exact hle (i + 1) hi
  · intro hnot i
    induction i with
    | zero =>
        intro _
        rw [h]
        exact Nat.zero_le _
    | succ i ih =>
        intro hi
        rw [hnext i hi]
        exact (card_perform_le_iff (ih (by omega)) _).2 (hnot i hi)

theorem card_seenIds_le_single :
    let p : (plaintext (ofString "self")).system.Path :=
      .single (s := .fresh) (l := .send kSmokeTopicA [] ⟨[], 0, [], true, true⟩) rfl
    p.state 0 = .fresh ∧ ∀ i ≤ p.length, (p.state i).seenIds.card ≤ kMaxSeenIds := by
  intro p
  refine ⟨rfl, (card_seenIds_le_iff _ p rfl).2 fun i hi => ?_⟩
  obtain rfl : i = 0 := Nat.lt_one_iff.1 hi
  rintro ⟨hfull, -⟩
  exact absurd hfull (by decide)

def SeenIdsBounded (M : Messaging) : Prop :=
  ∀ s, M.system.Reachable s → s.seenIds.card ≤ kMaxSeenIds

def numberedSend (roomTopic : Bytes) (n : ℕ) : Call :=
  .send roomTopic [] ⟨nextMessageId 0 0 n, 0, [], true, true⟩

theorem performAll_numberedSend_seenIds (M : Messaging) (roomTopic : Bytes) (n : ℕ) :
    (M.performAll .fresh ((List.range n).map (numberedSend roomTopic))).seenIds =
      (Finset.range n).image (nextMessageId 0 0) := by
  induction n with
  | zero => rfl
  | succ n ih =>
      rw [performAll_range_succ, numberedSend, perform, sendMessage_seenIds, ih,
        Finset.range_add_one, Finset.image_insert]

/-- One send more than the set is meant to hold. -/
theorem not_seenIdsBounded : ¬ SeenIdsBounded (plaintext (ofString "self")) := by
  intro h
  have hle := h _ (reachable_performAll _
    ((List.range (kMaxSeenIds + 1)).map (numberedSend kSmokeTopicA)))
  rw [performAll_numberedSend_seenIds,
    Finset.card_image_of_injective _ (nextMessageId_injective 0 0), Finset.card_range] at hle
  omega

end GcsChat.Messaging
