import GcsChat.Messaging

/-!
# What a history query returns

`QueryHistory` skips the records it cannot decrypt or parse, marks the others as the user's own or a
peer's, and sorts them. Where ids tell the records apart, the order of the scan does not matter, and
neither do the records that it skips.
-/

namespace GcsChat

open ByteString ProtoSchema

namespace Messaging

def HistoryLT (a b : ChatMessageState) : Prop :=
  a.timestamp < b.timestamp ∨ a.timestamp = b.timestamp ∧ a.id < b.id

variable (M : Messaging)

def isReadable (roomTopic : Bytes) (entry : Bytes × Bytes) : Bool :=
  (M.openMessage roomTopic entry.2).isSome

/-- The records of the scan that decrypt and parse, in the order of the scan. -/
def readable (roomTopic : Bytes) (scan : List (Bytes × Bytes)) : List ChatMessageState :=
  scan.filterMap fun entry => M.openMessage roomTopic entry.2

variable {M} {roomTopic : Bytes} {scan scan' : List (Bytes × Bytes)}

theorem historyMessages_eq (M : Messaging) (roomTopic : Bytes) (scan : List (Bytes × Bytes)) :
    M.historyMessages roomTopic scan =
      ((M.readable roomTopic scan).map M.withRole).insertionSort historyLE := by
  rw [historyMessages, readable, List.map_filterMap]

theorem queryHistory_some (M : Messaging) (s : MessagingState) (roomTopic : Bytes)
    (scan : List (Bytes × Bytes)) : M.queryHistory s roomTopic (some scan) =
      (absorb s (M.historyMessages roomTopic scan),
        some ⟨roomTopic, M.historyMessages roomTopic scan⟩) := rfl

theorem map_id_map_withRole (M : Messaging) (messages : List ChatMessageState) :
    (messages.map M.withRole).map (·.id) = messages.map (·.id) := by
  rw [List.map_map]
  rfl

theorem historyMessages_perm_readable (M : Messaging) (roomTopic : Bytes)
    (scan : List (Bytes × Bytes)) :
    (M.historyMessages roomTopic scan).Perm ((M.readable roomTopic scan).map M.withRole) := by
  rw [historyMessages_eq]
  exact List.perm_insertionSort historyLE _

theorem nodup_ids_historyMessages (hids : ((M.readable roomTopic scan).map (·.id)).Nodup) :
    ((M.historyMessages roomTopic scan).map (·.id)).Nodup := by
  rw [((historyMessages_perm_readable M roomTopic scan).map (·.id)).nodup_iff, map_id_map_withRole]
  exact hids

theorem historyLT_of_historyLE {a b : ChatMessageState} (hle : historyLE a b) (hne : a.id ≠ b.id) :
    HistoryLT a b := by
  rcases hle with htime | ⟨htime, hid⟩
  · exact .inl htime
  · exact .inr ⟨htime, lt_of_le_of_ne hid hne⟩

theorem pairwise_historyLT_historyMessages
    (hids : ((M.readable roomTopic scan).map (·.id)).Nodup) :
    (M.historyMessages roomTopic scan).Pairwise HistoryLT := by
  have hsorted : (M.historyMessages roomTopic scan).Pairwise historyLE :=
    List.pairwise_insertionSort historyLE _
  have hdistinct := List.pairwise_map.1 (nodup_ids_historyMessages hids)
  exact (hsorted.and hdistinct).imp fun h => historyLT_of_historyLE h.1 h.2

/-- Two scans of the same readable records, in whatever order, give one batch. -/
theorem historyMessages_eq_of_perm (hperm : (M.readable roomTopic scan').Perm
    (M.readable roomTopic scan)) (hids : ((M.readable roomTopic scan).map (·.id)).Nodup) :
    M.historyMessages roomTopic scan' = M.historyMessages roomTopic scan := by
  have hids' : (((M.readable roomTopic scan').map M.withRole).map (·.id)).Nodup := by
    rw [map_id_map_withRole, (hperm.map _).nodup_iff]
    exact hids
  rw [historyMessages_eq, historyMessages_eq]
  apply insertionSort_historyLE_eq_of_perm (hperm.map _)
  intro a ha b hb hid
  exact List.inj_on_of_nodup_map hids' ha hb hid

theorem readable_filter_isReadable (M : Messaging) (roomTopic : Bytes)
    (scan : List (Bytes × Bytes)) :
    M.readable roomTopic (scan.filter (M.isReadable roomTopic)) = M.readable roomTopic scan := by
  rw [readable, readable, List.filterMap_filter]
  congr 1
  funext entry
  cases hopen : M.openMessage roomTopic entry.2 <;> simp [isReadable, hopen]

def numberedEntry (sender roomTopic : Bytes) (n : ℕ) : Bytes × Bytes :=
  (buildKey roomTopic (nextMessageId 0 0 n),
    (plaintext sender).codec.serialize (numberedMessage roomTopic n))

theorem ids_readable_numbered (sender : Bytes) {roomTopic : Bytes} (h : ValidUtf8 roomTopic)
    (ns : List ℕ) : ((plaintext sender).readable roomTopic
      (ns.map (numberedEntry sender roomTopic))).map (·.id) = ns.map (nextMessageId 0 0) := by
  have hreadable : (plaintext sender).readable roomTopic (ns.map (numberedEntry sender roomTopic)) =
      ns.map (numberedMessage roomTopic) := by
    rw [readable, List.filterMap_map, ← List.filterMap_eq_map]
    congr 1
    funext n
    exact openMessage_plaintext sender roomTopic (valid_numberedMessage h n)
  rw [hreadable, List.map_map]
  rfl

/-- Of the entries of a scan whose readable records have distinct ids, the batch has each readable
record once, with its role only changed, by timestamp and id. Neither the order of the scan nor the
entries that are skipped, whatever they are and wherever they stand, change the result. -/
theorem queryHistory_exact (M : Messaging) (s : MessagingState) (roomTopic : Bytes)
    (scan : List (Bytes × Bytes)) (hids : ((M.readable roomTopic scan).map (·.id)).Nodup) :
    (∃ messages, (M.queryHistory s roomTopic (some scan)).2 = some ⟨roomTopic, messages⟩ ∧
      messages.Pairwise HistoryLT ∧ messages.Nodup ∧
      messages.Perm ((M.readable roomTopic scan).map fun msg =>
        { msg with role := roleFor msg M.sender })) ∧
    (∀ scan' : List (Bytes × Bytes), scan'.Perm scan →
      M.queryHistory s roomTopic (some scan') = M.queryHistory s roomTopic (some scan)) ∧
    ∀ scan' : List (Bytes × Bytes),
      scan'.filter (M.isReadable roomTopic) = scan.filter (M.isReadable roomTopic) →
        M.queryHistory s roomTopic (some scan') = M.queryHistory s roomTopic (some scan) := by
  refine ⟨⟨M.historyMessages roomTopic scan, rfl, pairwise_historyLT_historyMessages hids,
    (nodup_ids_historyMessages hids).of_map, historyMessages_perm_readable M roomTopic scan⟩,
    fun scan' hperm => ?_, fun scan' hsame => ?_⟩
  · rw [queryHistory_some, queryHistory_some,
      historyMessages_eq_of_perm (hperm.filterMap _) hids]
  · have hreadable : M.readable roomTopic scan' = M.readable roomTopic scan := by
      rw [← readable_filter_isReadable, hsame, readable_filter_isReadable]
    rw [queryHistory_some, queryHistory_some,
      historyMessages_eq_of_perm (.of_eq hreadable) hids]

/-- Two messages of the same time, scanned in either order. -/
theorem queryHistory_exact_numbered :
    let M := plaintext (ofString "self")
    let entry := numberedEntry (ofString "self") kSmokeTopicA
    ((M.readable kSmokeTopicA [entry 0, entry 1]).map (·.id)).Nodup ∧
      M.queryHistory .fresh kSmokeTopicA (some [entry 1, entry 0]) =
        M.queryHistory .fresh kSmokeTopicA (some [entry 0, entry 1]) := by
  intro M entry
  have hids : ((M.readable kSmokeTopicA [entry 0, entry 1]).map (·.id)).Nodup := by
    have htopic : ValidUtf8 kSmokeTopicA := validUtf8_ofString _
    have hnumbered := ids_readable_numbered (ofString "self") htopic [0, 1]
    rw [List.map_cons, List.map_cons, List.map_nil] at hnumbered
    rw [hnumbered]
    exact List.Nodup.map (nextMessageId_injective 0 0) (by decide)
  exact ⟨hids, (queryHistory_exact M .fresh kSmokeTopicA _ hids).2.1 _ (.swap _ _ _)⟩

end Messaging

end GcsChat
