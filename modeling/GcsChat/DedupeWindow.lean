import GcsChat.RoomBinding

/-!
# The dedupe window

How long `m_seenIds` remembers an id. The set forgets everything when it is full, so what it
guarantees after a delivery is the room left at that moment and not its capacity: as long as the
ids held then and the ids inserted since fit the set, nothing is forgotten.
-/

namespace GcsChat.Messaging

open ByteString ProtoSchema

variable (M : Messaging)

def Call.message (c : Call) : Option ChatMessageState :=
  c.applied.bind fun call => M.openMessage call.1 call.2

/-- The call is a delivery of the id, by either route. -/
def Call.Delivers (c : Call) (id : Bytes) : Prop := ∃ msg, c.message M = some msg ∧ msg.id = id

def Call.isHistory : Call → Bool
  | .history _ _ => true
  | _ => false

/-- The ids a call inserts into the dedupe set when it does not hold them. -/
def Call.ids (c : Call) : Finset Bytes :=
  match c with
  | .live _ _ | .arrived _ _ => (c.message M).elim ∅ fun msg => {msg.id}
  | .send _ _ o => {o.id}
  | .history roomTopic scan => scan.elim ∅ fun entries =>
      ((M.historyMessages roomTopic entries).map (·.id)).toFinset
  | .archive => ∅

def callsIds : List Call → Finset Bytes
  | [] => ∅
  | c :: cs => c.ids M ∪ callsIds cs

/-- The ids held and the ids the calls insert fit the set, with one place to spare for the calls
that clear it without looking at the id they insert. -/
def Fits (s : MessagingState) (cs : List Call) : Prop :=
  (s.seenIds ∪ callsIds M cs).card < kMaxSeenIds ∨
    (s.seenIds ∪ callsIds M cs).card ≤ kMaxSeenIds ∧ ∀ c ∈ cs, c.isHistory = false

variable {M}

theorem sendMessage_seenIds (s : MessagingState) (roomTopic text : Bytes) (o : SendOutcomes) :
    (M.sendMessage s roomTopic text o).1.seenIds = insert o.id s.seenIds := by
  simp only [sendMessage]
  split
  · rfl
  · split_ifs <;> rfl

theorem Call.ids_of_applied {c : Call} {T v : Bytes} (h : c.applied = some (T, v)) :
    c.ids M = (M.openMessage T v).elim ∅ fun msg => {msg.id} := by
  have hmsg : c.message M = M.openMessage T v := by rw [Call.message, h, Option.bind_some]
  cases c with
  | live _ _ => simp only [ids, hmsg]
  | arrived _ _ => simp only [ids, hmsg]
  | send _ _ _ => exact absurd h (by simp [applied])
  | history _ _ => exact absurd h (by simp [applied])
  | archive => exact absurd h (by simp [applied])

theorem applyMessage_seenIds_of_card_le {s : MessagingState} {T v : Bytes}
    (h : (s.seenIds ∪ (M.openMessage T v).elim ∅ fun msg => {msg.id}).card ≤ kMaxSeenIds) :
    (M.applyMessage s T v).seenIds =
      s.seenIds ∪ (M.openMessage T v).elim ∅ fun msg => {msg.id} := by
  cases hopen : M.openMessage T v with
  | none => simp [applyMessage_of_not_opened hopen]
  | some msg =>
      simp only [hopen, Option.elim_some, Finset.union_singleton] at h ⊢
      by_cases hseen : msg.id ∈ s.seenIds
      · rw [applyMessage_of_mem hopen hseen, Finset.insert_eq_of_mem hseen]
      · rw [applyMessage_of_notMem hopen hseen, accept_seenIds,
          ← ClearOnFull.touch_of_notMem hseen, ClearOnFull.touch_of_card_insert_le h]

theorem perform_seenIds_of_fits {s : MessagingState} {c : Call} (h : M.Fits s [c]) :
    (M.perform s c).seenIds = s.seenIds ∪ c.ids M := by
  simp only [Fits, callsIds, Finset.union_empty, List.forall_mem_singleton] at h
  have hle : (s.seenIds ∪ c.ids M).card ≤ kMaxSeenIds := by
    rcases h with h | h
    · exact h.le
    · exact h.1
  cases happ : c.applied with
  | some call =>
      rw [Call.ids_of_applied happ] at hle ⊢
      rw [perform_of_applied happ]
      exact applyMessage_seenIds_of_card_le hle
  | none =>
      cases c with
      | live _ _ => exact absurd happ (by simp [Call.applied])
      | arrived key v =>
          simp only [Call.ids, Call.message, happ, Option.bind_none, Option.elim_none,
            Finset.union_empty]
          cases hkey : roomTopicFromKey key with
          | none => simp only [perform, onMessageArrived, hkey, Option.map_none, Option.getD_none]
          | some T =>
              have htopic : (Call.arrived key v).roomTopic = some T := hkey
              rw [perform_of_not_applied htopic happ]
      | send roomTopic text o =>
          simp only [perform, sendMessage_seenIds, Call.ids, Finset.union_singleton]
      | history roomTopic scan =>
          have hlt := h.resolve_right (by simp [Call.isHistory])
          cases scan with
          | none => simp [perform, queryHistory, Call.ids]
          | some entries => exact ClearOnFull.enterAll_of_card_lt hlt
      | archive =>
          simp only [perform, popArchive, Call.ids, Finset.union_empty]
          split <;> rfl

theorem Fits.head {s : MessagingState} {c : Call} {cs : List Call} (h : M.Fits s (c :: cs)) :
    M.Fits s [c] := by
  have hcard : (s.seenIds ∪ callsIds M [c]).card ≤ (s.seenIds ∪ callsIds M (c :: cs)).card := by
    apply Finset.card_le_card
    simp only [callsIds, Finset.union_empty]
    exact Finset.union_subset_union_right Finset.subset_union_left
  rcases h with h | ⟨h, hno⟩
  · exact Or.inl (hcard.trans_lt h)
  · exact Or.inr ⟨hcard.trans h, fun d hd => hno d (by simp_all)⟩

theorem Fits.tail {s : MessagingState} {c : Call} {cs : List Call} (h : M.Fits s (c :: cs)) :
    M.Fits (M.perform s c) cs := by
  rw [Fits, perform_seenIds_of_fits h.head, Finset.union_assoc]
  rcases h with h | ⟨h, hno⟩
  · exact Or.inl h
  · exact Or.inr ⟨h, fun d hd => hno d (List.mem_cons_of_mem c hd)⟩

theorem performAll_seenIds_of_fits {s : MessagingState} {cs : List Call} (h : M.Fits s cs) :
    (M.performAll s cs).seenIds = s.seenIds ∪ callsIds M cs := by
  induction cs generalizing s with
  | nil => simp [performAll, callsIds]
  | cons c cs ih =>
      have hrest := ih h.tail
      rw [perform_seenIds_of_fits h.head, Finset.union_assoc] at hrest
      exact hrest

theorem Call.Delivers.exists_applied {c : Call} {x : Bytes} (h : c.Delivers M x) :
    ∃ T v msg, c.applied = some (T, v) ∧ M.openMessage T v = some msg ∧ msg.id = x := by
  obtain ⟨msg, hmsg, hid⟩ := h
  obtain ⟨⟨T, v⟩, happ, hopen⟩ := Option.bind_eq_some_iff.1 hmsg
  exact ⟨T, v, msg, happ, hopen, hid⟩

theorem mem_seenIds_of_delivers {c : Call} {x : Bytes} (h : c.Delivers M x) (s : MessagingState) :
    x ∈ (M.perform s c).seenIds := by
  obtain ⟨T, v, msg, happ, hopen, rfl⟩ := h.exists_applied
  rw [perform_of_applied happ]
  by_cases hseen : msg.id ∈ s.seenIds
  · rwa [applyMessage_of_mem hopen hseen]
  · rw [applyMessage_of_notMem hopen hseen]
    exact ClearOnFull.mem_enter_self _ _

theorem perform_eq_self_of_delivers {c : Call} {x : Bytes} (h : c.Delivers M x)
    {s : MessagingState} (hx : x ∈ s.seenIds) : M.perform s c = s := by
  obtain ⟨T, v, msg, happ, hopen, rfl⟩ := h.exists_applied
  rw [perform_of_applied happ, applyMessage_of_mem hopen hx]

/-- After a delivery, the next delivery of the same id changes nothing as long as the ids held
after the first one and the ids inserted in between fit the set. -/
theorem perform_redelivery_of_fits (M : Messaging) (s : MessagingState) {x : Bytes}
    {first next : Call} (cs : List Call) (hfirst : first.Delivers M x) (hnext : next.Delivers M x)
    (hfits : M.Fits (M.perform s first) cs) :
    M.perform (M.performAll (M.perform s first) cs) next =
      M.performAll (M.perform s first) cs := by
  apply perform_eq_self_of_delivers hnext
  rw [performAll_seenIds_of_fits hfits]
  exact Finset.mem_union_left _ (mem_seenIds_of_delivers hfirst s)

def numberedDelivery (sender roomTopic : Bytes) (n : ℕ) : Call :=
  .live roomTopic ((plaintext sender).codec.serialize (numberedMessage roomTopic n))

theorem message_numberedDelivery (sender : Bytes) {roomTopic : Bytes} (h : ValidUtf8 roomTopic)
    (n : ℕ) : (numberedDelivery sender roomTopic n).message (plaintext sender) =
      some (numberedMessage roomTopic n) :=
  openMessage_plaintext sender roomTopic (valid_numberedMessage h n)

theorem delivers_numberedDelivery (sender : Bytes) {roomTopic : Bytes} (h : ValidUtf8 roomTopic)
    (n : ℕ) : (numberedDelivery sender roomTopic n).Delivers (plaintext sender)
      (nextMessageId 0 0 n) := ⟨_, message_numberedDelivery sender h n, rfl⟩

theorem callsIds_numbered (sender : Bytes) {roomTopic : Bytes} (h : ValidUtf8 roomTopic)
    (ns : List ℕ) : callsIds (plaintext sender) (ns.map (numberedDelivery sender roomTopic)) =
      ns.toFinset.image (nextMessageId 0 0) := by
  induction ns with
  | nil => rfl
  | cons n ns ih =>
      have hids : (numberedDelivery sender roomTopic n).ids (plaintext sender) =
          {nextMessageId 0 0 n} := by
        change ((numberedDelivery sender roomTopic n).message (plaintext sender)).elim _ _ = _
        rw [message_numberedDelivery sender h n]
        rfl
      rw [List.map_cons, callsIds, ih, hids, List.toFinset_cons, Finset.image_insert]
      rfl

theorem fits_numbered (sender : Bytes) {roomTopic : Bytes} (h : ValidUtf8 roomTopic) {ns : List ℕ}
    (hns : ns.length ≤ kMaxSeenIds) : (plaintext sender).Fits .fresh
      (ns.map (numberedDelivery sender roomTopic)) := by
  refine Or.inr ⟨?_, ?_⟩
  · rw [callsIds_numbered sender h]
    exact (Finset.card_le_card (Finset.union_subset (Finset.empty_subset _)
      (Finset.Subset.refl _))).trans (Finset.card_image_le.trans ((List.toFinset_card_le _).trans hns))
  · simp only [List.forall_mem_map]
    exact fun _ _ => rfl

theorem performAll_numbered_seenIds (sender : Bytes) {roomTopic : Bytes} (h : ValidUtf8 roomTopic)
    {n : ℕ} (hn : n ≤ kMaxSeenIds) : ((plaintext sender).performAll .fresh
      ((List.range n).map (numberedDelivery sender roomTopic))).seenIds =
        (Finset.range n).image (nextMessageId 0 0) := by
  rw [performAll_seenIds_of_fits (fits_numbered sender h (by simpa using hn)),
    callsIds_numbered sender h, List.toFinset_range]
  exact Finset.empty_union _

theorem reachable_performAll (M : Messaging) (cs : List Call) :
    M.system.Reachable (M.performAll .fresh cs) := by
  induction cs using List.reverseRecOn with
  | nil => exact TransitionSystem.Reachable.initial rfl
  | append_singleton cs c ih =>
      rw [performAll, List.foldl_append]
      exact ih.step (l := c) rfl

theorem performAll_range_succ (M : Messaging) (s : MessagingState) (d : ℕ → Call) (n : ℕ) :
    M.performAll s ((List.range (n + 1)).map d) =
      M.perform (M.performAll s ((List.range n).map d)) (d n) := by
  simp [performAll, List.range_succ]

theorem perform_numbered_of_notMem (sender : Bytes) {roomTopic : Bytes} (h : ValidUtf8 roomTopic)
    {n : ℕ} {s : MessagingState} (hn : nextMessageId 0 0 n ∉ s.seenIds) :
    (plaintext sender).perform s (numberedDelivery sender roomTopic n) =
      (plaintext sender).accept s (numberedMessage roomTopic n)
        ((plaintext sender).codec.serialize (numberedMessage roomTopic n)) :=
  applyMessage_of_notMem (openMessage_plaintext sender roomTopic (valid_numberedMessage h n)) hn

theorem nextMessageId_notMem_image_range {m n : ℕ} (h : n ≤ m) :
    nextMessageId 0 0 m ∉ (Finset.range n).image (nextMessageId 0 0) := by
  intro hmem
  obtain ⟨k, hk, heq⟩ := Finset.mem_image.1 hmem
  have := nextMessageId_injective 0 0 heq
  have := Finset.mem_range.1 hk
  omega

theorem performAll_numbered_seenIds_of_full (sender : Bytes) {roomTopic : Bytes}
    (h : ValidUtf8 roomTopic) : ((plaintext sender).performAll .fresh
      ((List.range (kMaxSeenIds + 1)).map (numberedDelivery sender roomTopic))).seenIds =
        {nextMessageId 0 0 kMaxSeenIds} := by
  have hfull := performAll_numbered_seenIds sender h le_rfl
  have hnew := nextMessageId_notMem_image_range (le_refl kMaxSeenIds)
  rw [← hfull] at hnew
  rw [performAll_range_succ, perform_numbered_of_notMem sender h hnew, accept_seenIds]
  apply ClearOnFull.enter_of_full
  rw [hfull, Finset.card_image_of_injective _ (nextMessageId_injective 0 0), Finset.card_range]

/-- Between an applied delivery and the next one of the same id, any calls that insert fewer other
ids than the set can hold leave the id remembered. -/
def RemembersFullWindow (M : Messaging) : Prop :=
  ∀ (pre cs : List Call) (first next : Call) (x : Bytes),
    let before := M.performAll .fresh pre
    let between := M.performAll (M.perform before first) cs
    first.Delivers M x → x ∉ before.seenIds → (∀ c ∈ cs, ¬ c.Delivers M x) →
      (callsIds M cs \ {x}).card < kMaxSeenIds → next.Delivers M x →
        newEvents between (M.perform between next) = [] ∧
          newArchives between (M.perform between next) = []

/-- When `kMaxSeenIds` messages fill the set, one more makes it forget the last of them. -/
theorem not_remembersFullWindow : ¬ RemembersFullWindow (plaintext (ofString "self")) := by
  intro hwindow
  obtain ⟨n, hn⟩ : ∃ n, n + 1 = kMaxSeenIds := ⟨4095, rfl⟩
  have htopic : ValidUtf8 kSmokeTopicA := validUtf8_ofString _
  let M := plaintext (ofString "self")
  let d := numberedDelivery (ofString "self") kSmokeTopicA
  have hids : callsIds M [d (n + 1)] = [n + 1].toFinset.image (nextMessageId 0 0) :=
    callsIds_numbered (ofString "self") htopic [n + 1]
  have hother : ¬ (d (n + 1)).Delivers M (nextMessageId 0 0 n) := by
    rintro ⟨msg, hmsg, hid⟩
    obtain rfl := Option.some.inj ((message_numberedDelivery _ htopic (n + 1)).symm.trans hmsg)
    exact absurd (nextMessageId_injective 0 0 hid) (Nat.succ_ne_self n)
  have hbefore : (M.performAll .fresh ((List.range n).map d)).seenIds = _ :=
    performAll_numbered_seenIds (ofString "self") htopic (by omega)
  have hafter := performAll_numbered_seenIds_of_full (ofString "self") htopic
  rw [← hn, performAll_range_succ, performAll_range_succ] at hafter
  have hnone := hwindow ((List.range n).map d) [d (n + 1)] (d n) (d n) (nextMessageId 0 0 n)
    (delivers_numberedDelivery _ htopic n)
    (hbefore ▸ nextMessageId_notMem_image_range le_rfl)
    (by simpa using hother)
    (by rw [hids]; exact (Finset.card_le_card Finset.sdiff_subset).trans_lt (by simp [kMaxSeenIds]))
    (delivers_numberedDelivery _ htopic n)
  have hforgotten : nextMessageId 0 0 n ∉
      (M.performAll (M.perform (M.performAll .fresh ((List.range n).map d)) (d n))
        [d (n + 1)]).seenIds := by
    change _ ∉ (M.perform (M.perform _ (d n)) (d (n + 1))).seenIds
    rw [hafter, Finset.mem_singleton]
    exact fun heq => absurd (nextMessageId_injective 0 0 heq) (Nat.succ_ne_self n).symm
  rw [perform_numbered_of_notMem (ofString "self") htopic hforgotten, newEvents, accept_pushed,
    List.drop_left] at hnone
  exact List.cons_ne_nil _ _ hnone.1

/-- The same id delivered twice with one other message in between. -/
theorem perform_redelivery_of_fits_numbered :
    let M := plaintext (ofString "self")
    let d := numberedDelivery (ofString "self") kSmokeTopicA
    (d 0).Delivers M (nextMessageId 0 0 0) ∧ M.Fits (M.perform .fresh (d 0)) [d 1] ∧
      M.perform (M.performAll (M.perform .fresh (d 0)) [d 1]) (d 0) =
        M.performAll (M.perform .fresh (d 0)) [d 1] := by
  intro M d
  have htopic : ValidUtf8 kSmokeTopicA := validUtf8_ofString _
  have hboth : M.Fits .fresh ([0, 1].map d) :=
    fits_numbered (ofString "self") htopic (by decide)
  have hdelivers := delivers_numberedDelivery (ofString "self") htopic 0
  exact ⟨hdelivers, hboth.tail,
    perform_redelivery_of_fits M .fresh [d 1] hdelivers hdelivers hboth.tail⟩

end GcsChat.Messaging
