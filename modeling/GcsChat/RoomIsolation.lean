import GcsChat.DedupeWindow

/-!
# What the rooms have to do with each other

All rooms share one dedupe set, keyed by the id alone. What the deliveries on one topic lead to is
compared with what they lead to when the deliveries on all other topics are left out.
-/

namespace GcsChat.Messaging

open ByteString ProtoSchema

def Call.isDelivery : Call → Bool
  | .live _ _ => true
  | .arrived _ _ => true
  | _ => false

def Call.onTopic (T : Bytes) (c : Call) : Bool := c.roomTopic = some T

variable (M : Messaging)

/-- The events and the archive writes that the deliveries on the topic lead to, in their order. -/
def roomOutput (T : Bytes) : MessagingState → List Call → List GcsEvent × List (Bytes × Bytes)
  | _, [] => ([], [])
  | s, c :: cs =>
      let rest := roomOutput T (M.perform s c) cs
      if c.onTopic T then
        (newEvents s (M.perform s c) ++ rest.1, newArchives s (M.perform s c) ++ rest.2)
      else rest

/-- In the cases that meet the condition, leaving the other topics out makes no difference. -/
def RoomsIndependentWhere (P : MessagingState → List Call → Bytes → Prop) : Prop :=
  ∀ s, M.system.Reachable s → ∀ ds : List Call, (∀ c ∈ ds, c.isDelivery) →
    (callsIds M ds).card < kMaxSeenIds → ∀ T, P s ds T →
      M.roomOutput T s ds = M.roomOutput T s (ds.filter (Call.onTopic T))

/-- What a delivery on the topic carries and the first set or a delivery before it has, the second set
or a delivery before it on the topic itself has too. -/
def FirstFrom (T : Bytes) (A B : Finset Bytes) (ds : List Call) : Prop :=
  ∀ pre c post x, ds = pre ++ c :: post → c.onTopic T → c.Delivers M x →
    x ∈ A ∪ callsIds M pre → x ∈ B ∪ callsIds M (pre.filter (Call.onTopic T))

/-- The topic is the first one to deliver each of its ids that is not held already. -/
def FirstToDeliver (T : Bytes) (s : MessagingState) (ds : List Call) : Prop :=
  M.FirstFrom T s.seenIds s.seenIds ds

variable {M}

theorem newEvents_self (s : MessagingState) : newEvents s s = [] := List.drop_length

theorem newArchives_self (s : MessagingState) : newArchives s s = [] := List.drop_length

theorem newEvents_accept (s : MessagingState) (msg : ChatMessageState) (v : Bytes) :
    newEvents s (M.accept s msg v) = [.message (M.withRole msg)] := by
  rw [newEvents, accept_pushed, List.drop_left]

theorem newArchives_accept (s : MessagingState) (msg : ChatMessageState) (v : Bytes) :
    newArchives s (M.accept s msg v) = [(buildKey msg.roomTopic msg.id, v)] := by
  rw [newArchives, accept_archiveQueue, List.drop_left]

theorem Call.Delivers.ids {c : Call} {x : Bytes} (h : c.Delivers M x) : c.ids M = {x} := by
  obtain ⟨T, v, msg, happ, hopen, rfl⟩ := h.exists_applied
  rw [Call.ids_of_applied happ, hopen]
  rfl

theorem perform_of_no_message {c : Call} (hc : c.isDelivery) (h : c.message M = none)
    (s : MessagingState) : M.perform s c = s := by
  cases happ : c.applied with
  | none =>
      cases c with
      | live T v => cases happ
      | arrived key v =>
          cases hkey : roomTopicFromKey key with
          | none => simp only [perform, onMessageArrived, hkey, Option.map_none, Option.getD_none]
          | some T => exact perform_of_not_applied (c := .arrived key v) hkey happ s
      | _ => cases hc
  | some call =>
      rw [perform_of_applied happ]
      refine applyMessage_of_not_opened ?_
      rwa [Call.message, happ, Option.bind_some] at h

theorem perform_of_message {c : Call} {msg : ChatMessageState} (h : c.message M = some msg) :
    c.ids M = {msg.id} ∧ ∃ v, ∀ s, M.perform s c =
      if msg.id ∈ s.seenIds then s else M.accept s msg v := by
  obtain ⟨⟨T, v⟩, happ, hopen⟩ := Option.bind_eq_some_iff.1 h
  refine ⟨Call.Delivers.ids ⟨msg, h, rfl⟩, v, fun s => ?_⟩
  rw [perform_of_applied happ, applyMessage]
  simp only [hopen]

theorem fits_of_delivery {s : MessagingState} {c : Call} (hc : c.isDelivery)
    (h : (s.seenIds ∪ c.ids M).card ≤ kMaxSeenIds) : M.Fits s [c] := by
  refine .inr ⟨?_, List.forall_mem_singleton.2 ?_⟩
  · rwa [callsIds, callsIds, Finset.union_empty]
  · cases c <;> first | rfl | cases hc

theorem firstFrom_nil (T : Bytes) (A B : Finset Bytes) : M.FirstFrom T A B [] := by
  intro pre c post x h
  exact absurd h.symm (List.append_ne_nil_of_right_ne_nil pre (List.cons_ne_nil c post))

theorem firstFrom_cons_iff {T : Bytes} {A B : Finset Bytes} {c : Call} {cs : List Call} :
    M.FirstFrom T A B (c :: cs) ↔ (c.onTopic T → ∀ x, c.Delivers M x → x ∈ A → x ∈ B) ∧
      M.FirstFrom T (A ∪ c.ids M) (if c.onTopic T then B ∪ c.ids M else B) cs := by
  have hpast : ∀ pre : List Call, B ∪ callsIds M ((c :: pre).filter (Call.onTopic T)) =
      (if c.onTopic T then B ∪ c.ids M else B) ∪ callsIds M (pre.filter (Call.onTopic T)) := by
    intro pre
    by_cases hon : c.onTopic T
    · rw [List.filter_cons_of_pos hon, if_pos hon, callsIds, Finset.union_assoc]
    · rw [List.filter_cons_of_neg hon, if_neg hon]
  constructor
  · intro h
    refine ⟨fun hon x hx hA => ?_, fun pre d post x hds hon hx hmem => ?_⟩
    · have hB := h [] c cs x rfl hon hx (Finset.mem_union_left _ hA)
      rwa [List.filter_nil, callsIds, Finset.union_empty] at hB
    · rw [← hpast]
      refine h (c :: pre) d post x (congrArg (c :: ·) hds) hon hx ?_
      rwa [callsIds, ← Finset.union_assoc]
  · rintro ⟨hhead, htail⟩ pre d post x hds hon hx hmem
    cases pre with
    | nil =>
        obtain ⟨rfl, rfl⟩ := List.cons.inj hds
        rw [callsIds, Finset.union_empty] at hmem
        exact Finset.mem_union_left _ (hhead hon x hx hmem)
    | cons c' pre =>
        obtain ⟨rfl, rfl⟩ := List.cons.inj hds
        rw [hpast]
        refine htail pre d post x rfl hon hx ?_
        rwa [Finset.union_assoc]

/-- With more ids held a topic gets less, and it gets the same exactly when it is the first one to
deliver what the other set does not hold. -/
theorem roomOutput_filter {T : Bytes} {ds : List Call} (hdel : ∀ c ∈ ds, c.isDelivery)
    {s t : MessagingState} (hts : t.seenIds ⊆ s.seenIds)
    (hfits : (s.seenIds ∪ callsIds M ds).card ≤ kMaxSeenIds) :
    (M.roomOutput T s ds).1.length ≤ (M.roomOutput T t (ds.filter (Call.onTopic T))).1.length ∧
    (M.roomOutput T s ds = M.roomOutput T t (ds.filter (Call.onTopic T)) ↔
      M.FirstFrom T s.seenIds t.seenIds ds) := by
  induction ds generalizing s t with
  | nil => exact ⟨le_rfl, iff_of_true rfl (firstFrom_nil T _ _)⟩
  | cons c cs ih =>
      have hc : c.isDelivery := hdel c List.mem_cons_self
      have hrest : ∀ d ∈ cs, d.isDelivery := fun d hd => hdel d (List.mem_cons_of_mem c hd)
      rw [callsIds, ← Finset.union_assoc] at hfits
      have hhead : (s.seenIds ∪ c.ids M).card ≤ kMaxSeenIds :=
        (Finset.card_le_card Finset.subset_union_left).trans hfits
      have hs : (M.perform s c).seenIds = s.seenIds ∪ c.ids M :=
        perform_seenIds_of_fits (fits_of_delivery hc hhead)
      have ht : (M.perform t c).seenIds = t.seenIds ∪ c.ids M := by
        refine perform_seenIds_of_fits (fits_of_delivery hc (le_trans ?_ hhead))
        exact Finset.card_le_card (Finset.union_subset_union_left hts)
      rw [← hs] at hfits
      rw [firstFrom_cons_iff, ← hs]
      by_cases hon : c.onTopic T
      · have hts' : (M.perform t c).seenIds ⊆ (M.perform s c).seenIds := by
          rw [hs, ht]
          exact Finset.union_subset_union_left hts
        obtain ⟨hle, hiff⟩ := ih hrest hts' hfits
        rw [List.filter_cons_of_pos hon, if_pos hon, ← ht, roomOutput, roomOutput, if_pos hon,
          if_pos hon]
        cases hmsg : c.message M with
        | none =>
            have hno : ∀ x, ¬ c.Delivers M x := by
              rintro x ⟨msg, h, -⟩
              exact Option.some_ne_none msg (h.symm.trans hmsg)
            rw [perform_of_no_message hc hmsg s, perform_of_no_message hc hmsg t] at hle hiff ⊢
            simp only [newEvents_self, newArchives_self, List.nil_append]
            exact ⟨hle, hiff.trans (and_iff_right fun _ x hx => absurd hx (hno x)).symm⟩
        | some msg =>
            have hmine : ∀ x, c.Delivers M x → x = msg.id := by
              rintro x ⟨m, h, hx⟩
              obtain rfl := Option.some.inj (hmsg.symm.trans h)
              exact hx.symm
            obtain ⟨-, v, hperform⟩ := perform_of_message hmsg
            rw [hperform s, hperform t] at hle hiff ⊢
            by_cases hseen : msg.id ∈ s.seenIds
            · by_cases hthere : msg.id ∈ t.seenIds
              · rw [if_pos hseen, if_pos hthere] at hle hiff ⊢
                simp only [newEvents_self, newArchives_self, List.nil_append]
                refine ⟨hle, hiff.trans (and_iff_right fun _ x hx _ => ?_).symm⟩
                exact hmine x hx ▸ hthere
              · -- Only the run without the other topics accepts the message.
                rw [if_pos hseen, if_neg hthere] at hle hiff ⊢
                simp only [newEvents_self, newArchives_self, newEvents_accept, List.nil_append,
                  List.singleton_append, List.length_cons]
                refine ⟨hle.trans (Nat.le_succ _), iff_of_false (fun heq => ?_) fun hfirst => ?_⟩
                · have hlength := congrArg (fun r => r.1.length) heq
                  simp only [List.length_cons] at hlength
                  omega
                · exact hthere (hfirst.1 hon msg.id ⟨msg, hmsg, rfl⟩ hseen)
            · have hthere : msg.id ∉ t.seenIds := fun h => hseen (hts h)
              rw [if_neg hseen, if_neg hthere] at hle hiff ⊢
              simp only [newEvents_accept, newArchives_accept, List.singleton_append,
                List.length_cons]
              refine ⟨Nat.succ_le_succ hle, ?_⟩
              rw [Prod.mk.injEq, List.cons_inj_right, List.cons_inj_right, ← Prod.ext_iff, hiff]
              exact (and_iff_right fun _ x hx h => absurd (hmine x hx ▸ h) hseen).symm
      · obtain ⟨hle, hiff⟩ := ih hrest (hts.trans (hs ▸ Finset.subset_union_left)) hfits
        rw [List.filter_cons_of_neg hon, if_neg hon, roomOutput, if_neg hon]
        exact ⟨hle, hiff.trans (and_iff_right fun h => absurd h hon).symm⟩

/-- As long as the set is not cleared, leaving out the deliveries on all other topics makes no difference
to a topic exactly when it is the first one to deliver each of its ids. -/
theorem roomOutput_filter_iff (M : Messaging) (s : MessagingState) {ds : List Call}
    (hdel : ∀ c ∈ ds, c.isDelivery) (hfits : (s.seenIds ∪ callsIds M ds).card ≤ kMaxSeenIds)
    (T : Bytes) : M.roomOutput T s ds = M.roomOutput T s (ds.filter (Call.onTopic T)) ↔
      M.FirstToDeliver T s ds := (roomOutput_filter hdel (Finset.Subset.refl _) hfits).2

section Numbered

variable (sender : Bytes) {A B : Bytes}

theorem onTopic_numberedDelivery (n : ℕ) (T : Bytes) :
    (numberedDelivery sender A n).onTopic T = decide (A = T) := by
  change decide (some A = some T) = _
  simp only [Option.some.injEq]

theorem filter_numbered (hAB : A ≠ B) (m n : ℕ) :
    [numberedDelivery sender A m, numberedDelivery sender B n].filter (Call.onTopic B) =
      [numberedDelivery sender B n] := by
  rw [List.filter_cons_of_neg, List.filter_cons_of_pos, List.filter_nil]
  · rw [onTopic_numberedDelivery, decide_eq_true rfl]
  · rw [onTopic_numberedDelivery, decide_eq_false hAB]
    exact Bool.false_ne_true

theorem roomOutput_numbered_pair (hAB : A ≠ B) (m n : ℕ) (s : MessagingState) :
    (plaintext sender).roomOutput B s [numberedDelivery sender A m, numberedDelivery sender B n] =
      (plaintext sender).roomOutput B ((plaintext sender).perform s (numberedDelivery sender A m))
        [numberedDelivery sender B n] := by
  rw [roomOutput, onTopic_numberedDelivery, decide_eq_false hAB, if_neg Bool.false_ne_true]

theorem roomOutput_numbered_eq_nil_iff (hB : ValidUtf8 B) (n : ℕ) (s : MessagingState) :
    ((plaintext sender).roomOutput B s [numberedDelivery sender B n]).1 = [] ↔
      nextMessageId 0 0 n ∈ s.seenIds := by
  rw [roomOutput, onTopic_numberedDelivery, decide_eq_true rfl, if_pos rfl]
  change newEvents _ _ ++ [] = [] ↔ _
  rw [List.append_nil]
  by_cases hseen : nextMessageId 0 0 n ∈ s.seenIds
  · rw [perform_eq_self_of_delivers (delivers_numberedDelivery sender hB n) hseen, newEvents_self]
    exact iff_of_true rfl hseen
  · rw [perform_numbered_of_notMem sender hB hseen, newEvents_accept]
    exact iff_of_false (List.cons_ne_nil _ _) hseen

end Numbered

theorem exists_full (sender : Bytes) {A : Bytes} (hA : ValidUtf8 A) :
    ∃ s, (plaintext sender).system.Reachable s ∧ nextMessageId 0 0 0 ∈ s.seenIds ∧
      ((plaintext sender).perform s (numberedDelivery sender A kMaxSeenIds)).seenIds =
        {nextMessageId 0 0 kMaxSeenIds} := by
  refine ⟨_, reachable_performAll _ ((List.range kMaxSeenIds).map (numberedDelivery sender A)), ?_, ?_⟩
  · rw [performAll_numbered_seenIds sender hA le_rfl]
    exact Finset.mem_image_of_mem _ (Finset.mem_range.2 (by decide))
  · rw [← performAll_range_succ]
    exact performAll_numbered_seenIds_of_full sender hA

theorem smokeTopics_ne : kSmokeTopicA ≠ kSmokeTopicB := by decide

/-- Two rooms with one message each. -/
theorem roomOutput_two_rooms :
    let M := plaintext (ofString "self")
    let d := numberedDelivery (ofString "self")
    let ds := [d kSmokeTopicA 0, d kSmokeTopicB 1]
    M.roomOutput kSmokeTopicB .fresh ds =
      M.roomOutput kSmokeTopicB .fresh (ds.filter (Call.onTopic kSmokeTopicB)) := by
  intro M d ds
  have hdel : ∀ c ∈ ds, c.isDelivery := by
    intro c hc
    rcases List.mem_pair.1 hc with rfl | rfl <;> rfl
  have hids : ∀ {T : Bytes}, ValidUtf8 T → ∀ n, (d T n).ids M = {nextMessageId 0 0 n} :=
    fun hT n => (delivers_numberedDelivery (ofString "self") hT n).ids
  have hA : ValidUtf8 kSmokeTopicA := validUtf8_ofString _
  have hB : ValidUtf8 kSmokeTopicB := validUtf8_ofString _
  have hfits : (MessagingState.fresh.seenIds ∪ callsIds M ds).card ≤ kMaxSeenIds := by
    rw [callsIds, callsIds, callsIds, hids hA, hids hB, Finset.union_empty]
    change (∅ ∪ ({nextMessageId 0 0 0} ∪ {nextMessageId 0 0 1}) : Finset Bytes).card ≤ _
    rw [Finset.empty_union]
    exact (Finset.card_union_le _ _).trans (by simp [kMaxSeenIds])
  refine (roomOutput_filter_iff M .fresh hdel hfits kSmokeTopicB).2 ?_
  refine firstFrom_cons_iff.2 ⟨fun hon => ?_, firstFrom_cons_iff.2 ⟨fun _ x hx hmem => ?_,
    firstFrom_nil _ _ _⟩⟩
  · rw [onTopic_numberedDelivery, decide_eq_false smokeTopics_ne] at hon
    cases hon
  · -- The message of room B has an id of its own.
    have hx1 : x = nextMessageId 0 0 1 := by
      have := hx.ids.symm.trans (hids hB 1)
      exact Finset.singleton_inj.1 this
    rw [hids hA 0] at hmem
    change x ∈ (∅ : Finset Bytes) ∪ {nextMessageId 0 0 0} at hmem
    rw [Finset.empty_union, Finset.mem_singleton, hx1] at hmem
    exact absurd (nextMessageId_injective 0 0 hmem) Nat.one_ne_zero

def SharesNoId (M : Messaging) (T : Bytes) (ds : List Call) : Prop :=
  ∀ c ∈ ds, ∀ d ∈ ds, c.onTopic T → ¬ d.onTopic T → ∀ x, c.Delivers M x → ¬ d.Delivers M x

/-- A message of room A makes room B drop one of its own with the same id; and in a full set a message
of room A makes room B accept one again. -/
theorem not_roomsIndependent :
    let M := plaintext (ofString "self")
    ¬ M.RoomsIndependentWhere (fun _ _ _ => True) ∧
      ¬ M.RoomsIndependentWhere fun _ ds T => M.SharesNoId T ds := by
  intro M
  let d := numberedDelivery (ofString "self")
  have hA : ValidUtf8 kSmokeTopicA := validUtf8_ofString _
  have hB : ValidUtf8 kSmokeTopicB := validUtf8_ofString _
  have hdel : ∀ m n, ∀ c ∈ [d kSmokeTopicA m, d kSmokeTopicB n], c.isDelivery := by
    intro m n c hc
    rcases List.mem_pair.1 hc with rfl | rfl <;> rfl
  have hids : ∀ {T : Bytes}, ValidUtf8 T → ∀ n, (d T n).ids M = {nextMessageId 0 0 n} :=
    fun hT n => (delivers_numberedDelivery (ofString "self") hT n).ids
  have hfew : ∀ m n, (callsIds M [d kSmokeTopicA m, d kSmokeTopicB n]).card < kMaxSeenIds := by
    intro m n
    rw [callsIds, callsIds, callsIds, hids hA, hids hB, Finset.union_empty]
    exact (Finset.card_union_le _ _).trans_lt (by simp [kMaxSeenIds])
  refine ⟨fun hindependent => ?_, fun hindependent => ?_⟩
  · have heq := hindependent .fresh (TransitionSystem.Reachable.initial rfl) _ (hdel 0 0) (hfew 0 0)
      kSmokeTopicB trivial
    rw [filter_numbered _ smokeTopics_ne, roomOutput_numbered_pair _ smokeTopics_ne] at heq
    have hdropped := (roomOutput_numbered_eq_nil_iff (ofString "self") hB 0 (M.perform .fresh
      (d kSmokeTopicA 0))).2 (mem_seenIds_of_delivers (delivers_numberedDelivery _ hA 0) .fresh)
    rw [heq, roomOutput_numbered_eq_nil_iff _ hB] at hdropped
    exact Finset.notMem_empty _ hdropped
  · obtain ⟨full, hfull, hheld, hcleared⟩ := exists_full (ofString "self") hA
    have heq := hindependent full hfull _ (hdel kMaxSeenIds 0) (hfew kMaxSeenIds 0) kSmokeTopicB
      fun c hc c' hc' hon hnot x hx hx' => ?_
    · rw [filter_numbered _ smokeTopics_ne, roomOutput_numbered_pair _ smokeTopics_ne] at heq
      have hdropped := (roomOutput_numbered_eq_nil_iff (ofString "self") hB 0 full).2 hheld
      rw [← heq, roomOutput_numbered_eq_nil_iff _ hB, hcleared, Finset.mem_singleton] at hdropped
      exact absurd (nextMessageId_injective 0 0 hdropped) (by decide)
    · rcases List.mem_pair.1 hc with rfl | rfl
      · rw [onTopic_numberedDelivery, decide_eq_false smokeTopics_ne] at hon
        cases hon
      · rcases List.mem_pair.1 hc' with rfl | rfl
        · have hzero : x = nextMessageId 0 0 0 :=
            Finset.singleton_inj.1 (hx.ids.symm.trans (hids hB 0))
          have hlast : x = nextMessageId 0 0 kMaxSeenIds :=
            Finset.singleton_inj.1 (hx'.ids.symm.trans (hids hA kMaxSeenIds))
          exact absurd (nextMessageId_injective 0 0 (hzero.symm.trans hlast)) (by decide)
        · exact hnot hon

end GcsChat.Messaging
