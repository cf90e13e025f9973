import GcsChat.Node

/-!
# The echo loop

An accepted message is archived, the archive write fires the new-element callback, and the
callback runs the receive funnel on the same message. Only the dedupe set breaks this cycle, and it
forgets everything when it is full. The loop comes to rest, with at most one archive write for each
delivery, exactly when the ids delivered fit the set.
-/

namespace GcsChat

open ByteString ProtoSchema

/-- The room and the bytes of an external delivery: a live message, or a record replicated from
another node, whose callback then runs the funnel. -/
def Label.delivery : Label → Option (Bytes × Bytes)
  | .live topic valueBytes => some (topic, valueBytes)
  | .replicate key valueBytes _ =>
      (roomTopicFromKey (slash :: key)).map fun roomTopic => (roomTopic, valueBytes)
  | _ => none

def Label.isDelivery : Label → Bool
  | .live _ _ | .replicate _ _ _ => true
  | _ => false

/-- The steps the loop takes by itself. -/
def Label.isEcho : Label → Bool
  | .callback _ | .push | .enqueue | .take | .put _ => true
  | _ => false

def Label.isPut : Label → Bool
  | .put _ => true
  | _ => false

namespace Messaging

variable (M : Messaging)

/-- A message delivered on its own room, with an id that fills one key segment. -/
def WellFormedOn (T v : Bytes) (msg : ChatMessageState) : Prop :=
  M.openMessage T v = some msg ∧ msg.roomTopic = T ∧ T ≠ [] ∧ IsKeySegment msg.id

def WellFormedDelivery (l : Label) : Prop :=
  ∃ T v msg, l.delivery = some (T, v) ∧ M.WellFormedOn T v msg

def deliveredId (l : Label) : Option Bytes :=
  (l.delivery.bind fun d => M.openMessage d.1 d.2).map (·.id)

def deliveredIds (ds : List Label) : Finset Bytes := (ds.filterMap M.deliveredId).toFinset

/-- The receive loop, closed but for the external deliveries. -/
def receiveLoop : TransitionSystem NodeState Label :=
  M.node.restrict fun _ l => l.isDelivery = true ∨ l.isEcho = true

def echoLoop : TransitionSystem NodeState Label := M.node.restrict fun _ l => l.isEcho = true

/-- The callback of an own archive write changes nothing. -/
def AbsorbsEchoes (s : NodeState) : Prop :=
  ∀ cb t, cb.own = true → M.Step s (.callback cb) t →
    t.messaging = s.messaging ∧ t.unpushed = s.unpushed

/-- However the deliveries, the archive writes and the callbacks interleave: echoes are absorbed,
there are no more archive writes than deliveries, and the loop comes to rest without further
deliveries. -/
def Quiescent (ds : List Label) : Prop :=
  ∀ ls s, M.receiveLoop.Run .fresh ls s → ls.filter Label.isDelivery <+: ds →
    M.AbsorbsEchoes s ∧
      (ls.filter Label.isPut).length ≤ (ls.filter Label.isDelivery).length ∧
      ¬ M.echoLoop.Diverges s

/-- A record whose message is remembered, so that its callback will be absorbed. -/
def IsEcho (seen : Finset Bytes) (record : Bytes × Bytes) : Prop :=
  ∃ T msg, record.1 = buildKey T msg.id ∧ M.WellFormedOn T record.2 msg ∧ msg.id ∈ seen

structure LoopInvariant (ids : Finset Bytes) (s : NodeState) : Prop where
  seen : s.messaging.seenIds ⊆ ids
  unpushed : ∀ a ∈ s.unpushed, M.IsEcho s.messaging.seenIds a.record
  unqueued : ∀ a ∈ s.unqueued, M.IsEcho s.messaging.seenIds a.record
  queue : ∀ record ∈ s.messaging.archiveQueue, M.IsEcho s.messaging.seenIds record
  archiving : ∀ record ∈ s.archiving, M.IsEcho s.messaging.seenIds record
  own : ∀ cb ∈ s.callbacks, cb.own = true →
    M.IsEcho s.messaging.seenIds (cb.key, cb.valueBytes)
  remote : ∀ cb ∈ s.callbacks, cb.own = false → ∃ T msg,
    roomTopicFromKey (slash :: cb.key) = some T ∧ M.WellFormedOn T cb.valueBytes msg ∧ msg.id ∈ ids

variable {M}

theorem IsEcho.mono {seen seen' : Finset Bytes} (hsub : seen ⊆ seen') {record : Bytes × Bytes}
    (h : M.IsEcho seen record) : M.IsEcho seen' record := by
  obtain ⟨T, msg, hkey, hwell, hmem⟩ := h
  exact ⟨T, msg, hkey, hwell, hsub hmem⟩

theorem WellFormedOn.isEcho {T v : Bytes} {msg : ChatMessageState} (h : M.WellFormedOn T v msg)
    {seen : Finset Bytes} (hmem : msg.id ∈ seen) : M.IsEcho seen (Accepted.record ⟨msg, v⟩) :=
  ⟨T, msg, by rw [Accepted.record, h.2.1], h, hmem⟩

theorem arrive_of_isEcho {s : NodeState} {key v : Bytes}
    (h : M.IsEcho s.messaging.seenIds (key, v)) : M.arrive s (slash :: key) v = s := by
  obtain ⟨T, msg, rfl, ⟨hopen, _, hT, hseg⟩, hmem⟩ := h
  rw [arrive_of_roomTopic (roomTopicFromKey_cons_buildKey T hseg) hT]
  exact receive_of_mem hopen hmem

theorem loopInvariant_fresh (ids : Finset Bytes) : M.LoopInvariant ids .fresh where
  seen := Finset.empty_subset ids
  unpushed := by simp [NodeState.fresh]
  unqueued := by simp [NodeState.fresh]
  queue := by simp [NodeState.fresh, MessagingState.fresh]
  archiving := by simp [NodeState.fresh]
  own := by simp [NodeState.fresh]
  remote := by simp [NodeState.fresh]

namespace LoopInvariant

variable {ids : Finset Bytes} {s : NodeState}

theorem remember_seenIds (h : M.LoopInvariant ids s) (hids : ids.card ≤ kMaxSeenIds) {id : Bytes}
    (hid : id ∈ ids) (hseen : id ∉ s.messaging.seenIds) :
    (remember s.messaging id).seenIds = insert id s.messaging.seenIds := by
  apply ClearOnFull.enter_of_card_lt
  have hlt : s.messaging.seenIds.card < ids.card :=
    Finset.card_lt_card ⟨h.seen, fun hsub => hseen (hsub hid)⟩
  omega

theorem receive (h : M.LoopInvariant ids s) (hids : ids.card ≤ kMaxSeenIds) {T v : Bytes}
    {msg : ChatMessageState} (hwell : M.WellFormedOn T v msg) (hid : msg.id ∈ ids) :
    M.LoopInvariant ids (M.receive s T v) := by
  by_cases hseen : msg.id ∈ s.messaging.seenIds
  · rwa [receive_of_mem hwell.1 hseen]
  · rw [receive_of_notMem hwell.1 hseen]
    have hinsert := h.remember_seenIds hids hid hseen
    have hmono : s.messaging.seenIds ⊆ (remember s.messaging msg.id).seenIds :=
      hinsert ▸ Finset.subset_insert _ _
    refine ⟨?_, ?_, ?_, ?_, ?_, ?_, ?_⟩
    · exact hinsert ▸ Finset.insert_subset hid h.seen
    · simp only [List.mem_append, List.mem_singleton]
      rintro a (ha | rfl)
      · exact (h.unpushed a ha).mono hmono
      · exact hwell.isEcho (hinsert ▸ Finset.mem_insert_self _ _)
    · exact fun a ha => (h.unqueued a ha).mono hmono
    · exact fun record hr => (h.queue record hr).mono hmono
    · exact fun record hr => (h.archiving record hr).mono hmono
    · exact fun cb hcb hown => (h.own cb hcb hown).mono hmono
    · exact h.remote

theorem callbacks_of_subset (h : M.LoopInvariant ids s) {cbs : List Callback}
    (hsub : cbs ⊆ s.callbacks) : M.LoopInvariant ids { s with callbacks := cbs } :=
  { h with
    own := fun cb hcb => h.own cb (hsub hcb)
    remote := fun cb hcb => h.remote cb (hsub hcb) }

theorem step (h : M.LoopInvariant ids s) (hids : ids.card ≤ kMaxSeenIds) {l : Label}
    {t : NodeState} (hstep : M.Step s l t)
    (hl : l.isEcho = true ∨ ∃ T v msg, l.delivery = some (T, v) ∧ M.WellFormedOn T v msg ∧
      msg.id ∈ ids) : M.LoopInvariant ids t := by
  cases hstep with
  | live T v =>
      obtain ⟨T', v', msg, hd, hwell, hid⟩ := hl.resolve_left (by simp [Label.isEcho])
      obtain ⟨rfl, rfl⟩ := Prod.mk.inj (Option.some.inj hd)
      exact h.receive hids hwell hid
  | replicate key v wins =>
      obtain ⟨T, v', msg, hd, hwell, hid⟩ := hl.resolve_left (by simp [Label.isEcho])
      obtain ⟨T', hkey, heq⟩ := Option.map_eq_some_iff.1 hd
      obtain ⟨rfl, rfl⟩ := Prod.mk.inj heq
      refine { h with own := ?_, remote := ?_ }
      · simp only [NodeState.merge, List.mem_append, List.mem_singleton]
        rintro cb (hcb | rfl) hown
        · exact h.own cb hcb hown
        · simp at hown
      · simp only [NodeState.merge, List.mem_append, List.mem_singleton]
        rintro cb (hcb | rfl) hown
        · exact h.remote cb hcb hown
        · exact ⟨T', msg, hkey, hwell, hid⟩
  | callback before cb after hcbs =>
      have hmem : cb ∈ s.callbacks := by simp [hcbs]
      have hrest : M.LoopInvariant ids { s with callbacks := before ++ after } :=
        h.callbacks_of_subset (by simp [hcbs])
      cases hown : cb.own with
      | true =>
          have habsorbed : M.arrive { s with callbacks := before ++ after } _ _ = _ :=
            arrive_of_isEcho (h.own cb hmem hown)
          rw [habsorbed]
          exact hrest
      | false =>
          obtain ⟨T, msg, hkey, hwell, hid⟩ := h.remote cb hmem hown
          rw [arrive_of_roomTopic hkey hwell.2.2.1]
          exact hrest.receive hids hwell hid
  | push before a after hlist _ =>
      obtain ⟨hrest, ha⟩ := forall_mem_of_eq_append_cons h.unpushed hlist
      exact { h with
        unpushed := hrest
        unqueued := List.forall_mem_append.2 ⟨h.unqueued, List.forall_mem_singleton.2 ha⟩ }
  | enqueue before a after hlist =>
      obtain ⟨hrest, ha⟩ := forall_mem_of_eq_append_cons h.unqueued hlist
      exact { h with
        unqueued := hrest
        queue := List.forall_mem_append.2 ⟨h.queue, List.forall_mem_singleton.2 ha⟩ }
  | take item rest hqueue _ =>
      have hsplit := h.queue
      rw [hqueue, List.forall_mem_cons] at hsplit
      exact { h with
        queue := hsplit.2
        archiving := by simpa using hsplit.1 }
  | put item harchiving =>
      have hitem := h.archiving item harchiving
      refine { h with archiving := by simp [NodeState.write], own := ?_, remote := ?_ }
      · simp only [NodeState.write, List.mem_append, List.mem_singleton]
        rintro cb (hcb | rfl) hown
        · exact h.own cb hcb hown
        · exact hitem
      · simp only [NodeState.write, List.mem_append, List.mem_singleton]
        rintro cb (hcb | rfl) hown
        · exact h.remote cb hcb hown
        · simp at hown
  | putFailed item _ => exact { h with archiving := by simp }
  | _ => exact absurd hl (by simp [Label.isEcho, Label.delivery])

theorem absorbsEchoes (h : M.LoopInvariant ids s) : M.AbsorbsEchoes s := by
  intro cb t hown hstep
  cases hstep with
  | callback before _ after hcbs =>
      have habsorbed : M.arrive { s with callbacks := before ++ after } _ _ = _ :=
        arrive_of_isEcho (h.own cb (by simp [hcbs]) hown)
      rw [habsorbed]
      exact ⟨rfl, rfl⟩

end LoopInvariant

/-- What a record counts for at each station of the loop. -/
structure Weights where
  push : ℕ
  enqueue : ℕ
  take : ℕ
  put : ℕ
  own : ℕ
  remote : ℕ

def Weights.callback (w : Weights) (cb : Callback) : ℕ := if cb.own then w.own else w.remote

def load (w : Weights) (s : NodeState) : ℕ :=
  s.unpushed.length * w.push + s.unqueued.length * w.enqueue +
    s.messaging.archiveQueue.length * w.take + s.archiving.toList.length * w.put +
    (s.callbacks.map w.callback).sum

def Moves (w : Weights) (s : NodeState) (l : Label) (t : NodeState) : Prop :=
  match l with
  | .live _ _ => load w t ≤ load w s + w.push
  | .replicate _ _ _ => load w t = load w s + w.remote
  | .callback cb =>
      if cb.own then load w t + w.own = load w s
      else load w t + w.remote ≤ load w s + w.push
  | .push => load w t + w.push = load w s + w.enqueue
  | .enqueue => load w t + w.enqueue = load w s + w.take
  | .take => load w t + w.take = load w s + w.put
  | .put true => load w t + w.put = load w s + w.own
  | .put false => load w t + w.put = load w s
  | _ => True

theorem load_receive_le (w : Weights) (s : NodeState) (T v : Bytes) :
    load w (M.receive s T v) ≤ load w s + w.push := by
  rcases receive_cases M s T v with h | ⟨msg, _, _, h⟩
  · rw [h]
    exact Nat.le_add_right _ _
  · rw [h]
    simp only [load, remember, List.length_append, List.length_singleton, Nat.add_mul]
    omega

theorem load_removeCallback (w : Weights) {s : NodeState} {before after : List Callback}
    {cb : Callback} (h : s.callbacks = before ++ cb :: after) :
    load w { s with callbacks := before ++ after } + w.callback cb = load w s := by
  simp only [load, h, List.map_append, List.map_cons, List.sum_append, List.sum_cons]
  omega

theorem LoopInvariant.moves {ids : Finset Bytes} {s : NodeState} (h : M.LoopInvariant ids s)
    {l : Label} {t : NodeState} (hstep : M.Step s l t) (w : Weights) : Moves w s l t := by
  cases hstep with
  | live T v => exact load_receive_le w s T v
  | replicate key v wins =>
      simp only [Moves, load, NodeState.merge, List.map_append, List.map_cons, List.map_nil,
        List.sum_append, List.sum_cons, List.sum_nil, Weights.callback]
      simp only [Bool.false_eq_true, if_false]
      omega
  | callback before cb after hcbs =>
      have hremove := load_removeCallback w hcbs
      have hmem : cb ∈ s.callbacks := by simp [hcbs]
      simp only [Moves]
      split_ifs with hown
      · have habsorbed : M.arrive { s with callbacks := before ++ after } _ _ = _ :=
          arrive_of_isEcho (h.own cb hmem hown)
        rw [habsorbed]
        simpa only [Weights.callback, if_pos hown] using hremove
      · obtain ⟨T, msg, hkey, hwell, _⟩ := h.remote cb hmem (by simpa using hown)
        rw [arrive_of_roomTopic hkey hwell.2.2.1]
        have hreceive := load_receive_le (M := M) w { s with callbacks := before ++ after } T
          cb.valueBytes
        simp only [Weights.callback, if_neg hown] at hremove
        omega
  | push before a after hlist _ =>
      simp only [Moves, load, hlist, pushMessage, List.length_append, List.length_cons,
        List.length_nil, Nat.add_mul]
      omega
  | enqueue before a after hlist =>
      simp only [Moves, load, hlist, enqueueArchive, List.length_append, List.length_cons,
        List.length_nil, Nat.add_mul]
      omega
  | take item rest hqueue hidle =>
      simp only [Moves, load, hqueue, hidle, List.length_cons, Option.toList_some,
        Option.toList_none, List.length_nil, Nat.add_mul]
      omega
  | put item harchiving =>
      simp only [Moves, load, harchiving, NodeState.write, List.map_append, List.map_cons,
        List.map_nil, List.sum_append, List.sum_cons, List.sum_nil, Weights.callback, if_true,
        Option.toList_some, Option.toList_none, List.length_cons, List.length_nil]
      omega
  | putFailed item harchiving =>
      simp only [Moves, load, harchiving, Option.toList_some, Option.toList_none, List.length_cons,
        List.length_nil]
      omega
  | _ => trivial

/-- Every station is one step closer to rest. -/
def distance : Weights := ⟨5, 4, 3, 2, 1, 6⟩

def writesAhead : Weights := ⟨1, 1, 1, 1, 0, 1⟩

theorem LoopInvariant.load_lt {ids : Finset Bytes} {s : NodeState} (h : M.LoopInvariant ids s)
    {l : Label} {t : NodeState} (hstep : M.Step s l t) (hl : l.isEcho = true) :
    load distance t < load distance s := by
  have hmoves := h.moves hstep distance
  cases l with
  | callback cb =>
      simp only [Moves, distance] at hmoves
      simp only [distance]
      split_ifs at hmoves <;> omega
  | put ok => cases ok <;> simp only [Moves, distance] at hmoves ⊢ <;> omega
  | push | enqueue | take =>
      simp only [Moves, distance] at hmoves ⊢
      omega
  | _ => simp [Label.isEcho] at hl

theorem LoopInvariant.put_add_load_le {ids : Finset Bytes} {s : NodeState}
    (h : M.LoopInvariant ids s) {l : Label} {t : NodeState} (hstep : M.Step s l t)
    (hl : l.isDelivery = true ∨ l.isEcho = true) :
    (if l.isPut then 1 else 0) + load writesAhead t ≤
      (if l.isDelivery then 1 else 0) + load writesAhead s := by
  have hmoves := h.moves hstep writesAhead
  cases l with
  | callback cb =>
      simp only [Moves, writesAhead] at hmoves
      simp only [Label.isPut, Label.isDelivery, writesAhead]
      split_ifs at hmoves <;> simp <;> omega
  | put ok =>
      cases ok <;> simp only [Moves, writesAhead] at hmoves <;>
        simp only [Label.isPut, Label.isDelivery, writesAhead] <;> simp <;> omega
  | live | replicate | push | enqueue | take =>
      simp only [Moves, writesAhead] at hmoves
      simp only [Label.isPut, Label.isDelivery, writesAhead]
      simp
      omega
  | _ => simp [Label.isEcho, Label.isDelivery] at hl

theorem sum_map_ite_eq_length_filter (p : Label → Bool) (ls : List Label) :
    (ls.map fun l => if p l then 1 else 0).sum = (ls.filter p).length := by
  induction ls with
  | nil => rfl
  | cons l ls ih =>
      simp only [List.map_cons, List.sum_cons, ih, List.filter_cons]
      split_ifs <;> simp [Nat.add_comm]

theorem mem_deliveredIds {ds : List Label} {d : Label} (hd : d ∈ ds) {T v : Bytes}
    {msg : ChatMessageState} (hdel : d.delivery = some (T, v))
    (hopen : M.openMessage T v = some msg) : msg.id ∈ M.deliveredIds ds := by
  rw [deliveredIds, List.mem_toFinset, List.mem_filterMap]
  exact ⟨d, hd, by simp [deliveredId, hdel, hopen]⟩

def loopOn (M : Messaging) (ids : Finset Bytes) : TransitionSystem NodeState Label :=
  M.node.restrict fun _ l => (l.isDelivery = true ∨ l.isEcho = true) ∧ (l.isEcho = true ∨
    ∃ T v msg, l.delivery = some (T, v) ∧ M.WellFormedOn T v msg ∧ msg.id ∈ ids)

theorem LoopInvariant.loopOn_step {ids : Finset Bytes} (hids : ids.card ≤ kMaxSeenIds)
    (s : NodeState) (l : Label) (t : NodeState) (h : M.LoopInvariant ids s)
    (hstep : (M.loopOn ids).step s l t) : M.LoopInvariant ids t :=
  h.step hids hstep.1 hstep.2.2

theorem run_loopOn {ds ls : List Label} {s : NodeState} (hds : ∀ d ∈ ds, M.WellFormedDelivery d)
    (hrun : M.receiveLoop.Run .fresh ls s) (hpre : ls.filter Label.isDelivery <+: ds) :
    (M.loopOn (M.deliveredIds ds)).Run .fresh ls s := by
  apply hrun.restrict_of_forall
  intro u l hl hloop
  refine ⟨hloop, hloop.symm.imp_right fun hdelivery => ?_⟩
  have hmem : l ∈ ds := hpre.subset (List.mem_filter.2 ⟨hl, hdelivery⟩)
  obtain ⟨T, v, msg, hdel, hwell⟩ := hds l hmem
  exact ⟨T, v, msg, hdel, hwell, mem_deliveredIds hmem hdel hwell.1⟩

theorem length_puts_le {ids : Finset Bytes} (hids : ids.card ≤ kMaxSeenIds) {ls : List Label}
    {s : NodeState} (hrun : (M.loopOn ids).Run .fresh ls s) :
    (ls.filter Label.isPut).length ≤ (ls.filter Label.isDelivery).length := by
  have hstep : ∀ u l w, M.LoopInvariant ids u → (M.loopOn ids).step u l w →
      M.LoopInvariant ids w ∧ (if l.isPut then 1 else 0) + load writesAhead w ≤
        (if l.isDelivery then 1 else 0) + load writesAhead u := fun u l w hu huw =>
    ⟨LoopInvariant.loopOn_step hids u l w hu huw, hu.put_add_load_le huw.1 huw.2.1⟩
  have hpaid := hrun.cost_add_measure_le hstep (loopInvariant_fresh ids)
  rw [sum_map_ite_eq_length_filter, sum_map_ite_eq_length_filter] at hpaid
  have hzero : load writesAhead .fresh = 0 := rfl
  omega

theorem LoopInvariant.not_diverges {ids : Finset Bytes} (hids : ids.card ≤ kMaxSeenIds)
    {s : NodeState} (h : M.LoopInvariant ids s) : ¬ M.echoLoop.Diverges s := by
  have hstep : ∀ u l w, M.LoopInvariant ids u → M.echoLoop.step u l w →
      M.LoopInvariant ids w ∧ load distance w < load distance u := fun u l w hu huw =>
    ⟨hu.step hids huw.1 (Or.inl huw.2), hu.load_lt huw.1 huw.2⟩
  exact TransitionSystem.not_diverges_of_measure hstep h

theorem quiescent_of_card_le {ds : List Label} (hds : ∀ d ∈ ds, M.WellFormedDelivery d)
    (hcard : (M.deliveredIds ds).card ≤ kMaxSeenIds) : M.Quiescent ds := by
  intro ls s hrun hpre
  have hfitting := run_loopOn hds hrun hpre
  have hinv : M.LoopInvariant (M.deliveredIds ds) s :=
    hfitting.invariant (LoopInvariant.loopOn_step hcard) (loopInvariant_fresh _)
  exact ⟨hinv.absorbsEchoes, length_puts_le hcard hfitting, hinv.not_diverges hcard⟩

theorem deliveredIds_append_singleton (ds : List Label) (d : Label) :
    M.deliveredIds (ds ++ [d]) = (M.deliveredId d).elim ∅ (fun id => {id}) ∪ M.deliveredIds ds := by
  unfold deliveredIds
  cases hid : M.deliveredId d with
  | none => simp [List.filterMap_append, hid]
  | some id =>
      ext x
      simp [List.filterMap_append, hid]

/-- The delivery at which the number of ids first exceeds a bound. -/
theorem exists_overflow {ds : List Label} {n : ℕ} (h : n < (M.deliveredIds ds).card) :
    ∃ pre d post id, ds = pre ++ d :: post ∧ (M.deliveredIds pre).card = n ∧
      M.deliveredId d = some id ∧ id ∉ M.deliveredIds pre := by
  induction ds using List.reverseRecOn with
  | nil => simp [deliveredIds] at h
  | append_singleton ds d ih =>
      by_cases hlt : n < (M.deliveredIds ds).card
      · obtain ⟨pre, e, post, id, rfl, hpre⟩ := ih hlt
        exact ⟨pre, e, post ++ [d], id, by simp, hpre⟩
      · rw [deliveredIds_append_singleton] at h
        cases hid : M.deliveredId d with
        | none => simp [hid] at h; omega
        | some id =>
            rw [hid, Option.elim_some, Finset.singleton_union] at h
            have hnew : id ∉ M.deliveredIds ds := fun hmem => by
              rw [Finset.insert_eq_of_mem hmem] at h
              exact hlt h
            rw [Finset.card_insert_of_notMem hnew] at h
            exact ⟨ds, d, [], id, rfl, by omega, hid, hnew⟩

/-- A well-formed delivery can run up to the end of its dedupe section at any time. -/
theorem exists_run_delivery {l : Label} (hl : M.WellFormedDelivery l) (s : NodeState) :
    ∃ T v msg ls s', M.deliveredId l = some msg.id ∧ M.WellFormedOn T v msg ∧
      M.receiveLoop.Run s ls (M.receive s' T v) ∧ ls.filter Label.isDelivery = [l] ∧
      s'.messaging = s.messaging ∧ s'.callbacks = s.callbacks ∧ s'.unpushed = s.unpushed ∧
      s'.unqueued = s.unqueued ∧ s'.archiving = s.archiving ∧ s'.replay = s.replay := by
  obtain ⟨T, v, msg, hdel, hwell⟩ := hl
  have hid : M.deliveredId l = some msg.id := by simp [deliveredId, hdel, hwell.1]
  cases l with
  | live topic value =>
      obtain ⟨rfl, rfl⟩ := Prod.mk.inj (Option.some.inj hdel)
      exact ⟨topic, value, msg, _, s, hid, hwell,
        .single ⟨Step.live s topic value, Or.inl rfl⟩, rfl, rfl, rfl, rfl, rfl, rfl, rfl⟩
  | replicate key value wins =>
      obtain ⟨T', hkey, heq⟩ := Option.map_eq_some_iff.1 hdel
      obtain ⟨rfl, rfl⟩ := Prod.mk.inj heq
      have hland : M.receiveLoop.step s (.replicate key value wins) (s.merge key value wins) :=
        ⟨Step.replicate s key value wins, Or.inl rfl⟩
      have hfire := Step.callback (M := M) (s.merge key value wins) s.callbacks
        ⟨key, value, false⟩ [] rfl
      rw [arrive_of_roomTopic hkey hwell.2.2.1] at hfire
      refine ⟨T', value, msg, _, _, hid, hwell,
        (TransitionSystem.Run.single hland).snoc ⟨hfire, Or.inr rfl⟩, rfl, rfl, ?_, rfl, rfl, rfl, rfl⟩
      exact List.append_nil _
  | _ => simp [Label.delivery] at hdel

theorem receive_callbacks (s : NodeState) (T v : Bytes) :
    (M.receive s T v).callbacks = s.callbacks := by
  rcases receive_cases M s T v with h | ⟨_, _, _, h⟩ <;> rw [h]

theorem exists_run_deliveries {ds : List Label} (hds : ∀ d ∈ ds, M.WellFormedDelivery d)
    (s : NodeState) (hcard : (s.messaging.seenIds ∪ M.deliveredIds ds).card ≤ kMaxSeenIds) :
    ∃ ls t, M.receiveLoop.Run s ls t ∧ ls.filter Label.isDelivery = ds ∧
      t.messaging.seenIds = s.messaging.seenIds ∪ M.deliveredIds ds ∧
      t.callbacks = s.callbacks := by
  induction ds using List.reverseRecOn with
  | nil => exact ⟨[], s, .nil s, rfl, by simp [deliveredIds], rfl⟩
  | append_singleton ds d ih =>
      have hsub : s.messaging.seenIds ∪ M.deliveredIds ds ⊆
          s.messaging.seenIds ∪ M.deliveredIds (ds ++ [d]) := by
        rw [deliveredIds_append_singleton]
        exact Finset.union_subset_union_right Finset.subset_union_right
      obtain ⟨ls, t, hrun, hfilter, hseen, hcbs⟩ :=
        ih (fun e he => hds e (List.mem_append_left _ he)) ((Finset.card_le_card hsub).trans hcard)
      obtain ⟨T, v, msg, ms, t', hid, hwell, hdeliver, hone, hmsg, hcbs', _⟩ :=
        exists_run_delivery (hds d (by simp)) t
      have hunion : s.messaging.seenIds ∪ M.deliveredIds (ds ++ [d]) =
          insert msg.id t.messaging.seenIds := by
        rw [deliveredIds_append_singleton, hid, Option.elim_some, Finset.singleton_union,
          Finset.union_insert, hseen]
      rw [hunion] at hcard ⊢
      refine ⟨ls ++ ms, _, hrun.append hdeliver, by rw [List.filter_append, hfilter, hone], ?_, ?_⟩
      · rw [receive_seenIds hwell.1, hmsg, ClearOnFull.touch_of_card_insert_le hcard]
      · rw [receive_callbacks, hcbs', hcbs]

theorem exists_run_archived {l : Label} (hl : M.WellFormedDelivery l) :
    ∃ T v msg ls t, M.deliveredId l = some msg.id ∧ M.WellFormedOn T v msg ∧
      M.receiveLoop.Run .fresh ls t ∧ ls.filter Label.isDelivery = [l] ∧
      t.messaging.seenIds = {msg.id} ∧ t.callbacks = [⟨buildKey T msg.id, v, true⟩] := by
  obtain ⟨T, v, msg, ls, s, hid, hwell, hrun, hfilter, hmsg, hcbs, hunpushed, hunqueued,
    harchiving, hreplay⟩ := exists_run_delivery hl .fresh
  have hnew : msg.id ∉ s.messaging.seenIds := by
    rw [hmsg]
    exact Finset.notMem_empty _
  have hqueue : s.messaging.archiveQueue = [] := by rw [hmsg]; rfl
  have hseen : (remember s.messaging msg.id).seenIds = {msg.id} := by
    rw [hmsg]
    exact ClearOnFull.enter_of_card_lt (by decide : (∅ : Finset Bytes).card < kMaxSeenIds) _
  rw [receive_of_notMem hwell.1 hnew, hunpushed] at hrun
  let a : Accepted := ⟨msg, v⟩
  have hpush := hrun.snoc ⟨Step.push _ [] a [] rfl hreplay, Or.inr rfl⟩
  simp only [hunqueued] at hpush
  have henqueue := hpush.snoc ⟨Step.enqueue _ [] a [] rfl, Or.inr rfl⟩
  have htake := henqueue.snoc ⟨Step.take _ a.record []
    (by simp only [enqueueArchive, pushMessage, remember, hqueue]; rfl) harchiving, Or.inr rfl⟩
  have hput := htake.snoc ⟨Step.put _ a.record rfl, Or.inr rfl⟩
  refine ⟨T, v, msg, _, _, hid, hwell, hput, ?_, hseen, ?_⟩
  · simp [List.filter_append, hfilter, Label.isDelivery]
  · simp only [NodeState.write, hcbs, a, Accepted.record, hwell.2.1]
    rfl

theorem not_quiescent_of_lt {ds : List Label} (hds : ∀ d ∈ ds, M.WellFormedDelivery d)
    (hcard : kMaxSeenIds < (M.deliveredIds ds).card) : ¬ M.Quiescent ds := by
  intro hquiescent
  obtain ⟨pre, d, post, id, rfl, hfull, hid, hnew⟩ := exists_overflow hcard
  obtain ⟨x, rest, rfl⟩ : ∃ x rest, pre = x :: rest := by
    cases pre with
    | nil => simp [deliveredIds, kMaxSeenIds] at hfull
    | cons x rest => exact ⟨x, rest, rfl⟩
  -- the first delivery goes once around, the next ones fill the set, the last one clears it
  obtain ⟨T, v, msg, ls, s, hxid, hwell, hrun, hfilter, hseen, hcbs⟩ :=
    exists_run_archived (hds x (by simp))
  have hids : {msg.id} ∪ M.deliveredIds rest = M.deliveredIds (x :: rest) := by
    ext y
    simp [deliveredIds, hxid]
  have hrest : ∀ e ∈ rest, M.WellFormedDelivery e := fun e he => hds e (by simp [he])
  obtain ⟨ls', s', hrun', hfilter', hseen', hcbs'⟩ :=
    exists_run_deliveries hrest s (by rw [hseen, hids, hfull])
  rw [hseen, hids] at hseen'
  obtain ⟨T', v', msg', ls'', s'', hid', hwell', hrun'', hfilter'', hmsg, hcbs'', _⟩ :=
    exists_run_delivery (hds d (by simp)) s'
  obtain rfl : id = msg'.id := Option.some.inj (hid.symm.trans hid')
  obtain ⟨habsorbs, _⟩ := hquiescent (ls ++ ls' ++ ls'') (M.receive s'' T' v')
    ((hrun.append hrun').append hrun'')
    ⟨post, by simp [List.filter_append, hfilter, hfilter', hfilter'']⟩
  have hcleared : (M.receive s'' T' v').messaging.seenIds = {msg'.id} := by
    rw [receive_seenIds hwell'.1, hmsg, hseen', ClearOnFull.touch_of_notMem hnew]
    exact ClearOnFull.enter_of_full hfull.ge _
  have hforgotten : msg.id ∉ (M.receive s'' T' v').messaging.seenIds := by
    rw [hcleared, Finset.mem_singleton]
    intro heq
    apply hnew
    rw [← heq, ← hids]
    exact Finset.mem_union_left _ (Finset.mem_singleton_self _)
  have hpending : (M.receive s'' T' v').callbacks = [] ++ ⟨buildKey T msg.id, v, true⟩ :: [] := by
    rw [receive_callbacks, hcbs'', hcbs', hcbs]
    rfl
  have hunpushed := (habsorbs _ _ rfl (Step.callback _ _ _ _ hpending)).2
  have hagain : M.receive { M.receive s'' T' v' with callbacks := [] ++ [] } T v = _ :=
    receive_of_notMem hwell.1 hforgotten
  rw [arrive_of_roomTopic (roomTopicFromKey_cons_buildKey T hwell.2.2.2) hwell.2.2.1,
    hagain] at hunpushed
  simp at hunpushed

section Circulation

variable (M) (a : ℕ → Accepted)

/-- Every record is in the archive queue, the next one to arrive is forgotten. -/
def Circulating (s : NodeState) : Prop :=
  ∃ n r, r ≤ n ∧ r ≤ kMaxSeenIds ∧
    s.messaging.seenIds = ClearOnFull.recent (fun i => (a i).message.id) n r ∧
    s.messaging.archiveQueue = (List.range (kMaxSeenIds + 1)).map (fun j => (a (n + j)).record) ∧
    s.unpushed = [] ∧ s.archiving = none ∧ s.callbacks = [] ∧ s.replay = none

variable {M a}
variable (hwell : ∀ i, M.WellFormedOn (a i).message.roomTopic (a i).valueBytes (a i).message)
variable (hdistinct : ClearOnFull.DistinctWindows (fun i => (a i).message.id) kMaxSeenIds)
variable (hperiod : ∀ i, a (i + (kMaxSeenIds + 1)) = a i)

include hwell hdistinct hperiod in
theorem Circulating.progress {s : NodeState} (h : Circulating a s) :
    ∃ ls t, ls ≠ [] ∧ M.echoLoop.Run s ls t ∧ Circulating a t := by
  obtain ⟨n, r, hn, hr, hseen, hqueue, hunpushed, harchiving, hcbs, hmutex⟩ := h
  have hforgotten : (a n).message.id ∉ s.messaging.seenIds :=
    hseen ▸ ClearOnFull.notMem_recent hdistinct hr
  obtain ⟨rest, hrest⟩ : ∃ rest, rest =
      (List.range kMaxSeenIds).map (fun j => (a (n + (j + 1))).record) := ⟨_, rfl⟩
  have hqueue' : s.messaging.archiveQueue = (a n).record :: rest := by
    rw [hqueue, hrest, List.range_succ_eq_map, List.map_cons, List.map_map]
    rfl
  let u : NodeState := { NodeState.write { s with
    messaging := { s.messaging with archiveQueue := rest }
    archiving := none } (a n).record.1 (a n).record.2 with callbacks := [] }
  have htake := TransitionSystem.Run.single (S := M.node)
    (Step.take s (a n).record rest hqueue' harchiving)
  have hput := htake.snoc (Step.put _ (a n).record rfl)
  have hfire := hput.snoc (Step.callback _ []
    ⟨(a n).record.1, (a n).record.2, true⟩ [] (by simp only [NodeState.write, hcbs]))
  have hreceive : M.arrive u (slash :: (a n).record.1) (a n).record.2 = { u with
      messaging := remember u.messaging (a n).message.id
      unpushed := u.unpushed ++ [a n] } := by
    rw [Accepted.record, arrive_of_roomTopic
      (roomTopicFromKey_cons_buildKey _ (hwell n).2.2.2) (hwell n).2.2.1]
    exact receive_of_notMem (hwell n).1 hforgotten
  have harrived : M.node.Run s _ (M.arrive u (slash :: (a n).record.1) (a n).record.2) := hfire
  rw [hreceive] at harrived
  have hround := harrived.append (run_accepted M u hmutex (a n))
  obtain ⟨r', hn', hr', hrecent⟩ :=
    ClearOnFull.enter_recent (by decide : 0 < kMaxSeenIds) hdistinct hn hr
  refine ⟨_, _, ?_, hround.restrict ?_, n + 1, r', hn', hr', ?_, ?_, ?_⟩
  · simp
  · simp [Label.isEcho]
  · rw [← hrecent, ← hseen]
    rfl
  · have hlast : (a (n + 1 + kMaxSeenIds)).record = (a n).record := by
      rw [Nat.add_right_comm, Nat.add_assoc, hperiod]
    rw [List.range_succ, List.map_append, List.map_singleton, hlast, accept_archiveQueue]
    simp only [Nat.add_assoc, Nat.add_comm 1]
    rw [← hrest]
    rfl
  · exact ⟨hunpushed, rfl, rfl, hmutex⟩

include hwell hdistinct in
theorem exists_run_filled (n : ℕ) : ∃ ls s r, M.receiveLoop.Run .fresh ls s ∧
    ls.filter Label.isDelivery =
      (List.range n).map (fun i => .live (a i).message.roomTopic (a i).valueBytes) ∧
    r ≤ n ∧ r ≤ kMaxSeenIds ∧
    s = { NodeState.fresh with messaging := s.messaging } ∧
    s.messaging.seenIds = ClearOnFull.recent (fun i => (a i).message.id) n r ∧
    s.messaging.archiveQueue = (List.range n).map (fun j => (a j).record) := by
  induction n with
  | zero => exact ⟨[], .fresh, 0, .nil _, rfl, le_rfl, Nat.zero_le _, rfl, rfl, rfl⟩
  | succ n ih =>
      obtain ⟨ls, s, r, hrun, hfilter, hn, hr, hs, hseen, hqueue⟩ := ih
      have hforgotten : (a n).message.id ∉ s.messaging.seenIds :=
        hseen ▸ ClearOnFull.notMem_recent hdistinct hr
      obtain ⟨r', hn', hr', hrecent⟩ :=
        ClearOnFull.enter_recent (by decide : 0 < kMaxSeenIds) hdistinct hn hr
      have hlive := TransitionSystem.Run.single (S := M.node)
        (Step.live s (a n).message.roomTopic (a n).valueBytes)
      rw [receive_of_notMem (hwell n).1 hforgotten] at hlive
      have hdelivered := hlive.append (run_accepted M s (by rw [hs]; rfl) (a n))
      refine ⟨_, _, r', hrun.append (hdelivered.restrict ?_), ?_, hn', hr', ?_, ?_, ?_⟩
      · simp [Label.isEcho, Label.isDelivery]
      · rw [List.filter_append, hfilter, List.range_succ, List.map_append]
        rfl
      · rw [hs]
      · rw [← hrecent, ← hseen]
        rfl
      · rw [accept_archiveQueue, hqueue, List.range_succ, List.map_append]
        rfl

include hwell hdistinct hperiod in
theorem exists_run_diverges : ∃ ls s, M.receiveLoop.Run .fresh ls s ∧
    ls.filter Label.isDelivery = (List.range (kMaxSeenIds + 1)).map
      (fun i => .live (a i).message.roomTopic (a i).valueBytes) ∧ M.echoLoop.Diverges s := by
  obtain ⟨ls, s, r, hrun, hfilter, hn, hr, hs, hseen, hqueue⟩ :=
    exists_run_filled hwell hdistinct (kMaxSeenIds + 1)
  refine ⟨ls, s, hrun, hfilter, TransitionSystem.diverges_of_progress
    (fun u hu => Circulating.progress hwell hdistinct hperiod hu) ⟨kMaxSeenIds + 1, r, hn, hr,
      hseen, ?_, by rw [hs]; rfl, by rw [hs]; rfl, by rw [hs]; rfl, by rw [hs]; rfl⟩⟩
  simp only [hqueue, Nat.add_comm (kMaxSeenIds + 1), hperiod]

end Circulation

/-- The loop comes to rest exactly when the ids delivered fit the dedupe set. -/
theorem quiescent_iff_card_le (M : Messaging) {ds : List Label}
    (hds : ∀ d ∈ ds, M.WellFormedDelivery d) :
    M.Quiescent ds ↔ (M.deliveredIds ds).card ≤ kMaxSeenIds :=
  ⟨fun h => not_lt.1 fun hlt => not_quiescent_of_lt hds hlt h, quiescent_of_card_le hds⟩

/-- One message more than the set holds, over and over. -/
def overflowing (sender : Bytes) (i : ℕ) : Accepted :=
  let msg := numberedMessage kSmokeTopicA (i % (kMaxSeenIds + 1))
  ⟨msg, (plaintext sender).codec.serialize msg⟩

theorem wellFormedOn_numberedMessage (sender : Bytes) (n : ℕ) :
    (plaintext sender).WellFormedOn kSmokeTopicA
      ((plaintext sender).codec.serialize (numberedMessage kSmokeTopicA n))
      (numberedMessage kSmokeTopicA n) :=
  ⟨openMessage_plaintext sender _ (valid_numberedMessage (validUtf8_ofString _) n), rfl, by decide,
    isKeySegment_nextMessageId 0 0 n⟩

theorem distinctWindows_overflowing (sender : Bytes) :
    ClearOnFull.DistinctWindows (fun i => (overflowing sender i).message.id) kMaxSeenIds := by
  intro i j hlt hle heq
  have hmod : i % (kMaxSeenIds + 1) = j % (kMaxSeenIds + 1) := nextMessageId_injective 0 0 heq
  simp only [kMaxSeenIds] at hmod hle
  omega

/-- A first sync of a room with 4097 messages never comes to rest. -/
theorem not_quiescent_overflowing :
    let M := plaintext (ofString "self")
    let a := overflowing (ofString "self")
    let ds := (List.range (kMaxSeenIds + 1)).map fun i =>
      Label.live (a i).message.roomTopic (a i).valueBytes
    (∃ ls s, M.receiveLoop.Run .fresh ls s ∧ ls.filter Label.isDelivery = ds ∧
      M.echoLoop.Diverges s) ∧ ¬ M.Quiescent ds := by
  intro M a ds
  have hperiod : ∀ i, a (i + (kMaxSeenIds + 1)) = a i := fun i => by
    simp only [a, overflowing, Nat.add_mod_right]
  have hdiverges : ∃ ls s, M.receiveLoop.Run .fresh ls s ∧
      ls.filter Label.isDelivery = ds ∧ M.echoLoop.Diverges s :=
    exists_run_diverges (fun i => wellFormedOn_numberedMessage _ _)
      (distinctWindows_overflowing _) hperiod
  obtain ⟨ls, s, hrun, hfilter, hdiv⟩ := hdiverges
  exact ⟨⟨ls, s, hrun, hfilter, hdiv⟩, fun hquiescent =>
    (hquiescent ls s hrun (hfilter ▸ List.prefix_rfl)).2.2 hdiv⟩

/-- A single message. -/
theorem quiescent_numberedMessage :
    let M := plaintext (ofString "self")
    let d := Label.live kSmokeTopicA (M.codec.serialize (numberedMessage kSmokeTopicA 0))
    M.WellFormedDelivery d ∧ (M.deliveredIds [d]).card ≤ kMaxSeenIds ∧ M.Quiescent [d] := by
  intro M d
  have hwell : M.WellFormedDelivery d := ⟨_, _, _, rfl, wellFormedOn_numberedMessage _ 0⟩
  have hcard : (M.deliveredIds [d]).card ≤ kMaxSeenIds :=
    (List.toFinset_card_le _).trans ((List.length_filterMap_le _ _).trans (by decide))
  exact ⟨hwell, hcard,
    (quiescent_iff_card_le M (List.forall_mem_singleton.2 hwell)).2 hcard⟩

end Messaging

end GcsChat
