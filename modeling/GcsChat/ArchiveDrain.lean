import GcsChat.SessionLife

/-!
# The archive queue at shutdown

Three protocols keep accepted messages: a session is evicted when nobody is in a window any more, so
nothing is enqueued for it afterwards; the archive worker returns only when the stop flag is up and
its queue is empty; the teardown joins it before it shuts the session down.
-/

namespace GcsChat

open ByteString Interactive

/-- What was enqueued is handed over in order. Only a worker that has handed over everything has
returned, and it has when the session is shut down. -/
structure SessionObjects.Drains (o : SessionObjects) : Prop where
  order : o.archive.enqueued =
    o.archive.handedOver ++ o.archive.inHand.toList ++ o.archive.queue
  returned : o.archive.returned = true → o.archive.queue = [] ∧ o.archive.inHand = none
  shutDown : o.shutDown = true → o.archive.returned = true

namespace SessionObjects.Drains

variable {o : SessionObjects}

theorem all_handed_over (h : o.Drains) (hreturned : o.archive.returned = true) :
    o.archive.handedOver = o.archive.enqueued := by
  obtain ⟨hqueue, hhand⟩ := h.returned hreturned
  rw [h.order, hqueue, hhand, Option.toList_none, List.append_nil, List.append_nil]

theorem enqueue (h : o.Drains) (hreturned : o.archive.returned = false) (key value : Bytes) :
    ({ o with archive := o.archive.enqueue key value } : SessionObjects).Drains where
  order := by
    change o.archive.enqueued ++ [(key, value)] = _ ++ (o.archive.queue ++ [(key, value)])
    rw [h.order, List.append_assoc]
    rfl
  returned hafter := absurd (hreturned.symm.trans hafter) nofun
  shutDown := h.shutDown

theorem take (h : o.Drains) {item : Bytes × Bytes} {rest : List (Bytes × Bytes)}
    (hhand : o.archive.inHand = none) (hreturned : o.archive.returned = false)
    (hqueue : o.archive.queue = item :: rest) :
    ({ o with archive := { o.archive with inHand := some item, queue := rest } } :
      SessionObjects).Drains where
  order := by
    change o.archive.enqueued = o.archive.handedOver ++ [item] ++ rest
    rw [h.order, hhand, hqueue, Option.toList_none, List.append_nil, List.append_assoc,
      List.singleton_append]
  returned hafter := absurd (hreturned.symm.trans hafter) nofun
  shutDown := h.shutDown

theorem handOver (h : o.Drains) {item : Bytes × Bytes} (hhand : o.archive.inHand = some item) :
    ({ o with archive := { o.archive with
      inHand := none
      handedOver := o.archive.handedOver ++ [item] } } : SessionObjects).Drains where
  order := by
    change o.archive.enqueued = o.archive.handedOver ++ [item] ++ [] ++ o.archive.queue
    rw [h.order, hhand, Option.toList_some, List.append_nil]
  returned hafter := ⟨(h.returned hafter).1, rfl⟩
  shutDown := h.shutDown

theorem workerReturn (h : o.Drains) (hhand : o.archive.inHand = none)
    (hqueue : o.archive.queue = []) :
    ({ o with archive := { o.archive with returned := true } } : SessionObjects).Drains where
  order := h.order
  returned _ := ⟨hqueue, hhand⟩
  shutDown _ := rfl

end SessionObjects.Drains

def TeardownStage.Joined : TeardownStage → Prop
  | sdkShutdown => False
  | stopArchive => False
  | joinArchive => False
  | _ => True

namespace FfiProcess

variable {ι : Type} [DecidableEq ι] {C : Core} {P : FfiCall → Effect Globals → Prop} {s s' : FfiProcess ι}
  {l : FfiStep ι}

/-- A teardown that has joined the worker finds that it has returned. -/
def Joined (s : FfiProcess ι) : Prop :=
  ∀ i handle work n, s.threads i = .tearingDown handle work → work.evicted = some n →
    work.stage.Joined → (s.objects n).archive.returned = true

omit [DecidableEq ι] in
theorem drains_destroyed {work : Teardown} {n : ℕ} (h : (s.objects n).Drains)
    (hn : work.evicted = some n)
    (hjoined : work.stage.Joined → (s.objects n).archive.returned = true) :
    ((s.destroyed work).objects n).Drains ∧
      ((s.destroyed work).objects n).archive.returned = (s.objects n).archive.returned := by
  obtain ⟨booted, evicted, stage⟩ := work
  obtain rfl : evicted = some n := hn
  cases stage with
  | sdkShutdown => exact ⟨h, rfl⟩
  | relock => exact ⟨h, rfl⟩
  | stopArchive =>
      change (Function.update s.objects n _ n).Drains ∧
        (Function.update s.objects n _ n).archive.returned = _
      rw [Function.update_self]
      exact ⟨⟨h.order, h.returned, h.shutDown⟩, rfl⟩
  | sessionShutdown =>
      change (Function.update s.objects n _ n).Drains ∧
        (Function.update s.objects n _ n).archive.returned = _
      rw [Function.update_self]
      exact ⟨⟨h.order, h.returned, fun _ => hjoined trivial⟩, rfl⟩
  | _ =>
      change (Function.update s.objects n _ n).Drains ∧
        (Function.update s.objects n _ n).archive.returned = _
      rw [Function.update_self]
      exact ⟨⟨h.order, h.returned, h.shutDown⟩, rfl⟩

omit [DecidableEq ι] in
theorem Sound.not_returned (h : s.Sound P) {i : ι} {call : FfiCall}
    {program : Program Globals FfiResult} {n : ℕ}
    (hthread : s.threads i = .running call program (some n)) :
    (s.objects n).archive.returned = false := by
  obtain ⟨rfl, hup⟩ := h.pointers i n (by rw [hthread]; rfl)
  obtain ⟨address, hsession⟩ := Option.ne_none_iff_exists'.1 hup
  exact (h.up address hsession).returned

theorem drains_step (h : ∀ n, (s.objects n).Drains) (hsound : s.Sound P) (hjoined : s.Joined)
    (hstep : (ffiSystem C ι).step s l s') (n : ℕ) : (s'.objects n).Drains := by
  rcases ffiSystem_objects hstep n with hsame | hobjects
  · rw [hsame]
    exact h n
  · generalize s'.objects n = o' at hobjects
    cases hobjects with
    | built hn => exact ⟨rfl, nofun, nofun⟩
    | enqueue hthread => exact (h n).enqueue (hsound.not_returned hthread) _ _
    | @teardown i handle work hthread _ hevicted =>
        exact (drains_destroyed (h n) hevicted (hjoined i handle work n hthread hevicted)).1
    | take hhand hreturned hqueue => exact (h n).take hhand hreturned hqueue
    | handOver hhand => exact (h n).handOver hhand
    | workerReturn hhand _ hqueue => exact (h n).workerReturn hhand hqueue

theorem returned_step (h : ∀ n, (s.objects n).Drains) (hjoined : s.Joined)
    (hstep : (ffiSystem C ι).step s l s') {n : ℕ} (hn : n ≤ s.built)
    (hreturned : (s.objects n).archive.returned = true) :
    (s'.objects n).archive.returned = true := by
  rcases ffiSystem_objects hstep n with hsame | hobjects
  · rw [hsame]
    exact hreturned
  · generalize s'.objects n = o' at hobjects
    cases hobjects with
    | built hnew => omega
    | @teardown i handle work hthread _ hevicted =>
        rw [(drains_destroyed (h n) hevicted (hjoined i handle work n hthread hevicted)).2]
        exact hreturned
    | workerReturn _ _ _ => rfl
    | _ => exact hreturned

omit [DecidableEq ι] in
theorem not_joined_start (sdkBootedHere : Bool) {evicted : Option ℕ} {n : ℕ}
    (h : evicted = some n) : ¬ (Teardown.start sdkBootedHere evicted).stage.Joined := by
  subst h
  cases sdkBootedHere <;> exact id

omit [DecidableEq ι] in
theorem returned_of_joined_next {work : Teardown} {n : ℕ} (hn : work.evicted = some n)
    (hcan : s.CanTearDown work) (h : work.stage.Joined → (s.objects n).archive.returned = true)
    (hnext : work.next.stage.Joined) : (s.objects n).archive.returned = true := by
  obtain ⟨booted, evicted, stage⟩ := work
  obtain rfl : evicted = some n := hn
  cases stage with
  | sdkShutdown => exact hnext.elim
  | stopArchive => exact hnext.elim
  | joinArchive => exact hcan
  | _ => exact h trivial

theorem Joined.step (hjoined : s.Joined) (h : ∀ n, (s.objects n).Drains) (hsound : s.Sound P)
    (hstep : (ffiSystem C ι).step s l s') : s'.Joined := by
  intro i handle work n hthread hevicted hpast
  have hbefore : n ≤ s.built ∧ (s.objects n).archive.returned = true := by
    have hle := hsound.evicted i n
    have hwas := hjoined i handle
    have hchanged := ffiSystem_threads hstep i
    rw [hthread] at hchanged
    generalize s.threads i = t at hchanged hle hwas
    rcases hchanged with rfl | hchanged
    · exact ⟨(hle hevicted).1, hwas work n rfl hevicted hpast⟩
    · cases hchanged with
      | evicts _ _ _ => exact absurd hpast (not_joined_start _ hevicted)
      | @teardown _ before hcan _ =>
          have hn : before.evicted = some n := hevicted
          exact ⟨(hle hn).1, returned_of_joined_next hn hcan (hwas before n rfl hn) hpast⟩
  exact returned_step h hjoined hstep hbefore.1 hbefore.2

theorem drains_of_reachable (h : (ffiSystem C ι).Reachable s) :
    (∀ n, (s.objects n).Drains) ∧ s.Joined := by
  have hinv : s.Sound C.May ∧ (∀ n, (s.objects n).Drains) ∧ s.Joined := by
    refine h.invariant (I := fun s => s.Sound C.May ∧ (∀ n, (s.objects n).Drains) ∧ s.Joined)
      (fun s₀ h₀ => ?_) fun u l w ⟨hsound, hdrains, hjoined⟩ hstep => ?_
    · refine ⟨Sound.initial (C := C) h₀, ?_, ?_⟩
      · obtain ⟨nodeUp, rfl⟩ := h₀
        exact fun n => ⟨rfl, nofun, nofun⟩
      · obtain ⟨nodeUp, rfl⟩ := h₀
        exact fun _ _ _ _ => nofun
    · exact ⟨hsound.step_may hstep, drains_step hdrains hsound hjoined hstep,
        hjoined.step hdrains hsound hstep⟩
  exact hinv.2

omit [DecidableEq ι] in
theorem Sound.enqueues (h : s.Sound C.May) {i : ι} {call : FfiCall} {key value : Bytes}
    {next : Unit → Program Globals FfiResult} {pointer : Option ℕ}
    (hthread : s.threads i = .running call (ask (.enqueueArchive key value) next) pointer) :
    ∃ n, pointer = some n ∧ (s.objects n).archive.returned = false := by
  have howner : s.owner ≠ some i := by
    intro howner
    have hfits := h.fits i
    rw [hthread] at hfits
    obtain ⟨m, hmode, hbegins⟩ := hfits
    have hallows := (hbegins.follows nofun).1
    cases m with
    | inside w found =>
        rcases hallows with hquick | ⟨-, _, _, hput⟩
        · exact hquick
        · cases hput
    | _ => exact hmode.1 howner
  have hwindow := h.inWindow hthread howner trivial
  rw [hthread] at hwindow
  obtain ⟨n, rfl⟩ := Option.ne_none_iff_exists'.1 hwindow
  exact ⟨n, rfl, h.not_returned hthread⟩

end FfiProcess

/-- In every reachable state what was enqueued for a session is handed over in its order, up to what
the worker still has and can go on with. All of it is handed over before the session is shut down,
and nothing is enqueued where the worker has returned. -/
theorem archive_drains {C : Core} {ι : Type} [DecidableEq ι] {s : FfiProcess ι}
    (h : (ffiSystem C ι).Reachable s) (n : ℕ) :
    (s.objects n).archive.enqueued = (s.objects n).archive.handedOver ++
      (s.objects n).archive.inHand.toList ++ (s.objects n).archive.queue ∧
    ((s.objects n).archive.handedOver ≠ (s.objects n).archive.enqueued →
      ∃ l s', (l = .take n ∨ l = .handOver n) ∧ (ffiSystem C ι).step s l s') ∧
    ((s.objects n).shutDown = true →
      (s.objects n).archive.handedOver = (s.objects n).archive.enqueued) ∧
    (∀ i handle work, s.threads i = .tearingDown handle work → work.evicted = some n →
      work.stage = .sessionShutdown →
        (s.objects n).archive.handedOver = (s.objects n).archive.enqueued) ∧
    ∀ i call key value next pointer,
      s.threads i = .running call (ask (.enqueueArchive key value) next) pointer →
        ∃ m, pointer = some m ∧ (s.objects m).archive.returned = false := by
  obtain ⟨hdrains, hjoined⟩ := FfiProcess.drains_of_reachable h
  refine ⟨(hdrains n).order, fun hleft => ?_, fun hdown => ?_, fun i handle work hthread hn hstage => ?_,
    fun i call key value next pointer hthread => (FfiProcess.Sound.reachable h).enqueues hthread⟩
  · have hrunning : (s.objects n).archive.returned = false := by
      rw [← Bool.not_eq_true]
      exact fun hreturned => hleft ((hdrains n).all_handed_over hreturned)
    cases hhand : (s.objects n).archive.inHand with
    | some item => exact ⟨.handOver n, _, .inr rfl, item, hhand, rfl⟩
    | none =>
        cases hqueue : (s.objects n).archive.queue with
        | cons item rest => exact ⟨.take n, _, .inl rfl, item, rest, hhand, hrunning, hqueue, rfl⟩
        | nil =>
            refine absurd ?_ hleft
            rw [(hdrains n).order, hhand, hqueue, Option.toList_none, List.append_nil,
              List.append_nil]
  · exact (hdrains n).all_handed_over ((hdrains n).shutDown hdown)
  · exact (hdrains n).all_handed_over (hjoined i handle work n hthread hn (hstage ▸ trivial))

/-- The worker can go on with a message that was received in the first session. -/
theorem drains_firstRoom :
    let M := Messaging.plaintext (ofString "self")
    let msg := Messaging.numberedMessage FfiProcess.quietRoom 0
    let s := (FfiProcess.firstRoom ℕ).updateArchive 1
      (·.enqueue (buildKey msg.roomTopic msg.id) (M.codec.serialize msg))
    ∃ l s', (l = .take 1 ∨ l = .handOver 1) ∧ (ffiSystem (protoCore M) ℕ).step s l s' := by
  intro M msg s
  have hopen : M.openMessage FfiProcess.quietRoom (M.codec.serialize msg) = some msg :=
    Messaging.openMessage_plaintext _ _ (Messaging.valid_numberedMessage (validUtf8_ofString _) 0)
  have hlive : FfiProcess.Leads (protoCore M) (FfiProcess.firstRoom ℕ) s :=
    FfiProcess.leads_live (i := 0) (n := 1) rfl rfl rfl (Option.some_ne_none 1) List.mem_cons_self
      hopen
  refine (archive_drains (hlive.reachable (FfiProcess.reachable_firstRoom M ℕ)) 1).2.1 ?_
  exact List.ne_cons_self

end GcsChat
