import GcsChat.DrainSafety

/-!
# The life of a session

A session comes up when `gcs_init` gives the mutex back for the first time after it has built it, and
goes down when a shutdown evicts it. No other step of any thread touches which session is up, the
number of the last one, or where a session was allocated.
-/

namespace GcsChat

open Interactive

namespace FfiProcess

variable {ι : Type} [DecidableEq ι] {C : Core} {P : FfiCall → Effect Globals → Prop} {s s' : FfiProcess ι}

def published (s : FfiProcess ι) (g : Globals) (address : ℕ) : FfiProcess ι :=
  ({ s with globals := g, owner := none, built := s.built + 1 } : FfiProcess ι).setObjects
    (s.built + 1) (.built address)

/-- The session that is up, the numbering and the addresses are the same; the port and the flag of the
teardowns too, unless the step is about them. -/
structure Keeps (s : FfiProcess ι) (l : FfiStep ι) (s' : FfiProcess ι) : Prop where
  session : s'.globals.session = s.globals.session
  built : s'.built = s.built
  address : ∀ n, (s'.objects n).address = (s.objects n).address
  dartPort : s'.dartPort = s.dartPort ∨ ∃ i handle topic, l = .subscribed i true ∧
    s.threads i = .subscribing handle topic s'.dartPort
  tearingDown : s'.tearingDown = s.tearingDown ∨ ∃ i handle work, l = .teardown i ∧
    s.threads i = .tearingDown handle work ∧ s' = s.tearDown i handle work

inductive SessionStep (s : FfiProcess ι) (l : FfiStep ι) (s' : FfiProcess ι) : Prop
  | kept (h : Keeps s l s')
  | evicts (i : ι) (handle : Handle) (h : Evicts s i handle l) (hfree : s.owner = none)
      (hidle : s.globals.inFlight = 0) (hs' : s' = s.evict i handle)
  | publishes {i : ι} {call : FfiCall} {g : Globals} {next : Unit → Program Globals FfiResult}
      {pointer pointer' : Option ℕ} {address : ℕ} (hl : l = .unlock i)
      (hthread : s.threads i = .running call (ask (.unlock g) next) pointer)
      (howner : s.owner = some i) (hdown : s.globals.session = none)
      (hup : g.session = some address)
      (hs' : s' = (s.published g address).set i (.running call (next ()) pointer'))

omit [DecidableEq ι] in
theorem address_updateArchive (n k : ℕ) (f : Archive → Archive) :
    ((s.updateArchive n f).objects k).address = (s.objects k).address := by
  change (Function.update s.objects n _ k).address = _
  by_cases hk : k = n
  · subst hk
    rw [Function.update_self]
  · rw [Function.update_of_ne hk]

omit [DecidableEq ι] in
theorem address_answered (pointer : Option ℕ) (e : Effect Globals) (a : e.Answer) (k : ℕ) :
    ((s.answered pointer e a).objects k).address = (s.objects k).address := by
  cases e with
  | initSession =>
      cases a with
      | none =>
          rw [answered]
          split <;> rfl
      | some address =>
          rw [answered]
          split <;> rfl
  | subscribe topic => cases a <;> cases pointer <;> rfl
  | enqueueArchive key value =>
      cases pointer with
      | none => rfl
      | some n => exact address_updateArchive n k (·.enqueue key value)
  | _ => rfl

omit [DecidableEq ι] in
theorem tearingDown_answered (pointer : Option ℕ) (e : Effect Globals) (a : e.Answer) :
    (s.answered pointer e a).tearingDown = s.tearingDown := by
  cases e with
  | initSession =>
      cases a with
      | none =>
          rw [answered]
          split <;> rfl
      | some address =>
          rw [answered]
          split <;> rfl
  | subscribe topic => cases a <;> cases pointer <;> rfl
  | enqueueArchive key value => cases pointer <;> rfl
  | _ => rfl

omit [DecidableEq ι] in
theorem address_destroyed (work : Teardown) (k : ℕ) :
    ((s.destroyed work).objects k).address = (s.objects k).address := by
  by_cases hk : work.evicted = some k
  · obtain ⟨booted, evicted, stage⟩ := work
    obtain rfl : evicted = some k := hk
    cases stage with
    | sdkShutdown => rfl
    | relock => rfl
    | stopArchive => exact address_updateArchive k k ({ · with stopped := true })
    | _ =>
        change (Function.update s.objects k _ k).address = _
        rw [Function.update_self]
  · rw [objects_destroyed hk]

theorem sessionStep_enter {i : ι} {call : FfiCall} (hthread : s.threads i = .called call)
    (hfree : s.owner = none) : SessionStep s (.enter i) (s.enter C i call) := by
  cases call with
  | shutdown handle =>
      cases handle with
      | none => exact .kept ⟨rfl, rfl, fun _ => rfl, .inl rfl, .inl rfl⟩
      | some handle =>
          rw [FfiProcess.enter]
          split
          · next hsession =>
              split
              · next hzero => exact .evicts i handle (.atOnce hthread hsession) hfree hzero rfl
              · exact .kept ⟨rfl, rfl, fun _ => rfl, .inl rfl, .inl rfl⟩
          · exact .kept ⟨rfl, rfl, fun _ => rfl, .inl rfl, .inl rfl⟩
  | subscribe handle topic dartPort =>
      cases handle with
      | none => exact .kept ⟨rfl, rfl, fun _ => rfl, .inl rfl, .inl rfl⟩
      | some handle =>
          cases topic with
          | none => exact .kept ⟨rfl, rfl, fun _ => rfl, .inl rfl, .inl rfl⟩
          | some topic =>
              rw [FfiProcess.enter]
              split <;> exact .kept ⟨rfl, rfl, fun _ => rfl, .inl rfl, .inl rfl⟩
  | _ => exact .kept ⟨rfl, rfl, fun _ => rfl, .inl rfl, .inl rfl⟩

/-- Every step keeps the session that is up, evicts it or publishes a new one. -/
theorem Sound.sessionStep (h : s.Sound P) {l : FfiStep ι} (hstep : (ffiSystem C ι).step s l s') :
    SessionStep s l s' := by
  cases l with
  | call i call =>
      obtain ⟨-, hcall⟩ := hstep
      cases call with
      | live n topic data =>
          obtain ⟨-, rfl⟩ := hcall
          exact .kept ⟨rfl, rfl, fun _ => rfl, .inl rfl, .inl rfl⟩
      | heal n key value =>
          obtain ⟨-, -, rfl⟩ := hcall
          exact .kept ⟨rfl, rfl, fun _ => rfl, .inl rfl, .inl rfl⟩
      | _ =>
          obtain rfl := hcall
          exact .kept ⟨rfl, rfl, fun _ => rfl, .inl rfl, .inl rfl⟩
  | enter i =>
      obtain ⟨call, hthread, hfree, rfl⟩ := hstep
      exact sessionStep_enter hthread hfree
  | subscribed i running =>
      obtain ⟨handle, topic, dartPort, hthread, rfl⟩ := hstep
      cases running with
      | true => exact .kept ⟨rfl, rfl, fun _ => rfl, .inr ⟨i, handle, topic, rfl, hthread⟩, .inl rfl⟩
      | false => exact .kept ⟨rfl, rfl, fun _ => rfl, .inl rfl, .inl rfl⟩
  | lock i =>
      obtain ⟨call, next, pointer, -, -, rfl⟩ := hstep
      exact .kept ⟨rfl, rfl, fun _ => rfl, .inl rfl, .inl rfl⟩
  | unlock i =>
      obtain ⟨call, g, next, pointer, pointer', hthread, howner, -, rfl⟩ := hstep
      cases hsession : s.globals.session with
      | some address =>
          have hup : s.globals.session ≠ none := by
            rw [hsession]
            nofun
          rw [release_of_up s g hup]
          exact .kept ⟨(h.rest_unlock hthread howner).1 hup, rfl, fun _ => rfl, .inl rfl, .inl rfl⟩
      | none =>
          cases hopened : g.session with
          | none =>
              rw [release_of_none s g hopened]
              exact .kept ⟨hopened.trans hsession.symm, rfl, fun _ => rfl, .inl rfl, .inl rfl⟩
          | some address =>
              rw [release_of_opened s g hsession hopened]
              exact .publishes rfl hthread howner hsession hopened rfl
  | answer i e a =>
      obtain ⟨call, next, pointer, -, -, rfl⟩ := hstep
      have halike := alike_answered (s := s) pointer e a
      exact .kept ⟨congrArg Globals.session halike.globals, halike.built,
        address_answered pointer e a, .inl halike.dartPort, .inl (tearingDown_answered pointer e a)⟩
  | finish i =>
      obtain ⟨call, result, pointer, -, rfl⟩ := hstep
      exact .kept ⟨rfl, rfl, fun _ => rfl, .inl rfl, .inl rfl⟩
  | drained i =>
      obtain ⟨handle, hthread, hfree, hzero, rfl⟩ := hstep
      exact .evicts i handle (.drained hthread) hfree hzero rfl
  | teardown i =>
      obtain ⟨handle, work, hthread, -, rfl⟩ := hstep
      have halike := alike_destroyed (s := s) work
      exact .kept ⟨congrArg Globals.session halike.globals, halike.built, address_destroyed work,
        .inl halike.dartPort, .inr ⟨i, handle, work, rfl, hthread, rfl⟩⟩
  | take n =>
      obtain ⟨item, rest, -, -, -, rfl⟩ := hstep
      exact .kept ⟨rfl, rfl, fun k => address_updateArchive n k _, .inl rfl, .inl rfl⟩
  | handOver n =>
      obtain ⟨item, -, rfl⟩ := hstep
      exact .kept ⟨rfl, rfl, fun k => address_updateArchive n k _, .inl rfl, .inl rfl⟩
  | workerReturn n =>
      obtain ⟨-, -, -, -, rfl⟩ := hstep
      exact .kept ⟨rfl, rfl, fun k => address_updateArchive n k _, .inl rfl, .inl rfl⟩

theorem eq_evict {l : FfiStep ι} {i : ι} {handle : Handle} (h : Evicts s i handle l)
    (hidle : s.globals.inFlight = 0) (hstep : (ffiSystem C ι).step s l s') :
    s' = s.evict i handle := by
  cases h with
  | atOnce hthread hsession =>
      obtain ⟨call, hcalled, -, rfl⟩ := hstep
      obtain rfl : call = .shutdown (some handle) :=
        FfiThread.called.inj (hcalled.symm.trans hthread)
      rw [FfiProcess.enter, if_pos hsession, if_pos hidle]
  | drained hthread =>
      obtain ⟨handle', hdraining, -, -, rfl⟩ := hstep
      obtain rfl : handle' = handle := FfiThread.draining.inj (hdraining.symm.trans hthread)
      rfl

inductive ObjectsStep (s : FfiProcess ι) (n : ℕ) : FfiStep ι → SessionObjects → Prop
  | built {i : ι} {address : ℕ} (hn : n = s.built + 1) :
      ObjectsStep s n (.unlock i) (.built address)
  | enqueue {i : ι} {call : FfiCall} {key value : ByteString.Bytes}
      {next : Unit → Program Globals FfiResult}
      (hthread : s.threads i = .running call (ask (.enqueueArchive key value) next) (some n)) :
      ObjectsStep s n (.answer i (.enqueueArchive key value) ())
        { s.objects n with archive := (s.objects n).archive.enqueue key value }
  | teardown {i : ι} {handle : Handle} {work : Teardown}
      (hthread : s.threads i = .tearingDown handle work) (hcan : s.CanTearDown work)
      (hevicted : work.evicted = some n) :
      ObjectsStep s n (.teardown i) ((s.destroyed work).objects n)
  | take {item : ByteString.Bytes × ByteString.Bytes}
      {rest : List (ByteString.Bytes × ByteString.Bytes)}
      (hhand : (s.objects n).archive.inHand = none)
      (hreturned : (s.objects n).archive.returned = false)
      (hqueue : (s.objects n).archive.queue = item :: rest) : ObjectsStep s n (.take n)
        { s.objects n with
          archive := { (s.objects n).archive with inHand := some item, queue := rest } }
  | handOver {item : ByteString.Bytes × ByteString.Bytes}
      (hhand : (s.objects n).archive.inHand = some item) : ObjectsStep s n (.handOver n)
        { s.objects n with archive := { (s.objects n).archive with
          inHand := none
          handedOver := (s.objects n).archive.handedOver ++ [item] } }
  | workerReturn (hhand : (s.objects n).archive.inHand = none)
      (hstopped : (s.objects n).archive.stopped) (hqueue : (s.objects n).archive.queue = []) :
      ObjectsStep s n (.workerReturn n)
        { s.objects n with archive := { (s.objects n).archive with returned := true } }

omit [DecidableEq ι] in
theorem objects_updateArchive_cases {u : FfiProcess ι} {k n : ℕ} {f : Archive → Archive}
    {l : FfiStep ι} (hu : u.objects = Function.update s.objects k
      { s.objects k with archive := f (s.objects k).archive })
    (h : ObjectsStep s k l { s.objects k with archive := f (s.objects k).archive }) :
    u.objects n = s.objects n ∨ ObjectsStep s n l (u.objects n) := by
  rw [hu]
  by_cases hn : n = k
  · subst hn
    rw [Function.update_self]
    exact .inr h
  · rw [Function.update_of_ne hn]
    exact .inl rfl

theorem ffiSystem_objects {l : FfiStep ι} (h : (ffiSystem C ι).step s l s') (n : ℕ) :
    s'.objects n = s.objects n ∨ ObjectsStep s n l (s'.objects n) := by
  cases l with
  | call i call =>
      obtain ⟨-, hcall⟩ := h
      cases call with
      | live n topic data =>
          obtain ⟨-, rfl⟩ := hcall
          exact .inl rfl
      | heal n key value =>
          obtain ⟨-, -, rfl⟩ := hcall
          exact .inl rfl
      | _ =>
          obtain rfl := hcall
          exact .inl rfl
  | enter i =>
      obtain ⟨call, hthread, hfree, rfl⟩ := h
      refine .inl ?_
      cases call with
      | shutdown handle =>
          cases handle with
          | none => rfl
          | some handle =>
              rw [FfiProcess.enter]
              split
              · split
                · rw [evict_objects]
                · rfl
              · rfl
      | subscribe handle topic dartPort =>
          cases handle with
          | none => rfl
          | some handle =>
              cases topic with
              | none => rfl
              | some topic =>
                  rw [FfiProcess.enter]
                  split <;> rfl
      | _ => rfl
  | subscribed i running =>
      obtain ⟨handle, topic, dartPort, -, rfl⟩ := h
      cases running <;> exact .inl rfl
  | lock i =>
      obtain ⟨call, next, pointer, -, -, rfl⟩ := h
      exact .inl rfl
  | unlock i =>
      obtain ⟨call, g, next, pointer, pointer', -, -, -, rfl⟩ := h
      change (s.release g).objects n = _ ∨ ObjectsStep s n _ ((s.release g).objects n)
      unfold release
      split
      · next address hdown hup =>
          change Function.update s.objects (s.built + 1) _ n = _ ∨
            ObjectsStep s n _ (Function.update s.objects (s.built + 1) _ n)
          by_cases hn : n = s.built + 1
          · subst hn
            rw [Function.update_self]
            exact .inr (.built rfl)
          · rw [Function.update_of_ne hn]
            exact .inl rfl
      · exact .inl rfl
  | answer i e a =>
      obtain ⟨call, next, pointer, hthread, -, rfl⟩ := h
      cases e with
      | initSession =>
          change (s.answered pointer .initSession a).objects n = _ ∨
            ObjectsStep s n _ ((s.answered pointer .initSession a).objects n)
          cases a with
          | none =>
              rw [answered]
              split <;> exact .inl rfl
          | some address =>
              rw [answered]
              split <;> exact .inl rfl
      | subscribe topic => cases a <;> cases pointer <;> exact .inl rfl
      | enqueueArchive key value =>
          cases pointer with
          | none => exact .inl rfl
          | some k =>
              exact objects_updateArchive_cases (f := (·.enqueue key value)) rfl (.enqueue hthread)
      | _ => exact .inl rfl
  | finish i =>
      obtain ⟨call, result, pointer, -, rfl⟩ := h
      exact .inl rfl
  | drained i =>
      obtain ⟨handle, hthread, hfree, hzero, rfl⟩ := h
      rw [evict_objects]
      exact .inl rfl
  | teardown i =>
      obtain ⟨handle, work, hthread, hcan, rfl⟩ := h
      change (s.destroyed work).objects n = _ ∨ ObjectsStep s n _ ((s.destroyed work).objects n)
      by_cases hn : work.evicted = some n
      · exact .inr (.teardown hthread hcan hn)
      · exact .inl (objects_destroyed hn)
  | take k =>
      obtain ⟨item, rest, hhand, hreturned, hqueue, rfl⟩ := h
      exact objects_updateArchive_cases (f := fun a => { a with inHand := some item, queue := rest })
        rfl (.take hhand hreturned hqueue)
  | handOver k =>
      obtain ⟨item, hhand, rfl⟩ := h
      exact objects_updateArchive_cases (f := fun a => { a with
        inHand := none
        handedOver := a.handedOver ++ [item] }) rfl (.handOver hhand)
  | workerReturn k =>
      obtain ⟨hhand, -, hstopped, hqueue, rfl⟩ := h
      exact objects_updateArchive_cases (f := ({ · with returned := true })) rfl
        (.workerReturn hhand hstopped hqueue)

end FfiProcess

end GcsChat
