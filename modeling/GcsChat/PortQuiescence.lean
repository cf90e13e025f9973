import GcsChat.SessionLife

/-!
# Who is posted to

Events are posted under the mutex, to the port that is registered then. A port is registered by an
accepted `gcs_subscribe` and cleared with the eviction, so the port found at a post belongs to the
session that is up, and so does the event.
-/

namespace GcsChat

open Interactive TransitionSystem

namespace FfiProcess

section Run

variable {ι : Type} [DecidableEq ι] {C : Core} {P : FfiCall → Effect Globals → Prop} {s₀ s s' : FfiProcess ι}
  {l : FfiStep ι} {ls : List (FfiStep ι)}

def EvictsNone (s : FfiProcess ι) (l : FfiStep ι) : Prop :=
  ∀ i handle, Evicts s i handle l → s.globals.inFlight ≠ 0

/-- The port that is registered was accepted from a `gcs_subscribe` of the run, on the session that is
up, and no session was evicted since. -/
def RegisteredOn (C : Core) (s₀ : FfiProcess ι) (ls : List (FfiStep ι)) (s : FfiProcess ι) : Prop :=
  ∃ before s₁ i handle topic s₂ after,
    ls = before ++ .subscribed i true :: after ∧ (ffiSystem C ι).Run s₀ before s₁ ∧
    s₁.threads i = .subscribing handle topic s.dartPort ∧
    s₁.globals.session = some handle.address ∧
    (ffiSystem C ι).step s₁ (.subscribed i true) s₂ ∧
    ((ffiSystem C ι).restrict EvictsNone).Run s₂ after s ∧
    s.globals.session = some handle.address ∧ s.built = s₁.built

theorem RegisteredOn.snoc (h : RegisteredOn C s₀ ls s) (hstep : (ffiSystem C ι).step s l s')
    (hkept : Keeps s l s') (hport : s'.dartPort = s.dartPort) : RegisteredOn C s₀ (ls ++ [l]) s' := by
  obtain ⟨before, s₁, i, handle, topic, s₂, after, rfl, hbefore, hthread, hsession, hregister, hafter,
    hup, hbuilt⟩ := h
  have hnone : EvictsNone s l := by
    intro j other hevicts hidle
    have hdown : s'.globals.session = none := by
      rw [eq_evict hevicts hidle hstep]
      exact evict_session j other
    exact absurd (hdown.symm.trans (hkept.session.trans hup)) nofun
  refine ⟨before, s₁, i, handle, topic, s₂, after ++ [l], ?_, hbefore, ?_, hsession, hregister,
    hafter.snoc ⟨hstep, hnone⟩, hkept.session.trans hup, hkept.built.trans hbuilt⟩
  · rw [List.append_assoc, List.cons_append]
  · rw [hport]
    exact hthread

omit [DecidableEq ι] in
theorem session_of_subscribing (h : s.Sound P) {i : ι} {handle : Handle} {topic : ByteString.Bytes}
    {dartPort : ℤ} (hthread : s.threads i = .subscribing handle topic dartPort) :
    s.globals.session = some handle.address := by
  have hfits := h.fits i
  rw [hthread] at hfits
  exact hfits.2

/-- In every run the port is no port or was registered on the session that is up. -/
theorem registered_of_run (h₀ : (ffiSystem C ι).initial s₀) (hrun : (ffiSystem C ι).Run s₀ ls s)
    (hport : s.dartPort ≠ 0) : RegisteredOn C s₀ ls s := by
  induction hrun with
  | nil =>
      obtain ⟨nodeUp, rfl⟩ := h₀
      exact absurd rfl hport
  | @snoc u w ls l hbefore hstep ih =>
      have hsound : u.Sound C.May := Sound.reachable ⟨s₀, ls, h₀, hbefore⟩
      have hup : u.dartPort ≠ 0 → u.globals.session ≠ none := by
        intro hne hnone
        obtain ⟨_, _, _, _, _, _, _, _, _, _, _, _, _, hsession, _⟩ := ih hne
        exact absurd (hnone.symm.trans hsession) nofun
      cases hsound.sessionStep hstep with
      | kept hkept =>
          rcases hkept.dartPort with hsame | ⟨i, handle, topic, rfl, hthread⟩
          · exact (ih (hsame ▸ hport)).snoc hstep hkept hsame
          · have hsession := session_of_subscribing hsound hthread
            exact ⟨ls, u, i, handle, topic, w, [], rfl, hbefore, hthread, hsession, hstep, .nil w,
              hkept.session.trans hsession, hkept.built⟩
      | evicts i handle _ _ _ hs' =>
          subst hs'
          rcases evict_dartPort (s := u) i handle with hzero | ⟨hnone, hsame⟩
          · exact absurd hzero hport
          · exact absurd hnone (hup (hsame ▸ hport))
      | publishes _ _ _ hdown _ hs' =>
          subst hs'
          exact absurd hdown (hup hport)

omit [DecidableEq ι] in
theorem owner_of_post (h : s.Sound P) {i : ι} {call : FfiCall} {event : GcsEvent}
    {next : Unit → Program Globals FfiResult} {pointer : Option ℕ}
    (hthread : s.threads i = .running call (ask (.post event) next) pointer) : s.owner = some i := by
  have hfits := h.fits i
  rw [hthread] at hfits
  obtain ⟨m, hmode, hbegins⟩ := hfits
  have hallows := (hbegins.follows nofun).1
  cases m with
  | inside w found => exact hmode.1
  | start => exact hallows.elim
  | window => exact hallows.elim
  | past => exact hallows.elim

end Run

end FfiProcess

open FfiProcess

/-- Whenever an event is posted to a port, the port was registered by an accepted `gcs_subscribe` on
the session that is up, which nobody has evicted since, and the event is posted under the mutex by a
call that points to no other session. -/
theorem posts_to_own_port {C : Core} {ι : Type} [DecidableEq ι] {s₀ s : FfiProcess ι}
    {ls : List (FfiStep ι)} (h₀ : (ffiSystem C ι).initial s₀) (hrun : (ffiSystem C ι).Run s₀ ls s)
    {i : ι} {call : FfiCall} {event : GcsEvent} {next : Unit → Program Globals FfiResult}
    {pointer : Option ℕ} (hthread : s.threads i = .running call (ask (.post event) next) pointer)
    (hport : s.dartPort ≠ 0) :
    RegisteredOn C s₀ ls s ∧ s.owner = some i ∧ ∀ n, pointer = some n → n = s.built := by
  have hsound : s.Sound C.May := Sound.reachable ⟨s₀, ls, h₀, hrun⟩
  refine ⟨registered_of_run h₀ hrun hport, owner_of_post hsound hthread, fun n hn => ?_⟩
  exact (hsound.pointers i n (by rw [hthread]; exact hn)).1

/-- The first session greets the port that was registered on it. -/
theorem greets_own_port :
    let C := protoCore (Messaging.plaintext [])
    ∃ (s₀ s : FfiProcess ℕ) (ls : List (FfiStep ℕ)), s.dartPort = 7 ∧ RegisteredOn C s₀ ls s := by
  intro C
  let call := FfiCall.subscribe (some ⟨1, 1⟩) (some []) 7
  let called := (firstSession ℕ).set 0 (.called call)
  let entered := called.enter C 0 call
  let greeting := ({ entered with dartPort := 7 } : FfiProcess ℕ).set 0
    (.running call (Core.greet entered.globals) none)
  have hcall : Leads C (firstSession ℕ) called := Leads.step (l := .call 0 call) ⟨rfl, rfl⟩
  have henter : Leads C called entered := Leads.step (l := .enter 0) ⟨call, rfl, rfl, rfl⟩
  have hsubscribed : Leads C entered greeting :=
    Leads.step (l := .subscribed 0 true) ⟨⟨1, 1⟩, [], 7, rfl, rfl⟩
  obtain ⟨s₀, ls, h₀, hrun⟩ := (hcall.trans (henter.trans hsubscribed)).reachable
    (reachable_firstSession C ℕ)
  exact ⟨s₀, greeting, ls, rfl, (posts_to_own_port (i := 0) h₀ hrun rfl nofun).1⟩

end GcsChat
