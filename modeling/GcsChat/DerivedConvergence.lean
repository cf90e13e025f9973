import GcsChat.CatalogThreads
import Mathlib.Data.List.TakeWhile

/-!
# Derived joins under concurrent commands

`RefreshDerivedJoins` works with the set it computed when it began, although it gives `g_mutex` up
for each subscribe. While calls are in progress, a derived topic is joined or still to be registered
by some call, and a joined topic is derived or still to be evicted by one; when none is left the two
sets agree. That needs a call that comes back to do no harm with its old set.
-/

namespace GcsChat

open ByteString Interactive

section Convergence

variable {ι : Type} [DecidableEq ι] {C : Core} {s s' : CatalogPool ι}

def CatalogPool.derived (s : CatalogPool ι) : List Bytes := s.globals.entities.derivedJoinedTopics

/-- A call that comes back registers no topic that is no longer derived. When it has none to register
and goes on to evict, its set still has every joined topic that is derived. -/
def CatalogPool.Harmless (s : CatalogPool ι) : CatalogStep ι → Prop
  | .resume i calls => ∀ program snapshot, s.threads i = some (.running program snapshot) →
      (∀ topic, .listen topic true ∈ calls → topic ∈ s.derived) ∧
        (calls = [] → ∀ topic ∈ s.derived, topic ∈ s.globals.derivedTopics → topic ∈ snapshot)
  | _ => True

/-- A thread is inside or behind the subscribe of a refresh, with `rest` still to go. -/
def CatalogPool.Refreshing (C : Core) (s : CatalogPool ι) (i : ι) (snapshot rest : List Bytes) :
    Prop :=
  rest ⊆ snapshot ∧ ∃ topic,
    s.threads i =
        some (.running (ask (.subscribe topic) (C.refreshAfter snapshot rest topic)) snapshot) ∨
      s.threads i = some (.running (C.refreshAfter snapshot rest topic true) snapshot)

structure CatalogPool.Converging (C : Core) (s : CatalogPool ι) : Prop where
  called : ∀ i session topic payload, s.threads i = some (.called session topic payload) →
    ∃ command, C.parseCommand payload = some command ∧ command.ChangesCatalog
  running : ∀ i program snapshot, s.threads i = some (.running program snapshot) →
    (∃ status, program = done status) ∨ ∃ rest, s.Refreshing C i snapshot rest
  covered : ∀ topic ∈ s.derived, topic ∈ s.globals.derivedTopics ∨
    ∃ i snapshot rest, s.Refreshing C i snapshot rest ∧ topic ∈ rest
  evicted : ∀ topic ∈ s.globals.derivedTopics, topic ∈ s.derived ∨
    ∃ i snapshot rest, s.Refreshing C i snapshot rest ∧ topic ∉ snapshot
  listed : s.globals.derivedTopics ⊆ s.globals.roomTopics

namespace CatalogPool

@[simp] theorem put_globals (i : ι) (g : Globals) (t : Option CatalogThread) :
    (s.put i g t).globals = g := rfl

@[simp] theorem put_threads_self (i : ι) (g : Globals) (t : Option CatalogThread) :
    (s.put i g t).threads i = t := Function.update_self ..

theorem put_threads_of_ne {i j : ι} (h : j ≠ i) (g : Globals) (t : Option CatalogThread) :
    (s.put i g t).threads j = s.threads j := Function.update_of_ne h ..

theorem Refreshing.put {i j : ι} {snapshot rest : List Bytes} (h : s.Refreshing C j snapshot rest)
    (hne : j ≠ i) (g : Globals) (t : Option CatalogThread) :
    (s.put i g t).Refreshing C j snapshot rest := by
  unfold Refreshing
  rw [put_threads_of_ne hne]
  exact h

omit [DecidableEq ι] in
theorem Refreshing.snapshot_eq {i : ι} {program : Program Globals GcsStatus}
    {snapshot snapshot' rest : List Bytes} (h : s.Refreshing C i snapshot rest)
    (hi : s.threads i = some (.running program snapshot')) : snapshot' = snapshot := by
  obtain ⟨-, topic, ht | ht⟩ := h <;>
  · rw [hi] at ht
    cases ht
    rfl

theorem refreshAfter_eq (snapshot rest : List Bytes) (topic : Bytes) :
    C.refreshAfter snapshot rest topic true = ask .lock fun g : Globals =>
      C.refreshFrom snapshot rest { g with inFlight := g.inFlight - 1 } := rfl

omit [DecidableEq ι] in
theorem Refreshing.next_eq {i : ι} {next : Globals → Program Globals GcsStatus}
    {snapshot snapshot' rest : List Bytes} (h : s.Refreshing C i snapshot rest)
    (hi : s.threads i = some (.running (ask .lock next) snapshot')) :
    next = fun g => C.refreshFrom snapshot rest { g with inFlight := g.inFlight - 1 } := by
  obtain ⟨-, topic, ht | ht⟩ := h
  · rw [hi] at ht
    cases ht
  · rw [hi, refreshAfter_eq] at ht
    cases ht
    rfl

/-- A section of one thread keeps the classification of all others. -/
theorem Converging.put_running (h : s.Converging C) {i : ι} {g : Globals}
    {t : Option CatalogThread}
    (hcalled : ∀ session topic payload, t = some (.called session topic payload) →
      ∃ command, C.parseCommand payload = some command ∧ command.ChangesCatalog)
    (hrunning : ∀ program snapshot, t = some (.running program snapshot) →
      (∃ status, program = done status) ∨ ∃ rest, (s.put i g t).Refreshing C i snapshot rest)
    (hcovered : ∀ topic ∈ g.entities.derivedJoinedTopics, topic ∈ g.derivedTopics ∨
      ∃ j snapshot rest, (s.put i g t).Refreshing C j snapshot rest ∧ topic ∈ rest)
    (hevicted : ∀ topic ∈ g.derivedTopics, topic ∈ g.entities.derivedJoinedTopics ∨
      ∃ j snapshot rest, (s.put i g t).Refreshing C j snapshot rest ∧ topic ∉ snapshot)
    (hlisted : g.derivedTopics ⊆ g.roomTopics) : (s.put i g t).Converging C where
  called j session topic payload hj := by
    by_cases hji : j = i
    · subst hji
      exact hcalled session topic payload (by rwa [put_threads_self] at hj)
    · exact h.called j session topic payload (by rwa [put_threads_of_ne hji] at hj)
  running j program snapshot hj := by
    by_cases hji : j = i
    · subst hji
      exact hrunning program snapshot (by rwa [put_threads_self] at hj)
    · rw [put_threads_of_ne hji] at hj
      exact (h.running j program snapshot hj).imp_right fun ⟨rest, hrest⟩ =>
        ⟨rest, hrest.put hji g t⟩
  covered := hcovered
  evicted := hevicted
  listed := hlisted

theorem mem_or_mem_dropWhile {topics rest : List Bytes} {x : Bytes} (h : x ∈ rest) :
    x ∈ topics ∨ x ∈ rest.dropWhile (· ∈ topics) := by
  rw [← List.takeWhile_append_dropWhile (p := (· ∈ topics)) (l := rest)] at h
  rcases List.mem_append.1 h with h | h
  · exact .inl (by simpa using List.mem_takeWhile_imp h)
  · exact .inr h

/-- One section of a refresh: what the thread still covers and evicts is taken over, and it does no
harm itself. -/
theorem Converging.refresh (h : s.Converging C) {i : ι} {g g' : Globals} {snapshot rest : List Bytes}
    {tr : Trace (Effect Globals) Effect.Answer} {q : Program Globals GcsStatus}
    (hrest : rest ⊆ snapshot) (hrel : Releases (C.refreshFrom snapshot rest g) tr g' q)
    (hlisted : g.derivedTopics ⊆ g.roomTopics)
    (hcovered : ∀ x ∈ g.entities.derivedJoinedTopics, x ∈ g.derivedTopics ∨
      (∃ rest', rest' ⊆ snapshot ∧ x ∈ rest' ∧ Releases (C.refreshFrom snapshot rest' g) tr g' q) ∨
      ∃ j snapshot' rest', j ≠ i ∧ s.Refreshing C j snapshot' rest' ∧ x ∈ rest')
    (hevicted : ∀ x ∈ g.derivedTopics, x ∈ g.entities.derivedJoinedTopics ∨ x ∉ snapshot ∨
      ∃ j snapshot' rest', j ≠ i ∧ s.Refreshing C j snapshot' rest' ∧ x ∉ snapshot')
    (hregister : ∀ x, .listen x true ∈ topicCalls tr → x ∈ g.entities.derivedJoinedTopics)
    (hkeep : topicCalls tr = [] → ∀ x ∈ g.entities.derivedJoinedTopics, x ∈ g.derivedTopics →
      x ∈ snapshot) :
    (s.put i g' (some (.running q snapshot))).Converging C := by
  rcases Core.releases_refreshFrom hrel with
    ⟨topic, rest₁, hdrop, hcalls, hglobals, hq⟩ | ⟨hdrop, hcalls, hglobals, hq⟩
  · -- the thread registers `topic` and waits for its subscribe
    have hsub : rest₁ ⊆ snapshot := fun x hx =>
      hrest ((List.dropWhile_suffix _).subset (hdrop ▸ List.mem_cons_of_mem _ hx))
    have hthread : ∀ rest', rest' ⊆ snapshot →
        q = ask (.subscribe topic) (C.refreshAfter snapshot rest' topic) →
        (s.put i g' (some (.running q snapshot))).Refreshing C i snapshot rest' :=
      fun rest' hsub' hq' => ⟨hsub', topic, .inl (hq' ▸ put_threads_self i g' _)⟩
    have hjoined : ∀ x, x ∈ g'.derivedTopics ↔ x ∈ g.derivedTopics ∨ x = topic := by
      intro x
      rw [hglobals]
      simp [Core.addDerived]
    have hentities : g'.entities = g.entities := by rw [hglobals]; rfl
    refine h.put_running (fun _ _ _ ht => by cases ht) ?_ ?_ ?_ ?_
    · rintro program snapshot' ⟨⟩
      exact .inr ⟨rest₁, hthread rest₁ hsub hq⟩
    · intro x hx
      rw [hentities] at hx
      rw [hjoined]
      rcases hcovered x hx with hx | ⟨rest', hsub', hx, hrel'⟩ | ⟨j, snapshot', rest', hj, href, hx⟩
      · exact .inl (.inl hx)
      · rcases mem_or_mem_dropWhile hx with hx | hx
        · exact .inl (.inl hx)
        rcases Core.releases_refreshFrom hrel' with
          ⟨topic', rest₂, hdrop', -, -, hq'⟩ | ⟨hdrop', -⟩
        · obtain rfl : topic = topic' := by
            have := (ask.inj (hq.symm.trans hq')).1
            cases this
            rfl
          rw [hdrop'] at hx
          rcases List.mem_cons.1 hx with rfl | hx
          · exact .inl (.inr rfl)
          · have hsub₂ : rest₂ ⊆ snapshot := fun y hy =>
              hsub' ((List.dropWhile_suffix _).subset (hdrop' ▸ List.mem_cons_of_mem _ hy))
            exact .inr ⟨i, snapshot, rest₂, hthread rest₂ hsub₂ hq', hx⟩
        · rw [hdrop'] at hx
          cases hx
      · exact .inr ⟨j, snapshot', rest', href.put hj _ _, hx⟩
    · intro x hx
      rw [hentities]
      rcases (hjoined x).1 hx with hx | rfl
      · rcases hevicted x hx with hx | hx | ⟨j, snapshot', rest', hj, href, hx⟩
        · exact .inl hx
        · exact .inr ⟨i, snapshot, rest₁, hthread rest₁ hsub hq, hx⟩
        · exact .inr ⟨j, snapshot', rest', href.put hj _ _, hx⟩
      · exact .inl (hregister x (hcalls ▸ List.mem_cons_self))
    · intro x hx
      have hrooms : g'.roomTopics = Core.pushBackAbsent g.roomTopics topic := by rw [hglobals]; rfl
      rw [hrooms, Core.mem_pushBackAbsent]
      exact ((hjoined x).1 hx).imp_left fun hx => hlisted hx
  · -- the thread has nothing to register, evicts and is done
    have hjoined : ∀ x, x ∈ g'.derivedTopics ↔ x ∈ g.derivedTopics ∧ x ∈ snapshot := by
      intro x
      rw [hglobals]
      exact Core.mem_derivedTopics_evictUnderived
    have hentities : g'.entities = g.entities := by rw [hglobals]; rfl
    refine h.put_running (fun _ _ _ ht => by cases ht) ?_ ?_ ?_ ?_
    · rintro program snapshot' ⟨⟩
      exact .inl ⟨.ok, hq⟩
    · intro x hx
      rw [hentities] at hx
      rw [hjoined]
      rcases hcovered x hx with hmem | ⟨rest', hsub', hmem, hrel'⟩ |
        ⟨j, snapshot', rest', hj, href, hmem⟩
      · exact .inl ⟨hmem, hkeep hcalls x hx hmem⟩
      · rcases mem_or_mem_dropWhile hmem with hmem | hmem
        · exact .inl ⟨hmem, hkeep hcalls x hx hmem⟩
        rcases Core.releases_refreshFrom hrel' with ⟨_, _, -, hcalls', -⟩ | ⟨hdrop', -⟩
        · rw [hcalls] at hcalls'
          cases hcalls'
        · rw [hdrop'] at hmem
          cases hmem
      · exact .inr ⟨j, snapshot', rest', href.put hj _ _, hmem⟩
    · intro x hx
      rw [hentities]
      obtain ⟨hmem, hsnapshot⟩ := (hjoined x).1 hx
      rcases hevicted x hmem with hx | hx | ⟨j, snapshot', rest', hj, href, hx⟩
      · exact .inl hx
      · exact absurd hsnapshot hx
      · exact .inr ⟨j, snapshot', rest', href.put hj _ _, hx⟩
    · intro x hx
      obtain ⟨hmem, hsnapshot⟩ := (hjoined x).1 hx
      rw [hglobals, Core.mem_roomTopics_evictUnderived]
      exact ⟨hlisted hmem, fun _ => .inl hsnapshot⟩

theorem Converging.put_idle (h : s.Converging C) {i : ι} {t : Option CatalogThread}
    (hi : ∀ snapshot rest, ¬ s.Refreshing C i snapshot rest)
    (hcalled : ∀ session topic payload, t = some (.called session topic payload) →
      ∃ command, C.parseCommand payload = some command ∧ command.ChangesCatalog)
    (hrunning : ∀ program snapshot, t = some (.running program snapshot) →
      ∃ status, program = done status) : (s.put i s.globals t).Converging C := by
  have hput : ∀ {j snapshot rest}, s.Refreshing C j snapshot rest →
      (s.put i s.globals t).Refreshing C j snapshot rest := by
    intro j snapshot rest href
    refine href.put ?_ _ _
    rintro rfl
    exact hi snapshot rest href
  refine h.put_running hcalled (fun program snapshot ht => .inl (hrunning program snapshot ht))
    (fun x hx => ?_) (fun x hx => ?_) h.listed
  · exact (h.covered x hx).imp_right fun ⟨j, snapshot, rest, href, hx⟩ =>
      ⟨j, snapshot, rest, hput href, hx⟩
  · exact (h.evicted x hx).imp_right fun ⟨j, snapshot, rest, href, hx⟩ =>
      ⟨j, snapshot, rest, hput href, hx⟩

theorem Converging.enter (h : s.Converging C) {i : ι} {session : Option ℕ} {topic : Option Bytes}
    {payload : Bytes} {tr : Trace (Effect Globals) Effect.Answer} {g' : Globals}
    {q : Program Globals GcsStatus} (hi : s.threads i = some (.called session topic payload))
    (hrel : Releases (C.publishLocked s.globals session topic (some payload) >>= fun result =>
      ask (.unlock result.1) fun _ => done result.2) tr g' q) :
    (s.put i g' (some (.running q g'.entities.derivedJoinedTopics))).Converging C := by
  have hidle : ∀ snapshot rest, ¬ s.Refreshing C i snapshot rest := by
    rintro snapshot rest ⟨-, t, ht | ht⟩ <;>
    · rw [hi] at ht
      cases ht
  obtain ⟨command, hparse, hcommand⟩ := h.called i session topic payload hi
  rcases Core.entered_publishLocked hparse hcommand hrel with
    ⟨rfl, status, rfl⟩ | ⟨entities, tr', hrefresh⟩
  · refine h.put_idle hidle (fun _ _ _ ht => by cases ht) ?_
    rintro program snapshot ⟨⟩
    exact ⟨status, rfl⟩
  · have hentities : g'.entities = entities := by
      rcases Core.releases_refreshFrom hrefresh with ⟨_, _, -, -, rfl, -⟩ | ⟨-, -, rfl, -⟩ <;> rfl
    rw [hentities]
    refine h.refresh (List.Subset.refl _) hrefresh h.listed (fun x hx => ?_) (fun x _ => ?_)
      (fun x hx => ?_) (fun _ x hx _ => hx)
    · exact .inr (.inl ⟨_, List.Subset.refl _, hx, hrefresh⟩)
    · exact (Classical.em _).imp_right .inl
    · rcases Core.releases_refreshFrom hrefresh with
        ⟨topic', rest', hdrop, hcalls, -⟩ | ⟨-, hcalls, -⟩
      · rw [hcalls] at hx
        have hmem : topic' ∈ entities.derivedJoinedTopics :=
          (List.dropWhile_suffix _).subset (hdrop ▸ List.mem_cons_self)
        simp only [List.mem_cons, TopicCall.listen.injEq, reduceCtorEq, List.not_mem_nil, or_false,
          and_true] at hx
        exact hx ▸ hmem
      · rw [hcalls] at hx
        cases hx

theorem Converging.resume (h : s.Converging C) {i : ι} {next : Globals → Program Globals GcsStatus}
    {snapshot : List Bytes} {tr : Trace (Effect Globals) Effect.Answer} {g' : Globals}
    {q : Program Globals GcsStatus} (hi : s.threads i = some (.running (ask .lock next) snapshot))
    (hrel : Releases (next s.globals) tr g' q) (hharmless : s.Harmless (.resume i (topicCalls tr))) :
    (s.put i g' (some (.running q snapshot))).Converging C := by
  obtain ⟨hregister, hkeep⟩ := hharmless _ _ hi
  rcases h.running i _ _ hi with ⟨status, hdone⟩ | ⟨rest, href⟩
  · cases hdone
  have hfrom : ∀ snapshot' rest', s.Refreshing C i snapshot' rest' → snapshot' = snapshot ∧
      Releases (C.refreshFrom snapshot rest' { s.globals with inFlight := s.globals.inFlight - 1 })
        tr g' q := by
    intro snapshot' rest' href'
    obtain rfl := href'.snapshot_eq hi
    refine ⟨rfl, ?_⟩
    rw [href'.next_eq hi] at hrel
    exact hrel
  refine h.refresh href.1 (hfrom _ _ href).2 h.listed (fun x hx => ?_) (fun x hx => ?_) hregister
    hkeep
  · refine (h.covered x hx).imp_right fun ⟨j, snapshot', rest', href', hx⟩ => ?_
    by_cases hji : j = i
    · obtain ⟨rfl, hrel'⟩ := hfrom _ _ (hji ▸ href')
      exact .inl ⟨rest', href'.1, hx, hrel'⟩
    · exact .inr ⟨j, snapshot', rest', hji, href', hx⟩
  · refine (h.evicted x hx).imp_right fun ⟨j, snapshot', rest', href', hx⟩ => ?_
    by_cases hji : j = i
    · obtain ⟨rfl, -⟩ := hfrom _ _ (hji ▸ href')
      exact .inl hx
    · exact .inr ⟨j, snapshot', rest', hji, href', hx⟩

theorem Converging.outside (h : s.Converging C) {i : ι} {e : Effect Globals}
    {next : e.Answer → Program Globals GcsStatus} {a : e.Answer} {snapshot : List Bytes}
    (hi : s.threads i = some (.running (ask e next) snapshot)) (ha : sectionWorld () e a ()) :
    (s.put i s.globals (some (.running (next a) snapshot))).Converging C := by
  -- the only question between two sections is the subscribe itself
  have hnext : ∀ snapshot' rest, s.Refreshing C i snapshot' rest → snapshot' = snapshot ∧
      rest ⊆ snapshot ∧ ∃ topic, next a = C.refreshAfter snapshot rest topic true := by
    intro snapshot' rest href
    obtain rfl := href.snapshot_eq hi
    obtain ⟨hrest, topic, ht | ht⟩ := href
    · rw [hi] at ht
      cases ht
      obtain rfl : a = true := ha
      exact ⟨rfl, hrest, topic, rfl⟩
    · rw [hi, refreshAfter_eq] at ht
      cases ht
      exact ha.elim
  have hput : ∀ {j snapshot' rest}, s.Refreshing C j snapshot' rest →
      (s.put i s.globals (some (.running (next a) snapshot))).Refreshing C j snapshot' rest := by
    intro j snapshot' rest href
    by_cases hji : j = i
    · subst hji
      obtain ⟨rfl, hrest, topic, hnext⟩ := hnext _ _ href
      exact ⟨hrest, topic, .inr (hnext ▸ put_threads_self j s.globals _)⟩
    · exact href.put hji _ _
  refine h.put_running (fun _ _ _ ht => by cases ht) ?_ (fun x hx => ?_) (fun x hx => ?_) h.listed
  · rintro program snapshot' ⟨⟩
    rcases h.running i _ _ hi with ⟨status, hdone⟩ | ⟨rest, href⟩
    · cases hdone
    · exact .inr ⟨rest, hput href⟩
  · exact (h.covered x hx).imp_right fun ⟨j, snapshot, rest, href, hx⟩ =>
      ⟨j, snapshot, rest, hput href, hx⟩
  · exact (h.evicted x hx).imp_right fun ⟨j, snapshot, rest, href, hx⟩ =>
      ⟨j, snapshot, rest, hput href, hx⟩

theorem Converging.step (h : s.Converging C) {l : CatalogStep ι}
    (hstep : ((catalogPool C ι).restrict Harmless).step s l s') : s'.Converging C := by
  obtain ⟨hstep, hharmless⟩ := hstep
  cases l with
  | call i session topic payload =>
      obtain ⟨hi, hpayload, rfl⟩ := hstep
      refine h.put_idle ?_ ?_ fun _ _ ht => by cases ht
      · rintro snapshot rest ⟨-, t, ht | ht⟩ <;>
        · rw [hi] at ht
          cases ht
      · rintro session' topic' payload' ⟨⟩
        exact hpayload
  | enter i =>
      obtain ⟨session, topic, payload, tr, g', q, hi, hrel, rfl⟩ := hstep
      exact h.enter hi hrel
  | outside i =>
      obtain ⟨e, next, a, snapshot, hi, ha, rfl⟩ := hstep
      exact h.outside hi ha
  | resume i calls =>
      obtain ⟨next, snapshot, tr, g', q, hi, hrel, rfl, rfl⟩ := hstep
      exact h.resume hi hrel hharmless
  | finish i =>
      obtain ⟨status, snapshot, hi, rfl⟩ := hstep
      refine h.put_idle ?_ (fun _ _ _ ht => by cases ht) fun _ _ ht => by cases ht
      rintro snapshot' rest ⟨-, t, ht | ht⟩ <;>
      · rw [hi] at ht
        cases ht

end CatalogPool

theorem Registering.joined_iff {topics : List Bytes} {g g' : Globals} {calls : List TopicCall}
    (h : Registering topics g calls g') (hok : ∀ call ∈ calls, call.ok)
    (hlisted : g.derivedTopics ⊆ g.roomTopics) :
    (∀ x, x ∈ g'.derivedTopics ↔ x ∈ g.derivedTopics ∨ x ∈ topics) ∧
      g'.derivedTopics ⊆ g'.roomTopics ∧ g'.entities = g.entities := by
  induction h with
  | nil => exact ⟨fun x => by simp, hlisted, rfl⟩
  | known hmem _ ih =>
      obtain ⟨hjoined, hrest⟩ := ih hok hlisted
      refine ⟨fun x => ?_, hrest⟩
      rw [hjoined, List.mem_cons]
      exact ⟨fun h => h.imp_right .inr, fun h => h.elim .inl fun h => h.elim (fun h => .inl (h ▸ hmem))
        .inr⟩
  | failed _ hjoin _ _ =>
      obtain ⟨call, hmem, hfail⟩ := hjoin.exists_not_ok
      rw [hok call (List.mem_append_left _ hmem)] at hfail
      cases hfail
  | @added topic rest g g' calls calls' hmem hjoin live _ ih =>
      have hlisted' : (Core.addDerived g topic).derivedTopics ⊆
          (Core.addDerived g topic).roomTopics := by
        intro x hx
        rw [Core.addDerived, List.mem_append, List.mem_singleton] at hx
        exact Core.mem_pushBackAbsent.2 (hx.imp_left fun hx => hlisted hx)
      obtain ⟨hjoined, hrest⟩ := ih
        (fun call hcall => hok call (List.mem_append_right _ (List.mem_cons_of_mem _ hcall))) hlisted'
      refine ⟨fun x => ?_, hrest⟩
      rw [hjoined, List.mem_cons, Core.addDerived, List.mem_append, List.mem_singleton, or_assoc]

theorem converging_of_initial (h : (catalogPool C ι).initial s) : s.Converging C := by
  obtain ⟨hnone, tr, session, hends, hok⟩ := h
  have hinit := Core.ends_gcsInit hends
  have hglobals : (∀ x, x ∈ s.globals.derivedTopics ↔ x ∈ s.derived) ∧
      s.globals.derivedTopics ⊆ s.globals.roomTopics := by
    unfold CatalogPool.derived
    generalize topicCalls tr = calls at hinit hok
    generalize s.globals = g at hinit
    cases hinit with
    | running hsession => cases hsession
    | started _ _ _ _ hloop =>
        obtain ⟨hjoined, hlisted, hentities⟩ := hloop.joined_iff
          (fun call hcall => hok call (List.mem_append_right _ hcall)) (List.nil_subset _)
        refine ⟨fun x => ?_, fun x hx => ?_⟩
        · rw [Core.mem_derivedTopics_evictUnderived, hjoined, Core.evictUnderived, hentities]
          exact ⟨And.right, fun hx => ⟨.inr hx, hx⟩⟩
        · obtain ⟨hx, hderived⟩ := Core.mem_derivedTopics_evictUnderived.1 hx
          exact Core.mem_roomTopics_evictUnderived.2 ⟨hlisted hx, fun _ => .inl hderived⟩
  exact {
    called := fun i _ _ _ hi => by rw [hnone i] at hi; cases hi
    running := fun i _ _ hi => by rw [hnone i] at hi; cases hi
    covered := fun x hx => .inl ((hglobals.1 x).2 hx)
    evicted := fun x hx => .inl ((hglobals.1 x).1 hx)
    listed := hglobals.2 }

/-- However the calls interleave, when none is in progress the joined topics are the derived ones,
and all of them are listed, provided that no call did harm when it came back. -/
theorem derivedTopics_eq_of_quiescent
    (h : ((catalogPool C ι).restrict CatalogPool.Harmless).Reachable s)
    (hquiescent : ∀ i, s.threads i = none) :
    (∀ topic, topic ∈ s.globals.derivedTopics ↔
        topic ∈ s.globals.entities.derivedJoinedTopics) ∧
      ∀ topic ∈ s.globals.entities.derivedJoinedTopics, topic ∈ s.globals.roomTopics := by
  have hinv : s.Converging C := by
    refine h.invariant (I := fun s => s.Converging C) (fun t ht => ?_) fun t l u ht hstep => ?_
    · exact converging_of_initial ht
    · exact ht.step hstep
  have hidle : ∀ i snapshot rest, ¬ s.Refreshing C i snapshot rest := by
    rintro i snapshot rest ⟨-, topic, ht | ht⟩ <;>
    · rw [hquiescent i] at ht
      cases ht
  have hcovered : ∀ topic ∈ s.derived, topic ∈ s.globals.derivedTopics := fun topic htopic =>
    (hinv.covered topic htopic).resolve_right fun ⟨i, snapshot, rest, href, _⟩ =>
      hidle i snapshot rest href
  refine ⟨fun topic => ⟨fun htopic => ?_, hcovered topic⟩, fun topic htopic => ?_⟩
  · exact (hinv.evicted topic htopic).resolve_right fun ⟨i, snapshot, rest, href, _⟩ =>
      hidle i snapshot rest href
  · exact hinv.listed (hcovered topic htopic)

end Convergence

section TwoRooms

def autoJoinSpaceId : Bytes := ofString "space-0-0-0"
def firstRoomId : Bytes := ofString "room-0-0-0"
def secondRoomId : Bytes := ofString "room-0-0-1"

def autoJoinSpace : SpaceRecord := EntityStore.newSpace autoJoinSpaceId (ofString "a") false true 0

def roomRecord (id : Bytes) : RoomRecord :=
  EntityStore.newRoom id (ofString "r") autoJoinSpaceId 0

def roomTopic (id : Bytes) : Bytes := kRoomTopicPrefix ++ id

def createRoomPayload : Bytes := (GcsCommand.createRoom (ofString "r") autoJoinSpaceId).serialize

def spaceGlobals : Globals :=
  ⟨some 0, EntityStore.fresh.emplaceSpace autoJoinSpace, [kSmokeTopicA, kSmokeTopicB], [], [], 0⟩

def spaceManifest : EntityManifest := EntityManifest.empty.insert true autoJoinSpaceId

theorem ends_loadRecords_singleton {α : Type} {parse : Bytes → Option α} {record : α}
    {bytes : Bytes} (hparse : parse bytes = some record) (idOf : α → Bytes) (keyPrefix id : Bytes)
    (w : Globals) : Ends serialWorld (EntityStore.loadRecords parse idOf keyPrefix [id] .empty) w
      [⟨.get (keyPrefix ++ id), some bytes⟩] (OrderedMap.empty.emplace (idOf record) record) w := by
  have hbind : (some bytes).bind parse = some record := hparse
  refine ends_ask_iff.2 ⟨some bytes, w, _, rfl, ?_, rfl⟩
  dsimp only [Interactive.bind]
  rw [hbind]
  exact .nil _ _

theorem ends_loadFromStore_autoJoinSpace (codecs : Codecs) (w : Globals) :
    Ends serialWorld (EntityStore.loadFromStore codecs) w
      [⟨.get kManifestKey, some (codecs.manifest.serialize spaceManifest)⟩,
        ⟨.get (kSpacesKeyPrefix ++ autoJoinSpaceId), some (codecs.space.serialize autoJoinSpace)⟩]
      (EntityStore.fresh.emplaceSpace autoJoinSpace) w := by
  have hmanifest : (some (codecs.manifest.serialize spaceManifest)).bind codecs.manifest.parse =
      some spaceManifest := by
    refine codecs.manifest.parse_serialize _ (manifestSchema_valid_iff.2 ⟨⟨?_, ?_⟩, ?_⟩)
    · exact List.forall_mem_singleton.2 (validUtf8_ofString _)
    · exact List.forall_mem_nil _
    · exact List.forall_mem_nil _
  have hspace : codecs.space.parse (codecs.space.serialize autoJoinSpace) = some autoJoinSpace :=
    codecs.space.parse_serialize _ (spaceSchema_valid_iff.2 ⟨⟨validUtf8_ofString _,
      validUtf8_ofString _, isInt64_zero, isInt64_zero, isInt64_zero⟩, List.forall_mem_nil _⟩)
  refine ends_ask_iff.2 ⟨some (codecs.manifest.serialize spaceManifest), w, _, rfl, ?_, rfl⟩
  dsimp only [Interactive.bind]
  rw [hmanifest]
  exact ends_bind_iff.2 ⟨_, _, [], w, ends_loadRecords_singleton hspace (·.id) _ _ w, .nil _ _, rfl⟩

theorem ends_gcsInit_autoJoinSpace (C : Core) : Ends serialWorld C.gcsInit .fresh
    [⟨.lock, .fresh⟩, ⟨.initSession, some 0⟩, ⟨.addListenTopic kSmokeTopicA, true⟩,
      ⟨.addBroadcastTopic kSmokeTopicA, true⟩, ⟨.addListenTopic kSmokeTopicB, true⟩,
      ⟨.addBroadcastTopic kSmokeTopicB, true⟩, ⟨.registerNewElementCallback, true⟩,
      ⟨.get kManifestKey, some (C.codecs.manifest.serialize spaceManifest)⟩,
      ⟨.get (kSpacesKeyPrefix ++ autoJoinSpaceId), some (C.codecs.space.serialize autoJoinSpace)⟩,
      ⟨.unlock spaceGlobals, ()⟩] (some 0) spaceGlobals := by
  refine ends_ask_iff.2 ⟨Globals.fresh, Globals.fresh, _, ⟨rfl, rfl⟩, ?_, rfl⟩
  refine ends_ask_iff.2 ⟨some 0, Globals.fresh, _, rfl, ?_, rfl⟩
  refine ends_ask_iff.2 ⟨true, Globals.fresh, _, rfl, ?_, rfl⟩
  refine ends_ask_iff.2 ⟨true, Globals.fresh, _, rfl, ?_, rfl⟩
  refine ends_ask_iff.2 ⟨true, Globals.fresh, _, rfl, ?_, rfl⟩
  refine ends_ask_iff.2 ⟨true, Globals.fresh, _, rfl, ?_, rfl⟩
  refine ends_ask_iff.2 ⟨true, Globals.fresh, _, rfl, ?_, rfl⟩
  have hload := ends_loadFromStore_autoJoinSpace C.codecs Globals.fresh
  refine ends_bind_iff.2 ⟨(spaceGlobals, some 0),
    [⟨.get kManifestKey, some (C.codecs.manifest.serialize spaceManifest)⟩,
      ⟨.get (kSpacesKeyPrefix ++ autoJoinSpaceId), some (C.codecs.space.serialize autoJoinSpace)⟩],
    [⟨.unlock spaceGlobals, ()⟩], Globals.fresh, ?_,
    ends_ask_iff.2 ⟨(), spaceGlobals, _, rfl, .nil _ _, rfl⟩, rfl⟩
  refine ends_bind_iff.2 ⟨true, [], _, Globals.fresh, .nil _ _, ?_, rfl⟩
  exact ends_bind_iff.2 ⟨_, _, [], Globals.fresh, hload, .nil _ _, rfl⟩

/-- The session with the rooms created so far, and what a call that is still in its window left. -/
def oneRoomStore : EntityStore := spaceGlobals.entities.emplaceRoom (roomRecord firstRoomId)

def twoRoomsStore : EntityStore := oneRoomStore.emplaceRoom (roomRecord secondRoomId)

theorem derivedJoinedTopics_oneRoomStore :
    oneRoomStore.derivedJoinedTopics = [roomTopic firstRoomId] := by decide

theorem derivedJoinedTopics_twoRoomsStore :
    twoRoomsStore.derivedJoinedTopics = [roomTopic firstRoomId, roomTopic secondRoomId] := by decide

def firstRoomGlobals : Globals :=
  { Core.addDerived { spaceGlobals with entities := oneRoomStore } (roomTopic firstRoomId) with
    inFlight := 1 }

def secondRoomGlobals : Globals :=
  { Core.addDerived { firstRoomGlobals with entities := twoRoomsStore } (roomTopic secondRoomId) with
    inFlight := 2 }

theorem parse_createRoomPayload :
    GcsCommand.parse createRoomPayload = some (.createRoom (ofString "r") autoJoinSpaceId) := by
  have hvalid : (GcsCommand.createRoom (ofString "r") autoJoinSpaceId).Valid :=
    ⟨validUtf8_ofString _, validUtf8_ofString _⟩
  exact GcsCommand.parse_serialize hvalid

theorem releases_roomPayload {C : Core} {g g' : Globals} {id : Bytes} {entities : EntityStore}
    {topics : List Bytes} {tr : Trace (Effect Globals) Effect.Answer}
    {q : Program Globals GcsStatus} (hparse : C.parseCommand = GcsCommand.parse)
    (hsession : g.session = some 0) (hparent : g.entities.isValidParentSpace autoJoinSpaceId)
    (hentities : g.entities.emplaceRoom (roomRecord id) = entities)
    (htopics : entities.derivedJoinedTopics = topics)
    (hrel : Releases (C.refreshFrom topics topics { g with entities := entities }) tr g' q) :
    ∃ tr', Releases (C.publishLocked g (some 0) (some kCommandTopic) (some createRoomPayload) >>=
      fun result => ask (.unlock result.1) fun _ => done result.2) tr' g' q := by
  subst htopics hentities
  exact Core.releases_createRoom C hsession (hparse ▸ parse_createRoomPayload) (by decide)
    (by decide) (by decide) hparent hrel

theorem releases_firstRoom {C : Core} (hparse : C.parseCommand = GcsCommand.parse) :
    ∃ tr, Releases (C.publishLocked spaceGlobals (some 0) (some kCommandTopic)
      (some createRoomPayload) >>= fun result => ask (.unlock result.1) fun _ => done result.2) tr
        firstRoomGlobals (ask (.subscribe (roomTopic firstRoomId))
          (C.refreshAfter [roomTopic firstRoomId] [] (roomTopic firstRoomId))) := by
  obtain ⟨tr, -, hrel⟩ := Core.releases_register C [roomTopic firstRoomId] [] []
    (roomTopic firstRoomId) { spaceGlobals with entities := oneRoomStore } (by simp)
    (by simp [spaceGlobals])
  exact releases_roomPayload hparse rfl (by decide) rfl derivedJoinedTopics_oneRoomStore hrel

theorem releases_secondRoom {C : Core} (hparse : C.parseCommand = GcsCommand.parse) :
    let topics := [roomTopic firstRoomId, roomTopic secondRoomId]
    ∃ tr, Releases (C.publishLocked firstRoomGlobals (some 0) (some kCommandTopic)
      (some createRoomPayload) >>= fun result => ask (.unlock result.1) fun _ => done result.2) tr
        secondRoomGlobals (ask (.subscribe (roomTopic secondRoomId))
          (C.refreshAfter topics [] (roomTopic secondRoomId))) := by
  intro topics
  obtain ⟨tr, -, hrel⟩ := Core.releases_register C topics [roomTopic firstRoomId] []
    (roomTopic secondRoomId) { firstRoomGlobals with entities := twoRoomsStore } (by decide)
    (by decide)
  exact releases_roomPayload hparse rfl (by decide) rfl derivedJoinedTopics_twoRoomsStore hrel

theorem initial_spaceGlobals (C : Core) (ι : Type) [DecidableEq ι] :
    (catalogPool C ι).initial ⟨spaceGlobals, fun _ => none⟩ := by
  refine ⟨fun _ => rfl, _, 0, ends_gcsInit_autoJoinSpace C, ?_⟩
  change ∀ call ∈ [TopicCall.listen kSmokeTopicA true, .broadcast kSmokeTopicA true,
    .listen kSmokeTopicB true, .broadcast kSmokeTopicB true], call.ok = true
  simp only [List.forall_mem_cons, TopicCall.ok, true_and]
  exact List.forall_mem_nil _

theorem createRoom_changesCatalog {C : Core} (hparse : C.parseCommand = GcsCommand.parse) :
    ∃ command, C.parseCommand createRoomPayload = some command ∧ command.ChangesCatalog :=
  ⟨.createRoom (ofString "r") autoJoinSpaceId, hparse ▸ parse_createRoomPayload, trivial⟩

/-- One `create_room` from its call to its end. -/
theorem derivedTopics_eq_firstRoom :
    let C := protoCore (Messaging.plaintext (ofString "self"))
    ∃ s : CatalogPool Unit, ((catalogPool C Unit).restrict CatalogPool.Harmless).Reachable s ∧
      roomTopic firstRoomId ∈ s.globals.derivedTopics ∧
      (∀ topic, topic ∈ s.globals.derivedTopics ↔
          topic ∈ s.globals.entities.derivedJoinedTopics) ∧
        ∀ topic ∈ s.globals.entities.derivedJoinedTopics, topic ∈ s.globals.roomTopics := by
  intro C
  let topic := roomTopic firstRoomId
  obtain ⟨tr, henter⟩ := releases_firstRoom (C := C) rfl
  obtain ⟨tr', hcalls, hresume⟩ :=
    Core.releases_evict C [topic] [] { firstRoomGlobals with inFlight := 0 } (by simp)
  let s₀ : CatalogPool Unit := ⟨spaceGlobals, fun _ => none⟩
  let s₁ := s₀.put () spaceGlobals
    (some (.called (some 0) (some kCommandTopic) createRoomPayload))
  let s₂ := s₁.put () firstRoomGlobals
    (some (.running (ask (.subscribe topic) (C.refreshAfter [topic] [] topic)) [topic]))
  let s₃ := s₂.put () firstRoomGlobals (some (.running (C.refreshAfter [topic] [] topic true) [topic]))
  let s₄ := s₃.put () (Core.evictUnderived [topic] { firstRoomGlobals with inFlight := 0 })
    (some (.running (done .ok) [topic]))
  let S := (catalogPool C Unit).restrict CatalogPool.Harmless
  have h₀ : S.Reachable s₀ := .initial (initial_spaceGlobals C Unit)
  have h₁ : S.Reachable s₁ := h₀.step (l := .call () _ _ _)
    ⟨⟨rfl, createRoom_changesCatalog rfl, rfl⟩, trivial⟩
  have h₂ : S.Reachable s₂ := h₁.step (l := .enter ())
    ⟨⟨_, _, _, _, _, _, rfl, henter, rfl⟩, trivial⟩
  have h₃ : S.Reachable s₃ := h₂.step (l := .outside ())
    ⟨⟨.subscribe topic, _, true, _, rfl, rfl, rfl⟩, trivial⟩
  have hharmless : s₃.Harmless (.resume () []) := by
    rintro program snapshot ⟨⟩
    refine ⟨fun _ h => (nomatch h), fun _ x hx _ => ?_⟩
    rwa [show s₃.derived = [topic] from derivedJoinedTopics_oneRoomStore] at hx
  have h₄ : S.Reachable s₄ := h₃.step (l := .resume () [])
    ⟨⟨_, _, _, _, _, rfl, hresume, hcalls.symm, rfl⟩, hharmless⟩
  have h₅ : S.Reachable (s₄.put () s₄.globals none) := h₄.step (l := .finish ())
    ⟨⟨_, _, rfl, rfl⟩, trivial⟩
  exact ⟨_, h₅, by decide, derivedTopics_eq_of_quiescent h₅ fun _ => rfl⟩

/-- Two calls create a room each. The first one comes back when the second room is joined already,
and evicts it; the second one finds nothing left to register. -/
theorem secondRoom_evicted :
    let C := protoCore (Messaging.plaintext (ofString "self"))
    ∃ s : CatalogPool Bool, (catalogPool C Bool).Reachable s ∧ (∀ i, s.threads i = none) ∧
      roomTopic secondRoomId ∈ s.globals.entities.derivedJoinedTopics ∧
      roomTopic secondRoomId ∉ s.globals.derivedTopics ∧
      roomTopic secondRoomId ∉ s.globals.roomTopics := by
  intro C
  let first := roomTopic firstRoomId
  let second := roomTopic secondRoomId
  let both := [first, second]
  let g₁ : Globals := Core.evictUnderived [first] { secondRoomGlobals with inFlight := 1 }
  let g₂ : Globals := Core.evictUnderived both { g₁ with inFlight := 0 }
  obtain ⟨tr₁, henter₁⟩ := releases_firstRoom (C := C) rfl
  obtain ⟨tr₂, henter₂⟩ := releases_secondRoom (C := C) rfl
  obtain ⟨tr₃, -, hresume₁⟩ :=
    Core.releases_evict C [first] [] { secondRoomGlobals with inFlight := 1 } (by simp)
  obtain ⟨tr₄, -, hresume₂⟩ := Core.releases_evict C both [] { g₁ with inFlight := 0 } (by simp)
  let s₀ : CatalogPool Bool := ⟨spaceGlobals, fun _ => none⟩
  let s₁ := s₀.put false spaceGlobals
    (some (.called (some 0) (some kCommandTopic) createRoomPayload))
  let s₂ := s₁.put true spaceGlobals
    (some (.called (some 0) (some kCommandTopic) createRoomPayload))
  let s₃ := s₂.put false firstRoomGlobals
    (some (.running (ask (.subscribe first) (C.refreshAfter [first] [] first)) [first]))
  let s₄ := s₃.put true secondRoomGlobals
    (some (.running (ask (.subscribe second) (C.refreshAfter both [] second)) both))
  let s₅ := s₄.put false secondRoomGlobals
    (some (.running (C.refreshAfter [first] [] first true) [first]))
  let s₆ := s₅.put false g₁ (some (.running (done .ok) [first]))
  let s₇ := s₆.put true g₁ (some (.running (C.refreshAfter both [] second true) both))
  let s₈ := s₇.put true g₂ (some (.running (done .ok) both))
  let s₉ := s₈.put false g₂ none
  let S := catalogPool C Bool
  have hpayload := createRoom_changesCatalog (C := C) rfl
  have h₀ : S.Reachable s₀ := .initial (initial_spaceGlobals C Bool)
  have h₁ : S.Reachable s₁ := h₀.step (l := .call false _ _ _) ⟨rfl, hpayload, rfl⟩
  have h₂ : S.Reachable s₂ := h₁.step (l := .call true _ _ _) ⟨rfl, hpayload, rfl⟩
  have h₃ : S.Reachable s₃ := h₂.step (l := .enter false) ⟨_, _, _, _, _, _, rfl, henter₁, rfl⟩
  have h₄ : S.Reachable s₄ := h₃.step (l := .enter true) ⟨_, _, _, _, _, _, rfl, henter₂, rfl⟩
  have h₅ : S.Reachable s₅ := h₄.step (l := .outside false)
    ⟨.subscribe first, _, true, _, rfl, rfl, rfl⟩
  have h₆ : S.Reachable s₆ := h₅.step (l := .resume false _)
    ⟨_, _, _, _, _, rfl, hresume₁, rfl, rfl⟩
  have h₇ : S.Reachable s₇ := h₆.step (l := .outside true)
    ⟨.subscribe second, _, true, _, rfl, rfl, rfl⟩
  have h₈ : S.Reachable s₈ := h₇.step (l := .resume true _)
    ⟨_, _, _, _, _, rfl, hresume₂, rfl, rfl⟩
  have h₉ : S.Reachable s₉ := h₈.step (l := .finish false) ⟨_, _, rfl, rfl⟩
  have hend : S.Reachable (s₉.put true g₂ none) := h₉.step (l := .finish true) ⟨_, _, rfl, rfl⟩
  refine ⟨_, hend, ?_, ?_, ?_, ?_⟩
  · rintro (_ | _) <;> rfl
  · change second ∈ twoRoomsStore.derivedJoinedTopics
    rw [derivedJoinedTopics_twoRoomsStore]
    exact List.mem_cons_of_mem _ List.mem_cons_self
  · decide
  · decide

end TwoRooms

end GcsChat
