import GcsChat.SerialSession

/-!
# Threads that change the catalog

Any number of threads call `create_room` and `update_space`. What a thread does between taking
`g_mutex` and giving it up is one step; it is given up inside `SubscribeLive` and at the end of the
call. All topics register, and all subscribes succeed.
-/

namespace GcsChat

open ByteString Interactive

/-- The answers inside a section of `g_mutex`, and between two of them. -/
def sectionWorld : World (Effect Globals) Effect.Answer Unit :=
  fun _ e a _ => match e, a with
    | .lock, _ => False
    | .unlock _, _ => False
    | .addListenTopic _, ok => ok = true
    | .addBroadcastTopic _, ok => ok = true
    | .subscribe _, ok => ok = true
    | _, _ => True

/-- Under `g_mutex` the program comes to the next `unlock`, and goes on as `q` from there. -/
def Releases {α : Type} (p : Program Globals α) (tr : Trace (Effect Globals) Effect.Answer)
    (g' : Globals) (q : Program Globals α) : Prop :=
  ∃ next, Steps sectionWorld p () tr (ask (.unlock g') next) () ∧ q = next ()

/-- Where a thread is: about to take `g_mutex` for the first time, or past that, with the set that
`RefreshDerivedJoins` works with. -/
inductive CatalogThread
  | called (session : Option ℕ) (topic : Option Bytes) (payload : Bytes)
  | running (program : Program Globals GcsStatus) (snapshot : List Bytes)

structure CatalogPool (ι : Type) where
  globals : Globals
  threads : ι → Option CatalogThread

inductive CatalogStep (ι : Type)
  | call (i : ι) (session : Option ℕ) (topic : Option Bytes) (payload : Bytes)
  | enter (i : ι)
  | outside (i : ι)
  | resume (i : ι) (calls : List TopicCall)
  | finish (i : ι)

def Effect.KeepsMutex : Effect Globals → Prop
  | .unlock _ => False
  | _ => True

def GcsCommand.ChangesCatalog : GcsCommand → Prop
  | createRoom _ _ => True
  | updateSpace _ _ _ _ => True
  | _ => False

def TopicCall.ok : TopicCall → Bool
  | listen _ ok => ok
  | broadcast _ ok => ok
  | subscribe _ ok => ok

theorem JoinCalls.exists_not_ok {topic : Bytes} {calls : List TopicCall}
    (h : JoinCalls topic false calls) : ∃ call ∈ calls, call.ok = false := by
  cases h <;> simp [TopicCall.ok]

section System

variable {ι : Type} [DecidableEq ι]

def CatalogPool.put (s : CatalogPool ι) (i : ι) (g : Globals) (t : Option CatalogThread) :
    CatalogPool ι := ⟨g, Function.update s.threads i t⟩

/-- The session has just been started; then every thread makes one call after the other. -/
def catalogPool (C : Core) (ι : Type) [DecidableEq ι] :
    TransitionSystem (CatalogPool ι) (CatalogStep ι) where
  initial s := (∀ i, s.threads i = none) ∧ ∃ tr session,
    Ends serialWorld C.gcsInit .fresh tr (some session) s.globals ∧
      ∀ call ∈ topicCalls tr, call.ok
  step s l s' := match l with
    | .call i session topic payload => s.threads i = none ∧
        (∃ command, C.parseCommand payload = some command ∧ command.ChangesCatalog) ∧
        s' = s.put i s.globals (some (.called session topic payload))
    | .enter i => ∃ session topic payload tr g' q,
        s.threads i = some (.called session topic payload) ∧
        Releases (C.publishLocked s.globals session topic (some payload) >>= fun result =>
          ask (.unlock result.1) fun _ => done result.2) tr g' q ∧
        s' = s.put i g' (some (.running q g'.entities.derivedJoinedTopics))
    | .outside i => ∃ e next a snapshot, s.threads i = some (.running (ask e next) snapshot) ∧
        sectionWorld () e a () ∧ s' = s.put i s.globals (some (.running (next a) snapshot))
    | .resume i calls => ∃ next snapshot tr g' q,
        s.threads i = some (.running (ask .lock next) snapshot) ∧
        Releases (next s.globals) tr g' q ∧ calls = topicCalls tr ∧
        s' = s.put i g' (some (.running q snapshot))
    | .finish i => ∃ status snapshot, s.threads i = some (.running (done status) snapshot) ∧
        s' = s.put i s.globals none

end System

section Releases

variable {α β : Type} {p : Program Globals α} {f : α → Program Globals β} {q : Program Globals β}
  {tr : Trace (Effect Globals) Effect.Answer} {g g' : Globals}

theorem releases_ask_iff {e : Effect Globals} (he : e.KeepsMutex)
    {next : e.Answer → Program Globals β} :
    Releases (ask e next) tr g' q ↔
      ∃ a tr', sectionWorld () e a () ∧ Releases (next a) tr' g' q ∧ tr = ⟨e, a⟩ :: tr' := by
  constructor
  · rintro ⟨last, hsteps, rfl⟩
    rcases steps_ask_iff.1 hsteps with ⟨-, hask, -⟩ | ⟨a, u, tr', ha, hrest, rfl⟩
    · obtain rfl := (ask.inj hask).1
      exact he.elim
    · exact ⟨a, tr', ha, ⟨last, hrest, rfl⟩, rfl⟩
  · rintro ⟨a, tr', ha, ⟨last, hsteps, rfl⟩, rfl⟩
    exact ⟨last, .cons a ha hsteps, rfl⟩

theorem exists_releases_ask {e : Effect Globals} (he : e.KeepsMutex)
    {next : e.Answer → Program Globals β} (a : e.Answer) (ha : sectionWorld () e a ())
    (h : ∃ tr, Releases (next a) tr g' q) : ∃ tr, Releases (ask e next) tr g' q := by
  obtain ⟨tr, h⟩ := h
  exact ⟨_, (releases_ask_iff he).2 ⟨a, tr, ha, h, rfl⟩⟩

theorem releases_unlock_iff {u : Globals} {next : Unit → Program Globals β} :
    Releases (ask (.unlock u) next) tr g' q ↔ tr = [] ∧ g' = u ∧ q = next () := by
  constructor
  · rintro ⟨last, hsteps, rfl⟩
    rcases steps_ask_iff.1 hsteps with ⟨rfl, hask, -⟩ | ⟨a, v, tr', ha, -, -⟩
    · obtain ⟨hu, hnext⟩ := ask.inj hask
      cases hu
      exact ⟨rfl, rfl, by rw [eq_of_heq hnext]⟩
    · exact ha.elim
  · rintro ⟨rfl, rfl, rfl⟩
    exact ⟨next, .nil _ _, rfl⟩

/-- Questions other than `lock`, `unlock` and those about topics are over when the mutex is free. -/
theorem releases_bind (hp : p.AsksOnly Effect.Silent) (h : Releases (p >>= f) tr g' q) :
    ∃ a tr₁ tr₂, Ends sectionWorld p () tr₁ a () ∧ Releases (f a) tr₂ g' q ∧
      topicCalls tr = topicCalls tr₂ := by
  obtain ⟨last, hsteps, rfl⟩ := h
  obtain ⟨a, tr₁, tr₂, u, hends, hrest, rfl⟩ := hsteps.bind_past hp id
  refine ⟨a, tr₁, tr₂, hends, ⟨last, hrest, rfl⟩, ?_⟩
  rw [topicCalls_append, topicCalls_eq_nil_of_silent (hends.asks hp), List.nil_append]

end Releases

namespace Core

variable (C : Core)

/-- The rest of a call from the first loop of `RefreshDerivedJoins` on, with `rest` still to go. -/
def refreshFrom (derived rest : List Bytes) (g : Globals) : Program Globals GcsStatus := do
  let g ← C.registerDerived rest g
  let g := evictUnderived derived g
  postToDart (buildSpaceTreeEvent g)
  postToDart (buildRoomListEvent g)
  unlockMutex g
  pure .ok

def refreshAfter (derived rest : List Bytes) (topic : Bytes) (liveOk : Bool) :
    Program Globals GcsStatus := do
  let subscribed ← resumeLive topic liveOk
  C.refreshFrom derived rest subscribed.1

theorem publishCatalog_bind (g : Globals) :
    (C.publishCatalog g >>= fun result => ask (.unlock result.1) fun _ => done result.2) =
      C.refreshFrom g.entities.derivedJoinedTopics g.entities.derivedJoinedTopics g := by
  rw [publishCatalog, Interactive.bind_assoc, refreshDerivedJoins, Interactive.bind_assoc]
  rfl

variable {C}

theorem releases_joinBothWays {β : Type} {topic : Bytes} {f : Bool → Program Globals β}
    {q : Program Globals β} {tr : Trace (Effect Globals) Effect.Answer} {g' : Globals}
    (h : Releases (joinBothWays topic >>= f) tr g' q) :
    ∃ tr', Releases (f true) tr' g' q ∧
      topicCalls tr = .listen topic true :: .broadcast topic true :: topicCalls tr' := by
  obtain ⟨listenOk, _, rfl, hlistened, rfl⟩ := (releases_ask_iff (by trivial)).1 h
  obtain ⟨broadcastOk, tr', rfl, hboth, rfl⟩ := (releases_ask_iff (by trivial)).1 hlistened
  exact ⟨tr', hboth, rfl⟩

/-- A section of the first loop skips what is derived already. At the next topic it gives the mutex
up to subscribe; without one it evicts and ends the call. -/
theorem releases_refreshFrom {derived rest : List Bytes} {g g' : Globals}
    {q : Program Globals GcsStatus} {tr : Trace (Effect Globals) Effect.Answer}
    (h : Releases (C.refreshFrom derived rest g) tr g' q) :
    (∃ topic rest', rest.dropWhile (· ∈ g.derivedTopics) = topic :: rest' ∧
        topicCalls tr = [.listen topic true, .broadcast topic true] ∧
        g' = { addDerived g topic with inFlight := g.inFlight + 1 } ∧
        q = ask (.subscribe topic) (C.refreshAfter derived rest' topic)) ∨
      (rest.dropWhile (· ∈ g.derivedTopics) = [] ∧ topicCalls tr = [] ∧
        g' = evictUnderived derived g ∧ q = done .ok) := by
  induction rest generalizing tr with
  | nil =>
      refine .inr ⟨rfl, ?_⟩
      obtain ⟨_, _, -, htree, rfl⟩ := (releases_ask_iff (by trivial)).1 h
      obtain ⟨_, _, -, hlist, rfl⟩ := (releases_ask_iff (by trivial)).1 htree
      obtain ⟨rfl, rfl, rfl⟩ := releases_unlock_iff.1 hlist
      exact ⟨rfl, rfl, rfl⟩
  | cons topic rest ih =>
      by_cases hmem : topic ∈ g.derivedTopics
      · rw [List.dropWhile_cons_of_pos (by simpa using hmem)]
        refine ih ?_
        rw [refreshFrom, registerDerived, if_pos hmem] at h
        exact h
      rw [List.dropWhile_cons_of_neg (by simpa using hmem)]
      rw [refreshFrom, registerDerived, if_neg hmem, Interactive.bind_assoc] at h
      obtain ⟨tr₁, hjoined, hcalls⟩ := releases_joinBothWays h
      rw [if_pos rfl, Interactive.bind_assoc] at hjoined
      obtain ⟨_, _, tr₂, -, hlive, hsilent⟩ :=
        releases_bind (asksOnly_pushMessageHistory C topic) hjoined
      rw [Interactive.bind_assoc] at hlive
      obtain ⟨rfl, rfl, rfl⟩ := releases_unlock_iff.1 hlive
      refine .inl ⟨topic, rest, rfl, ?_, rfl, ?_⟩
      · rw [hcalls, hsilent, topicCalls_nil]
      · rfl

theorem releases_evict (C : Core) (derived rest : List Bytes) (g : Globals)
    (hrest : ∀ topic ∈ rest, topic ∈ g.derivedTopics) : ∃ tr, topicCalls tr = [] ∧
      Releases (C.refreshFrom derived rest g) tr (evictUnderived derived g) (done .ok) := by
  induction rest with
  | nil =>
      refine ⟨_, ?_, (releases_ask_iff (by trivial)).2 ⟨(), _, trivial, (releases_ask_iff (by trivial)).2
        ⟨(), _, trivial, releases_unlock_iff.2 ⟨rfl, rfl, rfl⟩, rfl⟩, rfl⟩⟩
      rfl
  | cons topic rest ih =>
      obtain ⟨tr, hcalls, hrel⟩ := ih fun t ht => hrest t (List.mem_cons_of_mem _ ht)
      refine ⟨tr, hcalls, ?_⟩
      rw [refreshFrom, registerDerived, if_pos (hrest topic List.mem_cons_self)]
      exact hrel

theorem releases_register (C : Core) (derived known rest : List Bytes) (topic : Bytes) (g : Globals)
    (hknown : ∀ t ∈ known, t ∈ g.derivedTopics) (htopic : topic ∉ g.derivedTopics) :
    ∃ tr, topicCalls tr = [.listen topic true, .broadcast topic true] ∧
      Releases (C.refreshFrom derived (known ++ topic :: rest) g) tr
        { addDerived g topic with inFlight := g.inFlight + 1 }
        (ask (.subscribe topic) (C.refreshAfter derived rest topic)) := by
  induction known with
  | nil =>
      rw [List.nil_append, refreshFrom, registerDerived, if_neg htopic]
      refine ⟨_, ?_, (releases_ask_iff (by trivial)).2 ⟨true, _, rfl, (releases_ask_iff (by trivial)).2
        ⟨true, _, rfl, (releases_ask_iff (by trivial)).2 ⟨(none : Option (List (Bytes × Bytes))), _,
          trivial, releases_unlock_iff.2 ⟨rfl, rfl, ?_⟩, rfl⟩, rfl⟩, rfl⟩⟩
      · rfl
      · exact (Interactive.bind_assoc (CoreSession.subscribe topic >>= resumeLive topic)
          (fun subscribed => C.registerDerived rest subscribed.1) _).symm
  | cons t known ih =>
      obtain ⟨tr, hcalls, hrel⟩ := ih fun t' ht' => hknown t' (List.mem_cons_of_mem _ ht')
      refine ⟨tr, hcalls, ?_⟩
      rw [List.cons_append, refreshFrom, registerDerived, if_pos (hknown t List.mem_cons_self)]
      exact hrel

theorem releases_createRoom (C : Core) {g g' : Globals} {session : ℕ} {payload id name : Bytes}
    {parentSpaceId : Bytes} {tr : Trace (Effect Globals) Effect.Answer}
    {q : Program Globals GcsStatus} (hsession : g.session = some session)
    (hparse : C.parseCommand payload = some (.createRoom name parentSpaceId))
    (hne : payload ≠ []) (hlength : payload.length ≤ kMaxInt)
    (hname : nameRejection (ofString "create_room") name = none)
    (hparent : g.entities.isValidParentSpace parentSpaceId)
    (hrel : let entities := g.entities.emplaceRoom (EntityStore.newRoom id name parentSpaceId 0)
      Releases (C.refreshFrom entities.derivedJoinedTopics entities.derivedJoinedTopics
        { g with entities := entities }) tr g' q) :
    ∃ tr', Releases (C.publishLocked g (some session) (some kCommandTopic) (some payload) >>=
      fun result => ask (.unlock result.1) fun _ => done result.2) tr' g' q := by
  have hcheck : ¬ (g.session = none ∨ some session ≠ g.session ∨ payload = [] ∨
      kMaxInt < payload.length) := by
    simp [hsession, hne, hlength]
  have hknown : ¬ (parentSpaceId ≠ [] ∧ ¬ g.entities.isValidParentSpace parentSpaceId) :=
    fun h => h.2 hparent
  rw [publishLocked, if_neg hcheck]
  refine exists_releases_ask (by trivial) true trivial ?_
  rw [hparse]
  change ∃ tr', Releases (C.createRoom g name parentSpaceId >>= _) tr' g' q
  rw [createRoom, hname, if_neg hknown, EntityStore.createRoom, if_neg hknown]
  refine exists_releases_ask (by trivial) id trivial ?_
  refine exists_releases_ask (by trivial) (0 : ℤ) trivial ?_
  refine exists_releases_ask (by trivial) (none : Option Bytes) trivial ?_
  refine exists_releases_ask (by trivial) true trivial ?_
  refine exists_releases_ask (by trivial) true trivial ?_
  let entities := g.entities.emplaceRoom (EntityStore.newRoom id name parentSpaceId 0)
  have hpublish : Releases (C.publishCatalog { g with entities := entities } >>= fun result =>
      ask (.unlock result.1) fun _ => done result.2) tr g' q := by
    rw [publishCatalog_bind]
    exact hrel
  exact ⟨tr, hpublish⟩

section FirstSection

variable {g g' : Globals} {q : Program Globals GcsStatus} {tr : Trace (Effect Globals) Effect.Answer}

/-- How a call ends that changes nothing, and how one goes on that has written to the catalog. -/
def Entered (C : Core) (g g' : Globals) (q : Program Globals GcsStatus) : Prop :=
  (g' = g ∧ ∃ status, q = done status) ∨ ∃ entities tr,
    Releases (C.refreshFrom entities.derivedJoinedTopics entities.derivedJoinedTopics
      { g with entities := entities }) tr g' q

theorem entered_pure {status : GcsStatus}
    (h : Releases ((pure (g, status) : Program Globals (Globals × GcsStatus)) >>= fun result =>
      ask (.unlock result.1) fun _ => done result.2) tr g' q) : Entered C g g' q := by
  obtain ⟨rfl, rfl, rfl⟩ := releases_unlock_iff.1 h
  exact .inl ⟨rfl, status, rfl⟩

theorem entered_reject {notice : Bytes} (h : Releases (reject g notice >>= fun result =>
    ask (.unlock result.1) fun _ => done result.2) tr g' q) : Entered C g g' q := by
  obtain ⟨_, _, -, hunlock, rfl⟩ := (releases_ask_iff (by trivial)).1 h
  exact entered_pure hunlock

theorem entered_failWith {notice : Bytes} (h : Releases (failWith g notice >>= fun result =>
    ask (.unlock result.1) fun _ => done result.2) tr g' q) : Entered C g g' q := by
  obtain ⟨_, _, -, hunlock, rfl⟩ := (releases_ask_iff (by trivial)).1 h
  exact entered_pure hunlock

/-- What the two arms do once their write to the catalog has ended. -/
theorem entered_written {α : Type} {written : EntityStore × Option α} {notice : Bytes}
    (hwritten : written = (g.entities, none) ∨ ∃ entities record, written = (entities, some record))
    (h : Releases ((if written.2.isSome then C.publishCatalog { g with entities := written.1 }
      else failWith { g with entities := written.1 } notice) >>= fun result =>
        ask (.unlock result.1) fun _ => done result.2) tr g' q) : Entered C g g' q := by
  rcases hwritten with rfl | ⟨entities, record, rfl⟩
  · exact entered_failWith h
  · rw [Option.isSome_some, if_pos rfl, publishCatalog_bind] at h
    exact .inr ⟨entities, tr, h⟩

theorem entered_runCommand {command : GcsCommand} (hcommand : command.ChangesCatalog)
    (h : Releases (C.runCommand g command >>= fun result =>
      ask (.unlock result.1) fun _ => done result.2) tr g' q) : Entered C g g' q := by
  cases command with
  | createRoom name parentSpaceId =>
      rw [runCommand, createRoom] at h
      split at h
      · exact entered_reject h
      split at h
      · exact entered_reject h
      rw [Interactive.bind_assoc] at h
      obtain ⟨created, _, _, hends, hrest, -⟩ := releases_bind (asksOnly_createRoom _ _ _ _) h
      exact entered_written (((returns_createRoom _ _ _ _).of_ends hends).imp_right
        fun hroom => hroom.elim fun room hroom => ⟨_, room, hroom⟩) hrest
  | updateSpace spaceId name isPublic autoJoinRooms =>
      rw [runCommand, updateSpace] at h
      split at h
      · exact entered_reject h
      split at h
      · exact entered_reject h
      rw [Interactive.bind_assoc] at h
      obtain ⟨updated, _, _, hends, hrest, -⟩ := releases_bind (asksOnly_updateSpace _ _ _) h
      exact entered_written (((returns_updateSpace _ _ _).of_ends hends).imp_right
        fun hspace => hspace.elim fun space hspace => ⟨_, space, hspace⟩) hrest
  | _ => exact hcommand.elim

theorem entered_publishLocked {session : Option ℕ} {topic : Option Bytes} {payload : Bytes}
    {command : GcsCommand} (hparse : C.parseCommand payload = some command)
    (hcommand : command.ChangesCatalog)
    (h : Releases (C.publishLocked g session topic (some payload) >>= fun result =>
      ask (.unlock result.1) fun _ => done result.2) tr g' q) : Entered C g g' q := by
  cases topic with
  | none => exact entered_pure h
  | some topic =>
      rw [publishLocked] at h
      split at h
      · exact entered_pure h
      obtain ⟨running, _, -, hrun, rfl⟩ := (releases_ask_iff (by trivial)).1 h
      rw [hparse] at hrun
      cases running with
      | false => exact entered_pure hrun
      | true =>
          split at hrun
          · exact entered_pure hrun
          · exact entered_runCommand hcommand hrun

end FirstSection

end Core

end GcsChat
