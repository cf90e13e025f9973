import GcsChat.SerialSession

/-!
# The stages of `gcs_init`

`gcs_init` with the boot of the embedded node, `CoreSession::Initialize` and the smoke topics as
stages of their own, each with its failure exit. An exit is to undo what the call did so far. The
one after `Initialize` undoes more than that when the flag was left set, and the one after the
smoke topics leaves the node that the call booted.
-/

namespace GcsChat

open ByteString ProtoWire ProtoSchema Interactive

inductive WireCodec
  | unspecified
  | protobuf
  | json
  | unrecognized (value : ℕ)
  deriving DecidableEq

def WireCodec.number : WireCodec → ℕ
  | .unspecified => 0
  | .protobuf => 1
  | .json => 2
  | .unrecognized v => v

def WireCodec.ofNumber (n : ℕ) : WireCodec :=
  match narrowEnum n with
  | 0 => .unspecified
  | 1 => .protobuf
  | 2 => .json
  | v => .unrecognized v

theorem WireCodec.number_ofNumber (n : ℕ) : (WireCodec.ofNumber n).number = narrowEnum n := by
  unfold WireCodec.ofNumber
  split <;> simp_all [WireCodec.number]

def WireCodec.Canonical (c : WireCodec) : Prop := ∃ n, c = WireCodec.ofNumber n

def wireCodecType : FieldType WireCodec :=
  varintType WireCodec.number WireCodec.ofNumber WireCodec.Canonical
    (by rintro _ ⟨n, rfl⟩; rw [WireCodec.number_ofNumber]; exact narrowEnum_lt n)
    (by
      rintro _ ⟨n, rfl⟩
      rw [WireCodec.number_ofNumber, WireCodec.ofNumber, WireCodec.ofNumber, narrowEnum_narrowEnum])
    (fun n _ => ⟨n, rfl⟩)

structure GcsConfig where
  dbPath : Bytes
  codec : WireCodec
  mnemonic : Bytes
  unknownFields : List WireField
  deriving DecidableEq

def configSchema : Schema GcsConfig where
  specs :=
    [⟨1, Bytes, stringType, (·.dbPath), fun c v => { c with dbPath := v }⟩,
     ⟨2, WireCodec, wireCodecType, (·.codec), fun c v => { c with codec := v }⟩,
     ⟨3, Bytes, stringType, (·.mnemonic), fun c v => { c with mnemonic := v }⟩]
  initial := ⟨[], .unspecified, [], []⟩
  unknown := (·.unknownFields)
  addUnknown c f := { c with unknownFields := c.unknownFields ++ [f] }
  number_valid := by simp
  numbers_distinct := by simp
  get_initial := by
    simp only [List.forall_mem_cons]
    exact ⟨rfl, rfl, rfl, by simp⟩
  get_set := by simp
  get_set_ne := by simp
  unknown_set := by simp
  get_addUnknown := by simp
  unknown_addUnknown _ _ := rfl
  unknown_initial := rfl
  ext_get := by
    rintro ⟨⟩ ⟨⟩
    simp_all

/-- `sdkInit` and its kind answer whether the node booted. -/
inductive HostEffect
  | tearingDown
  | sdkNode
  | sdkInit (basePath : Bytes)
  | sdkInitWithMnemonic (basePath mnemonic : Bytes)
  | atexit
  | makeSession (dbPath : Bytes)
  | initializeSession (session : ℕ)
  | shutdownSession (session : ℕ)
  | sdkShutdown
  | core (e : Effect Globals)

@[reducible]
def HostEffect.Answer : HostEffect → Type
  | .tearingDown => Bool
  | .sdkNode => Bool
  | .sdkInit _ => Bool
  | .sdkInitWithMnemonic _ _ => Bool
  | .atexit => Bool
  | .makeSession _ => ℕ
  | .initializeSession _ => Bool
  | .shutdownSession _ => Unit
  | .sdkShutdown => Unit
  | .core e => e.Answer

abbrev HostProgram (α : Type) : Type := Interactive HostEffect HostEffect.Answer α

def onSession {α : Type} : Program Globals α → HostProgram α
  | .done a => .done a
  | .ask e next => .ask (.core e) fun a => onSession (next a)

/-- What `g_mutex` guards, with what belongs to the process; the messaging component is named by the
session that it works on. -/
structure HostGlobals where
  globals : Globals
  messaging : Option ℕ
  sdkBootedHere : Bool
  exitHookRegistered : Bool
  receivingDisabled : Bool

def HostGlobals.fresh : HostGlobals := ⟨.fresh, none, false, false, false⟩

/-- The core with the parser of its configuration and the calls of `std::filesystem`. -/
structure HostCore where
  core : Core
  parseConfig : Bytes → Option GcsConfig
  tempDirectoryPath : Bytes
  parentPath : Bytes → Bytes

namespace HostCore

variable (H : HostCore)

def sessionBasePath (config : GcsConfig) : Bytes :=
  if config.dbPath = [] then H.tempDirectoryPath ++ ofString "/gcs"
  else if H.parentPath config.dbPath = [] then ofString "."
  else H.parentPath config.dbPath

/-- The checks on the bytes that `gcs_init` is called with. -/
def acceptedConfig (configBytes : Option Bytes) : Option GcsConfig :=
  match configBytes with
  | none => none
  | some bytes =>
      if bytes = [] ∨ kMaxInt < bytes.length then none
      else match H.parseConfig bytes with
        | none => none
        | some config => if config.codec = .protobuf then some config else none

/-- With a mnemonic the node runs the wallet of that account. -/
def bootNode (basePath mnemonic : Bytes) : HostProgram Bool :=
  if mnemonic = [] then ask (.sdkInit basePath) done
  else ask (.sdkInitWithMnemonic basePath mnemonic) done

/-- The flag says whether a node is up. -/
def ensureSdkBooted (s : HostGlobals) (config : GcsConfig) : HostProgram (HostGlobals × Bool) := do
  let node ← ask .sdkNode done
  if node then pure (s, true)
  else do
    let booted ← bootNode (H.sessionBasePath config) config.mnemonic
    if booted then do
      let s := { s with sdkBootedHere := true }
      if s.exitHookRegistered then pure (s, true)
      else do
        let registered ← ask .atexit done
        pure ({ s with exitHookRegistered := registered }, true)
    else pure (s, false)

/-- What follows the smoke topics, for a session that stays. -/
def finishInit (g : Globals) (session : ℕ) : Program Globals (Globals × Option ℕ) := do
  let _ ← CoreSession.registerNewElementCallback
  let entities ← EntityStore.loadFromStore H.core.codecs
  let g ← H.core.refreshDerivedJoins { g with session := some session, entities := entities }
  pure (g, g.session)

def openSession (s : HostGlobals) (config : GcsConfig) : HostProgram (HostGlobals × Option ℕ) := do
  let session ← ask (.makeSession config.dbPath) done
  let initialized ← ask (.initializeSession session) done
  if initialized then do
    let joined ← onSession (Core.joinSmokeTopics [kSmokeTopicA, kSmokeTopicB] s.globals false)
    if joined.2 then do
      let opened ← onSession (H.finishInit joined.1 session)
      pure ({ s with
        globals := opened.1
        messaging := some session
        receivingDisabled := false }, opened.2)
    else do
      ask (.shutdownSession session) done
      pure ({ s with globals := joined.1 }, none)
  else do
    ask (.shutdownSession session) done
    if s.sdkBootedHere then do
      ask .sdkShutdown done
      pure ({ s with sdkBootedHere := false }, none)
    else pure (s, none)

/-- `gcs_init` while it holds `g_mutex`. -/
def gcsInit (configBytes : Option Bytes) (s : HostGlobals) :
    HostProgram (HostGlobals × Option ℕ) := do
  let tearingDown ← ask .tearingDown done
  if tearingDown then pure (s, none)
  else match s.globals.session with
    | some session => pure (s, some session)
    | none => match H.acceptedConfig configBytes with
      | none => pure (s, none)
      | some config => do
          let booted ← H.ensureSdkBooted s config
          if booted.2 then H.openSession booted.1 config else pure (booted.1, none)

end HostCore

/-- The node, the sessions that are running, and whether a teardown is in progress. -/
structure Host where
  tearingDown : Bool
  node : Bool
  running : List ℕ

structure InitOutcomes where
  boots : Bool
  initializes : Bool
  listens : Bytes → Bool
  broadcasts : Bytes → Bool

namespace InitOutcomes

variable (o : InitOutcomes)

def joins (topic : Bytes) : Bool := o.listens topic && o.broadcasts topic

def joinsSmoke : Bool := [kSmokeTopicA, kSmokeTopicB].any o.joins

def Answers : (e : Effect Globals) → e.Answer → Prop
  | .addListenTopic topic, a => a = o.listens topic
  | .addBroadcastTopic topic, a => a = o.broadcasts topic
  | _, _ => True

def joinTrace (topic : Bytes) : Trace (Effect Globals) Effect.Answer :=
  ⟨.addListenTopic topic, o.listens topic⟩ ::
    if o.listens topic then [⟨.addBroadcastTopic topic, o.broadcasts topic⟩] else []

/-- The core one call after the other, with the given outcomes of the joins. -/
def coreWorld : World (Effect Globals) Effect.Answer Globals :=
  fun g e a g' => o.Answers e a ∧ serialWorld g e a g'

def hostWorld : World HostEffect HostEffect.Answer (Host × Globals) :=
  fun w e a w' => match e, a with
    | .tearingDown, a => a = w.1.tearingDown ∧ w' = w
    | .sdkNode, a => a = w.1.node ∧ w' = w
    | .sdkInit _, a => a = o.boots ∧ w' = if a then ({ w.1 with node := true }, w.2) else w
    | .sdkInitWithMnemonic _ _, a =>
        a = o.boots ∧ w' = if a then ({ w.1 with node := true }, w.2) else w
    | .initializeSession session, a => a = o.initializes ∧
        w' = if a then ({ w.1 with running := session :: w.1.running }, w.2) else w
    | .shutdownSession session, _ =>
        w' = ({ w.1 with running := w.1.running.filter (· ≠ session) }, w.2)
    | .sdkShutdown, _ => w' = ({ w.1 with node := false }, w.2)
    | .core e, a => w'.1 = w.1 ∧ o.coreWorld w.2 e a w'.2
    | _, _ => w' = w

end InitOutcomes

def bootsNode : (Σ e : HostEffect, e.Answer) → Bool
  | ⟨.sdkInit _, booted⟩ => booted
  | ⟨.sdkInitWithMnemonic _ _, booted⟩ => booted
  | _ => false

/-- What a call that failed is to leave: everything as before, no session running, and no node that
the call booted. -/
structure Undone (s : HostGlobals) (h : Host) (tr : Trace HostEffect HostEffect.Answer)
    (s' : HostGlobals) (h' : Host) : Prop where
  globals : s'.globals = s.globals
  messaging : s'.messaging = s.messaging
  running : ∀ session ∈ h'.running, session ∈ h.running
  sdkBootedHere : s'.sdkBootedHere = s.sdkBootedHere
  node : tr.any bootsNode = true → h'.node = false

/-- Every end of the call without a session leaves what it found. -/
def FailsAtomically (H : HostCore) (configBytes : Option Bytes) (s : HostGlobals) (h : Host)
    (o : InitOutcomes) : Prop :=
  ∀ tr s' w', Ends o.hostWorld (H.gcsInit configBytes s) (h, s.globals) tr (s', none) w' →
    Undone s h tr s' w'.1

/-- A node is up or boots, and either `Initialize` fails with the flag still set from an earlier
call, or no smoke topic is joined on a node that this call booted. -/
def LeavesBoot (H : HostCore) (configBytes : Option Bytes) (s : HostGlobals) (h : Host)
    (o : InitOutcomes) : Prop :=
  h.tearingDown = false ∧ s.globals.session = none ∧ (H.acceptedConfig configBytes).isSome ∧
    (h.node = true ∨ o.boots = true) ∧
    ((o.initializes = false ∧ s.sdkBootedHere = true) ∨
      (o.initializes = true ∧ o.joinsSmoke = false ∧ h.node = false))

section Stages

variable {H : HostCore} {o : InitOutcomes} {s s' : HostGlobals} {g : Globals} {h : Host}
  {w w' : Host × Globals} {config : GcsConfig} {tr : Trace HostEffect HostEffect.Answer}

def onHost (tr : Trace (Effect Globals) Effect.Answer) : Trace HostEffect HostEffect.Answer :=
  tr.map fun x => ⟨.core x.1, x.2⟩

theorem any_bootsNode_onHost (tr : Trace (Effect Globals) Effect.Answer) :
    (onHost tr).any bootsNode = false := by
  rw [onHost, List.any_map]
  exact List.any_eq_false.2 fun _ _ => Bool.false_ne_true

theorem ends_onSession_iff {α : Type} {p : Program Globals α} {a : α} :
    Ends o.hostWorld (onSession p) w tr a w' ↔
      w'.1 = w.1 ∧ ∃ tr', Ends o.coreWorld p w.2 tr' a w'.2 ∧ tr = onHost tr' := by
  induction p generalizing w tr with
  | done b =>
      rw [onSession, ends_done_iff]
      constructor
      · rintro ⟨rfl, rfl, rfl⟩
        exact ⟨rfl, [], .nil _ _, rfl⟩
      · rintro ⟨hhost, tr', hends, rfl⟩
        obtain ⟨rfl, rfl, hglobals⟩ := ends_done_iff.1 hends
        exact ⟨rfl, rfl, Prod.ext hhost hglobals⟩
  | ask e next ih =>
      rw [onSession, ends_ask_iff]
      constructor
      · rintro ⟨b, u, tr', ⟨hhost, hcore⟩, hrest, rfl⟩
        obtain ⟨hsame, tr'', hends, rfl⟩ := (ih b).1 hrest
        exact ⟨hsame.trans hhost, _, ends_ask_iff.2 ⟨b, u.2, tr'', hcore, hends, rfl⟩, rfl⟩
      · rintro ⟨hhost, tr', hends, rfl⟩
        obtain ⟨b, u, tr'', hcore, hrest, rfl⟩ := ends_ask_iff.1 hends
        exact ⟨b, (w.1, u), onHost tr'', ⟨rfl, hcore⟩, (ih b).2 ⟨hhost, tr'', hrest, rfl⟩, rfl⟩

theorem ends_joinBothWays_iff {topic : Bytes} {ok : Bool} {g g' : Globals}
    {tr : Trace (Effect Globals) Effect.Answer} :
    Ends o.coreWorld (Core.joinBothWays topic) g tr ok g' ↔
      tr = o.joinTrace topic ∧ ok = o.joins topic ∧ g' = g := by
  constructor
  · intro hends
    obtain ⟨_, u, _, ⟨rfl, hu⟩, hrest, rfl⟩ := ends_ask_bind_iff.1 hends
    obtain rfl : u = g := hu
    rw [InitOutcomes.joins, InitOutcomes.joinTrace]
    cases hlisten : o.listens topic with
    | false =>
        rw [hlisten] at hrest
        obtain ⟨rfl, rfl, rfl⟩ := ends_done_iff.1 hrest
        exact ⟨rfl, rfl, rfl⟩
    | true =>
        rw [hlisten] at hrest
        obtain ⟨_, v, _, ⟨rfl, hv⟩, hdone, rfl⟩ := ends_ask_iff.1 hrest
        obtain rfl : v = u := hv
        obtain ⟨rfl, rfl, rfl⟩ := ends_done_iff.1 hdone
        exact ⟨rfl, rfl, rfl⟩
  · rintro ⟨rfl, rfl, rfl⟩
    refine ends_ask_bind_iff.2 ⟨o.listens topic, g', _, ⟨rfl, rfl⟩, ?_, rfl⟩
    rw [InitOutcomes.joins]
    cases o.listens topic with
    | false => exact .nil _ _
    | true => exact ends_ask_iff.2 ⟨_, g', [], ⟨rfl, rfl⟩, .nil _ _, rfl⟩

theorem ends_joinSmokeTopics_iff {topics : List Bytes} {joinedAny : Bool} {r : Globals × Bool}
    {v v' : Globals} {tr : Trace (Effect Globals) Effect.Answer} :
    Ends o.coreWorld (Core.joinSmokeTopics topics g joinedAny) v tr r v' ↔
      tr = topics.flatMap o.joinTrace ∧
      r = ({ g with roomTopics := g.roomTopics ++ topics.filter o.joins },
        joinedAny || topics.any o.joins) ∧ v' = v := by
  induction topics generalizing g joinedAny tr with
  | nil =>
      rw [Core.joinSmokeTopics, pure_eq_done, ends_done_iff, List.filter_nil, List.append_nil,
        List.any_nil, Bool.or_false, List.flatMap_nil]
  | cons topic rest ih =>
      have hbind : Ends o.coreWorld (Core.joinSmokeTopics (topic :: rest) g joinedAny) v tr r v' ↔
          ∃ tr', Ends o.coreWorld (if o.joins topic
            then Core.joinSmokeTopics rest { g with roomTopics := g.roomTopics ++ [topic] } true
            else Core.joinSmokeTopics rest g joinedAny) v tr' r v' ∧
              tr = o.joinTrace topic ++ tr' := by
        constructor
        · intro hends
          obtain ⟨ok, _, tr', u, hboth, htail, rfl⟩ := ends_bind_iff.1 hends
          obtain ⟨rfl, rfl, rfl⟩ := ends_joinBothWays_iff.1 hboth
          exact ⟨tr', htail, rfl⟩
        · rintro ⟨tr', htail, rfl⟩
          exact ends_bind_iff.2 ⟨_, _, _, _, ends_joinBothWays_iff.2 ⟨rfl, rfl, rfl⟩, htail, rfl⟩
      rw [hbind]
      cases hjoin : o.joins topic with
      | false =>
          simp only [Bool.false_eq_true, if_false, ih, List.flatMap_cons, List.filter_cons, hjoin,
            List.any_cons, Bool.false_or]
          constructor
          · rintro ⟨_, ⟨rfl, hr, hv⟩, rfl⟩
            exact ⟨rfl, hr, hv⟩
          · rintro ⟨rfl, hr, hv⟩
            exact ⟨_, ⟨rfl, hr, hv⟩, rfl⟩
      | true =>
          simp only [if_true, ih, List.flatMap_cons, List.filter_cons, hjoin, List.any_cons,
            Bool.true_or, Bool.or_true, List.append_assoc, List.singleton_append]
          constructor
          · rintro ⟨_, ⟨rfl, hr, hv⟩, rfl⟩
            exact ⟨rfl, hr, hv⟩
          · rintro ⟨rfl, hr, hv⟩
            exact ⟨_, ⟨rfl, hr, hv⟩, rfl⟩

inductive Booting (o : InitOutcomes) (s : HostGlobals) (w : Host × Globals) :
    Trace HostEffect HostEffect.Answer → HostGlobals × Bool → Host × Globals → Prop
  | reused {tr : Trace HostEffect HostEffect.Answer} (hnode : w.1.node = true)
      (htrace : tr.any bootsNode = false) : Booting o s w tr (s, true) w
  | failed {tr : Trace HostEffect HostEffect.Answer} (hnode : w.1.node = false)
      (hboots : o.boots = false) (htrace : tr.any bootsNode = false) : Booting o s w tr (s, false) w
  | booted {tr : Trace HostEffect HostEffect.Answer} (hnode : w.1.node = false)
      (hboots : o.boots = true) (htrace : tr.any bootsNode = true) (hook : Bool) :
      Booting o s w tr ({ s with sdkBootedHere := true, exitHookRegistered := hook }, true)
        ({ w.1 with node := true }, w.2)

/-- Of the two calls that boot a node the one for the mnemonic. -/
def bootTrace (o : InitOutcomes) (basePath mnemonic : Bytes) :
    Trace HostEffect HostEffect.Answer :=
  if mnemonic = [] then [⟨.sdkInit basePath, o.boots⟩]
  else [⟨.sdkInitWithMnemonic basePath mnemonic, o.boots⟩]

theorem any_bootsNode_bootTrace (basePath mnemonic : Bytes) :
    (bootTrace o basePath mnemonic).any bootsNode = o.boots := by
  rw [bootTrace]
  split_ifs <;> simp [bootsNode]

theorem ends_bootNode_iff {basePath mnemonic : Bytes} {booted : Bool} :
    Ends o.hostWorld (HostCore.bootNode basePath mnemonic) w tr booted w' ↔
      tr = bootTrace o basePath mnemonic ∧ booted = o.boots ∧
        w' = if o.boots then ({ w.1 with node := true }, w.2) else w := by
  rw [bootTrace, HostCore.bootNode]
  by_cases hmnemonic : mnemonic = []
  · rw [if_pos hmnemonic, if_pos hmnemonic, ends_ask_iff]
    constructor
    · rintro ⟨_, u, _, ⟨rfl, rfl⟩, hdone, rfl⟩
      obtain ⟨rfl, rfl, rfl⟩ := ends_done_iff.1 hdone
      exact ⟨rfl, rfl, rfl⟩
    · rintro ⟨rfl, rfl, rfl⟩
      exact ⟨_, _, [], ⟨rfl, rfl⟩, ends_done_iff.2 ⟨rfl, rfl, rfl⟩, rfl⟩
  · rw [if_neg hmnemonic, if_neg hmnemonic, ends_ask_iff]
    constructor
    · rintro ⟨_, u, _, ⟨rfl, rfl⟩, hdone, rfl⟩
      obtain ⟨rfl, rfl, rfl⟩ := ends_done_iff.1 hdone
      exact ⟨rfl, rfl, rfl⟩
    · rintro ⟨rfl, rfl, rfl⟩
      exact ⟨_, _, [], ⟨rfl, rfl⟩, ends_done_iff.2 ⟨rfl, rfl, rfl⟩, rfl⟩

theorem ends_ensureSdkBooted {r : HostGlobals × Bool}
    (hends : Ends o.hostWorld (H.ensureSdkBooted s config) w tr r w') : Booting o s w tr r w' := by
  obtain ⟨_, u, tr₁, ⟨rfl, rfl⟩, hrest, rfl⟩ := ends_ask_bind_iff.1 hends
  cases hnode : u.1.node with
  | true =>
      rw [hnode] at hrest
      obtain ⟨rfl, rfl, rfl⟩ := ends_done_iff.1 hrest
      exact .reused hnode rfl
  | false =>
      rw [hnode] at hrest
      obtain ⟨booted, tr₂, tr₃, v, hboot, hhook, rfl⟩ := ends_bind_iff.1 hrest
      obtain ⟨rfl, rfl, rfl⟩ := ends_bootNode_iff.1 hboot
      have htrace : ∀ tr' : Trace HostEffect HostEffect.Answer, tr'.any bootsNode = false →
          (⟨.sdkNode, false⟩ ::
            (bootTrace o (H.sessionBasePath config) config.mnemonic ++ tr')).any bootsNode =
              o.boots := by
        intro tr' htr'
        rw [List.any_cons, List.any_append, any_bootsNode_bootTrace, htr', Bool.or_false]
        rfl
      cases hboots : o.boots with
      | false =>
          rw [hboots] at hhook
          obtain ⟨rfl, rfl, rfl⟩ := ends_done_iff.1 hhook
          exact .failed hnode hboots ((htrace [] rfl).trans hboots)
      | true =>
          rw [hboots] at hhook
          change Ends o.hostWorld (if s.exitHookRegistered then _ else _) _ _ _ _ at hhook
          cases hhooked : s.exitHookRegistered with
          | true =>
              rw [hhooked] at hhook
              obtain ⟨rfl, rfl, rfl⟩ := ends_done_iff.1 hhook
              exact .booted hnode hboots ((htrace [] rfl).trans hboots) true
          | false =>
              rw [hhooked] at hhook
              obtain ⟨hook, x, _, rfl, hdone, rfl⟩ := ends_ask_bind_iff.1 hhook
              obtain ⟨rfl, rfl, rfl⟩ := ends_done_iff.1 hdone
              exact .booted hnode hboots ((htrace [⟨.atexit, hook⟩] rfl).trans hboots) hook

inductive Closing (o : InitOutcomes) (s : HostGlobals) (w : Host × Globals) (session : ℕ) :
    HostGlobals → Host → Prop
  | notInitialized (hinit : o.initializes = false) (hbooted : s.sdkBootedHere = false) :
      Closing o s w session s { w.1 with running := w.1.running.filter (· ≠ session) }
  | nodeDown (hinit : o.initializes = false) (hbooted : s.sdkBootedHere = true) :
      Closing o s w session { s with sdkBootedHere := false }
        { w.1 with running := w.1.running.filter (· ≠ session), node := false }
  | notJoined (hinit : o.initializes = true) (hjoin : o.joinsSmoke = false) :
      Closing o s w session s { w.1 with running := w.1.running.filter (· ≠ session) }

theorem filter_running (session : ℕ) (running : List ℕ) :
    (session :: running).filter (· ≠ session) = running.filter (· ≠ session) :=
  List.filter_cons_of_neg (by simp)

theorem ends_serialWorld {α : Type} {p : Program Globals α} {a : α} {g g' : Globals}
    {tr : Trace (Effect Globals) Effect.Answer} (hends : Ends o.coreWorld p g tr a g') :
    Ends serialWorld p g tr a g' := by
  induction p generalizing g tr with
  | done b => exact ends_done_iff.2 (ends_done_iff.1 hends)
  | ask e next ih =>
      obtain ⟨b, u, tr', ⟨-, hstep⟩, hrest, rfl⟩ := ends_ask_iff.1 hends
      exact ends_ask_iff.2 ⟨b, u, tr', hstep, ih b hrest, rfl⟩

theorem ends_finishInit {session : ℕ} {r : Globals × Option ℕ} {v v' : Globals}
    {tr : Trace (Effect Globals) Effect.Answer}
    (hends : Ends serialWorld (H.finishInit g session) v tr r v') : r.2 = some session := by
  obtain ⟨_, u, tr₁, _, hload, rfl⟩ := ends_ask_bind_iff.1 hends
  obtain ⟨entities, tr₂, tr₃, x, _, hjoin, rfl⟩ := ends_bind_iff.1 hload
  obtain ⟨g', tr₄, tr₅, y, hrefresh, hdone, rfl⟩ := ends_bind_iff.1 hjoin
  obtain ⟨rfl, rfl, -⟩ := ends_done_iff.1 hdone
  obtain ⟨mid, hloop, rfl⟩ := Core.ends_refreshDerivedJoins hrefresh
  exact hloop.grows.1

theorem ends_openSession {r : HostGlobals × Option ℕ}
    (hends : Ends o.hostWorld (H.openSession s config) w tr r w') :
    (r.2.isSome ∧ o.initializes = true ∧ o.joinsSmoke = true) ∨
      (r.2 = none ∧ tr.any bootsNode = false ∧ ∃ session, Closing o s w session r.1 w'.1) := by
  obtain ⟨session, u, tr₁, rfl, hrest, rfl⟩ := ends_ask_bind_iff.1 hends
  obtain ⟨_, v, tr₂, ⟨rfl, rfl⟩, hopened, rfl⟩ := ends_ask_bind_iff.1 hrest
  cases hinit : o.initializes with
  | false =>
      rw [hinit] at hopened
      obtain ⟨_, x, tr₃, rfl, hdown, rfl⟩ := ends_ask_bind_iff.1 hopened
      cases hbooted : s.sdkBootedHere with
      | false =>
          rw [hbooted] at hdown
          obtain ⟨rfl, rfl, rfl⟩ := ends_done_iff.1 hdown
          exact .inr ⟨rfl, rfl, session, .notInitialized hinit hbooted⟩
      | true =>
          rw [hbooted] at hdown
          obtain ⟨_, y, tr₄, rfl, hdone, rfl⟩ := ends_ask_bind_iff.1 hdown
          obtain ⟨rfl, rfl, rfl⟩ := ends_done_iff.1 hdone
          exact .inr ⟨rfl, rfl, session, .nodeDown hinit hbooted⟩
  | true =>
      rw [hinit] at hopened
      obtain ⟨joined, tr₃, tr₄, x, hsmoke, hfinish, rfl⟩ := ends_bind_iff.1 hopened
      obtain ⟨hx, tr₅, hcore, rfl⟩ := ends_onSession_iff.1 hsmoke
      obtain ⟨rfl, rfl, hsame⟩ := ends_joinSmokeTopics_iff.1 hcore
      have hany : (false || [kSmokeTopicA, kSmokeTopicB].any o.joins) = o.joinsSmoke :=
        Bool.false_or _
      simp only [hany] at hfinish
      cases hjoin : o.joinsSmoke with
      | true =>
          rw [hjoin, if_pos rfl] at hfinish
          obtain ⟨opened, tr₆, tr₇, y, hlift, hdone, rfl⟩ := ends_bind_iff.1 hfinish
          obtain ⟨-, tr₈, hrun, rfl⟩ := ends_onSession_iff.1 hlift
          obtain ⟨rfl, rfl, rfl⟩ := ends_done_iff.1 hdone
          refine .inl ⟨?_, rfl, rfl⟩
          exact Option.isSome_iff_exists.2 ⟨session, ends_finishInit (ends_serialWorld hrun)⟩
      | false =>
          rw [hjoin, if_neg Bool.false_ne_true] at hfinish
          obtain ⟨_, y, tr₆, rfl, hdone, rfl⟩ := ends_ask_bind_iff.1 hfinish
          obtain ⟨rfl, rfl, rfl⟩ := ends_done_iff.1 hdone
          have hnone : [kSmokeTopicA, kSmokeTopicB].filter o.joins = [] :=
            List.filter_eq_nil_iff.2 (List.any_eq_false.1 hjoin)
          refine .inr ⟨rfl, ?_, session, ?_⟩
          · simp only [List.any_cons, List.any_append, any_bootsNode_onHost]
            rfl
          · rw [hnone, List.append_nil, hx]
            simp only [if_true, filter_running]
            exact .notJoined hinit hjoin

theorem undone_of_eq (s : HostGlobals) (h : Host) (htrace : tr.any bootsNode = false) :
    Undone s h tr s h :=
  ⟨rfl, rfl, fun _ hmem => hmem, rfl, fun hboots => absurd (hboots.symm.trans htrace) nofun⟩

theorem undone_cons_iff {x : Σ e : HostEffect, e.Answer} {h h' : Host} (hx : bootsNode x = false) :
    Undone s h (x :: tr) s' h' ↔ Undone s h tr s' h' := by
  have hany : (x :: tr).any bootsNode = tr.any bootsNode := by
    rw [List.any_cons, hx, Bool.false_or]
  constructor
  · exact fun hu => ⟨hu.globals, hu.messaging, hu.running, hu.sdkBootedHere, hany ▸ hu.node⟩
  · exact fun hu => ⟨hu.globals, hu.messaging, hu.running, hu.sdkBootedHere, hany.symm ▸ hu.node⟩

theorem Booting.up {t : HostGlobals} (h : Booting o s w tr (t, true) w') :
    w.1.node = true ∨ o.boots = true := by
  cases h with
  | reused hnode _ => exact .inl hnode
  | booted _ hboots _ _ => exact .inr hboots

theorem undone_iff_of_closing {s₀ : HostGlobals} {w₀ : Host × Globals} {session : ℕ} {h' : Host}
    {tr₀ : Trace HostEffect HostEffect.Answer} (hboot : Booting o s₀ w₀ tr₀ (s, true) w)
    (htrace : tr.any bootsNode = false) (hclosing : Closing o s w session s' h') :
    Undone s₀ w₀.1 (tr₀ ++ tr) s' h' ↔
      ¬ ((o.initializes = false ∧ s₀.sdkBootedHere = true) ∨
        (o.initializes = true ∧ o.joinsSmoke = false ∧ w₀.1.node = false)) := by
  have hrunning : ∀ {running : List ℕ}, ∀ n ∈ running.filter (· ≠ session), n ∈ running :=
    fun n hn => List.mem_of_mem_filter hn
  cases hboot with
  | reused hnode htrace₀ =>
      have hboots : (tr₀ ++ tr).any bootsNode = false := by
        rw [List.any_append, htrace₀, htrace]
        rfl
      have hno : ¬ (tr₀ ++ tr).any bootsNode = true := by
        rw [hboots]
        exact Bool.false_ne_true
      cases hclosing with
      | notInitialized hinit hbooted =>
          exact iff_of_true ⟨rfl, rfl, hrunning, rfl, fun h => absurd h hno⟩
            (by simp [hinit, hbooted])
      | nodeDown hinit hbooted =>
          refine iff_of_false (fun h => ?_) (by simp [hinit, hbooted])
          exact absurd (h.sdkBootedHere.trans hbooted) Bool.false_ne_true
      | notJoined hinit hjoin =>
          exact iff_of_true ⟨rfl, rfl, hrunning, rfl, fun h => absurd h hno⟩
            (by simp [hinit, hnode])
  | booted hnode hboots htrace₀ hook =>
      have hboot : (tr₀ ++ tr).any bootsNode = true := by
        rw [List.any_append, htrace₀]
        rfl
      cases hclosing with
      | notInitialized hinit hbooted => exact absurd hbooted.symm Bool.false_ne_true
      | nodeDown hinit hbooted =>
          -- the node is down again, and the flag is as before unless it was set
          constructor
          · intro h
            have hflag : s₀.sdkBootedHere = false := h.sdkBootedHere.symm
            simp [hinit, hflag]
          · intro h
            have hflag : s₀.sdkBootedHere = false := by simpa [hinit] using h
            exact ⟨rfl, rfl, hrunning, hflag.symm, fun _ => rfl⟩
      | notJoined hinit hjoin =>
          refine iff_of_false (fun h => ?_) (by simp [hinit, hjoin, hnode])
          exact absurd (h.node hboot).symm Bool.false_ne_true

theorem exists_coreWorld_answer (o : InitOutcomes) (g : Globals) (e : Effect Globals) :
    ∃ a g', o.coreWorld g e a g' := by
  cases e with
  | lock => exact ⟨g, g, trivial, rfl, rfl⟩
  | unlock held => exact ⟨(), held, trivial, rfl⟩
  | addListenTopic topic => exact ⟨o.listens topic, g, rfl, rfl⟩
  | addBroadcastTopic topic => exact ⟨o.broadcasts topic, g, rfl, rfl⟩
  | nowMs => exact ⟨(0 : ℤ), g, trivial, rfl⟩
  | _ => exact ⟨default, g, trivial, rfl⟩

theorem exists_hostWorld_answer (o : InitOutcomes) (w : Host × Globals) (e : HostEffect) :
    ∃ a w', o.hostWorld w e a w' := by
  cases e with
  | tearingDown => exact ⟨w.1.tearingDown, w, rfl, rfl⟩
  | sdkNode => exact ⟨w.1.node, w, rfl, rfl⟩
  | sdkInit basePath => exact ⟨o.boots, _, rfl, rfl⟩
  | sdkInitWithMnemonic basePath mnemonic => exact ⟨o.boots, _, rfl, rfl⟩
  | atexit => exact ⟨true, w, rfl⟩
  | makeSession dbPath => exact ⟨(0 : ℕ), w, rfl⟩
  | initializeSession session => exact ⟨o.initializes, _, rfl, rfl⟩
  | shutdownSession session => exact ⟨(), _, rfl⟩
  | sdkShutdown => exact ⟨(), _, rfl⟩
  | core e =>
      obtain ⟨a, g, ha⟩ := exists_coreWorld_answer o w.2 e
      exact ⟨a, (w.1, g), rfl, ha⟩

/-- Where the call neither boots a node nor fails without one, what it leaves is what it found. -/
theorem undone_iff_of_kept {configBytes : Option Bytes} {h : Host}
    (htrace : tr.any bootsNode = false) (hleaves : ¬ LeavesBoot H configBytes s h o) :
    Undone s h tr s h ↔ ¬ LeavesBoot H configBytes s h o :=
  iff_of_true (undone_of_eq s h htrace) hleaves

theorem ends_gcsInit {configBytes : Option Bytes} {r : HostGlobals × Option ℕ}
    (hends : Ends o.hostWorld (H.gcsInit configBytes s) w tr r w') :
    (r.2 = none → (Undone s w.1 tr r.1 w'.1 ↔ ¬ LeavesBoot H configBytes s w.1 o)) ∧
      (LeavesBoot H configBytes s w.1 o → r.2 = none) := by
  obtain ⟨_, u, tr₁, ⟨rfl, rfl⟩, hrest, rfl⟩ := ends_ask_bind_iff.1 hends
  cases hdown : u.1.tearingDown with
  | true =>
      rw [hdown] at hrest
      obtain ⟨rfl, rfl, rfl⟩ := ends_done_iff.1 hrest
      have hleaves : ¬ LeavesBoot H configBytes s w'.1 o := fun h =>
        Bool.false_ne_true (h.1.symm.trans hdown)
      exact ⟨fun _ => undone_iff_of_kept rfl hleaves, fun _ => rfl⟩
  | false =>
  rw [hdown, if_neg Bool.false_ne_true] at hrest
  cases hsession : s.globals.session with
  | some session =>
      rw [hsession] at hrest
      obtain ⟨rfl, rfl, rfl⟩ := ends_done_iff.1 hrest
      refine ⟨fun hnone => absurd hnone nofun, fun h => absurd (h.2.1.symm.trans hsession) nofun⟩
  | none =>
      rw [hsession] at hrest
      cases hconfig : H.acceptedConfig configBytes with
      | none =>
          rw [hconfig] at hrest
          obtain ⟨rfl, rfl, rfl⟩ := ends_done_iff.1 hrest
          have hleaves : ¬ LeavesBoot H configBytes s w'.1 o := fun h => by
            rw [LeavesBoot, hconfig] at h
            exact Bool.false_ne_true h.2.2.1
          exact ⟨fun _ => undone_iff_of_kept rfl hleaves, fun _ => rfl⟩
      | some config =>
          rw [hconfig] at hrest
          obtain ⟨booted, tr₂, tr₃, v, hboot, hopen, rfl⟩ := ends_bind_iff.1 hrest
          have hbooting := ends_ensureSdkBooted hboot
          rw [undone_cons_iff rfl]
          obtain ⟨t, up⟩ := booted
          cases up with
          | false =>
              obtain ⟨rfl, rfl, rfl⟩ := ends_done_iff.1 hopen
              cases hbooting with
              | failed hnode hboots htrace =>
                  have hleaves : ¬ LeavesBoot H configBytes s w'.1 o := by
                    rintro ⟨-, -, -, hup, -⟩
                    simp [hnode, hboots] at hup
                  rw [List.append_nil]
                  exact ⟨fun _ => undone_iff_of_kept htrace hleaves, fun _ => rfl⟩
          | true =>
              have hleaves : LeavesBoot H configBytes s u.1 o ↔
                  (o.initializes = false ∧ s.sdkBootedHere = true) ∨
                    (o.initializes = true ∧ o.joinsSmoke = false ∧ u.1.node = false) := by
                rw [LeavesBoot, hconfig]
                exact ⟨fun h => h.2.2.2.2, fun h => ⟨hdown, hsession, rfl, hbooting.up, h⟩⟩
              rw [hleaves]
              obtain ⟨hsome, hinit, hjoin⟩ | ⟨hnone, htrace, session, hclosing⟩ :=
                ends_openSession hopen
              · refine ⟨fun hnone => ?_, fun h => ?_⟩
                · rw [hnone] at hsome
                  exact absurd hsome Bool.false_ne_true
                · simp [hinit, hjoin] at h
              · exact ⟨fun _ => undone_iff_of_closing hbooting htrace hclosing, fun _ => hnone⟩

theorem ends_startSession_of_finishInit {session : ℕ} {joined : Globals × Bool}
    {r : Globals × Option ℕ} {v₁ v₂ v₃ : Globals} {tr₁ tr₂ : Trace (Effect Globals) Effect.Answer}
    (hjoin : Ends serialWorld (Core.joinSmokeTopics [kSmokeTopicA, kSmokeTopicB] g false)
      v₁ tr₁ joined v₂) (hany : joined.2 = true)
    (hfinish : Ends serialWorld (H.finishInit joined.1 session) v₂ tr₂ r v₃) :
    Ends serialWorld (H.core.startSession g session) v₁ (tr₁ ++ tr₂) r v₃ := by
  have hsession : r.2 = some session := ends_finishInit hfinish
  refine ends_bind_iff.2 ⟨joined, tr₁, tr₂, v₂, hjoin, ?_, rfl⟩
  rw [hany, if_pos rfl]
  obtain ⟨answer, u, tr₃, hstep, hload, rfl⟩ := ends_ask_bind_iff.1 hfinish
  obtain ⟨entities, tr₄, tr₅, x, hentities, hrefresh, rfl⟩ := ends_bind_iff.1 hload
  obtain ⟨g', tr₆, tr₇, y, hloop, hdone, rfl⟩ := ends_bind_iff.1 hrefresh
  obtain ⟨rfl, rfl, rfl⟩ := ends_done_iff.1 hdone
  refine ends_ask_bind_iff.2 ⟨answer, u, _, hstep, ?_, rfl⟩
  refine ends_bind_iff.2 ⟨entities, tr₄, _, x, hentities, ?_, rfl⟩
  refine ends_bind_iff.2 ⟨_, tr₆, _, v₃, hloop, ?_, rfl⟩
  exact ends_done_iff.2 ⟨rfl, Prod.ext rfl hsession, rfl⟩

theorem initLocked_of_openSession {r : HostGlobals × Option ℕ} (hnone : s.globals.session = none)
    (hends : Ends o.hostWorld (H.openSession s config) w tr r w') :
    ∃ tr', Ends serialWorld (H.core.initLocked s.globals) w.2 tr' (r.1.globals, r.2) w'.2 := by
  obtain ⟨session, u, tr₁, rfl, hrest, rfl⟩ := ends_ask_bind_iff.1 hends
  obtain ⟨initialized, v, tr₂, ⟨-, rfl⟩, hopened, rfl⟩ := ends_ask_bind_iff.1 hrest
  rw [Core.initLocked, hnone]
  cases initialized with
  | false =>
      obtain ⟨_, x, tr₃, rfl, hdown, rfl⟩ := ends_ask_bind_iff.1 hopened
      refine ⟨[⟨.initSession, none⟩], ends_ask_bind_iff.2 ⟨none, u.2, [], rfl, ?_, rfl⟩⟩
      cases hbooted : s.sdkBootedHere with
      | false =>
          rw [hbooted] at hdown
          obtain ⟨rfl, rfl, rfl⟩ := ends_done_iff.1 hdown
          exact .nil _ _
      | true =>
          rw [hbooted] at hdown
          obtain ⟨_, y, tr₄, rfl, hdone, rfl⟩ := ends_ask_bind_iff.1 hdown
          obtain ⟨rfl, rfl, rfl⟩ := ends_done_iff.1 hdone
          exact .nil _ _
  | true =>
      obtain ⟨joined, tr₃, tr₄, x, hsmoke, hfinish, rfl⟩ := ends_bind_iff.1 hopened
      obtain ⟨-, tr₅, hcore, rfl⟩ := ends_onSession_iff.1 hsmoke
      suffices hstart : ∃ tr', Ends serialWorld (H.core.startSession s.globals session) u.2 tr'
          (r.1.globals, r.2) w'.2 by
        obtain ⟨tr', hstart⟩ := hstart
        exact ⟨⟨.initSession, some session⟩ :: tr', ends_ask_bind_iff.2
          ⟨some session, u.2, tr', rfl, hstart, rfl⟩⟩
      have hjoin := ends_serialWorld hcore
      cases hany : joined.2 with
      | true =>
          rw [hany, if_pos rfl] at hfinish
          obtain ⟨opened, tr₆, tr₇, y, hlift, hdone, rfl⟩ := ends_bind_iff.1 hfinish
          obtain ⟨-, tr₈, hrun, rfl⟩ := ends_onSession_iff.1 hlift
          obtain ⟨rfl, rfl, rfl⟩ := ends_done_iff.1 hdone
          exact ⟨_, ends_startSession_of_finishInit hjoin hany (ends_serialWorld hrun)⟩
      | false =>
          rw [hany, if_neg Bool.false_ne_true] at hfinish
          obtain ⟨_, y, tr₆, rfl, hdone, rfl⟩ := ends_ask_bind_iff.1 hfinish
          obtain ⟨rfl, rfl, rfl⟩ := ends_done_iff.1 hdone
          refine ⟨tr₅ ++ [], ends_bind_iff.2 ⟨joined, tr₅, [], x.2, hjoin, ?_, rfl⟩⟩
          rw [hany]
          exact .nil _ _

/-- Past the checks on its arguments the call is `initLocked`, where one question stands for the
node and for `Initialize`. -/
theorem initLocked_of_gcsInit {configBytes : Option Bytes} {r : HostGlobals × Option ℕ}
    (hdown : w.1.tearingDown = false)
    (haccepted : s.globals.session = none → (H.acceptedConfig configBytes).isSome)
    (hends : Ends o.hostWorld (H.gcsInit configBytes s) w tr r w') :
    ∃ tr', Ends serialWorld (H.core.initLocked s.globals) w.2 tr' (r.1.globals, r.2) w'.2 := by
  obtain ⟨_, u, tr₁, ⟨rfl, rfl⟩, hrest, rfl⟩ := ends_ask_bind_iff.1 hends
  rw [hdown, if_neg Bool.false_ne_true] at hrest
  cases hsession : s.globals.session with
  | some session =>
      rw [hsession] at hrest
      obtain ⟨rfl, rfl, rfl⟩ := ends_done_iff.1 hrest
      rw [Core.initLocked, hsession]
      exact ⟨[], .nil _ _⟩
  | none =>
      rw [hsession] at hrest
      obtain ⟨config, hconfig⟩ := Option.isSome_iff_exists.1 (haccepted hsession)
      rw [hconfig] at hrest
      obtain ⟨booted, tr₂, tr₃, v, hboot, hopen, rfl⟩ := ends_bind_iff.1 hrest
      have hbooting := ends_ensureSdkBooted hboot
      obtain ⟨t, up⟩ := booted
      cases up with
      | false =>
          obtain ⟨rfl, rfl, rfl⟩ := ends_done_iff.1 hopen
          cases hbooting with
          | failed _ _ _ =>
              rw [Core.initLocked, hsession]
              exact ⟨[⟨.initSession, none⟩], ends_ask_bind_iff.2
                ⟨none, w'.2, [], rfl, .nil _ _, rfl⟩⟩
      | true =>
          cases hbooting with
          | reused _ _ => exact initLocked_of_openSession hsession hopen
          | booted _ _ _ hook =>
              change Ends o.hostWorld (H.openSession _ config) _ _ _ _ at hopen
              have hinit := initLocked_of_openSession
                (s := { s with sdkBootedHere := true, exitHookRegistered := hook }) hsession hopen
              exact hinit

theorem not_failsAtomically {configBytes : Option Bytes}
    (hleaves : LeavesBoot H configBytes s h o) : ¬ FailsAtomically H configBytes s h o := by
  intro hatomic
  obtain ⟨tr, ⟨s', r⟩, w', hends⟩ := exists_ends_of_answers (exists_hostWorld_answer o)
    (H.gcsInit configBytes s) (h, s.globals)
  obtain ⟨hundone, hnone⟩ := ends_gcsInit hends
  obtain rfl : r = none := hnone hleaves
  exact (hundone rfl).1 (hatomic tr s' w' hends) hleaves

end Stages

/-- A call of `gcs_init` that fails leaves the process as it was unless it leaves the boot of the
node half undone. -/
theorem failsAtomically_iff (H : HostCore) (configBytes : Option Bytes) (s : HostGlobals)
    (h : Host) (o : InitOutcomes) :
    FailsAtomically H configBytes s h o ↔ ¬ LeavesBoot H configBytes s h o := by
  constructor
  · exact fun hatomic hleaves => not_failsAtomically hleaves hatomic
  · intro hleaves tr s' w' hends
    exact ((ends_gcsInit hends).1 rfl).2 hleaves

/-- The core with the wire format itself, on a machine with the directory `/tmp`. -/
def protoHostCore (messaging : Messaging) : HostCore where
  core := protoCore messaging
  parseConfig := configSchema.parse
  tempDirectoryPath := ofString "/tmp"
  parentPath path := ((path.reverse.dropWhile (· ≠ 47)).drop 1).reverse

theorem acceptedConfig_protobuf (messaging : Messaging) :
    (protoHostCore messaging).acceptedConfig (some [16, 1]) = some ⟨[], .protobuf, [], []⟩ := by
  have hserialize : configSchema.serialize ⟨[], .protobuf, [], []⟩ = [16, 1] := by decide
  have hvalid : configSchema.Valid ⟨[], .protobuf, [], []⟩ := by
    refine ⟨?_, List.forall_mem_nil _⟩
    simp only [configSchema, List.forall_mem_cons]
    exact ⟨validUtf8_nil, ⟨1, rfl⟩, validUtf8_nil, by simp⟩
  have hparse : configSchema.parse [16, 1] = some ⟨[], .protobuf, [], []⟩ := by
    rw [← hserialize]
    exact configSchema.parse_serialize hvalid
  change (if ([16, 1] : Bytes) = [] ∨ kMaxInt < 2 then none
    else match configSchema.parse [16, 1] with
    | none => none
    | some config => if config.codec = WireCodec.protobuf then some config else none) = _
  rw [hparse, if_neg (by decide)]
  rfl

/-- A node boots and the session starts, but no smoke topic can be broadcast on: the node stays. -/
theorem unjoined_init_leaves_node : ¬ FailsAtomically
    (protoHostCore (Messaging.plaintext (ofString "self"))) (some [16, 1]) .fresh
    ⟨false, false, []⟩ ⟨true, true, fun _ => true, fun _ => false⟩ := by
  apply not_failsAtomically
  refine ⟨rfl, rfl, ?_, .inr rfl, .inr ⟨rfl, rfl, rfl⟩⟩
  rw [acceptedConfig_protobuf]
  rfl

end GcsChat
