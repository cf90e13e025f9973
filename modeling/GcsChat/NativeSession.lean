import GcsChat.CommandFormat
import GcsChat.InitStages
import GcsChat.MessageFlow

/-!
# The shell's side of the C ABI

`SessionCubit` owns the handle of the native session and the port that events are pushed to. Whatever
the widgets, the rail and the native side do, and in whatever order, its calls keep to what the C ABI
asks of a host: one session, a handle only while it is open, the port closed before the shutdown, and
nothing after it.
-/

namespace GcsChat

open ByteString ProtoSchema

def kGcsEventTopic : Bytes := ofString "gcs/event"

/-- A call of the C ABI with its answer, or the end of a port. -/
inductive NativeCall
  | init (configBytes : Bytes) (handle : Option ℕ)
  | subscribe (handle : ℕ) (topic : Bytes) (dartPort : ℕ) (status : GcsStatus)
  | publish (handle : ℕ) (topic payload : Bytes) (status : GcsStatus)
  | closePort (dartPort : ℕ)
  | shutdown (handle : ℕ)
  deriving DecidableEq

inductive HostPhase
  | fresh
  | opened (handle : ℕ)
  | live (handle dartPort : ℕ)
  | refused (handle dartPort : ℕ)
  | portClosed (handle : ℕ)
  | ended
  deriving DecidableEq

def HostPhase.next : HostPhase → NativeCall → Option HostPhase
  | fresh, .init _ none => some fresh
  | fresh, .init _ (some handle) => some (opened handle)
  | opened handle, .subscribe handle' topic dartPort status =>
      if handle' = handle ∧ topic = kGcsEventTopic then
        some (if status = .ok then live handle dartPort else refused handle dartPort)
      else none
  | live handle dartPort, .publish handle' topic _ _ =>
      if handle' = handle ∧ topic = kCommandTopic then some (live handle dartPort) else none
  | live handle dartPort, .closePort dartPort' =>
      if dartPort' = dartPort then some (portClosed handle) else none
  | refused handle dartPort, .closePort dartPort' =>
      if dartPort' = dartPort then some (portClosed handle) else none
  | portClosed handle, .shutdown handle' => if handle' = handle then some ended else none
  | _, _ => none

structure SessionState where
  isHandleOpen : Bool
  isReady : Bool
  error : Option Bytes

/-- The fields of a `SessionCubit`, the ports opened and the calls made so far, and how many of its
`close` calls wait for the rail subscription to end. -/
structure NativeSession where
  bindings : Bool
  dbPath : Option Bytes
  handle : Option ℕ
  receivePort : Option ℕ
  nativeShutdownDone : Bool
  railSubscription : Bool
  lastSeenActiveRoom : Option Bytes
  state : SessionState
  closing : ℕ
  isClosed : Bool
  ports : ℕ
  calls : List NativeCall

namespace NativeSession

/-- A cubit as it is constructed; without bindings it is inert. -/
def created (bindings : Bool) (dbPath : Option Bytes) (rail : Option (Option Bytes))
    (initialError : Option Bytes) : NativeSession where
  bindings := bindings
  dbPath := dbPath
  handle := none
  receivePort := none
  nativeShutdownDone := false
  railSubscription := rail.isSome
  lastSeenActiveRoom := rail.join
  state := ⟨false, false, initialError⟩
  closing := 0
  isClosed := false
  ports := 0
  calls := []

def record (s : NativeSession) (calls : List NativeCall) : NativeSession :=
  { s with calls := s.calls ++ calls }

/-- A closed cubit throws instead. -/
def emit (s : NativeSession) (f : SessionState → SessionState) : NativeSession :=
  if s.isClosed then s else { s with state := f s.state }

def fail (s : NativeSession) (error : Bytes) : NativeSession :=
  s.emit fun state => { state with error := some error }

/-- The port first, then the handle. -/
def closeNativeOnce (s : NativeSession) : NativeSession :=
  if s.nativeShutdownDone then s
  else { s with nativeShutdownDone := true, receivePort := none, handle := none }.record
    ((s.receivePort.map NativeCall.closePort).toList ++
      if s.bindings then (s.handle.map NativeCall.shutdown).toList else [])

def configBytes (dbPath : Bytes) : Bytes := configSchema.serialize ⟨dbPath, .protobuf, [], []⟩

def statusNumber : GcsStatus → Bytes
  | .ok => ofString "0"
  | .errorGeneric => ofString "1"
  | .errorInvalidArgument => ofString "2"
  | .errorNotRunning => ofString "3"

/-- What follows a `gcs_init` that has opened a session. -/
def subscribeEvents (s : NativeSession) (handle : ℕ) (status : GcsStatus) : NativeSession :=
  let listening := { s with
      handle := some handle
      receivePort := some s.ports
      ports := s.ports + 1 }.record [.subscribe handle kGcsEventTopic s.ports status]
  if status = .ok then listening.emit fun state => { state with isHandleOpen := true }
  else listening.closeNativeOnce.fail (ofString "gcs_subscribe failed with status " ++
    statusNumber status)

/-- `handle` is what `gcs_init` answers and `status` what `gcs_subscribe` does. -/
def start (s : NativeSession) (handle : Option ℕ) (status : GcsStatus) : NativeSession :=
  if s.bindings = false ∨ s.nativeShutdownDone ∨ s.receivePort ≠ none then s
  else match s.dbPath with
    | none => s.fail (ofString
        "session db path not configured (main() derives it from the per-user data directory)")
    | some dbPath =>
        if dbPath = [] then s.fail (ofString
          "session db path not configured (main() derives it from the per-user data directory)")
        else
          let called := s.record [.init (configBytes dbPath) handle]
          match handle with
          | none =>
              called.fail (ofString "gcs_init failed (config rejected or node unavailable)")
          | some handle => called.subscribeEvents handle status

def publishCommand (s : NativeSession) (command : GcsCommand) (status : GcsStatus) :
    NativeSession × Bool :=
  match s.handle with
  | none => (s, false)
  | some handle =>
      if s.bindings then
        (s.record [.publish handle kCommandTopic command.serialize status], status = .ok)
      else (s, false)

/-- A room that was not the active one is joined again, for its history. -/
def onRailStateChanged (s : NativeSession) (activeRoom : Option Bytes) (status : GcsStatus) :
    NativeSession :=
  match activeRoom with
  | none => { s with lastSeenActiveRoom := none }
  | some room =>
      if some room = s.lastSeenActiveRoom then s
      else ({ s with lastSeenActiveRoom := some room }.publishCommand (.joinTopic room) status).1

def handlePushedBytes (s : NativeSession) : Except Bytes GcsEvent → NativeSession
  | .error text => s.fail (ofString "malformed pushed event: " ++ text)
  | .ok (.readiness ready) => s.emit fun state => { state with isReady := ready }
  | .ok (.error message) => s.fail message
  | .ok _ => s

/-- `close` up to its first `await`. -/
def close (s : NativeSession) : NativeSession :=
  { s with railSubscription := false, closing := s.closing + 1 }

def closeResumed (s : NativeSession) : NativeSession :=
  { s.closeNativeOnce with isClosed := true, closing := s.closing - 1 }

end NativeSession

/-- The answers of the native side are those of the calls that the step makes. -/
inductive NativeStep
  | start (handle : Option ℕ) (status : GcsStatus)
  | publish (command : GcsCommand) (status : GcsStatus)
  | rail (activeRoom : Option Bytes) (status : GcsStatus)
  | pushed (event : Except Bytes GcsEvent)
  | close
  | closeResumed

namespace NativeSession

def Step (s : NativeSession) (l : NativeStep) (t : NativeSession) : Prop :=
  match l with
  | .start handle status => s.start handle status = t
  | .publish command status => (s.publishCommand command status).1 = t
  | .rail activeRoom status =>
      s.railSubscription = true ∧ s.onRailStateChanged activeRoom status = t
  | .pushed event => s.handlePushedBytes event = t
  | .close => s.close = t
  | .closeResumed => s.closing ≠ 0 ∧ s.closeResumed = t

def system : TransitionSystem NativeSession NativeStep where
  initial s := ∃ bindings dbPath rail initialError,
    s = created bindings dbPath rail initialError
  step := Step

def phase (s : NativeSession) : Option HostPhase := s.calls.foldlM HostPhase.next .fresh

def InPhase (s : NativeSession) : HostPhase → Prop
  | .fresh => s.handle = none ∧ s.receivePort = none
  | .live handle dartPort => s.handle = some handle ∧ s.receivePort = some dartPort ∧
      s.bindings = true ∧ s.nativeShutdownDone = false
  | .ended => s.handle = none ∧ s.receivePort = none ∧ s.nativeShutdownDone = true
  | _ => False

/-- The calls keep to the protocol, and a cubit that is closed has nothing open. -/
structure Conforms (s : NativeSession) : Prop where
  phase : ∃ p, s.phase = some p ∧ s.InPhase p
  closed : s.isClosed = true → s.nativeShutdownDone = true

theorem phase_record (s : NativeSession) (calls : List NativeCall) :
    (s.record calls).phase = s.phase.bind fun p => calls.foldlM HostPhase.next p := by
  rw [phase, record, List.foldlM_append]
  rfl

theorem nativeShutdownDone_closeNativeOnce (s : NativeSession) :
    s.closeNativeOnce.nativeShutdownDone = true := by
  unfold closeNativeOnce
  split
  · next hdone => exact hdone
  · rfl

theorem conforms_created (bindings : Bool) (dbPath : Option Bytes) (rail : Option (Option Bytes))
    (initialError : Option Bytes) : (created bindings dbPath rail initialError).Conforms :=
  ⟨⟨.fresh, rfl, rfl, rfl⟩, fun h => h⟩

namespace Conforms

variable {s : NativeSession}

theorem emit (h : s.Conforms) (f : SessionState → SessionState) : (s.emit f).Conforms := by
  unfold NativeSession.emit
  split
  · exact h
  · obtain ⟨p, hp, hin⟩ := h.phase
    refine ⟨⟨p, hp, ?_⟩, h.closed⟩
    cases p <;> exact hin

theorem fail (h : s.Conforms) (error : Bytes) : (s.fail error).Conforms := h.emit _

/-- While nothing is shut down, what is open is a session with its port, or nothing. -/
theorem open_or_fresh (h : s.Conforms) (hdone : s.nativeShutdownDone = false) :
    s.phase = some .fresh ∧ s.handle = none ∧ s.receivePort = none ∨
      ∃ handle dartPort, s.phase = some (.live handle dartPort) ∧ s.handle = some handle ∧
        s.receivePort = some dartPort ∧ s.bindings = true := by
  obtain ⟨p, hp, hin⟩ := h.phase
  cases p with
  | fresh => exact .inl ⟨hp, hin.1, hin.2⟩
  | live handle dartPort => exact .inr ⟨handle, dartPort, hp, hin.1, hin.2.1, hin.2.2.1⟩
  | ended => exact absurd (hdone.symm.trans hin.2.2) Bool.false_ne_true
  | opened handle => exact hin.elim
  | refused handle dartPort => exact hin.elim
  | portClosed handle => exact hin.elim

/-- The teardown of a session that is open, whether or not it took the port. -/
theorem of_teardown {handle dartPort : ℕ} (hdone : s.nativeShutdownDone = false)
    (hbindings : s.bindings = true) (hhandle : s.handle = some handle)
    (hport : s.receivePort = some dartPort)
    (hphase : s.phase = some (.live handle dartPort) ∨ s.phase = some (.refused handle dartPort)) :
    s.closeNativeOnce.Conforms := by
  have hcalls : s.closeNativeOnce.phase = some .ended := by
    rw [NativeSession.closeNativeOnce, hdone, if_neg Bool.false_ne_true, phase_record, hport, hhandle,
      hbindings, if_pos rfl]
    rcases hphase with hlive | hrefused
    · refine (congrArg (Option.bind · _) hlive).trans ?_
      simp [HostPhase.next]
    · refine (congrArg (Option.bind · _) hrefused).trans ?_
      simp [HostPhase.next]
  unfold NativeSession.closeNativeOnce at hcalls ⊢
  rw [hdone, if_neg Bool.false_ne_true] at hcalls ⊢
  exact ⟨⟨.ended, hcalls, rfl, rfl, rfl⟩, fun _ => rfl⟩

theorem closeNativeOnce (h : s.Conforms) : s.closeNativeOnce.Conforms := by
  by_cases hdone : s.nativeShutdownDone = true
  · rw [NativeSession.closeNativeOnce, if_pos hdone]
    exact h
  · have hdone := Bool.eq_false_iff.2 hdone
    rcases h.open_or_fresh hdone with
      ⟨hphase, hhandle, hport⟩ | ⟨handle, dartPort, hphase, hhandle, hport, hbindings⟩
    · rw [NativeSession.closeNativeOnce, hdone, if_neg Bool.false_ne_true, hhandle, hport]
      refine ⟨⟨.fresh, ?_, rfl, rfl⟩, fun _ => rfl⟩
      rw [phase_record]
      simpa [NativeSession.phase] using hphase
    · exact of_teardown hdone hbindings hhandle hport (.inl hphase)

theorem closeResumed (h : s.Conforms) : s.closeResumed.Conforms := by
  obtain ⟨p, hp, hin⟩ := h.closeNativeOnce.phase
  refine ⟨⟨p, hp, ?_⟩, fun _ => nativeShutdownDone_closeNativeOnce s⟩
  cases p <;> exact hin

theorem subscribeEvents {handle : ℕ} (hphase : s.phase = some (.opened handle))
    (hbindings : s.bindings = true) (hdone : s.nativeShutdownDone = false)
    (hclosed : s.isClosed = false) (status : GcsStatus) :
    (s.subscribeEvents handle status).Conforms := by
  have hcalls : ∀ t : NativeSession, t.phase = some (.opened handle) →
      (t.record [.subscribe handle kGcsEventTopic s.ports status]).phase =
        some (if status = .ok then .live handle s.ports else .refused handle s.ports) := by
    intro t ht
    rw [phase_record, ht]
    simp [HostPhase.next]
  unfold NativeSession.subscribeEvents
  have hphase := hcalls
    { s with handle := some handle, receivePort := some s.ports, ports := s.ports + 1 } hphase
  split
  · next hok =>
      rw [if_pos hok] at hphase
      refine emit ⟨⟨_, hphase, rfl, rfl, hbindings, hdone⟩, fun h => ?_⟩ _
      exact absurd (hclosed.symm.trans h) Bool.false_ne_true
  · next hrefused =>
      rw [if_neg hrefused] at hphase
      refine fail ?_ _
      apply of_teardown _ _ _ _ (.inr hphase)
      · exact hdone
      · exact hbindings
      · rfl
      · rfl

theorem start (h : s.Conforms) (handle : Option ℕ) (status : GcsStatus) :
    (s.start handle status).Conforms := by
  unfold NativeSession.start
  split
  · exact h
  · next hguard =>
      rw [not_or, not_or, Bool.not_eq_false, Bool.not_eq_true, ne_eq, not_not] at hguard
      obtain ⟨hbindings, hdone, hport⟩ := hguard
      split
      · exact h.fail _
      · next dbPath _ =>
          split
          · exact h.fail _
          · rcases h.open_or_fresh hdone with ⟨hphase, hhandle, -⟩ | ⟨_, _, -, -, hsome, -⟩
            · cases handle with
              | none =>
                  have hcalled : (s.record [.init (configBytes dbPath) none]).Conforms := by
                    refine ⟨⟨.fresh, ?_, hhandle, hport⟩, h.closed⟩
                    rw [phase_record, hphase]
                    rfl
                  exact hcalled.fail _
              | some handle =>
                  have hopened : (s.record [.init (configBytes dbPath) (some handle)]).phase =
                      some (.opened handle) := by
                    rw [phase_record, hphase]
                    rfl
                  have hclosed : s.isClosed = false :=
                    Bool.eq_false_iff.2 fun hc => absurd (hdone.symm.trans (h.closed hc))
                      Bool.false_ne_true
                  exact subscribeEvents hopened hbindings hdone hclosed status
            · exact absurd (hport.symm.trans hsome) (Option.some_ne_none _).symm

theorem publishCommand (h : s.Conforms) (command : GcsCommand) (status : GcsStatus) :
    (s.publishCommand command status).1.Conforms := by
  unfold NativeSession.publishCommand
  split
  · exact h
  · next handle hhandle =>
      split
      · obtain ⟨p, hp, hin⟩ := h.phase
        cases p with
        | live handle' dartPort =>
            obtain rfl : handle' = handle := Option.some.inj (hin.1.symm.trans hhandle)
            refine ⟨⟨.live handle' dartPort, ?_, hin⟩, h.closed⟩
            rw [phase_record, hp]
            simp [HostPhase.next]
        | fresh => exact absurd (hin.1.symm.trans hhandle) (Option.some_ne_none _).symm
        | ended => exact absurd (hin.1.symm.trans hhandle) (Option.some_ne_none _).symm
        | opened handle => exact hin.elim
        | refused handle dartPort => exact hin.elim
        | portClosed handle => exact hin.elim
      · exact h

theorem of_fields (h : s.Conforms) {t : NativeSession} (hbindings : t.bindings = s.bindings)
    (hhandle : t.handle = s.handle) (hport : t.receivePort = s.receivePort)
    (hdone : t.nativeShutdownDone = s.nativeShutdownDone) (hclosed : t.isClosed = s.isClosed)
    (hcalls : t.calls = s.calls) : t.Conforms := by
  obtain ⟨p, hp, hin⟩ := h.phase
  refine ⟨⟨p, ?_, ?_⟩, ?_⟩
  · rw [NativeSession.phase, hcalls]
    exact hp
  · cases p <;> simp only [InPhase, hbindings, hhandle, hport, hdone] at hin ⊢
    all_goals exact hin
  · rw [hclosed, hdone]
    exact h.closed

theorem onRailStateChanged (h : s.Conforms) (activeRoom : Option Bytes) (status : GcsStatus) :
    (s.onRailStateChanged activeRoom status).Conforms := by
  unfold NativeSession.onRailStateChanged
  split
  · exact h.of_fields rfl rfl rfl rfl rfl rfl
  · split
    · exact h
    · apply publishCommand
      exact h.of_fields rfl rfl rfl rfl rfl rfl

theorem handlePushedBytes (h : s.Conforms) (event : Except Bytes GcsEvent) :
    (s.handlePushedBytes event).Conforms := by
  unfold NativeSession.handlePushedBytes
  split
  · exact h.fail _
  · exact h.emit _
  · exact h.fail _
  · exact h

theorem step (h : s.Conforms) {l : NativeStep} {t : NativeSession} (hstep : s.Step l t) :
    t.Conforms := by
  cases l with
  | start handle status => exact hstep ▸ h.start handle status
  | publish command status => exact hstep ▸ h.publishCommand command status
  | rail activeRoom status => exact hstep.2 ▸ h.onRailStateChanged activeRoom status
  | pushed event => exact hstep ▸ h.handlePushedBytes event
  | close => exact hstep ▸ h.of_fields rfl rfl rfl rfl rfl rfl
  | closeResumed => exact hstep.2 ▸ h.closeResumed

end Conforms

theorem conforms_of_reachable {s : NativeSession} (h : system.Reachable s) : s.Conforms := by
  apply h.invariant
  · rintro _ ⟨bindings, dbPath, rail, initialError, rfl⟩
    exact conforms_created bindings dbPath rail initialError
  · exact fun s l t hs hstep => hs.step hstep

/-- In every run the calls keep to the protocol, and once the cubit is closed nothing is left
open. -/
theorem calls_follow_protocol {s : NativeSession} (h : system.Reachable s) :
    ∃ p, s.calls.foldlM HostPhase.next .fresh = some p ∧
      (s.isClosed = true → p = .fresh ∨ p = .ended) := by
  have hconforms := conforms_of_reachable h
  obtain ⟨p, hp, hin⟩ := hconforms.phase
  refine ⟨p, hp, fun hclosed => ?_⟩
  have hdone := hconforms.closed hclosed
  cases p with
  | fresh => exact .inl rfl
  | ended => exact .inr rfl
  | live handle dartPort => exact absurd (hin.2.2.2.symm.trans hdone) Bool.false_ne_true
  | opened handle => exact hin.elim
  | refused handle dartPort => exact hin.elim
  | portClosed handle => exact hin.elim

def visited : NativeSession :=
  let opened := (created true (some (ofString "db")) none none).start (some 7) .ok
  (opened.publishCommand (.joinTopic (ofString "gcs/chat/a")) .ok).1.close.closeResumed

theorem visited_follows_protocol : ∃ p, visited.calls.foldlM HostPhase.next .fresh = some p ∧
    (visited.isClosed = true → p = .fresh ∨ p = .ended) := by
  have hcreated : system.Reachable (created true (some (ofString "db")) none none) :=
    .initial ⟨_, _, _, _, rfl⟩
  have hopened : system.Reachable
      ((created true (some (ofString "db")) none none).start (some 7) .ok) :=
    hcreated.step (l := .start (some 7) .ok) rfl
  have hpublished : system.Reachable
      (((created true (some (ofString "db")) none none).start (some 7) .ok).publishCommand
        (.joinTopic (ofString "gcs/chat/a")) .ok).1 :=
    hopened.step (l := .publish (.joinTopic (ofString "gcs/chat/a")) .ok) rfl
  have hclosing : system.Reachable
      (((created true (some (ofString "db")) none none).start (some 7) .ok).publishCommand
        (.joinTopic (ofString "gcs/chat/a")) .ok).1.close := hpublished.step (l := .close) rfl
  exact calls_follow_protocol (hclosing.step (l := .closeResumed) ⟨Nat.succ_ne_zero _, rfl⟩)

/-- Every `gcs_init` was called with the path that the cubit was constructed with. -/
def Configured (path : Option Bytes) (s : NativeSession) : Prop :=
  s.dbPath = path ∧ ∀ config handle, NativeCall.init config handle ∈ s.calls →
    ∃ dbPath, path = some dbPath ∧ dbPath ≠ [] ∧ config = configBytes dbPath

namespace Configured

variable {path : Option Bytes} {s : NativeSession}

theorem record (h : s.Configured path) {calls : List NativeCall}
    (hcalls : ∀ config handle, NativeCall.init config handle ∈ calls →
      ∃ dbPath, path = some dbPath ∧ dbPath ≠ [] ∧ config = configBytes dbPath) :
    (s.record calls).Configured path :=
  ⟨h.1, fun config handle hmem =>
    (List.mem_append.1 hmem).elim (h.2 config handle) (hcalls config handle)⟩

theorem emit (h : s.Configured path) (f : SessionState → SessionState) :
    (s.emit f).Configured path := by
  unfold NativeSession.emit
  split <;> exact h

theorem closeNativeOnce (h : s.Configured path) : s.closeNativeOnce.Configured path := by
  unfold NativeSession.closeNativeOnce
  split
  · exact h
  · apply record h
    intro config handle hmem
    cases s.receivePort <;> cases s.handle <;> cases s.bindings <;> simp at hmem

theorem subscribeEvents (h : s.Configured path) (handle : ℕ) (status : GcsStatus) :
    (s.subscribeEvents handle status).Configured path := by
  have hrecorded : ∀ t : NativeSession, t.Configured path →
      (t.record [.subscribe handle kGcsEventTopic s.ports status]).Configured path := by
    intro t ht
    apply ht.record
    simp
  unfold NativeSession.subscribeEvents
  split
  · apply emit
    exact hrecorded _ h
  · apply emit
    apply closeNativeOnce
    exact hrecorded _ h

theorem start (h : s.Configured path) (handle : Option ℕ) (status : GcsStatus) :
    (s.start handle status).Configured path := by
  unfold NativeSession.start
  split
  · exact h
  · split
    · exact h.emit _
    · next dbPath hpath =>
        split
        · exact h.emit _
        · next hne =>
            have hcalled : ∀ answer,
                (s.record [.init (configBytes dbPath) answer]).Configured path := by
              intro answer
              apply h.record
              intro config handle' hmem
              cases List.mem_singleton.1 hmem
              exact ⟨dbPath, h.1.symm.trans hpath, hne, rfl⟩
            cases handle with
            | none => exact (hcalled none).emit _
            | some handle => exact (hcalled (some handle)).subscribeEvents handle status

theorem publishCommand (h : s.Configured path) (command : GcsCommand) (status : GcsStatus) :
    (s.publishCommand command status).1.Configured path := by
  unfold NativeSession.publishCommand
  split
  · exact h
  · split
    · apply h.record
      simp
    · exact h

theorem step (h : s.Configured path) {l : NativeStep} {t : NativeSession} (hstep : s.Step l t) :
    t.Configured path := by
  cases l with
  | start handle status => exact hstep ▸ h.start handle status
  | publish command status => exact hstep ▸ h.publishCommand command status
  | rail activeRoom status =>
      rw [← hstep.2]
      unfold onRailStateChanged
      split
      · exact h
      · split
        · exact h
        · apply publishCommand
          exact h
  | pushed event =>
      rw [← hstep]
      unfold handlePushedBytes
      split
      · exact h.emit _
      · exact h.emit _
      · exact h.emit _
      · exact h
  | close => exact hstep ▸ h
  | closeResumed => exact hstep.2 ▸ h.closeNativeOnce

end Configured

theorem configured_of_run {bindings : Bool} {path : Option Bytes} {rail : Option (Option Bytes)}
    {initialError : Option Bytes} {ls : List NativeStep} {s : NativeSession}
    (hrun : system.Run (created bindings path rail initialError) ls s) : s.Configured path := by
  apply hrun.invariant (fun s l t hs hstep => hs.step hstep)
  exact ⟨rfl, fun _ _ hmem => absurd hmem List.not_mem_nil⟩

end NativeSession

end GcsChat
