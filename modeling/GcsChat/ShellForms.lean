import GcsChat.NameCap
import GcsChat.RailMirror
import Mathlib.Data.List.DropRight
import Mathlib.Data.List.TakeWhile

/-!
# What the shell lets a user publish

The composer sends its draft to the room that it believes active, and hears of the rail through a
stream that may lag behind it. The dialog publishes the one command of its mode and closes. Both
publish trimmed or at least non-blank text, and keep it when the transport refuses.
-/

namespace GcsChat

open ByteString

/-- The white space of Unicode and the byte order mark. -/
def isDartWhitespace (c : Char) : Bool :=
  let n := c.toNat
  9 ≤ n && n ≤ 13 || n == 0x20 || n == 0x85 || n == 0xA0 || n == 0x1680 ||
    0x2000 ≤ n && n ≤ 0x200A || n == 0x2028 || n == 0x2029 || n == 0x202F || n == 0x205F ||
    n == 0x3000 || n == 0xFEFF

def trim (text : List Char) : List Char :=
  (text.dropWhile isDartWhitespace).rdropWhile isDartWhitespace

theorem trim_trim (text : List Char) : trim (trim text) = trim text := by
  have hstart : (trim text).dropWhile isDartWhitespace = trim text := by
    rw [List.dropWhile_eq_self_iff]
    intro hpos
    have hbegins : trim text <+: text.dropWhile isDartWhitespace :=
      List.rdropWhile_prefix isDartWhitespace _
    have hfirst := List.dropWhile_eq_self_iff.1
      (List.dropWhile_idempotent isDartWhitespace text) (hpos.trans_le hbegins.length_le)
    rwa [hbegins.getElem hpos]
  rw [trim, hstart]
  exact List.rdropWhile_idempotent _ _

structure ComposerState where
  draft : List Char
  activeRoom : Option Bytes
  deriving DecidableEq

structure SentText where
  roomTopic : Bytes
  text : List Char
  deriving DecidableEq

namespace ComposerCubit

def isSendable (s : ComposerState) : Bool := !(trim s.draft).isEmpty && s.activeRoom.isSome

def updateDraft (s : ComposerState) (text : List Char) : ComposerState :=
  if s.draft = text then s else { s with draft := text }

/-- What is published, if anything. -/
def outgoing (s : ComposerState) : Option SentText :=
  match s.activeRoom with
  | none => none
  | some roomTopic => if isSendable s then some ⟨roomTopic, s.draft⟩ else none

/-- The draft is cleared when the transport takes the command. -/
def send (s : ComposerState) (accepted : Bool) : ComposerState :=
  match outgoing s with
  | none => s
  | some _ => if accepted then { s with draft := [] } else s

def onRailStateChanged (s : ComposerState) (activeRoom : Option Bytes) : ComposerState :=
  match activeRoom with
  | none => if s.activeRoom = none then s else { s with activeRoom := none }
  | some room => if s.activeRoom = some room then s else { s with activeRoom := some room }

theorem onRailStateChanged_eq (s : ComposerState) (activeRoom : Option Bytes) :
    onRailStateChanged s activeRoom = { s with activeRoom := activeRoom } := by
  cases s
  cases activeRoom <;> grind [onRailStateChanged]

theorem of_outgoing {s : ComposerState} {sent : SentText} (h : outgoing s = some sent) :
    s.activeRoom = some sent.roomTopic ∧ sent.text = s.draft ∧ trim s.draft ≠ [] := by
  rw [outgoing] at h
  split at h
  · cases h
  · next roomTopic hroom =>
      rw [Option.ite_none_right_eq_some] at h
      obtain ⟨hsendable, hsent⟩ := h
      cases hsent
      rw [isSendable, Bool.and_eq_true, Bool.not_eq_true', List.isEmpty_eq_false_iff] at hsendable
      exact ⟨hroom, rfl, hsendable.1⟩

end ComposerCubit

/-- The rail, the states of it that the composer has not heard of, and the composer. What was typed,
published and taken is remembered. -/
structure ComposerRun where
  rail : RailState
  stream : List (Option Bytes)
  composer : ComposerState
  typed : List (List Char)
  published : List SentText
  taken : List SentText

inductive ComposerStep
  | type (text : List Char)
  | rail (input : RailInput)
  | hear
  | send (accepted : Bool)

namespace ComposerRun

def opened : ComposerRun := ⟨.initial, [], ⟨[], none⟩, [], [], []⟩

def emits (rail : RailState) : RailInput → Bool
  | .pushed (.roomList _) => true
  | .pushed (.spaceTree _ _) => true
  | .pushed _ => false
  | .selectRoom roomTopic => (RailCubit.selectRoom rail roomTopic).isSome

def handleRail (s : ComposerRun) (input : RailInput) : ComposerRun :=
  { s with
    rail := s.rail.handle input
    stream :=
      if emits s.rail input then s.stream ++ [(s.rail.handle input).activeRoom] else s.stream }

def send (s : ComposerRun) (accepted : Bool) : ComposerRun :=
  match ComposerCubit.outgoing s.composer with
  | none => s
  | some sent =>
      { s with
        composer := ComposerCubit.send s.composer accepted
        published := s.published ++ [sent]
        taken := if accepted then s.taken ++ [sent] else s.taken }

def Step (s : ComposerRun) (l : ComposerStep) (t : ComposerRun) : Prop :=
  match l with
  | .type text =>
      t = { s with
        composer := ComposerCubit.updateDraft s.composer text
        typed := s.typed ++ [text] }
  | .rail input => t = s.handleRail input
  | .hear => ∃ activeRoom rest, s.stream = activeRoom :: rest ∧
      t = { s with
        stream := rest
        composer := ComposerCubit.onRailStateChanged s.composer activeRoom }
  | .send accepted => t = s.send accepted

def system : TransitionSystem ComposerRun ComposerStep where
  initial s := s = opened
  step := Step

/-- What the composer will believe once it has heard everything. -/
def heardLast (s : ComposerRun) : Option Bytes := s.stream.getLast?.getD s.composer.activeRoom

structure Sound (s : ComposerRun) : Prop where
  active : ∀ room, s.rail.activeRoom = some room → room ∈ s.rail.rooms
  heard : s.heardLast = s.rail.activeRoom
  conserved : (s.taken.map SentText.text ++
    if s.composer.draft = [] then [] else [s.composer.draft]).Sublist s.typed
  nonBlank : ∀ sent ∈ s.published, trim sent.text ≠ []

theorem sound_opened : opened.Sound where
  active room h := by cases h
  heard := rfl
  conserved := List.Sublist.refl _
  nonBlank := List.forall_mem_nil _

theorem activeRoom_of_not_emits {rail : RailState} {input : RailInput}
    (h : emits rail input = false) : (rail.handle input).activeRoom = rail.activeRoom := by
  cases input with
  | selectRoom roomTopic =>
      have hnone : RailCubit.selectRoom rail roomTopic = none :=
        Option.not_isSome_iff_eq_none.1 (ne_true_of_eq_false h)
      rw [RailState.handle, hnone]
      rfl
  | pushed event =>
      cases event with
      | roomList roomTopics => cases h
      | spaceTree space room => cases h
      | readiness ready => rfl
      | error message => rfl
      | message message => rfl
      | messageHistory history => rfl

theorem active_handle {rail : RailState} (input : RailInput) (room : Bytes)
    (h : ∀ room, rail.activeRoom = some room → room ∈ rail.rooms)
    (hroom : (rail.handle input).activeRoom = some room) : room ∈ (rail.handle input).rooms := by
  by_cases hlist : ∃ roomTopics, input = .pushed (.roomList roomTopics)
  · obtain ⟨roomTopics, rfl⟩ := hlist
    exact (RailState.showsTopics_setRooms rail roomTopics).activeRoom room hroom
  · refine (RailState.ShowsTopics.handle ⟨rfl, h⟩ ?_).activeRoom room hroom
    cases input with
    | selectRoom roomTopic => rfl
    | pushed event =>
        cases event with
        | roomList roomTopics => exact absurd ⟨roomTopics, rfl⟩ hlist
        | _ => rfl

namespace Sound

variable {s : ComposerRun}

theorem type (h : s.Sound) (text : List Char) : Sound { s with
    composer := ComposerCubit.updateDraft s.composer text
    typed := s.typed ++ [text] } := by
  have hdraft : (ComposerCubit.updateDraft s.composer text).draft = text ∧
      (ComposerCubit.updateDraft s.composer text).activeRoom = s.composer.activeRoom := by
    unfold ComposerCubit.updateDraft
    split
    · next hsame => exact ⟨hsame, rfl⟩
    · exact ⟨rfl, rfl⟩
  refine ⟨h.active, ?_, ?_, h.nonBlank⟩
  · rw [← h.heard, heardLast, heardLast, hdraft.2]
  · have htaken : (s.taken.map SentText.text).Sublist s.typed :=
      (List.sublist_append_left _ _).trans h.conserved
    dsimp only
    rw [hdraft.1]
    split
    · rw [List.append_nil]
      exact htaken.trans (List.sublist_append_left _ _)
    · exact htaken.append (List.Sublist.refl _)

theorem handleRail (h : s.Sound) (input : RailInput) : (s.handleRail input).Sound := by
  refine ⟨fun room => active_handle input room h.active, ?_, h.conserved, h.nonBlank⟩
  rw [heardLast, ComposerRun.handleRail]
  dsimp only
  cases hemits : emits s.rail input with
  | true => rw [if_pos rfl, List.getLast?_concat, Option.getD_some]
  | false =>
      rw [if_neg Bool.false_ne_true, activeRoom_of_not_emits hemits]
      exact h.heard

theorem hear (h : s.Sound) {activeRoom : Option Bytes} {rest : List (Option Bytes)}
    (hstream : s.stream = activeRoom :: rest) : Sound { s with
      stream := rest
      composer := ComposerCubit.onRailStateChanged s.composer activeRoom } := by
  have hheard := h.heard
  rw [heardLast, hstream, List.getLast?_cons, Option.getD_some] at hheard
  rw [ComposerCubit.onRailStateChanged_eq]
  refine ⟨h.active, ?_, h.conserved, h.nonBlank⟩
  exact hheard

theorem send (h : s.Sound) (accepted : Bool) : (s.send accepted).Sound := by
  unfold ComposerRun.send
  split
  · exact h
  · next sent houtgoing =>
      obtain ⟨-, htext, hblank⟩ := ComposerCubit.of_outgoing houtgoing
      have hne : s.composer.draft ≠ [] := by
        intro hnil
        rw [hnil] at hblank
        exact hblank rfl
      have hpublished : ∀ sent' ∈ s.published ++ [sent], trim sent'.text ≠ [] := by
        intro sent' hmem
        rcases List.mem_append.1 hmem with hold | hnew
        · exact h.nonBlank sent' hold
        · rw [List.mem_singleton.1 hnew, htext]
          exact hblank
      have hconserved := h.conserved
      rw [if_neg hne] at hconserved
      rw [ComposerCubit.send, houtgoing]
      cases accepted with
      | true =>
          refine ⟨h.active, h.heard, ?_, hpublished⟩
          simpa [htext] using hconserved
      | false =>
          refine ⟨h.active, h.heard, ?_, hpublished⟩
          simpa [hne] using hconserved

theorem step (h : s.Sound) {l : ComposerStep} {t : ComposerRun} (hstep : s.Step l t) :
    t.Sound := by
  cases l with
  | type text => exact hstep ▸ h.type text
  | rail input => exact hstep ▸ h.handleRail input
  | hear =>
      obtain ⟨activeRoom, rest, hstream, rfl⟩ := hstep
      exact h.hear hstream
  | send accepted => exact hstep ▸ h.send accepted

end Sound

theorem sound_of_reachable {s : ComposerRun} (h : system.Reachable s) : s.Sound :=
  h.invariant (fun _ h₀ => h₀ ▸ sound_opened) fun _ _ _ hs hstep => hs.step hstep

/-- In every run, the texts that the transport took are some of those typed, in their order and each
for one typing; no blank text was published; and when the composer has heard the rail, what it
publishes is for the selected room, which is joined. -/
theorem sends_what_was_typed {s : ComposerRun} (h : system.Reachable s) :
    (s.taken.map SentText.text).Sublist s.typed ∧
      (∀ sent ∈ s.published, trim sent.text ≠ []) ∧
      (s.stream = [] → ∀ sent, ComposerCubit.outgoing s.composer = some sent →
        s.rail.activeRoom = some sent.roomTopic ∧ sent.roomTopic ∈ s.rail.rooms) := by
  have hsound := sound_of_reachable h
  refine ⟨(List.sublist_append_left _ _).trans hsound.conserved, hsound.nonBlank,
    fun hstream sent hsent => ?_⟩
  have hactive : s.rail.activeRoom = some sent.roomTopic := by
    rw [← hsound.heard, heardLast, hstream]
    exact (ComposerCubit.of_outgoing hsent).1
  exact ⟨hactive, hsound.active _ hactive⟩

def greetingSteps : List ComposerStep :=
  [.rail (.pushed (.roomList [ofString "gcs/chat/r"])), .hear,
    .rail (.selectRoom (ofString "gcs/chat/r")), .type "hello".toList, .hear, .send true]

def greeted : ComposerRun where
  rail := ⟨[ofString "gcs/chat/r"], some (ofString "gcs/chat/r"), [], [], false⟩
  stream := []
  composer := ⟨[], some (ofString "gcs/chat/r")⟩
  typed := ["hello".toList]
  published := [⟨ofString "gcs/chat/r", "hello".toList⟩]
  taken := [⟨ofString "gcs/chat/r", "hello".toList⟩]

theorem run_greetingSteps : system.Run opened greetingSteps greeted := by
  have hear {t : ComposerRun} (activeRoom : Option Bytes) (rest : List (Option Bytes))
      (h : t.stream = activeRoom :: rest) : system.step t .hear { t with
        stream := rest
        composer := ComposerCubit.onRailStateChanged t.composer activeRoom } :=
    ⟨activeRoom, rest, h, rfl⟩
  have hlisted := TransitionSystem.Run.single (S := system) (s := opened)
    (l := ComposerStep.rail (.pushed (.roomList [ofString "gcs/chat/r"]))) rfl
  have hheard := hlisted.snoc (hear none [] rfl)
  have hselected := hheard.snoc
    (l := ComposerStep.rail (.selectRoom (ofString "gcs/chat/r"))) rfl
  have htyped := hselected.snoc (l := ComposerStep.type "hello".toList) rfl
  have htold := htyped.snoc (hear (some (ofString "gcs/chat/r")) [] rfl)
  exact htold.snoc (l := ComposerStep.send true) rfl

theorem sends_what_was_typed_greeted :
    (greeted.taken.map SentText.text).Sublist greeted.typed :=
  (sends_what_was_typed ⟨opened, greetingSteps, rfl, run_greetingSteps⟩).1

end ComposerRun

/-- Which surface opened the dialog, with the space that it is about. -/
inductive SpaceRoomDialogMode
  | createFromHeader
  | createRoomInSpace (parent : RailSpace)
  | editSpace (space : RailSpace)

structure DialogForm where
  mode : SpaceRoomDialogMode
  name : List Char
  isSpaceType : Bool
  isPublic : Bool
  autoJoinRooms : Bool
  showNameError : Bool
  submitHandled : Bool

namespace SpaceRoomDialogMode

def Prefills : SpaceRoomDialogMode → List Char → Prop
  | editSpace space, name => utf8 name = space.name
  | _, name => name = []

def isPublic : SpaceRoomDialogMode → Bool
  | editSpace space => space.isPublic
  | _ => true

def autoJoinRooms : SpaceRoomDialogMode → Bool
  | editSpace space => space.autoJoinRooms
  | _ => false

def Publishes (name : List Char) : SpaceRoomDialogMode → GcsCommand → Prop
  | createFromHeader, command => command = .createRoom (utf8 name) [] ∨
      ∃ isPublic autoJoinRooms, command = .createSpace (utf8 name) isPublic autoJoinRooms
  | createRoomInSpace parent, command => command = .createRoom (utf8 name) parent.id
  | editSpace space, command => ∃ isPublic autoJoinRooms,
      command = .updateSpace space.id (utf8 name) isPublic autoJoinRooms

def HasTarget : SpaceRoomDialogMode → Prop
  | editSpace space => space.id ≠ []
  | _ => True

/-- The core refuses no more than the names that are too long. -/
theorem passesNameCheck_iff {mode : SpaceRoomDialogMode} {name : List Char} {command : GcsCommand}
    (h : mode.Publishes name command) (hname : name ≠ []) (C : Core) (g : Globals) :
    C.PassesNameCheck g command ↔ mode.HasTarget ∧ name.length ≤ 64 := by
  have hfits : NameFits (utf8 name) ↔ name.length ≤ 64 := by
    rw [nameFits_utf8_iff]
    exact and_iff_right (List.length_pos_iff.2 hname)
  cases mode with
  | createFromHeader =>
      have htarget : HasTarget createFromHeader := trivial
      rw [and_iff_right htarget, ← hfits]
      rcases h with rfl | ⟨isPublic, autoJoinRooms, rfl⟩
      · exact C.passesNameCheck_createRoom_iff g _ _
      · exact C.passesNameCheck_createSpace_iff g _ _ _
  | createRoomInSpace parent =>
      have htarget : HasTarget (createRoomInSpace parent) := trivial
      rw [and_iff_right htarget, ← hfits, h]
      exact C.passesNameCheck_createRoom_iff g _ _
  | editSpace space =>
      obtain ⟨isPublic, autoJoinRooms, rfl⟩ := h
      rw [HasTarget, ← hfits]
      exact C.passesNameCheck_updateSpace_iff g _ _ _ _

end SpaceRoomDialogMode

namespace DialogForm

def opened (mode : SpaceRoomDialogMode) (name : List Char) : DialogForm where
  mode := mode
  name := name
  isSpaceType := true
  isPublic := mode.isPublic
  autoJoinRooms := mode.autoJoinRooms
  showNameError := false
  submitHandled := false

def errorTitle (f : DialogForm) : Bytes :=
  match f.mode with
  | .createFromHeader =>
      if f.isSpaceType then ofString "Couldn't create space" else ofString "Couldn't create room"
  | .createRoomInSpace _ => ofString "Couldn't create room"
  | .editSpace _ => ofString "Couldn't update space"

/-- The inline error goes once the name is valid. -/
def handleNameChanged (f : DialogForm) (name : List Char) : DialogForm :=
  { f with name := name, showNameError := f.showNameError && (trim name).isEmpty }

def buildCommand (f : DialogForm) (name : List Char) : GcsCommand :=
  match f.mode with
  | .createFromHeader =>
      if f.isSpaceType then .createSpace (utf8 name) f.isPublic f.autoJoinRooms
      else .createRoom (utf8 name) []
  | .createRoomInSpace parent => .createRoom (utf8 name) parent.id
  | .editSpace space => .updateSpace space.id (utf8 name) f.isPublic f.autoJoinRooms

theorem publishes_buildCommand (f : DialogForm) (name : List Char) :
    f.mode.Publishes name (f.buildCommand name) := by
  rw [buildCommand]
  cases f.mode with
  | createFromHeader =>
      dsimp only
      split
      · exact Or.inr ⟨_, _, rfl⟩
      · exact Or.inl rfl
  | createRoomInSpace parent => rfl
  | editSpace space => exact ⟨_, _, rfl⟩

end DialogForm

/-- A command that the dialog published, and whether the transport took it. -/
structure DialogPublish where
  command : GcsCommand
  accepted : Bool

/-- The form, what it published, the titles of its toasts and how often it closed the dialog. -/
structure DialogRun where
  form : DialogForm
  published : List DialogPublish
  toasts : List Bytes
  pops : ℕ

inductive DialogStep
  | enterName (name : List Char)
  | selectSpaceType (isSpace : Bool)
  | selectVisibility (isPublic : Bool)
  | setAutoJoinRooms (value : Bool)
  | submit (accepted : Bool)

namespace DialogRun

def opened (mode : SpaceRoomDialogMode) (name : List Char) : DialogRun :=
  ⟨.opened mode name, [], [], 0⟩

/-- A press after one that was taken is ignored; one that is refused can be repeated. -/
def submit (s : DialogRun) (accepted : Bool) : DialogRun :=
  if s.form.submitHandled then s
  else if trim s.form.name = [] then { s with form.showNameError := true }
  else
    let command := s.form.buildCommand (trim s.form.name)
    if accepted then
      { s with
        form.submitHandled := true
        published := s.published ++ [⟨command, true⟩]
        pops := s.pops + 1 }
    else
      { s with
        published := s.published ++ [⟨command, false⟩]
        toasts := s.toasts ++ [s.form.errorTitle] }

def handle (s : DialogRun) : DialogStep → DialogRun
  | .enterName name => { s with form := s.form.handleNameChanged name }
  | .selectSpaceType isSpace => { s with form.isSpaceType := isSpace }
  | .selectVisibility isPublic => { s with form.isPublic := isPublic }
  | .setAutoJoinRooms value => { s with form.autoJoinRooms := value }
  | .submit accepted => s.submit accepted

def system : TransitionSystem DialogRun DialogStep where
  initial s := ∃ mode name, mode.Prefills name ∧ s = opened mode name
  step s l t := t = s.handle l

def Named (mode : SpaceRoomDialogMode) (command : GcsCommand) : Prop :=
  ∃ name, name ≠ [] ∧ trim name = name ∧ mode.Publishes name command

structure Sound (s : DialogRun) : Prop where
  once : s.published.countP DialogPublish.accepted = s.pops
  guarded : s.pops = if s.form.submitHandled then 1 else 0
  last : ∀ p ∈ s.published.dropLast, p.accepted = false
  toasted : s.toasts.length + s.pops = s.published.length
  named : ∀ p ∈ s.published, Named s.form.mode p.command

theorem sound_opened (mode : SpaceRoomDialogMode) (name : List Char) :
    (opened mode name).Sound where
  once := rfl
  guarded := rfl
  last := List.forall_mem_nil _
  toasted := rfl
  named := List.forall_mem_nil _

namespace Sound

variable {s : DialogRun}

/-- Nothing was taken before the guard is up. -/
theorem refused (h : s.Sound) (hhandled : s.form.submitHandled = false) :
    ∀ p ∈ s.published, p.accepted = false := by
  have hcount := h.once
  rw [h.guarded, hhandled, if_neg Bool.false_ne_true, List.countP_eq_zero] at hcount
  exact fun p hp => eq_false_of_ne_true (hcount p hp)

theorem named_concat (h : s.Sound) (accepted : Bool) (hname : trim s.form.name ≠ []) :
    ∀ p ∈ s.published ++ [⟨s.form.buildCommand (trim s.form.name), accepted⟩],
      Named s.form.mode p.command := by
  intro p hp
  rcases List.mem_append.1 hp with hold | hnew
  · exact h.named p hold
  · rw [List.mem_singleton.1 hnew]
    exact ⟨_, hname, trim_trim _, s.form.publishes_buildCommand _⟩

theorem submit (h : s.Sound) (accepted : Bool) : (s.submit accepted).Sound := by
  unfold DialogRun.submit
  split_ifs with hhandled hempty hlater
  · exact h
  · exact ⟨h.once, h.guarded, h.last, h.toasted, h.named⟩
  · have hguarded : s.pops = 0 := by rw [h.guarded, if_neg hhandled]
    refine ⟨?_, ?_, ?_, ?_, h.named_concat true hempty⟩
    · rw [List.countP_append, h.once]
      rfl
    · rw [hguarded]
      rfl
    · rw [List.dropLast_concat]
      exact h.refused (eq_false_of_ne_true hhandled)
    · rw [List.length_append, ← h.toasted]
      rfl
  · refine ⟨?_, h.guarded, ?_, ?_, h.named_concat false hempty⟩
    · rw [List.countP_append, h.once]
      rfl
    · rw [List.dropLast_concat]
      exact h.refused (eq_false_of_ne_true hhandled)
    · rw [List.length_append, List.length_append, ← h.toasted]
      exact Nat.add_right_comm _ _ _

theorem handle (h : s.Sound) (l : DialogStep) : (s.handle l).Sound := by
  cases l with
  | submit accepted => exact h.submit accepted
  | _ => exact ⟨h.once, h.guarded, h.last, h.toasted, h.named⟩

end Sound

theorem sound_of_reachable {s : DialogRun} (h : system.Reachable s) : s.Sound := by
  refine h.invariant ?_ fun _ _ _ hs hstep => hstep ▸ hs.handle _
  rintro s₀ ⟨mode, name, -, rfl⟩
  exact sound_opened mode name

/-- However often and in whatever order the fields and the confirm button are used, at most the last
command was taken, exactly then the dialog was closed, and every other one has its toast. Each
command is one of the mode with a trimmed name, which the core can refuse for its length only. -/
theorem dialog_publishes_once {s : DialogRun} (h : system.Reachable s) :
    (∀ p ∈ s.published.dropLast, p.accepted = false) ∧
      (s.published.countP DialogPublish.accepted = s.pops ∧ s.pops ≤ 1) ∧
      s.toasts.length + s.pops = s.published.length ∧
      ∀ p ∈ s.published, ∃ name, trim name = name ∧ s.form.mode.Publishes name p.command ∧
        ∀ (C : Core) (g : Globals),
          C.PassesNameCheck g p.command ↔ s.form.mode.HasTarget ∧ name.length ≤ 64 := by
  have hsound := sound_of_reachable h
  have hpops : s.pops ≤ 1 := by
    rw [hsound.guarded]
    split <;> decide
  refine ⟨hsound.last, ⟨hsound.once, hpops⟩, hsound.toasted, fun p hp => ?_⟩
  obtain ⟨name, hname, htrim, hpublishes⟩ := hsound.named p hp
  exact ⟨name, htrim, hpublishes, SpaceRoomDialogMode.passesNameCheck_iff hpublishes hname⟩

/-- A name is entered, refused by the transport, and submitted twice more. -/
def retrySteps : List DialogStep :=
  [.enterName " Ops ".toList, .submit false, .submit true, .submit true]

theorem dialog_publishes_once_retry :
    ((retrySteps.foldl handle (opened .createFromHeader [])).published.countP
      DialogPublish.accepted) ≤ 1 := by
  have hreachable : ∀ (steps : List DialogStep) (s : DialogRun), system.Reachable s →
      system.Reachable (steps.foldl handle s) := by
    intro steps
    induction steps with
    | nil => exact fun s h => h
    | cons l steps ih => exact fun s h => ih _ (h.step (l := l) rfl)
  have hopened : system.Reachable (opened .createFromHeader []) :=
    .initial ⟨.createFromHeader, [], rfl, rfl⟩
  have honce := (dialog_publishes_once (hreachable retrySteps _ hopened)).2.1
  exact honce.1.trans_le honce.2

end DialogRun

end GcsChat
