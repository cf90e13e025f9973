import GcsChat.ClearOnFull
import GcsChat.MessageKeys
import GcsChat.Records
import GcsChat.TransitionSystem
import Mathlib.Data.List.Sort

/-!
# The messaging component

`SendMessage`, the receive funnel `ApplyMessage` with its two routes, and `QueryHistory` of
`gcs_messaging.cpp`. The state is what the component itself holds: the bounded dedupe set, the
queue of archive writes and the events handed to the sink. What the session, the clock and the
crypto callables answer is an argument of each call.
-/

namespace GcsChat

open ByteString ProtoSchema

def kMaxSeenIds : ℕ := 4096

/-- The injected callables. `encrypt` takes the random bytes it draws as its first argument. -/
structure CryptoSeam where
  encrypt : Option (Bytes → Bytes → Bytes → Option Bytes)
  decrypt : Option (Bytes → Bytes → Option Bytes)
  enabled : Bool

/-- Decryption gives back what was encrypted for the same room. -/
def CryptoSeam.DecryptUndoesEncrypt (c : CryptoSeam) : Prop :=
  ∀ encrypt ∈ c.encrypt, ∀ decrypt ∈ c.decrypt, ∀ random roomTopic plain envelope,
    encrypt random roomTopic plain = some envelope → decrypt roomTopic envelope = some plain

structure Messaging where
  sender : Bytes
  crypto : CryptoSeam
  codec : MessageCodec ChatMessageState chatMessageSchema.Valid

structure MessagingState where
  seenIds : Finset Bytes
  archiveQueue : List (Bytes × Bytes)
  pushed : List GcsEvent

def MessagingState.fresh : MessagingState := ⟨∅, [], []⟩

/-- What the outside answers during one `SendMessage`. -/
structure SendOutcomes where
  id : Bytes
  nowMs : ℤ
  random : Bytes
  publishOk : Bool
  putOk : Bool

inductive SessionCall
  | publish (topic payload : Bytes)
  | put (key value : Bytes) (topics : List Bytes)
  deriving DecidableEq

inductive SendError
  | encrypt
  | publish
  | put
  deriving DecidableEq

namespace Messaging

variable (M : Messaging)

def encryptionEnabled : Bool := M.crypto.enabled && M.crypto.encrypt.isSome && M.crypto.decrypt.isSome

/-- The payload of a serialized record: the envelope when enabled, the record itself when not. -/
def sealed (random roomTopic serialized : Bytes) : Option Bytes :=
  if M.encryptionEnabled then M.crypto.encrypt.bind fun encrypt => encrypt random roomTopic serialized
  else some serialized

def opened (roomTopic valueBytes : Bytes) : Option Bytes :=
  if M.encryptionEnabled then M.crypto.decrypt.bind fun decrypt => decrypt roomTopic valueBytes
  else some valueBytes

/-- Decrypt first when enabled, then parse. -/
def openMessage (roomTopic valueBytes : Bytes) : Option ChatMessageState :=
  (M.opened roomTopic valueBytes).bind M.codec.parse

def roleFor (msg : ChatMessageState) (sender : Bytes) : MessageRole :=
  if msg.sender = sender then .userSelf else .userPeer

def withRole (msg : ChatMessageState) : ChatMessageState := { msg with role := roleFor msg M.sender }

def pushMessage (s : MessagingState) (msg : ChatMessageState) : MessagingState :=
  { s with pushed := s.pushed ++ [.message (M.withRole msg)] }

def remember (s : MessagingState) (id : Bytes) : MessagingState :=
  { s with seenIds := ClearOnFull.enter kMaxSeenIds s.seenIds id }

def enqueueArchive (s : MessagingState) (key value : Bytes) : MessagingState :=
  { s with archiveQueue := s.archiveQueue ++ [(key, value)] }

/-- What `ApplyMessage` does with a message it has not seen: the event first, then the archive
write of the bytes as received, under the key of the room and id found inside. -/
def accept (s : MessagingState) (msg : ChatMessageState) (valueBytes : Bytes) : MessagingState :=
  enqueueArchive (M.pushMessage (remember s msg.id) msg) (buildKey msg.roomTopic msg.id) valueBytes

def applyMessage (s : MessagingState) (roomTopic valueBytes : Bytes) : MessagingState :=
  match M.openMessage roomTopic valueBytes with
  | none => s
  | some msg => if msg.id ∈ s.seenIds then s else M.accept s msg valueBytes

def onLiveMessage (s : MessagingState) (topic valueBytes : Bytes) : MessagingState :=
  M.applyMessage s topic valueBytes

/-- The exception of `RoomTopicFromKey` leaves `OnMessageArrived` too: `none`. -/
def onMessageArrived (s : MessagingState) (key valueBytes : Bytes) : Option MessagingState :=
  (roomTopicFromKey key).map fun roomTopic =>
    if roomTopic = [] then s else M.applyMessage s roomTopic valueBytes

def pendingMessage (roomTopic text id : Bytes) (nowMs : ℤ) : ChatMessageState where
  id := id
  roomTopic := roomTopic
  role := .userSelf
  state := .pending
  text := text
  timestamp := nowMs
  sender := M.sender
  deleted := false
  deletedAtMs := 0
  unknownFields := []

/-- The record that is serialized, published and archived. -/
def completeMessage (roomTopic text id : Bytes) (nowMs : ℤ) : ChatMessageState :=
  { M.pendingMessage roomTopic text id nowMs with state := .complete }

def insertOwn (s : MessagingState) (id : Bytes) : MessagingState :=
  { s with seenIds := insert id s.seenIds }

def sendMessage (s : MessagingState) (roomTopic text : Bytes) (o : SendOutcomes) :
    MessagingState × List SessionCall × Except SendError Unit :=
  let msg := M.pendingMessage roomTopic text o.id o.nowMs
  let s := M.pushMessage (insertOwn s o.id) msg
  let msg := M.completeMessage roomTopic text o.id o.nowMs
  let failed := M.pushMessage s { msg with state := .error }
  match M.sealed o.random roomTopic (M.codec.serialize msg) with
  | none => (failed, [], .error .encrypt)
  | some payload =>
      let publish := SessionCall.publish roomTopic payload
      let put := SessionCall.put (buildKey roomTopic o.id) payload [roomTopic]
      if !o.publishOk then (failed, [publish], .error .publish)
      else if !o.putOk then (failed, [publish, put], .error .put)
      else (M.pushMessage s msg, [publish, put], .ok ())

/-- The order of a history batch: by timestamp, then by id. -/
def historyLE (a b : ChatMessageState) : Prop :=
  a.timestamp < b.timestamp ∨ a.timestamp = b.timestamp ∧ a.id ≤ b.id

instance : DecidableRel historyLE := fun _ _ => inferInstanceAs (Decidable (_ ∨ _))

def historyMessages (roomTopic : Bytes) (scan : List (Bytes × Bytes)) : List ChatMessageState :=
  (scan.filterMap fun entry => (M.openMessage roomTopic entry.2).map M.withRole).insertionSort
    historyLE

def absorb (s : MessagingState) (messages : List ChatMessageState) : MessagingState :=
  { s with seenIds := ClearOnFull.enterAll kMaxSeenIds s.seenIds (messages.map (·.id)) }

/-- `QueryHistory` on what the prefix scan returned; a failed scan is `none`. -/
def queryHistory (s : MessagingState) (roomTopic : Bytes) (scan : Option (List (Bytes × Bytes))) :
    MessagingState × Option MessageHistory :=
  match scan with
  | none => (s, none)
  | some entries =>
      let messages := M.historyMessages roomTopic entries
      (absorb s messages, some ⟨roomTopic, messages⟩)

def popArchive (s : MessagingState) : MessagingState × Option (Bytes × Bytes) :=
  match s.archiveQueue with
  | [] => (s, none)
  | item :: rest => ({ s with archiveQueue := rest }, some item)

inductive Call
  | send (roomTopic text : Bytes) (o : SendOutcomes)
  | live (topic valueBytes : Bytes)
  | arrived (key valueBytes : Bytes)
  | history (roomTopic : Bytes) (scan : Option (List (Bytes × Bytes)))
  | archive

/-- The state after a call, which may have ended in an exception. -/
def perform (s : MessagingState) : Call → MessagingState
  | .send roomTopic text o => (M.sendMessage s roomTopic text o).1
  | .live topic valueBytes => M.onLiveMessage s topic valueBytes
  | .arrived key valueBytes => (M.onMessageArrived s key valueBytes).getD s
  | .history roomTopic scan => (M.queryHistory s roomTopic scan).1
  | .archive => (popArchive s).1

/-- The component on its own: any sequence of calls, with any answers from outside. -/
def system : TransitionSystem MessagingState Call where
  initial s := s = .fresh
  step s c t := M.perform s c = t

variable {M}

@[simp] theorem accept_seenIds (s : MessagingState) (msg : ChatMessageState) (v : Bytes) :
    (M.accept s msg v).seenIds = ClearOnFull.enter kMaxSeenIds s.seenIds msg.id := rfl

@[simp] theorem accept_archiveQueue (s : MessagingState) (msg : ChatMessageState) (v : Bytes) :
    (M.accept s msg v).archiveQueue = s.archiveQueue ++ [(buildKey msg.roomTopic msg.id, v)] := rfl

@[simp] theorem accept_pushed (s : MessagingState) (msg : ChatMessageState) (v : Bytes) :
    (M.accept s msg v).pushed = s.pushed ++ [.message (M.withRole msg)] := rfl

theorem applyMessage_of_not_opened {s : MessagingState} {roomTopic valueBytes : Bytes}
    (h : M.openMessage roomTopic valueBytes = none) : M.applyMessage s roomTopic valueBytes = s := by
  simp only [applyMessage, h]

theorem applyMessage_of_mem {s : MessagingState} {roomTopic valueBytes : Bytes}
    {msg : ChatMessageState} (h : M.openMessage roomTopic valueBytes = some msg)
    (hseen : msg.id ∈ s.seenIds) : M.applyMessage s roomTopic valueBytes = s := by
  simp only [applyMessage, h, if_pos hseen]

theorem applyMessage_of_notMem {s : MessagingState} {roomTopic valueBytes : Bytes}
    {msg : ChatMessageState} (h : M.openMessage roomTopic valueBytes = some msg)
    (hseen : msg.id ∉ s.seenIds) :
    M.applyMessage s roomTopic valueBytes = M.accept s msg valueBytes := by
  simp only [applyMessage, h, if_neg hseen]

theorem valid_completeMessage (hsender : ValidUtf8 M.sender) {roomTopic text id : Bytes} {nowMs : ℤ}
    (htopic : ValidUtf8 roomTopic) (htext : ValidUtf8 text) (hid : ValidUtf8 id)
    (hnow : IsInt64 nowMs) : chatMessageSchema.Valid (M.completeMessage roomTopic text id nowMs) :=
  ChatMessageState.valid hid htopic htext hsender
    ⟨1, (by decide : MessageRole.userSelf = .ofNumber 1)⟩
    ⟨4, (by decide : MessageState.complete = .ofNumber 4)⟩ hnow isInt64_zero rfl

theorem opened_of_sealed (hseam : M.crypto.DecryptUndoesEncrypt)
    {random roomTopic plain payload : Bytes} (h : M.sealed random roomTopic plain = some payload) :
    M.opened roomTopic payload = some plain := by
  unfold sealed at h
  unfold opened
  split_ifs at h ⊢ with henabled
  · simp only [encryptionEnabled, Bool.and_eq_true, Option.isSome_iff_exists] at henabled
    obtain ⟨⟨_, encrypt, hencrypt⟩, decrypt, hdecrypt⟩ := henabled
    rw [hencrypt, Option.bind_some] at h
    rw [hdecrypt, Option.bind_some]
    exact hseam encrypt hencrypt decrypt hdecrypt _ _ _ _ h
  · exact h.symm

theorem openMessage_sealed (hseam : M.crypto.DecryptUndoesEncrypt)
    {random roomTopic payload : Bytes} {msg : ChatMessageState}
    (hvalid : chatMessageSchema.Valid msg)
    (h : M.sealed random roomTopic (M.codec.serialize msg) = some payload) :
    M.openMessage roomTopic payload = some msg := by
  rw [openMessage, opened_of_sealed hseam h, Option.bind_some, M.codec.parse_serialize msg hvalid]

@[simp] theorem withRole_id (msg : ChatMessageState) : (M.withRole msg).id = msg.id := rfl

@[simp] theorem withRole_roomTopic (msg : ChatMessageState) :
    (M.withRole msg).roomTopic = msg.roomTopic := rfl

theorem mem_historyMessages {roomTopic : Bytes} {scan : List (Bytes × Bytes)}
    {msg : ChatMessageState} : msg ∈ M.historyMessages roomTopic scan ↔
      ∃ entry ∈ scan, ∃ m, M.openMessage roomTopic entry.2 = some m ∧ M.withRole m = msg := by
  simp only [historyMessages, List.mem_insertionSort, List.mem_filterMap, Option.map_eq_some_iff]

instance : Std.Total historyLE where
  total a b := by
    rcases lt_trichotomy a.timestamp b.timestamp with h | h | h
    · exact Or.inl (Or.inl h)
    · exact (le_total a.id b.id).imp (fun hid => Or.inr ⟨h, hid⟩) fun hid => Or.inr ⟨h.symm, hid⟩
    · exact Or.inr (Or.inl h)

instance : IsTrans ChatMessageState historyLE where
  trans a b c hab hbc := by
    rcases hab with hab | ⟨hab, hid⟩ <;> rcases hbc with hbc | ⟨hbc, hid'⟩
    · exact Or.inl (hab.trans hbc)
    · exact Or.inl (hbc ▸ hab)
    · exact Or.inl (hab ▸ hbc)
    · exact Or.inr ⟨hab.trans hbc, hid.trans hid'⟩

theorem eq_id_of_historyLE {a b : ChatMessageState} (hab : historyLE a b) (hba : historyLE b a) :
    a.id = b.id := by
  rcases hab with hab | ⟨hab, hid⟩ <;> rcases hba with hba | ⟨hba, hid'⟩
  · exact absurd hab hba.asymm
  · exact absurd hab hba.not_gt
  · exact absurd hba hab.not_gt
  · exact le_antisymm hid hid'

/-- Where ids tell messages apart, the order they come in does not change the sorted batch. -/
theorem insertionSort_historyLE_eq_of_perm {l l' : List ChatMessageState} (h : l.Perm l')
    (hid : ∀ a ∈ l, ∀ b ∈ l, a.id = b.id → a = b) :
    l.insertionSort historyLE = l'.insertionSort historyLE := by
  have hsorted := (List.perm_insertionSort historyLE l).trans
    (h.trans (List.perm_insertionSort historyLE l').symm)
  refine hsorted.eq_of_pairwise (fun a b ha hb hab hba => ?_)
    (List.pairwise_insertionSort historyLE l) (List.pairwise_insertionSort historyLE l')
  exact hid a ((List.mem_insertionSort _).1 ha) b (h.mem_iff.2 ((List.mem_insertionSort _).1 hb))
    (eq_id_of_historyLE hab hba)

def withoutRole (msg : ChatMessageState) : ChatMessageState := { msg with role := .unspecified }

theorem map_withoutRole_historyMessages (M : Messaging) (T : Bytes) (scan : List (Bytes × Bytes)) :
    (M.historyMessages T scan).map withoutRole =
      (scan.filterMap fun entry => (M.openMessage T entry.2).map withoutRole).insertionSort
        historyLE := by
  rw [historyMessages, List.map_insertionSort (r := historyLE) (s := historyLE) withoutRole _
    (fun _ _ _ _ => Iff.rfl), List.map_filterMap]
  simp only [Option.map_map]
  rfl

/-- The seam disabled and the wire format itself. -/
def plaintext (sender : Bytes) : Messaging where
  sender := sender
  crypto := ⟨none, none, false⟩
  codec := protoCodecs.message

/-- Messages of another sender that differ in their ids only. -/
def numberedMessage (roomTopic : Bytes) (n : ℕ) : ChatMessageState :=
  (plaintext (ofString "peer")).completeMessage roomTopic [] (nextMessageId 0 0 n) 0

theorem valid_numberedMessage {roomTopic : Bytes} (h : ValidUtf8 roomTopic) (n : ℕ) :
    chatMessageSchema.Valid (numberedMessage roomTopic n) :=
  valid_completeMessage (validUtf8_ofString _) h validUtf8_nil
    (validUtf8_mintId (validUtf8_ofString _) 0 0 n) isInt64_zero

theorem openMessage_plaintext (sender roomTopic : Bytes) {msg : ChatMessageState}
    (hvalid : chatMessageSchema.Valid msg) :
    (plaintext sender).openMessage roomTopic ((plaintext sender).codec.serialize msg) = some msg :=
  ((plaintext sender).codec.parse_serialize msg hvalid)

end Messaging

end GcsChat
