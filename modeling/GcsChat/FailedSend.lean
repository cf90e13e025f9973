import GcsChat.Messaging
import GcsChat.OrderedMap

/-!
# What a failed send leaves behind

`SendMessage` has three steps that can fail, and the second of them cannot be taken back: once
`Publish` has succeeded the peers have the message. A failure that is reported after it, by the
archive `Put`, is the one case in which a failed send is delivered.
-/

namespace GcsChat

open ByteString ProtoSchema

/-- What the session calls of the sends have brought about: the live messages given to the topics
and the archive. -/
structure Delivered where
  live : List (Bytes × Bytes)
  archive : OrderedMap Bytes Bytes

def Delivered.none : Delivered := ⟨[], .empty⟩

/-- A session call that succeeds has its effect, one that fails has none. -/
def SendOutcomes.deliver (o : SendOutcomes) (d : Delivered) : SessionCall → Delivered
  | .publish topic payload =>
      if o.publishOk then { d with live := d.live ++ [(topic, payload)] } else d
  | .put key value _ =>
      if o.putOk then { d with archive := d.archive.insertOrAssign key value } else d

namespace Messaging

variable (M : Messaging)

def afterSend (s : MessagingState) (T text : Bytes) (o : SendOutcomes) (d : Delivered) : Delivered :=
  (M.sendMessage s T text o).2.1.foldl o.deliver d

def IsLive (T x : Bytes) (d : Delivered) : Prop :=
  ∃ payload random msg, (T, payload) ∈ d.live ∧ msg.roomTopic = T ∧ msg.id = x ∧
    M.sealed random T (M.codec.serialize msg) = some payload

def IsArchived (T x : Bytes) (d : Delivered) : Prop :=
  ∃ value, d.archive.find? (buildKey T x) = some value

/-- If the send fails, its id is neither live on the topic nor archived, provided it was not before
the send. -/
def NotDeliveredIfFailed (s : MessagingState) (T text : Bytes) (o : SendOutcomes) : Prop :=
  ∀ e, (M.sendMessage s T text o).2.2 = .error e → ∀ d : Delivered, ¬ M.IsLive T o.id d →
    ¬ IsArchived T o.id d →
      ¬ M.IsLive T o.id (M.afterSend s T text o d) ∧ ¬ IsArchived T o.id (M.afterSend s T text o d)

def payload (T text : Bytes) (o : SendOutcomes) : Option Bytes :=
  M.sealed o.random T (M.codec.serialize (M.completeMessage T text o.id o.nowMs))

variable {M} {s : MessagingState} {T text : Bytes} {o : SendOutcomes}

theorem sendMessage_of_not_sealed (h : M.payload T text o = none) :
    (M.sendMessage s T text o).2 = ([], .error .encrypt) := by
  rw [payload] at h
  simp only [sendMessage, h]

theorem sendMessage_of_not_published {v : Bytes} (h : M.payload T text o = some v)
    (hpublish : o.publishOk = false) :
    (M.sendMessage s T text o).2 = ([.publish T v], .error .publish) := by
  rw [payload] at h
  simp only [sendMessage, h, hpublish, Bool.not_false, if_true]

theorem sendMessage_of_not_put {v : Bytes} (h : M.payload T text o = some v)
    (hpublish : o.publishOk = true) (hput : o.putOk = false) :
    (M.sendMessage s T text o).2 =
      ([.publish T v, .put (buildKey T o.id) v [T]], .error .put) := by
  rw [payload] at h
  simp only [sendMessage, h, hpublish, hput, Bool.not_false, Bool.not_true, if_true,
    Bool.false_eq_true, if_false]

theorem sendMessage_of_put {v : Bytes} (h : M.payload T text o = some v)
    (hpublish : o.publishOk = true) (hput : o.putOk = true) :
    (M.sendMessage s T text o).2 = ([.publish T v, .put (buildKey T o.id) v [T]], .ok ()) := by
  rw [payload] at h
  simp only [sendMessage, h, hpublish, hput, Bool.not_true, Bool.false_eq_true, if_false]

/-- A failed send is not delivered, unless it fails after the payload was published. -/
theorem notDeliveredIfFailed_iff (M : Messaging) (s : MessagingState) (T text : Bytes)
    (o : SendOutcomes) :
    M.NotDeliveredIfFailed s T text o ↔
      ¬ ((M.payload T text o).isSome ∧ o.publishOk = true ∧ o.putOk = false) := by
  constructor
  · rintro h ⟨hsome, hpublish, hput⟩
    obtain ⟨v, hv⟩ := Option.isSome_iff_exists.1 hsome
    have hsend := sendMessage_of_not_put (s := s) hv hpublish hput
    have hnone : ¬ M.IsLive T o.id .none := by
      rintro ⟨_, _, _, hmem, -⟩
      exact absurd hmem List.not_mem_nil
    have hempty : ¬ IsArchived T o.id .none := by
      rintro ⟨_, hfind⟩
      exact absurd hfind (by simp [Delivered.none])
    refine (h .put (congrArg Prod.snd hsend) .none hnone hempty).1
      ⟨v, o.random, M.completeMessage T text o.id o.nowMs, ?_, rfl, rfl, hv⟩
    rw [afterSend, hsend]
    simp [SendOutcomes.deliver, hpublish, hput, Delivered.none]
  · intro h e he d hlive harchived
    have hsame : M.afterSend s T text o d = d := by
      rw [afterSend]
      cases hv : M.payload T text o with
      | none =>
          rw [sendMessage_of_not_sealed hv]
          rfl
      | some v =>
          cases hpublish : o.publishOk with
          | false =>
              rw [sendMessage_of_not_published hv hpublish]
              simp [SendOutcomes.deliver, hpublish]
          | true =>
              cases hput : o.putOk with
              | false => exact absurd ⟨by rw [hv]; rfl, hpublish, hput⟩ h
              | true =>
                  rw [sendMessage_of_put hv hpublish hput] at he
                  cases he
    rw [hsame]
    exact ⟨hlive, harchived⟩

/-- The archive refuses a message that has just been published. -/
theorem not_notDeliveredIfFailed :
    ¬ ∀ s T text o, (plaintext (ofString "self")).NotDeliveredIfFailed s T text o := by
  intro h
  let o : SendOutcomes := ⟨nextMessageId 0 0 0, 0, [], true, false⟩
  exact (notDeliveredIfFailed_iff _ .fresh kSmokeTopicA (ofString "hi") o).1 (h _ _ _ o)
    ⟨rfl, rfl, rfl⟩

end Messaging

end GcsChat
