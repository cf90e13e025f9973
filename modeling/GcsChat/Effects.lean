import GcsChat.Interactive
import GcsChat.Records

/-!
# What the core asks of its surroundings

The questions of the C++ core: `g_mutex`, the pass-throughs of `CoreSession`, the clock and the id
mint, the parts of the messaging component that have locks of their own, and the Dart port. What
`g_mutex` guards is handed over by `lock` and given back by `unlock`, so it can only be read and
changed in between.
-/

namespace GcsChat

open ByteString

inductive Effect (Guarded : Type)
  | lock
  | unlock (guarded : Guarded)
  | initSession
  | isRunning
  | get (key : Bytes)
  | put (key value : Bytes)
  | putTopics (key value : Bytes) (topics : List Bytes)
  | publish (topic data : Bytes)
  | subscribe (topic : Bytes)
  | addListenTopic (topic : Bytes)
  | addBroadcastTopic (topic : Bytes)
  | queryKeyValues (keyPrefix : Bytes)
  | registerNewElementCallback
  | receivingDisabled
  | nextId (idPrefix : Bytes)
  | nowMs
  | random
  | insertOwn (id : Bytes)
  | insertUnseen (id : Bytes)
  | absorb (ids : List Bytes)
  | enqueueArchive (key value : Bytes)
  | post (event : GcsEvent)

/-- A fallible call answers whether it succeeded, or what it found. `initSession` answers the address
of a session that is up, `insertUnseen` whether the id was new. -/
@[reducible]
def Effect.Answer {Guarded : Type} : Effect Guarded → Type
  | .lock => Guarded
  | .unlock _ => Unit
  | .initSession => Option ℕ
  | .isRunning => Bool
  | .get _ => Option Bytes
  | .put _ _ => Bool
  | .putTopics _ _ _ => Bool
  | .publish _ _ => Bool
  | .subscribe _ => Bool
  | .addListenTopic _ => Bool
  | .addBroadcastTopic _ => Bool
  | .queryKeyValues _ => Option (List (Bytes × Bytes))
  | .registerNewElementCallback => Bool
  | .receivingDisabled => Bool
  | .nextId _ => Bytes
  | .nowMs => ℤ
  | .random => Bytes
  | .insertOwn _ => Unit
  | .insertUnseen _ => Bool
  | .absorb _ => Unit
  | .enqueueArchive _ _ => Unit
  | .post _ => Unit

abbrev Program (Guarded α : Type) : Type := Interactive (Effect Guarded) Effect.Answer α

section Questions

variable {G : Type}

abbrev lockMutex : Program G G := .ask .lock .done

abbrev unlockMutex (guarded : G) : Program G Unit := .ask (.unlock guarded) .done

abbrev CoreSession.initSession : Program G (Option ℕ) := .ask .initSession .done

abbrev CoreSession.isRunning : Program G Bool := .ask .isRunning .done

abbrev CoreSession.get (key : Bytes) : Program G (Option Bytes) := .ask (.get key) .done

abbrev CoreSession.put (key value : Bytes) : Program G Bool := .ask (.put key value) .done

abbrev CoreSession.putTopics (key value : Bytes) (topics : List Bytes) : Program G Bool :=
  .ask (.putTopics key value topics) .done

abbrev CoreSession.publish (topic data : Bytes) : Program G Bool := .ask (.publish topic data) .done

abbrev CoreSession.subscribe (topic : Bytes) : Program G Bool := .ask (.subscribe topic) .done

abbrev CoreSession.addListenTopic (topic : Bytes) : Program G Bool :=
  .ask (.addListenTopic topic) .done

abbrev CoreSession.addBroadcastTopic (topic : Bytes) : Program G Bool :=
  .ask (.addBroadcastTopic topic) .done

abbrev CoreSession.queryKeyValues (keyPrefix : Bytes) : Program G (Option (List (Bytes × Bytes))) :=
  .ask (.queryKeyValues keyPrefix) .done

abbrev CoreSession.registerNewElementCallback : Program G Bool :=
  .ask .registerNewElementCallback .done

abbrev receivingDisabled : Program G Bool := .ask .receivingDisabled .done

abbrev nextId (idPrefix : Bytes) : Program G Bytes := .ask (.nextId idPrefix) .done

abbrev nowMs : Program G ℤ := .ask .nowMs .done

abbrev randomBytes : Program G Bytes := .ask .random .done

abbrev insertOwnId (id : Bytes) : Program G Unit := .ask (.insertOwn id) .done

abbrev insertUnseenId (id : Bytes) : Program G Bool := .ask (.insertUnseen id) .done

abbrev absorbIds (ids : List Bytes) : Program G Unit := .ask (.absorb ids) .done

abbrev enqueueArchiveWrite (key value : Bytes) : Program G Unit :=
  .ask (.enqueueArchive key value) .done

abbrev postToDart (event : GcsEvent) : Program G Unit := .ask (.post event) .done

/-- A `std::unique_lock` of `g_mutex` around the whole body, which may give it up in between. -/
def withMutex {α : Type} (body : G → Program G (G × α)) : Program G α := do
  let guarded ← lockMutex
  let result ← body guarded
  unlockMutex result.1
  pure result.2

end Questions

end GcsChat
