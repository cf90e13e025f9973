import GcsChat.SendEvents

/-!
# The live view and the replay view

The shell is shown a message once as it is received or sent and again in the batch of a history
replay. The first comes from the decrypted payload or from the fields of the send, the second from
the bytes of the archive. For a message whose archive write has landed, and whose key holds nothing
else, the two are the same message.
-/

namespace GcsChat

open ByteString ProtoSchema

namespace Messaging

variable {M : Messaging}

/-- The step from `s` to `t` pushes the event of a message whose archived bytes are `v`: of a received
message that names the room it was delivered on, or the complete event of a send. -/
inductive Shows (M : Messaging) (s t : NodeState) : ChatMessageState → Bytes → Prop
  | received {before after : List Accepted} {a : Accepted} (h : s.unpushed = before ++ a :: after)
      (ht : t.unpushed = before ++ after)
      (hroom : M.openMessage a.message.roomTopic a.valueBytes = some a.message)
      (hpushed : t.messaging.pushed = s.messaging.pushed ++ [.message (M.withRole a.message)]) :
      Shows M s t (M.withRole a.message) a.valueBytes
  | sent {before after : List Sending} {msg : ChatMessageState} {payload : Bytes}
      (h : s.sends = before ++ ⟨msg, some payload, .archived⟩ :: after)
      (ht : t.sends = before ++ ⟨msg, some payload, .returned true⟩ :: after)
      (hpushed : t.messaging.pushed = s.messaging.pushed ++ [.message (M.withRole msg)]) :
      Shows M s t (M.withRole msg) payload

/-- Step `j` of the run shows the message, and no event has been pushed for its id since. -/
structure LastShown (p : M.node.Path) (n : ℕ) (m : ChatMessageState) (v : Bytes) (j : ℕ) : Prop where
  before : j < n
  shows : M.Shows (p.state j) (p.state (j + 1)) m v
  last : messagesFor m.id (p.state n).messaging.pushed =
    messagesFor m.id (p.state (j + 1)).messaging.pushed

/-- The callers hand over protobuf strings, and the clock stays within its type. -/
def SendsUtf8 (p : M.node.Path) : Prop :=
  ∀ i < p.length, ∀ T text id nowMs, p.label i = .send T text id nowMs →
    ValidUtf8 T ∧ ValidUtf8 text ∧ ValidUtf8 id ∧ IsInt64 nowMs

theorem Step.archive {s t : NodeState} {l : Label} (h : M.Step s l t) :
    t.store = s.store ∧ t.written = s.written ∨
      ∃ key v, t.written = s.written ++ [(key, v)] ∧
        (t.store = s.store.insertOrAssign key v ∨ t.store = s.store.emplace key v) := by
  cases h with
  | live T v =>
      rcases receive_cases M s T v with h | ⟨_, _, _, h⟩ <;> rw [h] <;> exact .inl ⟨rfl, rfl⟩
  | callback before cb after _ =>
      rcases arrive_cases M { s with callbacks := before ++ after } (slash :: cb.key) cb.valueBytes
        with h | ⟨_, _, _, _, _, h⟩ <;> rw [h] <;> exact .inl ⟨rfl, rfl⟩
  | replicate key v wins =>
      refine .inr ⟨key, v, rfl, ?_⟩
      cases wins with
      | true => exact .inl rfl
      | false => exact .inr rfl
  | put item _ => exact .inr ⟨item.1, item.2, rfl, .inl rfl⟩
  | sendPut before msg payload after _ =>
      exact .inr ⟨buildKey msg.roomTopic msg.id, payload, rfl, .inl rfl⟩
  | _ => exact .inl ⟨rfl, rfl⟩

/-- Whether a record overwrites or not, its key is there afterwards, and nothing else appears. -/
theorem find?_of_lands {m m' : OrderedMap Bytes Bytes} {key v : Bytes}
    (h : m' = m.insertOrAssign key v ∨ m' = m.emplace key v) :
    (∀ k w, m'.find? k = some w → (k, w) = (key, v) ∨ m.find? k = some w) ∧
      ∀ k, k = key ∨ (m.find? k).isSome → (m'.find? k).isSome := by
  rcases h with rfl | rfl
  · simp only [OrderedMap.find?_insertOrAssign]
    refine ⟨fun k w hfind => ?_, fun k hk => ?_⟩
    · split_ifs at hfind with hkey
      · exact .inl (Prod.ext hkey (Option.some.inj hfind).symm)
      · exact .inr hfind
    · split_ifs with hkey
      · rfl
      · exact hk.resolve_left hkey
  · simp only [OrderedMap.find?_emplace]
    refine ⟨fun k w hfind => ?_, fun k hk => ?_⟩
    · split_ifs at hfind with hkey
      · exact .inl (Prod.ext hkey.1 (Option.some.inj hfind).symm)
      · exact .inr hfind
    · split_ifs with hkey
      · rfl
      · rcases hk with rfl | hk
        · exact Option.isSome_iff_ne_none.2 fun hnone => hkey ⟨rfl, hnone⟩
        · exact hk

structure StoreKeeps (s : NodeState) : Prop where
  stored : ∀ k v, s.store.find? k = some v → (k, v) ∈ s.written
  found : ∀ kv ∈ s.written, (s.store.find? kv.1).isSome

theorem StoreKeeps.step {s t : NodeState} {l : Label} (h : StoreKeeps s) (hstep : M.Step s l t) :
    StoreKeeps t := by
  rcases hstep.archive with ⟨hstore, hwritten⟩ | ⟨key, v, hwritten, hstore⟩
  · exact ⟨hstore ▸ hwritten ▸ h.stored, hstore ▸ hwritten ▸ h.found⟩
  · obtain ⟨honly, hthere⟩ := find?_of_lands hstore
    refine ⟨fun k w hfind => ?_, ?_⟩
    · rw [hwritten]
      rcases honly k w hfind with heq | hold
      · exact List.mem_append_right _ (List.mem_singleton.2 heq)
      · exact List.mem_append_left _ (h.stored k w hold)
    · rw [hwritten, List.forall_mem_append, List.forall_mem_singleton]
      exact ⟨fun kv hkv => hthere kv.1 (.inr (h.found kv hkv)), hthere key (.inl rfl)⟩

theorem storeKeeps_of_path {p : M.node.Path} (hfresh : p.state 0 = .fresh) {n : ℕ}
    (hn : n ≤ p.length) : StoreKeeps (p.state n) := by
  induction n with
  | zero =>
      rw [hfresh]
      exact ⟨fun k v hfind => by simp [NodeState.fresh] at hfind, List.forall_mem_nil _⟩
  | succ n ih => exact (ih (Nat.le_of_succ_le hn)).step (p.step n hn)

theorem StoreKeeps.find?_eq {s : NodeState} (h : StoreKeeps s) {key v : Bytes}
    (hlanded : (key, v) ∈ s.written) (hsole : ∀ v', (key, v') ∈ s.written → v' = v) :
    s.store.find? key = some v := by
  obtain ⟨w, hw⟩ := Option.isSome_iff_exists.1 (h.found _ hlanded)
  rw [hw, hsole w (h.stored _ _ hw)]

/-- The payload of every send opens to its complete record. -/
def SealsOwn (M : Messaging) (s : NodeState) : Prop :=
  ∀ c ∈ s.sends, chatMessageSchema.Valid c.message ∧
    ∀ v ∈ c.payload, M.openMessage c.message.roomTopic v = some c.message

theorem SealsOwn.step (hseam : M.crypto.DecryptUndoesEncrypt) (hsender : ValidUtf8 M.sender)
    {s t : NodeState} {l : Label} (h : M.SealsOwn s) (hstep : M.Step s l t)
    (hutf8 : ∀ T text id nowMs, l = .send T text id nowMs →
      ValidUtf8 T ∧ ValidUtf8 text ∧ ValidUtf8 id ∧ IsInt64 nowMs) : M.SealsOwn t := by
  rcases hstep.sends with heq | ⟨T, text, id, nowMs, hl, heq⟩ | ⟨before, c, c', after, hlist, heq, hadv⟩
  · exact fun c hc => h c (heq ▸ hc)
  · obtain ⟨hT, htext, hid, hnow⟩ := hutf8 T text id nowMs hl
    rw [SealsOwn, heq]
    refine List.forall_mem_append.2 ⟨h, List.forall_mem_singleton.2 ⟨?_, nofun⟩⟩
    exact valid_completeMessage hsender hT htext hid hnow
  · rw [SealsOwn, hlist, List.forall_mem_append, List.forall_mem_cons] at h
    rw [SealsOwn, heq, List.forall_mem_append, List.forall_mem_cons]
    refine ⟨h.1, ⟨?_, fun v hv => ?_⟩, h.2.2⟩
    · rw [hadv.message]
      exact h.2.1.1
    · rw [hadv.message]
      rcases hadv.computes v hv with hold | ⟨random, hsealed⟩
      · exact h.2.1.2 v hold
      · exact openMessage_sealed hseam h.2.1.1 hsealed

theorem sealsOwn_of_path (hseam : M.crypto.DecryptUndoesEncrypt) (hsender : ValidUtf8 M.sender)
    {p : M.node.Path} (hfresh : p.state 0 = .fresh) (hutf8 : SendsUtf8 p) {n : ℕ}
    (hn : n ≤ p.length) : M.SealsOwn (p.state n) := by
  induction n with
  | zero =>
      rw [hfresh]
      exact List.forall_mem_nil _
  | succ n ih => exact (ih (Nat.le_of_succ_le hn)).step hseam hsender (p.step n hn) (hutf8 n hn)

theorem Shows.opens {s t : NodeState} {m : ChatMessageState} {v : Bytes} (h : M.Shows s t m v)
    (hseals : M.SealsOwn s) :
    t.messaging.pushed = s.messaging.pushed ++ [.message m] ∧
      ∃ msg, M.openMessage m.roomTopic v = some msg ∧ M.withRole msg = m := by
  cases h with
  | received h ht hroom hpushed => exact ⟨hpushed, _, hroom, rfl⟩
  | @sent before after msg _ h ht hpushed =>
      have hmem : ⟨msg, some v, .archived⟩ ∈ s.sends := by
        rw [h]
        exact List.mem_append_right _ List.mem_cons_self
      exact ⟨hpushed, msg, (hseals _ hmem).2 v rfl, rfl⟩

/-- Let a run have shown a received message on its own room, or a sent message as complete, and no
other event of its id since. Once its archive write has landed, and if nothing else was written under
its key, the message of that event is in the answer of the next `QueryHistory` of the room, and it is
all that the answer has under its id, unless a record under another key carries the id too. -/
theorem history_eq_lastShown (M : Messaging) (hseam : M.crypto.DecryptUndoesEncrypt)
    (hsender : ValidUtf8 M.sender) (p : M.node.Path) (hfresh : p.state 0 = .fresh)
    (hutf8 : SendsUtf8 p) {n j : ℕ} (hn : n ≤ p.length) {m : ChatMessageState} {v : Bytes}
    (hshown : LastShown p n m v j)
    (hlanded : (buildKey m.roomTopic m.id, v) ∈ (p.state n).written)
    (hsole : ∀ v', (buildKey m.roomTopic m.id, v') ∈ (p.state n).written → v' = v) :
    (messagesFor m.id (p.state n).messaging.pushed).getLast? = some m ∧
      ∀ t, M.Step (p.state n) (.scan m.roomTopic) t →
        ∃ history, t.replay = some ⟨history, false⟩ ∧ m ∈ history.message ∧
          ∀ m' ∈ history.message, m'.id = m.id → m' = m ∨
            ∃ key v' msg', key ≠ buildKey m.roomTopic m.id ∧
              (p.state n).store.find? key = some v' ∧
              M.openMessage m.roomTopic v' = some msg' ∧ msg'.id = m.id := by
  have hj : j ≤ p.length := hshown.before.le.trans hn
  obtain ⟨hpushed, msg, hopen, hrole⟩ :=
    hshown.shows.opens (sealsOwn_of_path hseam hsender hfresh hutf8 hj)
  have hfind := (storeKeeps_of_path hfresh hn).find?_eq hlanded hsole
  refine ⟨?_, fun t hscan => ?_⟩
  · rw [hshown.last, hpushed, messagesFor_append]
    simp [messagesFor]
  · cases hscan with
    | scan _ entries hperm _ =>
        refine ⟨_, rfl, ?_, fun m' hm' hid => ?_⟩
        · have hunder : (buildKey m.roomTopic m.id, v) ∈ (p.state n).underPrefix m.roomTopic :=
            Network.mem_underPrefix.2 ⟨hfind, historyPrefix_prefix_buildKey _ _⟩
          exact mem_historyMessages.2 ⟨_, hperm.mem_iff.2 hunder, msg, hopen, hrole⟩
        · obtain ⟨entry, hentry, msg', hopen', rfl⟩ := mem_historyMessages.1 hm'
          have hfind' := (Network.mem_underPrefix.1 (hperm.mem_iff.1 hentry)).1
          by_cases hkey : entry.1 = buildKey m.roomTopic m.id
          · rw [hkey, hfind] at hfind'
            rw [← Option.some.inj hfind', hopen] at hopen'
            exact .inl (by rw [← Option.some.inj hopen', hrole])
          · exact .inr ⟨entry.1, entry.2, msg', hkey, hfind', hopen', hid⟩

def completedSend : (plaintext (ofString "self")).node.Path :=
  (publishedSend.snoc (Step.sendPut _ [] echoedMessage echoedPayload [] rfl)).snoc
    (Step.sendReturn _ [] echoedMessage echoedPayload [] rfl rfl)

theorem history_eq_completedSend :
    (messagesFor echoedMessage.id (completedSend.state 6).messaging.pushed).getLast? =
        some ((plaintext (ofString "self")).withRole echoedMessage) ∧
      ∀ t, (plaintext (ofString "self")).Step (completedSend.state 6) (.scan kSmokeTopicA) t →
        ∃ history, t.replay = some ⟨history, false⟩ ∧
          (plaintext (ofString "self")).withRole echoedMessage ∈ history.message := by
  have hutf8 : SendsUtf8 completedSend := by
    intro i hi T text id nowMs hlabel
    have hi : i < 6 := hi
    interval_cases i
    · cases hlabel
      exact ⟨validUtf8_ofString _, validUtf8_nil, validUtf8_mintId (validUtf8_ofString _) 0 0 0,
        isInt64_zero⟩
    all_goals cases hlabel
  have hseam : (plaintext (ofString "self")).crypto.DecryptUndoesEncrypt := by
    simp [plaintext, CryptoSeam.DecryptUndoesEncrypt]
  have hshown : LastShown completedSend 6 ((plaintext (ofString "self")).withRole echoedMessage)
      echoedPayload 5 :=
    ⟨by decide, .sent (rfl : _ = [] ++ _ :: []) rfl rfl, rfl⟩
  have hwritten : ∀ v', (buildKey kSmokeTopicA (nextMessageId 0 0 0), v') ∈
      (completedSend.state 6).written ↔ v' = echoedPayload := by
    intro v'
    refine (List.mem_singleton (b := (buildKey kSmokeTopicA (nextMessageId 0 0 0),
      echoedPayload))).trans ?_
    rw [Prod.mk.injEq, eq_self, true_and]
  obtain ⟨hlast, hhistory⟩ := history_eq_lastShown _ hseam (validUtf8_ofString _) completedSend rfl
    hutf8 (n := 6) le_rfl hshown ((hwritten _).2 rfl) fun v' => (hwritten v').1
  refine ⟨hlast, fun t ht => ?_⟩
  obtain ⟨history, hreplay, hmem, -⟩ := hhistory t ht
  exact ⟨history, hreplay, hmem⟩

end Messaging

end GcsChat
