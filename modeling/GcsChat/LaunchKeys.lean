import GcsChat.NativeSession

/-!
# Instances of the app

The app may run several times, each with a key of its own from the command line. The key becomes a
directory, the session database lies in it, and the embedded node takes the directory of the database
as its base. Launches with different keys get nodes whose directories have nothing in common.
-/

namespace GcsChat

open ByteString ProtoSchema

def kDataSubdirectory : Bytes := ofString "data"
def kDefaultInstanceKey : Bytes := ofString "default"
def kInstanceFlag : Bytes := ofString "--instance="

def isInstanceKeyByte (b : UInt8) : Bool :=
  (65 ≤ b && b ≤ 90) || (97 ≤ b && b ≤ 122) || (48 ≤ b && b ≤ 57) || b == 95 || b == 45

/-- `^[A-Za-z0-9_-]{1,64}$`. -/
def kInstanceKeyPattern (key : Bytes) : Bool :=
  key.all isInstanceKeyByte && 1 ≤ key.length && key.length ≤ 64

/-- The first argument with the flag decides, even when its key is refused. -/
def instanceKeyFromArgs : List Bytes → Bytes
  | [] => kDefaultInstanceKey
  | arg :: rest =>
      if kInstanceFlag.isPrefixOf arg ∧ kInstanceFlag.length < arg.length then
        if kInstanceKeyPattern (arg.drop kInstanceFlag.length) then arg.drop kInstanceFlag.length
        else kDefaultInstanceKey
      else instanceKeyFromArgs rest

/-- `data/KEY` under the application-support directory. -/
def instanceDirectory (support key : Bytes) : Bytes :=
  support ++ ofString "/" ++ kDataSubdirectory ++ ofString "/" ++ key

def resolveDbPath (support key : Bytes) : Bytes := instanceDirectory support key ++ ofString "/db"

theorem kInstanceKeyPattern_instanceKeyFromArgs (args : List Bytes) :
    kInstanceKeyPattern (instanceKeyFromArgs args) = true := by
  induction args with
  | nil => decide
  | cons arg rest ih =>
      rw [instanceKeyFromArgs]
      split
      · split
        · assumption
        · decide
      · exact ih

section Keys

variable {key : Bytes} (h : kInstanceKeyPattern key = true)

include h

theorem key_ne_nil : key ≠ [] := by
  rintro rfl
  exact absurd h (by decide)

/-- No path separator, and no byte of a longer character. -/
theorem key_bytes {b : UInt8} (hb : b ∈ key) : b ≠ 47 ∧ b.toNat < 128 := by
  rw [kInstanceKeyPattern, Bool.and_eq_true, Bool.and_eq_true, List.all_eq_true] at h
  have hbyte := h.1.1 b hb
  simp only [isInstanceKeyByte, Bool.or_eq_true, Bool.and_eq_true, decide_eq_true_eq, beq_iff_eq,
    UInt8.le_iff_toNat_le, ← UInt8.toNat_inj, UInt8.reduceToNat] at hbyte
  simp only [ne_eq, ← UInt8.toNat_inj, UInt8.reduceToNat]
  omega

theorem slash_notMem_key : (47 : UInt8) ∉ key := fun hmem => (key_bytes h hmem).1 rfl

theorem validUtf8_key : ValidUtf8 key := by
  have hascii : ∀ b ∈ key, b.toNat < 128 := fun b hb => (key_bytes h hb).2
  clear h
  induction key with
  | nil => exact validUtf8_nil
  | cons b rest ih =>
      have hsingle : ∀ n < 128, ValidUtf8 [UInt8.ofNat n] := by decide +kernel
      have hfirst := hsingle b.toNat (hascii b List.mem_cons_self)
      rw [UInt8.ofNat_toNat] at hfirst
      exact hfirst.append (ih fun c hc => hascii c (List.mem_cons_of_mem _ hc))

end Keys

/-- What `std::filesystem::path::parent_path` does with a path that ends in a file name. -/
def CutsFileName (parentPath : Bytes → Bytes) : Prop :=
  ∀ directory name, directory ≠ [] → directory.getLast? ≠ some 47 → name ≠ [] → 47 ∉ name →
    parentPath (directory ++ ofString "/" ++ name) = directory

/-- The directory itself, or a path under it. -/
def Within (directory path : Bytes) : Prop :=
  path = directory ∨ directory ++ ofString "/" <+: path

theorem not_within_instanceDirectory (support : Bytes) {key key' : Bytes}
    (h' : kInstanceKeyPattern key' = true) (hne : key ≠ key') :
    ¬ Within (instanceDirectory support key) (instanceDirectory support key') := by
  rintro (hsame | hunder)
  · exact hne (List.append_cancel_left hsame).symm
  · rw [instanceDirectory, instanceDirectory, List.append_assoc, List.prefix_append_right_inj] at hunder
    have hslash : (47 : UInt8) ∈ key ++ ofString "/" :=
      List.mem_append_right _ (by decide)
    exact slash_notMem_key h' (hunder.subset hslash)

theorem getLast?_instanceDirectory (support : Bytes) {key : Bytes}
    (h : kInstanceKeyPattern key = true) : (instanceDirectory support key).getLast? ≠ some 47 := by
  rw [instanceDirectory, List.getLast?_append_of_ne_nil _ (key_ne_nil h)]
  exact fun hlast => slash_notMem_key h (List.mem_of_getLast? hlast)

section Launch

variable {H : HostCore} {support : Bytes} {args : List Bytes} {bindings : Bool}
  {rail : Option (Option Bytes)} {initialError : Option Bytes} {ls : List NativeStep}
  {s : NativeSession} {config : Bytes} {handle : Option ℕ} {c : GcsConfig}

theorem parseConfig_configBytes {dbPath : Bytes} (hparse : H.parseConfig = configSchema.parse)
    (hvalid : ValidUtf8 dbPath) : H.parseConfig (NativeSession.configBytes dbPath) =
      some ⟨dbPath, .protobuf, [], []⟩ := by
  have hconfig : configSchema.Valid ⟨dbPath, .protobuf, [], []⟩ := by
    refine ⟨?_, List.forall_mem_nil _⟩
    simp only [configSchema, List.forall_mem_cons]
    exact ⟨hvalid, ⟨1, rfl⟩, validUtf8_nil, by simp⟩
  rw [hparse]
  exact configSchema.parse_serialize hconfig

/-- What the native side reads from a configuration of the shell, if it takes it. -/
theorem acceptedConfig_configBytes {dbPath : Bytes} (hparse : H.parseConfig = configSchema.parse)
    (hvalid : ValidUtf8 dbPath) : H.acceptedConfig (some (NativeSession.configBytes dbPath)) =
      if NativeSession.configBytes dbPath = [] ∨ kMaxInt < (NativeSession.configBytes dbPath).length
      then none else some ⟨dbPath, .protobuf, [], []⟩ := by
  unfold HostCore.acceptedConfig
  dsimp only
  rw [parseConfig_configBytes hparse hvalid]
  rfl

theorem base_path_of_launch (hparse : H.parseConfig = configSchema.parse)
    (hparent : CutsFileName H.parentPath) (hsupport : ValidUtf8 support)
    (hrun : NativeSession.system.Run (.created bindings
      (some (resolveDbPath support (instanceKeyFromArgs args))) rail initialError) ls s)
    (hinit : NativeCall.init config handle ∈ s.calls)
    (haccepted : H.acceptedConfig (some config) = some c) :
    H.sessionBasePath c = instanceDirectory support (instanceKeyFromArgs args) := by
  have hkey := kInstanceKeyPattern_instanceKeyFromArgs args
  obtain ⟨dbPath, hpath, -, rfl⟩ := (NativeSession.configured_of_run hrun).2 config handle hinit
  obtain rfl := Option.some.inj hpath
  have hvalid : ValidUtf8 (resolveDbPath support (instanceKeyFromArgs args)) :=
    ((((hsupport.append (validUtf8_ofString _)).append (validUtf8_ofString _)).append
      (validUtf8_ofString _)).append (validUtf8_key hkey)).append (validUtf8_ofString _)
  rw [acceptedConfig_configBytes hparse hvalid, Option.ite_none_left_eq_some] at haccepted
  obtain rfl := Option.some.inj haccepted.2
  have hdirectory : instanceDirectory support (instanceKeyFromArgs args) ≠ [] :=
    List.append_ne_nil_of_right_ne_nil _ (key_ne_nil hkey)
  have hbase : H.parentPath (resolveDbPath support (instanceKeyFromArgs args)) =
      instanceDirectory support (instanceKeyFromArgs args) := by
    have hsplit : ofString "/db" = ofString "/" ++ ofString "db" := by decide
    rw [resolveDbPath, hsplit, ← List.append_assoc]
    exact hparent _ _ hdirectory (getLast?_instanceDirectory support hkey) (by decide) (by decide)
  have hne : resolveDbPath support (instanceKeyFromArgs args) ≠ [] :=
    List.append_ne_nil_of_left_ne_nil hdirectory _
  rw [HostCore.sessionBasePath, if_neg hne, hbase, if_neg hdirectory]

end Launch

/-- Two launches whose keys differ have nodes with directories of their own, neither of which is in
the other, whatever the command lines and however the two sessions went. -/
theorem launches_isolated {H : HostCore} {support : Bytes} {args args' : List Bytes}
    {bindings bindings' : Bool} {rail rail' : Option (Option Bytes)}
    {initialError initialError' : Option Bytes} {ls ls' : List NativeStep} {s s' : NativeSession}
    {config config' : Bytes} {handle handle' : Option ℕ} {c c' : GcsConfig}
    (hparse : H.parseConfig = configSchema.parse) (hparent : CutsFileName H.parentPath)
    (hsupport : ValidUtf8 support) (hkeys : instanceKeyFromArgs args ≠ instanceKeyFromArgs args')
    (hrun : NativeSession.system.Run (.created bindings
      (some (resolveDbPath support (instanceKeyFromArgs args))) rail initialError) ls s)
    (hrun' : NativeSession.system.Run (.created bindings'
      (some (resolveDbPath support (instanceKeyFromArgs args'))) rail' initialError') ls' s')
    (hinit : NativeCall.init config handle ∈ s.calls)
    (hinit' : NativeCall.init config' handle' ∈ s'.calls)
    (haccepted : H.acceptedConfig (some config) = some c)
    (haccepted' : H.acceptedConfig (some config') = some c') :
    ¬ Within (H.sessionBasePath c) (H.sessionBasePath c') ∧
      ¬ Within (H.sessionBasePath c') (H.sessionBasePath c) := by
  rw [base_path_of_launch hparse hparent hsupport hrun hinit haccepted,
    base_path_of_launch hparse hparent hsupport hrun' hinit' haccepted']
  exact ⟨not_within_instanceDirectory support (kInstanceKeyPattern_instanceKeyFromArgs args') hkeys,
    not_within_instanceDirectory support (kInstanceKeyPattern_instanceKeyFromArgs args)
      (Ne.symm hkeys)⟩

theorem cutsFileName_protoHostCore (messaging : Messaging) :
    CutsFileName (protoHostCore messaging).parentPath := by
  intro directory name _ _ _ hname
  have hreverse : (directory ++ ofString "/" ++ name).reverse =
      name.reverse ++ 47 :: directory.reverse := by
    rw [List.reverse_append, List.reverse_append]
    rfl
  have hkeep : ∀ b ∈ name.reverse, decide (b ≠ 47) = true := by
    intro b hb
    exact decide_eq_true fun heq => hname (heq ▸ List.mem_reverse.1 hb)
  change (((directory ++ ofString "/" ++ name).reverse.dropWhile fun b => decide (b ≠ 47)).drop
    1).reverse = directory
  rw [hreverse, List.dropWhile_append_of_pos hkeep]
  exact List.reverse_reverse directory

def launched (args : List Bytes) : NativeSession :=
  (NativeSession.created true (some (resolveDbPath (ofString "/home/u") (instanceKeyFromArgs args)))
    none none).start (some 7) .ok

def launchConfig (args : List Bytes) : GcsConfig :=
  ⟨resolveDbPath (ofString "/home/u") (instanceKeyFromArgs args), .protobuf, [], []⟩

theorem init_mem_launched (args : List Bytes) :
    NativeCall.init (NativeSession.configBytes (launchConfig args).dbPath) (some 7) ∈
      (launched args).calls := by
  have hne : resolveDbPath (ofString "/home/u") (instanceKeyFromArgs args) ≠ [] :=
    List.append_ne_nil_of_right_ne_nil _ (by decide)
  have hcalls : (launched args).calls =
      [.init (NativeSession.configBytes (launchConfig args).dbPath) (some 7),
        .subscribe 7 kGcsEventTopic 0 .ok] := by
    rw [launched, NativeSession.start, if_neg (by simp [NativeSession.created])]
    simp only [NativeSession.created, if_neg hne]
    rfl
  rw [hcalls]
  exact List.mem_cons_self

theorem launches_isolated_second :
    ¬ Within ((protoHostCore (Messaging.plaintext [])).sessionBasePath (launchConfig []))
        ((protoHostCore (Messaging.plaintext [])).sessionBasePath
          (launchConfig [ofString "--instance=second"])) ∧
      ¬ Within ((protoHostCore (Messaging.plaintext [])).sessionBasePath
          (launchConfig [ofString "--instance=second"]))
        ((protoHostCore (Messaging.plaintext [])).sessionBasePath (launchConfig [])) := by
  have hvalid : ∀ dbPath : Bytes, dbPath = (launchConfig []).dbPath ∨
      dbPath = (launchConfig [ofString "--instance=second"]).dbPath → ValidUtf8 dbPath := by
    rintro dbPath (rfl | rfl)
    · exact validUtf8_ofString "/home/u/data/default/db"
    · exact validUtf8_ofString "/home/u/data/second/db"
  have haccepted := (acceptedConfig_configBytes (H := protoHostCore (Messaging.plaintext [])) rfl
    (hvalid _ (.inl rfl))).trans (if_neg (by decide))
  have haccepted' := (acceptedConfig_configBytes (H := protoHostCore (Messaging.plaintext [])) rfl
    (hvalid _ (.inr rfl))).trans (if_neg (by decide))
  have hrun : ∀ args, NativeSession.system.Run (.created true
      (some (resolveDbPath (ofString "/home/u") (instanceKeyFromArgs args))) none none)
      [.start (some 7) .ok] (launched args) := fun _ => .single rfl
  exact launches_isolated rfl (cutsFileName_protoHostCore _) (validUtf8_ofString "/home/u")
    (by decide) (hrun []) (hrun [ofString "--instance=second"])
    (init_mem_launched []) (init_mem_launched [ofString "--instance=second"]) haccepted haccepted'

end GcsChat
