import Difz.Wire.Writer
import Difz.Zig.Apply

/-!
# The patch encoder of the native program

`createPatch` (`src/directory_patch.zig`) writes header, rules and entries into one output, an
integer at a time, and puts the checksum into its place at the end. The Rust crate leaves room for
the header and encodes it last. The two bodies are compared word by word, so the patches are the
same bytes and one program fails exactly when the other does, `createPatch_eq_ok_iff`.
-/

namespace Difz

open Wire

namespace Zig

open TreePatch (Operation)

def Limits.default : Limits where
  maxPatchBytes := 16 * 1024 * 1024 * 1024
  maxEntries := 1000000
  maxRules := 4096
  maxPathBytes := 4096
  maxPatternBytes := 4096
  maxSymlinkBytes := 65536
  maxPayloadBytes := 8 * 1024 * 1024 * 1024
  maxOutputBytes := 64 * 1024 * 1024 * 1024

structure CreateOptions where
  rules : List Rule
  omit_ : Omit
  sourceRoot : Metadata
  targetRoot : Metadata

/-! ### The writer -/

def appendBytes (limit : Nat) (output bytes : List UInt8) : Except Error (List UInt8) :=
  if bytes.length > limit - output.length then .error .patchTooLarge else .ok (output ++ bytes)

def appendInt {α : Type} [Word α] (limit : Nat) (output : List UInt8) (value : α) :
    Except Error (List UInt8) :=
  appendBytes limit output (toLeBytes value)

/-- The header with zeros in the place of the checksum. -/
def appendHeader (limit : Nat) (headerFlags ruleCount entryCount : UInt32)
    (sourceHash targetHash : Digest) (output : List UInt8) : Except Error (List UInt8) := do
  let output ← appendBytes limit output (utf8 "DIFZTREE")
  let output ← appendInt limit output formatVersion
  let output ← appendInt limit output formatVersion
  let output ← appendInt limit output headerFlags
  let output ← appendInt limit output ruleCount
  let output ← appendInt limit output entryCount
  let output ← appendBytes limit output sourceHash.toList
  let output ← appendBytes limit output targetHash.toList
  appendBytes limit output (List.replicate 32 0)

def actionToInt : PathFilter.Action → UInt8
  | .include_ => 1
  | .exclude => 2

def appendRule (limits : Limits) (output : List UInt8) (rule : Rule) :
    Except Error (List UInt8) :=
  if rule.pattern.length = 0 ∨ rule.pattern.length > limits.maxPatternBytes then
    .error .limitExceeded
  else if ¬isUtf8 rule.pattern = true then .error .invalidUtf8
  else do
    let limit := limits.maxPatchBytes
    let output ← appendInt limit output (actionToInt rule.action)
    let output ← appendInt limit output (0 : UInt8)
    let output ← appendInt limit output (0 : UInt16)
    let output ← appendInt limit output (UInt32.ofNat rule.pattern.length)
    appendBytes limit output rule.pattern

/-- A record behind its length. -/
def appendMeta (limits : Limits) (output : List UInt8) (m : Metadata) :
    Except Error (List UInt8) :=
  let encodedMeta := encodeCanonical m
  if encodedMeta.length > limits.maxPayloadBytes then .error .limitExceeded
  else do
    let output ← appendInt limits.maxPatchBytes output (UInt32.ofNat encodedMeta.length)
    appendBytes limits.maxPatchBytes output encodedMeta

def appendRoot (limits : Limits) (hasTargetRoot : Bool) (output : List UInt8)
    (targetRoot : Metadata) : Except Error (List UInt8) :=
  if hasTargetRoot then appendMeta limits output targetRoot else .ok output

/-! ### Entries -/

variable (native : Native)

/-- `encode` of `src/zstd_patch.zig`. -/
def encodeFile (source target : List UInt8) : Except Error (List UInt8) := do
  let _ ← patchWindowLog source.length target.length
  let frame ← (native.compress source target).mapError fun e => (File.Error.ofZstdz e).name
  -- the frame goes into a buffer of this size
  ensure (frame.length ≤ native.compressBound target.length) .compressionFailed
  let head := utf8 "ZDIF\x04" ++ ((native.blake3 source).toList ++ ((native.blake3 target).toList
    ++ (toLeBytes (UInt64.ofNat source.length) ++ toLeBytes (UInt64.ofNat target.length))))
  .ok (head ++ frame)

/-- The operation and the payload of a regular file. -/
def filePayload (source : List Entry) (entry : Entry) : Except Error (Operation × List UInt8) :=
  match entry.meta_.hardlinkTo with
  | some canonicalPath => .ok (.fileHardlink, canonicalPath)
  | none =>
    match findEntry source entry.path with
    | some old =>
      if old.kind = .file then
        if old.data = entry.data then .ok (.fileCopy, [])
        else do
          let delta ← encodeFile native old.data entry.data
          .ok (.fileDelta, delta)
      else .ok (.fileRaw, entry.data)
    | none => .ok (.fileRaw, entry.data)

def selectPayload (limits : Limits) (source : List Entry) (entry : Entry) :
    Except Error (Operation × List UInt8) :=
  match entry.kind with
  | .directory => .ok (.directory, [])
  | .symlink =>
    if entry.data.length > limits.maxSymlinkBytes then .error .limitExceeded
    else .ok (.symlink, entry.data)
  | .file => do
    let (operation, payload) ← filePayload native source entry
    if payload.length > limits.maxPayloadBytes then .error .limitExceeded
    else .ok (operation, payload)

def operationToInt : Operation → UInt8
  | .directory => 1
  | .symlink => 2
  | .fileCopy => 3
  | .fileRaw => 4
  | .fileDelta => 5
  | .fileHardlink => 6

def appendEntry (limits : Limits) (source : List Entry) (output : List UInt8) (entry : Entry) :
    Except Error (List UInt8) := do
  let (operation, payload) ← selectPayload native limits source entry
  let limit := limits.maxPatchBytes
  let output ← appendInt limit output (operationToInt operation)
  let output ← appendInt limit output (0 : UInt8)
  let output ← appendInt limit output entry.mode
  let output ← appendInt limit output (UInt32.ofNat entry.path.length)
  let output ← appendInt limit output (UInt64.ofNat payload.length)
  let output ← appendBytes limit output entry.path
  let output ← appendBytes limit output payload
  appendMeta limits output entry.meta_

/-! ### Patches -/

/-- The output with its checksum written over the zeros. -/
def sealOutput (blake3 : List UInt8 → Digest) (output : List UInt8) : List UInt8 :=
  let checksum := blake3 (utf8 "DIFZTREE-PATCH\x02" ++ output.take 88 ++ output.drop 120)
  output.take 88 ++ (checksum.toList ++ output.drop 120)

/-- Everything behind the projection. -/
def writePatch (pcre2 : Pcre2) (source target : List Entry) (sourceRoot targetRoot : Metadata)
    (options : CreateOptions) : Except Error (List UInt8) := do
  let limits := Limits.default
  ensure (options.rules.length ≤ limits.maxRules) .limitExceeded
  ensure (target.length ≤ limits.maxEntries) .limitExceeded
  compileRules pcre2 options.rules
  let hasTargetRoot := !targetRoot.isEmpty
  let headerFlags := options.omit_.bits <<< 1 ||| hasTargetRoot.toUInt32
  let sourceHash ←
    (treeHashWithRoot native.blake3 source sourceRoot).mapError Directory.Error.name
  let targetHash ←
    (treeHashWithRoot native.blake3 target targetRoot).mapError Directory.Error.name
  let output ← appendHeader limits.maxPatchBytes headerFlags (UInt32.ofNat options.rules.length)
    (UInt32.ofNat target.length) sourceHash targetHash []
  let output ← options.rules.foldlM (appendRule limits) output
  let output ← target.foldlM (appendEntry native limits source) output
  let output ← appendRoot limits hasTargetRoot output targetRoot
  .ok (sealOutput native.blake3 output)

def createPatch (pcre2 : Pcre2) (sourceEntries targetEntries : List Entry)
    (options : CreateOptions) : Except Error (List UInt8) := do
  (validateSnapshot sourceEntries).mapError Directory.Error.name
  (validateSnapshot targetEntries).mapError Directory.Error.name
  let source ← (maskedSnapshot sourceEntries options.omit_).mapError Metadata.Error.name
  let target ← (maskedSnapshot targetEntries options.omit_).mapError Metadata.Error.name
  let sourceRoot ← (canonicalize options.sourceRoot options.omit_).mapError Metadata.Error.name
  let targetRoot ← (canonicalize options.targetRoot options.omit_).mapError Metadata.Error.name
  writePatch native pcre2 source target sourceRoot targetRoot options

/-! ### The words of a patch -/

/-- What a rule adds to the body. -/
def RuleWord (rule : PathFilter.Rule) (w : List UInt8) : Prop :=
  TreePatch.RuleFits TreePatch.Limits.default rule ∧ w = TreePatch.ruleWire rule

def RecordWord (c : CanonicalMetadata) (w : List UInt8) : Prop :=
  TreePatch.RecordFits TreePatch.Limits.default c ∧ w = TreePatch.recordWire c

/-- What a target entry adds: the fields of its descriptor and the record. -/
def EntryWord (source : Directory.CanonicalSnapshot) (e : Directory.Entry) (w : List UInt8) :
    Prop :=
  ∃ operation payload, TreePatch.selectOperation native TreePatch.Limits.default source e
      = .ok (operation, payload) ∧
    payload.length ≤ TreePatch.Limits.default.maxPayloadBytes.toNat ∧
    TreePatch.RecordFits TreePatch.Limits.default e.metadata ∧
    w = TreePatch.DecodedEntry.wire ⟨e.path, e.content.mode.bits, operation, payload, e.metadata⟩

def RootWord (root : CanonicalMetadata) (w : List UInt8) : Prop :=
  if (!root.metadata.isEmpty) = true then RecordWord root w else w = []

variable {native}

/-- The bytes a patch may take. -/
def maximum : Nat := TreePatch.Limits.default.envelope.maxPatchBytes.toNat

lemma maximum_eq : Limits.default.maxPatchBytes = maximum := by decide +kernel

lemma maxPayloadBytes_eq :
    Limits.default.maxPayloadBytes = TreePatch.Limits.default.maxPayloadBytes.toNat := by
  decide +kernel

lemma put_appends (bytes : List UInt8) :
    Appends maximum (TreePatch.put TreePatch.Limits.default.envelope.maxPatchBytes · bytes)
      (· = bytes) :=
  Appends.word fun _ _ _ => TreePatch.put_eq_ok

lemma appendBytes_appends (bytes : List UInt8) :
    Appends maximum (appendBytes Limits.default.maxPatchBytes · bytes) (· = bytes) := by
  refine Appends.word fun output result hlen => ?_
  rw [appendBytes, ite_error_eq_ok, maximum_eq, Except.ok.injEq, not_lt]
  constructor
  · intro h
    obtain ⟨hle, rfl⟩ := h
    rw [List.length_append]
    exact ⟨rfl, by omega⟩
  · intro h
    obtain ⟨rfl, hle⟩ := h
    rw [List.length_append] at hle
    exact ⟨by omega, rfl⟩

lemma appendInt_appends {α : Type} [Word α] (value : α) :
    Appends maximum (appendInt Limits.default.maxPatchBytes · value) (· = toLeBytes value) :=
  appendBytes_appends (toLeBytes value)

/-! ### Rules and records -/

lemma putRule_appends (rule : PathFilter.Rule) :
    Appends maximum (TreePatch.putRule TreePatch.Limits.default · rule) (RuleWord rule) := by
  have hputs := (put_appends [TreePatch.actionTag rule.action, 0, 0, 0]).seq_word
    ((put_appends (toLeBytes (UInt32.ofNat (utf8 rule.pattern).length))).seq_word
      (put_appends (utf8 rule.pattern)))
  refine (Appends.ite_error hputs).congr fun w => ?_
  have hwire : TreePatch.ruleWire rule = [TreePatch.actionTag rule.action, 0, 0, 0]
      ++ (toLeBytes (UInt32.ofNat (utf8 rule.pattern).length) ++ utf8 rule.pattern) := rfl
  simp only [RuleWord, TreePatch.RuleFits, hwire, not_or, not_lt, Bool.not_eq_true,
    List.isEmpty_eq_false_iff, ne_eq, TreePatch.utf8_eq_nil_iff]

lemma appendRule_appends (rule : PathFilter.Rule) :
    Appends maximum (appendRule Limits.default · (Rule.of rule)) (RuleWord rule) := by
  have hinsert := (appendInt_appends (actionToInt rule.action)).seq_word
    ((appendInt_appends (0 : UInt8)).seq_word ((appendInt_appends (0 : UInt16)).seq_word
      ((appendInt_appends (UInt32.ofNat (utf8 rule.pattern).length)).seq_word
        (appendBytes_appends (utf8 rule.pattern)))))
  refine (Appends.ite_error (Appends.ite_error hinsert)).congr fun w => ?_
  have htag : toLeBytes (actionToInt rule.action) = [TreePatch.actionTag rule.action] := by
    cases rule.action <;> rfl
  have hutf8 : isUtf8 (Rule.of rule).pattern = true := isUtf8_iff.mpr ⟨rule.pattern, rfl⟩
  have hpattern : (Rule.of rule).pattern = utf8 rule.pattern := rfl
  have hlimit : Limits.default.maxPatternBytes
      = TreePatch.Limits.default.maxPatternBytes.toNat := rfl
  rw [hutf8, htag, hpattern, hlimit]
  simp only [RuleWord, TreePatch.RuleFits, TreePatch.ruleWire, not_or, not_lt, not_true_eq_false,
    not_false_eq_true, List.length_eq_zero_iff, TreePatch.utf8_eq_nil_iff, ne_eq, true_and]

lemma putMetadata_appends {c : CanonicalMetadata} (h : c.metadata.wire.length < 2 ^ 32) :
    Appends maximum (fun output => TreePatch.putMetadata
      TreePatch.Limits.default.envelope.maxPatchBytes TreePatch.Limits.default.maxPayloadBytes
      output c) (RecordWord c) := by
  have hencode : c.encode = .ok c.metadata.wire := by
    rw [CanonicalMetadata.encode_eq, if_pos (by omega)]
  have hputs := (put_appends (toLeBytes (UInt32.ofNat c.metadata.wire.length))).seq_word
    (put_appends c.metadata.wire)
  simp only [TreePatch.putMetadata, hencode, mapError_ok, ok_bind]
  refine (Appends.ite_error (Appends.ite_error hputs)).congr fun w => ?_
  rw [RecordWord, TreePatch.RecordFits, TreePatch.recordWire, not_lt, not_le, and_left_comm,
    and_assoc]

lemma appendMeta_appends {c : CanonicalMetadata} (h : c.metadata.wire.length < 2 ^ 32) :
    Appends maximum (appendMeta Limits.default · c.metadata) (RecordWord c) := by
  have hinsert := (appendInt_appends (UInt32.ofNat c.metadata.wire.length)).seq_word
    (appendBytes_appends c.metadata.wire)
  simp only [appendMeta, encodeCanonical_eq]
  refine (Appends.ite_error hinsert).congr fun w => ?_
  rw [RecordWord, TreePatch.RecordFits, TreePatch.recordWire, maxPayloadBytes_eq, not_lt]
  exact and_congr_left fun _ => (and_iff_right h).symm

/-! ### What an entry becomes -/

lemma encodeFile_agree (source target : List UInt8) :
    Agree File.Error.name Eq (File.encode native source target)
      (encodeFile native source target) := by
  rw [File.encode, encodeFile]
  refine (Agree.of_eq (patchWindowLog_eq _ _)).bind_of_eq fun log _ hlog _ _ => ?_
  rw [File.windowLog, mapError_eq_ok] at hlog
  dsimp only
  rw [Zstdz.appendFrame, hlog, ok_bind]
  cases native.compress source target with
  | error e => rfl
  | ok frame =>
    rw [ok_bind, mapError_ok, ok_bind]
    by_cases hle : frame.length ≤ native.compressBound target.length
    · rw [if_neg (not_lt.mpr hle), ensure_pos hle]
      rfl
    · rw [if_pos (not_le.mp hle), ensure_neg hle]
      rfl

lemma filePayload_agree (source : Directory.CanonicalSnapshot) {e : Directory.Entry}
    {mode : Directory.Mode} {bytes : Slice} (hcontent : e.content = .file mode bytes) :
    Agree TreePatch.Error.name Eq
      (TreePatch.selectOperation native TreePatch.Limits.default source e)
      (filePayload native (source.snapshot.entries.map Entry.of) (Entry.of e)) := by
  have hof : Entry.of e = ⟨e.path, .file, mode.bits, bytes.bytes, e.metadata.metadata⟩ := by
    rw [Entry.of_eq, hcontent]
    rfl
  rw [filePayload, TreePatch.selectOperation, hof, hcontent, findEntry,
    Directory.entryAt_map Entry.of Entry.pathOf_of, Directory.contentAt]
  dsimp only
  cases e.metadata.metadata.hardlinkTo with
  | some link => rfl
  | none =>
    cases Directory.entryAt source.snapshot.entries e.path with
    | none => rfl
    | some old =>
      rw [Option.map_some, Option.map_some, Entry.of_eq]
      cases old.content with
      | directory mode' => rfl
      | symlink target => rfl
      | file mode' previous =>
        dsimp only
        rw [if_pos rfl, Directory.Content.bytes]
        refine Agree.ite (Slice.ext_iff) (fun _ => rfl) fun _ => ?_
        have hfile : Agree TreePatch.Error.name Eq
            ((File.encode native previous.bytes bytes.bytes).mapError TreePatch.Error.file)
            (encodeFile native previous.bytes bytes.bytes) :=
          (encodeFile_agree previous.bytes bytes.bytes).mapError fun _ => rfl
        refine hfile.bind fun _ _ h => ?_
        rw [h]
        rfl

lemma selectPayload_eq_ok {source : Directory.CanonicalSnapshot} {e : Directory.Entry}
    {operation : Operation} {payload : List UInt8} :
    selectPayload native Limits.default (source.snapshot.entries.map Entry.of) (Entry.of e)
        = .ok (operation, payload) ↔
      TreePatch.selectOperation native TreePatch.Limits.default source e
          = .ok (operation, payload) ∧
        payload.length ≤ TreePatch.Limits.default.maxPayloadBytes.toNat := by
  have hsymlink : Limits.default.maxSymlinkBytes
      = TreePatch.Limits.default.maxSymlinkBytes.toNat := rfl
  have hmax : TreePatch.Limits.default.maxSymlinkBytes.toNat
      ≤ TreePatch.Limits.default.maxPayloadBytes.toNat := by decide +kernel
  cases hcontent : e.content with
  | directory mode =>
    have hkind : (Entry.of e).kind = .directory := by rw [Entry.of_eq, hcontent]
    rw [selectPayload, hkind, TreePatch.selectOperation, hcontent]
    simp only [Except.ok.injEq, Prod.mk.injEq]
    constructor
    · intro h
      obtain ⟨rfl, rfl⟩ := h
      exact ⟨⟨rfl, rfl⟩, Nat.zero_le _⟩
    · exact fun h => h.1
  | symlink target =>
    have hof : Entry.of e = ⟨e.path, .symlink, e.content.mode.bits, target.bytes,
        e.metadata.metadata⟩ := by
      rw [Entry.of_eq, hcontent]
      rfl
    rw [selectPayload, TreePatch.selectOperation, hof, hcontent, hsymlink]
    dsimp only
    simp only [ite_error_eq_ok, Except.ok.injEq, Prod.mk.injEq, not_lt]
    constructor
    · intro h
      obtain ⟨hle, rfl, rfl⟩ := h
      exact ⟨⟨hle, rfl, rfl⟩, hle.trans hmax⟩
    · exact fun h => h.1
  | file mode bytes =>
    have hkind : (Entry.of e).kind = .file := by rw [Entry.of_eq, hcontent]
    rw [selectPayload, hkind]
    simp only [Wire.bind_eq_ok, (filePayload_agree source hcontent).ok_iff, Prod.exists, ite_error_eq_ok,
      Except.ok.injEq, Prod.mk.injEq, not_lt, maxPayloadBytes_eq]
    constructor
    · intro h
      obtain ⟨_, _, hselect, hle, rfl, rfl⟩ := h
      exact ⟨hselect, hle⟩
    · intro h
      exact ⟨operation, payload, h.1, h.2, rfl, rfl⟩

lemma putEntry_appends (source : Directory.CanonicalSnapshot) {e : Directory.Entry}
    (h : e.metadata.metadata.wire.length < 2 ^ 32) :
    Appends maximum (TreePatch.putEntry native TreePatch.Limits.default source · e)
      (EntryWord native source e) := by
  have hputs : ∀ p : Operation × List UInt8, Appends maximum _ _ := fun p =>
    (put_appends [p.1.tag, 0]).seq_guarded
    ((put_appends (toLeBytes e.content.mode.bits)).seq_guarded
    ((put_appends (toLeBytes (UInt32.ofNat e.path.length))).seq_guarded
    ((put_appends (toLeBytes (UInt64.ofNat p.2.length))).seq_guarded
    ((put_appends e.path).seq_guarded
    ((put_appends p.2).seq_guarded (putMetadata_appends h))))))
  refine (Appends.bind fun p _ => Appends.ite_error (hputs p)).congr fun w => ?_
  simp only [EntryWord, Prod.exists, not_lt]
  rfl

lemma appendEntry_appends (source : Directory.CanonicalSnapshot) {e : Directory.Entry}
    (h : e.metadata.metadata.wire.length < 2 ^ 32) :
    Appends maximum (appendEntry native Limits.default (source.snapshot.entries.map Entry.of) ·
      (Entry.of e)) (EntryWord native source e) := by
  have hmeta : Appends maximum (appendMeta Limits.default · (Entry.of e).meta_)
      (RecordWord e.metadata) := appendMeta_appends h
  have hinserts : ∀ p : Operation × List UInt8, Appends maximum _ _ := fun p =>
    (appendInt_appends (operationToInt p.1)).seq_guarded
    ((appendInt_appends (0 : UInt8)).seq_guarded
    ((appendInt_appends (Entry.of e).mode).seq_guarded
    ((appendInt_appends (UInt32.ofNat (Entry.of e).path.length)).seq_guarded
    ((appendInt_appends (UInt64.ofNat p.2.length)).seq_guarded
    ((appendBytes_appends (Entry.of e).path).seq_guarded
    ((appendBytes_appends p.2).seq_guarded hmeta))))))
  refine (Appends.bind fun p _ => hinserts p).congr fun w => ?_
  have htag : ∀ operation, toLeBytes (operationToInt operation) = [operation.tag] := by
    intro operation
    cases operation <;> rfl
  simp only [EntryWord, Prod.exists, selectPayload_eq_ok, htag, and_assoc]
  rw [Entry.of_eq]
  rfl

/-! ### The body -/

/-- What follows the header: the rules, the entries and the root. -/
def BodyWord (native : Native) (source target : Directory.CanonicalSnapshot)
    (rules : List PathFilter.Rule) (w : List UInt8) : Prop :=
  ∃ v u, Joined RuleWord rules v ∧
    (∃ v u', Joined (EntryWord native source) target.snapshot.entries v ∧
      RootWord target.snapshot.root u' ∧ u = v ++ u') ∧ w = v ++ u

variable {source target : Directory.CanonicalSnapshot} {rules : List PathFilter.Rule}

/-- The records that a patch to this target holds have lengths of 32 bits. -/
structure ShortRecords (target : Directory.CanonicalSnapshot) : Prop where
  entries : ∀ e ∈ target.snapshot.entries, e.metadata.metadata.wire.length < 2 ^ 32
  root : target.snapshot.root.metadata.wire.length < 2 ^ 32

lemma putBody_appends (h : ShortRecords target) {header : TreePatch.Header}
    (hflag : header.rootMetadata = !target.snapshot.root.metadata.isEmpty) :
    Appends maximum (fun output => rules.foldlM (TreePatch.putRule TreePatch.Limits.default) output
      >>= fun output => target.snapshot.entries.foldlM
        (TreePatch.putEntry native TreePatch.Limits.default source) output
      >>= fun output => TreePatch.putRoot TreePatch.Limits.default header output
        target.snapshot.root) (BodyWord native source target rules) := by
  have hroot : Appends maximum (TreePatch.putRoot TreePatch.Limits.default header ·
      target.snapshot.root) (RootWord target.snapshot.root) := by
    simp only [TreePatch.putRoot, hflag]
    by_cases hempty : (!target.snapshot.root.metadata.isEmpty) = true
    · simp only [if_pos hempty]
      exact (putMetadata_appends h.root).congr fun w => by rw [RootWord, if_pos hempty]
    · simp only [if_neg hempty]
      exact Appends.nothing.congr fun w => by rw [RootWord, if_neg hempty]
  exact (Appends.foldlM fun rule _ => putRule_appends rule).seq
    ((Appends.foldlM fun e he => putEntry_appends source (h.entries e he)).seq hroot)

lemma appendBody_appends (h : ShortRecords target) :
    Appends maximum (fun output => (rules.map Rule.of).foldlM (appendRule Limits.default) output
      >>= fun output => (target.snapshot.entries.map Entry.of).foldlM
        (appendEntry native Limits.default (source.snapshot.entries.map Entry.of)) output
      >>= fun output => appendRoot Limits.default (!target.snapshot.root.metadata.isEmpty) output
        target.snapshot.root.metadata) (BodyWord native source target rules) := by
  have hroot : Appends maximum (appendRoot Limits.default (!target.snapshot.root.metadata.isEmpty) ·
      target.snapshot.root.metadata) (RootWord target.snapshot.root) := by
    simp only [appendRoot]
    by_cases hempty : (!target.snapshot.root.metadata.isEmpty) = true
    · simp only [if_pos hempty]
      exact (appendMeta_appends h.root).congr fun w => by rw [RootWord, if_pos hempty]
    · simp only [if_neg hempty]
      exact Appends.nothing.congr fun w => by rw [RootWord, if_neg hempty]
  simp only [List.foldlM_map]
  exact (Appends.foldlM fun rule _ => appendRule_appends rule).seq
    ((Appends.foldlM fun e he => appendEntry_appends source (h.entries e he)).seq hroot)

/-! ### The header -/

lemma Omit.bits_of (mask : Metadata.Omit) : (Omit.of mask).bits = mask.bits := by
  have hbits : ∀ n < 64, Omit.bits ⟨UInt32.ofNat n &&& 1 != 0, UInt32.ofNat n &&& 2 != 0,
      UInt32.ofNat n &&& 4 != 0, UInt32.ofNat n &&& 8 != 0, UInt32.ofNat n &&& 16 != 0,
      UInt32.ofNat n &&& 32 != 0⟩ = UInt32.ofNat n := by decide +kernel
  have hlt : mask.bits.toNat < 64 := TreePatch.Header.toNat_lt_of_and_not 6 mask.valid
  have hmask := hbits _ hlt
  rw [UInt32.ofNat_toNat] at hmask
  exact hmask

/-- The header of the other program, with zeros in the place of the checksum. -/
lemma appendHeader_appends (native : Native) (source target : Directory.CanonicalSnapshot)
    (options : TreePatch.CreateOptions) :
    Appends maximum (appendHeader Limits.default.maxPatchBytes
      ((Omit.of options.mask).bits <<< 1 ||| (!target.snapshot.root.metadata.isEmpty).toUInt32)
      (UInt32.ofNat options.rules.length) (UInt32.ofNat target.snapshot.entries.length)
      (source.hash native.blake3) (target.hash native.blake3))
      (· = (TreePatch.headerFor native source target options).leading ++ List.replicate 32 0) := by
  refine ((appendBytes_appends (utf8 "DIFZTREE")).seq_word
    ((appendInt_appends formatVersion).seq_word ((appendInt_appends formatVersion).seq_word
    ((appendInt_appends _).seq_word ((appendInt_appends _).seq_word
    ((appendInt_appends _).seq_word ((appendBytes_appends _).seq_word
    ((appendBytes_appends _).seq_word
      (appendBytes_appends (List.replicate 32 0)))))))))).congr fun w => ?_
  have hflags : (Omit.of options.mask).bits <<< 1
      ||| (!target.snapshot.root.metadata.isEmpty).toUInt32
      = (TreePatch.headerFor native source target options).flags := by
    rw [Omit.bits_of, TreePatch.Header.flags, TreePatch.headerFor]
    cases target.snapshot.root.metadata.isEmpty <;> rfl
  rw [hflags, TreePatch.Header.leading]
  simp only [List.append_assoc]
  rfl

/-! ### Patches -/

lemma createMasked_eq_ok (h : ShortRecords target) {options : TreePatch.CreateOptions}
    {patch : List UInt8} :
    TreePatch.createMasked native source target options = .ok patch ↔
      options.rules.length ≤ 4096 ∧ (∃ f, PathFilter.Filter.compile options.rules = .ok f) ∧
      ∃ body, BodyWord native source target options.rules body ∧ 120 + body.length ≤ maximum ∧
        (TreePatch.headerFor native source target options).encode native.blake3 body ++ body
          = patch := by
  have hbody : Appends maximum _ (BodyWord native source target options.rules) :=
    putBody_appends h
      (rfl : (TreePatch.headerFor native source target options).rootMetadata = _)
  have hwriter := (put_appends (List.replicate TreePatch.headerLen 0)).finish hbody
    (fun output => (TreePatch.headerFor native source target options).encode native.blake3
      (output.drop TreePatch.headerLen) ++ output.drop TreePatch.headerLen) patch
  simp only [bind_assoc] at hwriter
  rw [TreePatch.createMasked, ite_error_eq_ok, Wire.bind_eq_ok]
  simp only [hwriter, mapError_eq_ok, List.length_replicate, exists_and_right, not_lt,
    List.drop_left' (List.length_replicate)]
  rfl

lemma length_unsealed (header : TreePatch.Header) :
    (header.leading ++ List.replicate 32 0).length = 120 := by
  rw [List.length_append, TreePatch.Header.length_leading, List.length_replicate]
  rfl

/-- The checksum goes over the zeros behind the leading fields. -/
lemma sealOutput_eq (header : TreePatch.Header) (body : List UInt8) :
    sealOutput native.blake3 (header.leading ++ List.replicate 32 0 ++ body)
      = header.encode native.blake3 body ++ body := by
  have hlen := length_unsealed header
  have htake : (header.leading ++ List.replicate 32 0 ++ body).take 88 = header.leading := by
    rw [List.append_assoc]
    exact List.take_left' (TreePatch.Header.length_leading header)
  rw [sealOutput, htake, List.drop_left' hlen, TreePatch.Header.encode, ← List.append_assoc]
  rfl

lemma compileRules_eq_ok {pcre2 : Pcre2} (h : Compiles pcre2 rules) :
    compileRules pcre2 (rules.map Rule.of) = .ok () ↔
      ∃ f, PathFilter.Filter.compile rules = .ok f := by
  have hagree := compileRules_agree h.ne_compileFailed
  rw [← TreePatch.checkRules_eq_ok]
  exact (hagree.mono fun _ _ _ => rfl).ok_iff

lemma writePatch_eq_ok {pcre2 : Pcre2} (h : ShortRecords target)
    {options : TreePatch.CreateOptions} (hpcre : Compiles pcre2 options.rules)
    (sourceRoot targetRoot : Metadata) {patch : List UInt8} :
    writePatch native pcre2 (source.snapshot.entries.map Entry.of)
        (target.snapshot.entries.map Entry.of) source.snapshot.root.metadata
        target.snapshot.root.metadata
        ⟨options.rules.map Rule.of, Omit.of options.mask, sourceRoot, targetRoot⟩ = .ok patch ↔
      options.rules.length ≤ 4096 ∧ (∃ f, PathFilter.Filter.compile options.rules = .ok f) ∧
      ∃ body, BodyWord native source target options.rules body ∧ 120 + body.length ≤ maximum ∧
        (TreePatch.headerFor native source target options).encode native.blake3 body ++ body
          = patch := by
  have hentries : target.snapshot.entries.length ≤ Limits.default.maxEntries :=
    Directory.length_entries_le target
  have hbody : Appends maximum _ (BodyWord native source target options.rules) :=
    appendBody_appends h
  have hwriter := (appendHeader_appends native source target options).finish hbody
    (sealOutput native.blake3) patch
  simp only [bind_assoc] at hwriter
  rw [writePatch]
  simp only [List.length_map, ensure_pos hentries, ok_bind, treeHashWithRoot_canonical, mapError_ok,
    seq_eq_ok, ensure_eq_ok, compileRules_eq_ok hpcre, hwriter, length_unsealed, sealOutput_eq]
  rfl

/-- `createPatch` on the snapshots and options of the other program. -/
def createPatchOf (native : Native) (pcre2 : Pcre2) (source target : Directory.CanonicalSnapshot)
    (options : TreePatch.CreateOptions) : Except Error (List UInt8) :=
  createPatch native pcre2 (source.snapshot.entries.map Entry.of)
    (target.snapshot.entries.map Entry.of)
    ⟨options.rules.map Rule.of, Omit.of options.mask, source.snapshot.root.metadata,
      target.snapshot.root.metadata⟩

/-- Both programs write the same patches: one succeeds exactly when the other does, with the same
bytes. -/
theorem createPatch_eq_ok_iff {pcre2 : Pcre2} {options : TreePatch.CreateOptions}
    (hshort : ShortRecords (target.retain options.mask)) (hpcre : Compiles pcre2 options.rules)
    (patch : List UInt8) :
    createPatchOf native pcre2 source target options = .ok patch ↔
      TreePatch.create native source target options = .ok patch := by
  have hvalid : ∀ s : Directory.CanonicalSnapshot,
      validateSnapshot (s.snapshot.entries.map Entry.of) = .ok () := by
    intro s
    rw [validateSnapshot_of]
    exact s.isValid.structure_
  have hmasked : ∀ s : Directory.CanonicalSnapshot,
      maskedSnapshot (s.snapshot.entries.map Entry.of) (Omit.of options.mask)
        = .ok ((s.retain options.mask).snapshot.entries.map Entry.of) := fun s =>
    maskedSnapshot_of s.snapshot.entries options.mask
  have hroot : ∀ s : Directory.CanonicalSnapshot,
      canonicalize s.snapshot.root.metadata (Omit.of options.mask)
        = .ok (s.retain options.mask).snapshot.root.metadata := fun s => canonicalize_eq _ _
  rw [createPatchOf, createPatch]
  simp only [hvalid, hmasked, hroot, mapError_ok, ok_bind]
  rw [writePatch_eq_ok hshort hpcre, TreePatch.create, TreePatch.masked_eq, TreePatch.masked_eq,
    ok_bind, ok_bind, createMasked_eq_ok hshort]

/-- The delta and the link of the small tree, with its rule and its mask. -/
theorem createPatch_eq_ok_linked :
    ShortRecords (TreePatch.linkedTree.retain TreePatch.linkOptions.mask) ∧
    Compiles Pcre2.reference TreePatch.linkOptions.rules ∧
    ∃ patch, createPatchOf (File.stored TreePatch.patchDigests) Pcre2.reference TreePatch.fileTree
        TreePatch.linkedTree TreePatch.linkOptions = .ok patch ∧
      TreePatch.create (File.stored TreePatch.patchDigests) TreePatch.fileTree
        TreePatch.linkedTree TreePatch.linkOptions = .ok patch := by
  have hshort : ShortRecords (TreePatch.linkedTree.retain TreePatch.linkOptions.mask) :=
    ⟨by decide +kernel, by decide +kernel⟩
  have hpcre : Compiles Pcre2.reference TreePatch.linkOptions.rules := by
    intro rule hrule
    obtain rfl := List.mem_singleton.mp hrule
    obtain ⟨regex, hregex, -⟩ := Pcre2.documented_reference.compile_pattern regular_letter
    have hsplit : (⟨.include_, "!a"⟩ : PathFilter.Rule).split.2 = ['a'] := by decide
    rw [hsplit, hregex]
    rfl
  obtain ⟨patch, hpatch⟩ := TreePatch.exists_create
  exact ⟨hshort, hpcre, patch, (createPatch_eq_ok_iff hshort hpcre patch).mpr hpatch, hpatch⟩

end Zig

end Difz
