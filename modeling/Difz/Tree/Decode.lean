import Difz.Tree.Header

/-!
# The tree patch decoder

The body of a tree patch: filter rules, entry descriptors and the optional root record
(`rust/src/tree_patch_decode.rs`). Each section is an exact reader, so the decoder as a whole
accepts the sealed layout of well-formed patches and nothing else, `decode_eq_ok`.
-/

namespace Difz

open Wire Metadata

namespace TreePatch

open PathFilter (Action Rule Filter)

structure Limits where
  envelope : EnvelopeLimits
  maxPathBytes : UInt32
  maxPatternBytes : UInt32
  maxSymlinkBytes : UInt64
  maxPayloadBytes : UInt64

def Limits.default : Limits :=
  ⟨EnvelopeLimits.default, 4096, 4096, 65536, UInt64.ofNat (8 * 2 ^ 30)⟩

inductive Operation
  | directory | symlink | fileCopy | fileRaw | fileDelta | fileHardlink
  deriving DecidableEq, Repr

def Operation.tag : Operation → UInt8
  | directory => 1
  | symlink => 2
  | fileCopy => 3
  | fileRaw => 4
  | fileDelta => 5
  | fileHardlink => 6

def Operation.tryFrom (tag : UInt8) : Except Error Operation :=
  match tag with
  | 1 => .ok directory
  | 2 => .ok symlink
  | 3 => .ok fileCopy
  | 4 => .ok fileRaw
  | 5 => .ok fileDelta
  | 6 => .ok fileHardlink
  | _ => .error .invalidOperation

lemma Operation.tryFrom_eq_ok {b : UInt8} {op : Operation} :
    tryFrom b = .ok op ↔ b = op.tag := by
  constructor
  · intro h
    unfold tryFrom at h
    split at h <;> first | (obtain rfl := Except.ok.inj h; rfl) | exact absurd h (by simp)
  · rintro rfl
    cases op <;> rfl

structure DecodedEntry where
  path : List UInt8
  mode : UInt16
  operation : Operation
  payload : List UInt8
  metadata : CanonicalMetadata
  deriving DecidableEq

def Operation.kind : Operation → Directory.Kind
  | directory => .directory
  | symlink => .symlink
  | fileCopy | fileRaw | fileDelta | fileHardlink => .file

instance : Directory.View DecodedEntry := ⟨fun e => ⟨e.path, e.mode, e.operation.kind, e.payload⟩⟩

structure ParsedPatch where
  header : Header
  rules : List Rule
  entries : List DecodedEntry
  root : CanonicalMetadata
  deriving DecidableEq

/-- Does the record hold anything of a family? -/
def hasFamily (m : Metadata) : Family → Bool
  | .xattr => !m.xattrs.isEmpty
  | .acl => !m.aces.isEmpty || m.nativeAcl.isSome
  | .timestamps => m.times.mtime.isSome || m.times.atime.isSome || m.times.btime.isSome
  | .finder => m.finderFlags != 0 || m.finderInfo.isSome
  | .sparse => !m.holes.isEmpty
  | .hardlink => m.hardlinkTo.isSome

def hasOmitted (m : Metadata) (mask : Omit) : Bool :=
  Family.all.any fun family => mask.contains family && hasFamily m family

/-! ### Readers -/

def take (length : Nat) : Reader Error (List UInt8) := Reader.take .unexpectedEndOfInput length

def byte : Reader Error UInt8 := Reader.word .unexpectedEndOfInput UInt8

def u16 : Reader Error UInt16 := Reader.word .unexpectedEndOfInput UInt16

def length (length limit : Nat) : Except Error Nat :=
  if length > limit then .error .limitExceeded else .ok length

def length32 (limit : Nat) : Reader Error Nat := do
  let n ← Reader.word .unexpectedEndOfInput UInt32
  Reader.lift (length n.toNat limit)

def length64 (limit : Nat) : Reader Error Nat := do
  let n ← Reader.word .unexpectedEndOfInput UInt64
  Reader.lift (length n.toNat limit)

def actionTag : Action → UInt8
  | .include_ => 1
  | .exclude => 2

def readAction : Reader Error Action := do
  let tag ← byte
  Reader.lift (match tag with
    | 1 => .ok .include_
    | 2 => .ok .exclude
    | _ => .error .invalidRule)

def readRule (limits : Limits) : Reader Error Rule := do
  let action ← readAction
  Reader.expect .unexpectedEndOfInput .invalidRule (0 : UInt8)
  Reader.expect .unexpectedEndOfInput .invalidRule (0 : UInt16)
  let length ← length32 limits.maxPatternBytes.toNat
  Reader.guard .invalidRule (length ≠ 0)
  let bytes ← take length
  let pattern ← Reader.lift (match fromUtf8 bytes with
    | some pattern => .ok pattern
    | none => .error (.snapshot .invalidUtf8))
  pure ⟨action, pattern⟩

/-- A metadata record behind its length. -/
def readRecord (limits : Limits) : Reader Error CanonicalMetadata := do
  let length ← length32 limits.maxPayloadBytes.toNat
  let bytes ← take length
  Reader.lift ((CanonicalMetadata.decode bytes).mapError .metadata)

/-- The fields of an entry, before the checks across them. -/
def readFields (limits : Limits) : Reader Error DecodedEntry := do
  let operation ← (do Reader.lift (Operation.tryFrom (← byte)))
  Reader.expect .unexpectedEndOfInput .unsupportedFlags (0 : UInt8)
  let mode ← u16
  let pathLength ← length32 limits.maxPathBytes.toNat
  Reader.guard .invalidPath (pathLength ≠ 0)
  let payloadLength ← length64 limits.maxPayloadBytes.toNat
  let path ← take pathLength
  let payload ← take payloadLength
  let metadata ← readRecord limits
  pure ⟨path, mode, operation, payload, metadata⟩

/-- What an operation asks of its payload. -/
def DecodedEntry.checkPayload (limits : Limits) (e : DecodedEntry) : Except Error Unit :=
  match e.operation with
  | .directory | .fileCopy => ensure (e.payload = []) .invalidPayload
  | .symlink => ensure (e.payload.length ≤ limits.maxSymlinkBytes.toNat) .limitExceeded
  | .fileHardlink =>
    ensure (e.metadata.metadata.hardlinkTo = some e.payload) (.snapshot .invalidHardlinkRelation)
  | .fileRaw | .fileDelta => .ok ()

def DecodedEntry.check (limits : Limits) (mask : Omit) (e : DecodedEntry) : Except Error Unit := do
  ensure (hasOmitted e.metadata.metadata mask = false) .omittedMetadataPresent
  e.checkPayload limits
  ensure (e.metadata.metadata.hardlinkTo = none ∨ e.operation = .fileHardlink)
    (.snapshot .invalidHardlinkRelation)

def readEntry (limits : Limits) (mask : Omit) : Reader Error DecodedEntry :=
  Reader.checked (readFields limits) (DecodedEntry.check limits mask)

def checkRoot (mask : Omit) (root : CanonicalMetadata) : Except Error Unit := do
  ensure (hasOmitted root.metadata mask = false) .omittedMetadataPresent
  ensure (root.metadata.isEmpty = false) (.metadata .badMetadata)
  ensure (root.metadata.holes = []) (.snapshot .invalidSparseExtent)
  ensure (root.metadata.hardlinkTo = none) (.snapshot .invalidHardlinkRelation)

def readRoot (limits : Limits) (header : Header) : Reader Error CanonicalMetadata :=
  if header.rootMetadata then Reader.checked (readRecord limits) (checkRoot header.mask)
  else pure CanonicalMetadata.default

/-- The rules must compile; an empty list is not even tried. -/
def checkRules (rules : List Rule) : Except Error Unit :=
  if rules = [] then .ok () else (Filter.compile rules).mapError .filter >>= fun _ => .ok ()

def readBody (limits : Limits) (header : Header) : Reader Error ParsedPatch := do
  let rules ← Reader.checked (Reader.replicate header.ruleCount.toNat (readRule limits)) checkRules
  let entries ← Reader.replicate header.entryCount.toNat (readEntry limits header.mask)
  let root ← readRoot limits header
  pure ⟨header, rules, entries, root⟩

def ParsedPatch.decode (blake3 : List UInt8 → Digest) (bytes : List UInt8) (limits : Limits) :
    Except Error ParsedPatch := do
  let (header, body) ← Header.decodePrefix blake3 bytes limits.envelope
  let (patch, reader) ← readBody limits header (Wire.Cursor.start body)
  ensure (reader.offset = body.length) .trailingData
  (Directory.validate patch.entries).mapError .snapshot
  .ok patch

/-! ### The layout -/

def ruleWire (r : Rule) : List UInt8 :=
  [actionTag r.action] ++ (toLeBytes (0 : UInt8) ++ (toLeBytes (0 : UInt16)
    ++ (toLeBytes (UInt32.ofNat (utf8 r.pattern).length) ++ utf8 r.pattern)))

def recordWire (m : CanonicalMetadata) : List UInt8 :=
  toLeBytes (UInt32.ofNat m.metadata.wire.length) ++ m.metadata.wire

def DecodedEntry.wire (e : DecodedEntry) : List UInt8 :=
  [e.operation.tag] ++ (toLeBytes (0 : UInt8) ++ (toLeBytes e.mode
    ++ (toLeBytes (UInt32.ofNat e.path.length) ++ (toLeBytes (UInt64.ofNat e.payload.length)
    ++ (e.path ++ (e.payload ++ recordWire e.metadata))))))

/-- The root record, present when the header says so. -/
def rootWire (header : Header) (root : CanonicalMetadata) : List UInt8 :=
  if header.rootMetadata then recordWire root else []

/-- The body of a patch as the format lays it out. -/
def ParsedPatch.body (p : ParsedPatch) : List UInt8 :=
  p.rules.flatMap ruleWire ++ (p.entries.flatMap DecodedEntry.wire ++ rootWire p.header p.root)

/-- The body sealed with its header. -/
def ParsedPatch.layout (blake3 : List UInt8 → Digest) (p : ParsedPatch) : List UInt8 :=
  p.header.encode blake3 p.body ++ p.body

/-! ### Well-formed patches -/

/-- Lengths of a rule within the limits. -/
def RuleFits (limits : Limits) (r : Rule) : Prop :=
  r.pattern ≠ "" ∧ (utf8 r.pattern).length ≤ limits.maxPatternBytes.toNat

/-- Length of a record within the limits. -/
def RecordFits (limits : Limits) (m : CanonicalMetadata) : Prop :=
  m.metadata.wire.length < 2 ^ 32 ∧ m.metadata.wire.length ≤ limits.maxPayloadBytes.toNat

/-- Lengths of an entry within the limits. -/
structure DecodedEntry.Fits (limits : Limits) (e : DecodedEntry) : Prop where
  path : e.path ≠ []
  pathLength : e.path.length ≤ limits.maxPathBytes.toNat
  payloadLength : e.payload.length ≤ limits.maxPayloadBytes.toNat
  linkLength : e.operation = .symlink → e.payload.length ≤ limits.maxSymlinkBytes.toNat
  metadata : RecordFits limits e.metadata

/-- Operation, payload and reference agree. -/
structure DecodedEntry.Consistent (e : DecodedEntry) : Prop where
  empty : e.operation = .directory ∨ e.operation = .fileCopy → e.payload = []
  hardlink : e.operation = .fileHardlink → e.metadata.metadata.hardlinkTo = some e.payload
  noHardlink : e.operation ≠ .fileHardlink → e.metadata.metadata.hardlinkTo = none

/-- The root record of a patch: nonempty and without holes or a reference when the flag is set,
the empty record otherwise. -/
structure RootOk (limits : Limits) (header : Header) (root : CanonicalMetadata) : Prop where
  present : header.rootMetadata = !root.metadata.isEmpty
  holes : root.metadata.holes = []
  hardlink : root.metadata.hardlinkTo = none
  retained : hasOmitted root.metadata header.mask = false
  fits : header.rootMetadata = true → RecordFits limits root

/-- The patches the format can express, within the limits. -/
structure ParsedPatch.WellFormed (limits : Limits) (p : ParsedPatch) : Prop where
  reader : p.header.neededReader ≤ version
  ruleCount : p.rules.length = p.header.ruleCount.toNat
  entryCount : p.entries.length = p.header.entryCount.toNat
  maxRules : p.header.ruleCount ≤ limits.envelope.maxRules
  maxEntries : p.header.entryCount ≤ limits.envelope.maxEntries
  maxBytes : headerLen + p.body.length ≤ limits.envelope.maxPatchBytes.toNat
  rules : ∀ r ∈ p.rules, RuleFits limits r
  filter : ∃ f, Filter.compile p.rules = .ok f
  entries : ∀ e ∈ p.entries, e.Fits limits ∧ e.Consistent
  retained : ∀ e ∈ p.entries, hasOmitted e.metadata.metadata p.header.mask = false
  structure_ : Directory.validate p.entries = .ok ()
  root : RootOk limits p.header p.root

/-! ### The readers are exact -/

lemma length_eq_ok {n limit m : Nat} : length n limit = .ok m ↔ m ≤ limit ∧ n = m := by
  rw [length, ite_error_eq_ok, Except.ok.injEq, not_lt]
  constructor
  · intro hx
    obtain ⟨h, rfl⟩ := hx
    exact ⟨h, rfl⟩
  · intro hx
    obtain ⟨h, rfl⟩ := hx
    exact ⟨h, rfl⟩

lemma exact_length32 (limit : Nat) : Exact (length32 limit)
    (fun n => toLeBytes (UInt32.ofNat n)) (fun n => n < 2 ^ 32 ∧ n ≤ limit) := by
  refine ((Exact.word _ UInt32).filterMap (Q := fun n => n < 2 ^ 32 ∧ n ≤ limit) UInt32.ofNat
    fun a n => ?_).congr (fun n => by simp) (fun _ _ => rfl)
  rw [length_eq_ok]
  constructor
  · intro hx
    obtain ⟨h, rfl⟩ := hx
    exact ⟨⟨a.toNat_lt, h⟩, UInt32.ofNat_toNat.symm⟩
  · intro hx
    obtain ⟨⟨hlt, h⟩, rfl⟩ := hx
    exact ⟨h, UInt32.toNat_ofNat_of_lt' hlt⟩

lemma exact_length64 (limit : Nat) : Exact (length64 limit)
    (fun n => toLeBytes (UInt64.ofNat n)) (fun n => n < 2 ^ 64 ∧ n ≤ limit) := by
  refine ((Exact.word _ UInt64).filterMap (Q := fun n => n < 2 ^ 64 ∧ n ≤ limit) UInt64.ofNat
    fun a n => ?_).congr (fun n => by simp) (fun _ _ => rfl)
  rw [length_eq_ok]
  constructor
  · intro hx
    obtain ⟨h, rfl⟩ := hx
    exact ⟨⟨a.toNat_lt, h⟩, UInt64.ofNat_toNat.symm⟩
  · intro hx
    obtain ⟨⟨hlt, h⟩, rfl⟩ := hx
    exact ⟨h, UInt64.toNat_ofNat_of_lt' hlt⟩

lemma exact_action : Exact readAction (fun a => [actionTag a]) (fun _ => True ∧ True) := by
  refine (Exact.byte _).filterMap actionTag fun b a => ?_
  constructor
  · intro h
    split at h <;> first | (obtain rfl := Except.ok.inj h; exact ⟨trivial, rfl⟩) | simp at h
  · intro hx
    obtain ⟨-, rfl⟩ := hx
    cases a <;> rfl

lemma utf8_eq_nil_iff {s : String} : utf8 s = [] ↔ s = "" := by
  have hempty : utf8 "" = [] := rfl
  rw [← hempty, utf8_injective.eq_iff]

lemma exact_rule (limits : Limits) : Exact (readRule limits) ruleWire (RuleFits limits) := by
  refine (Exact.bind (I := fun _ => True) Rule.action exact_action fun a _ =>
    Exact.skip_bind (Exact.expect _ _ _) <|
    Exact.skip_bind (Exact.expect _ _ _) <|
    Exact.bind (fun r : Rule => (utf8 r.pattern).length) (exact_length32 _) fun n _ =>
    Exact.check_bind (p := fun r : Rule => r.pattern ≠ "") (fun r hr => ?_) fun _ =>
    Exact.take_bind (fun r => utf8 r.pattern) (fun r hr => ?_) fun w hw =>
    Exact.convert_bind Rule.pattern (fun r hr p => ?_) fun p hp =>
    Exact.pure (Rule.mk a p) fun r => ?_).congr (fun r => ?_) (fun r _ => ?_)
  · rw [← hr.2, ne_eq, ne_eq, List.length_eq_zero_iff, utf8_eq_nil_iff]
  · exact hr.2
  · rw [← hr.2, fromUtf8_eq_some_iff.mpr rfl, Except.ok.injEq]
  · cases hu : fromUtf8 w with
    | none => simp [hu] at hp
    | some p' =>
      simp only [hu, Except.ok.injEq] at hp
      obtain rfl := hp
      obtain rfl := fromUtf8_eq_some_iff.mp hu
      cases r
      constructor
      · intro h
        obtain ⟨⟨⟨⟨-, ha⟩, -⟩, -⟩, hp⟩ := h
        rw [← ha, ← hp]
      · intro h
        obtain ⟨⟩ := h
        exact ⟨⟨⟨⟨trivial, rfl⟩, hw⟩, rfl⟩, rfl⟩
  · have := limits.maxPatternBytes.toNat_lt
    constructor
    · intro h
      obtain ⟨hne, hle⟩ := h
      exact ⟨trivial, ⟨trivial, trivial⟩, ⟨hle.trans_lt this, hle⟩, hne, trivial⟩
    · intro h
      obtain ⟨-, -, ⟨-, hle⟩, hne, -⟩ := h
      exact ⟨hne, hle⟩
  · simp [ruleWire]

lemma exact_record (limits : Limits) : Exact (readRecord limits) recordWire (RecordFits limits) := by
  refine (Exact.bind (I := fun _ => True) (fun m : CanonicalMetadata => m.metadata.wire.length)
    (exact_length32 _) (Q := fun _ => True) fun n _ => ?_).congr (fun m => ?_) (fun _ _ => rfl)
  · refine ((Exact.take _ n).filterMap (Q := fun _ => True) (fun m => m.metadata.wire)
      fun w m => ?_).congr (fun m => ?_) (fun _ _ => rfl)
    · rw [mapError_eq_ok, CanonicalMetadata.decode_eq_ok, true_and]
    · simp
  · simp [RecordFits]

lemma exact_fields (limits : Limits) : Exact (readFields limits) DecodedEntry.wire
    (fun e => (e.path ≠ [] ∧ e.path.length ≤ limits.maxPathBytes.toNat) ∧
      e.payload.length ≤ limits.maxPayloadBytes.toNat ∧ RecordFits limits e.metadata) := by
  have hop : Exact (do Reader.lift (Operation.tryFrom (← byte)))
      (fun op : Operation => [op.tag]) (fun _ => True ∧ True) :=
    (Exact.byte _).filterMap Operation.tag fun a op => by simp [Operation.tryFrom_eq_ok]
  refine (Exact.bind (I := fun _ => True) DecodedEntry.operation hop fun op _ =>
    Exact.skip_bind (Exact.expect _ _ _) <|
    Exact.bind DecodedEntry.mode (Exact.word _ UInt16) fun mode _ =>
    Exact.bind (fun e : DecodedEntry => e.path.length) (exact_length32 _) fun n _ =>
    Exact.check_bind (p := fun e : DecodedEntry => e.path ≠ []) (fun e he => ?_) fun _ =>
    Exact.bind (fun e : DecodedEntry => e.payload.length) (exact_length64 _) fun k _ =>
    Exact.take_bind DecodedEntry.path (fun e he => ?_) fun path hpath =>
    Exact.take_bind DecodedEntry.payload (fun e he => ?_) fun payload hpayload =>
    Exact.bind DecodedEntry.metadata (exact_record limits) fun m _ =>
    Exact.pure (DecodedEntry.mk path mode op payload m) fun e => ?_).congr (fun e => ?_)
    (fun e _ => ?_)
  · rw [← he.2, ne_eq, ne_eq, List.length_eq_zero_iff]
  · exact he.1.2
  · exact he.1.2
  · cases e
    constructor
    · intro h
      obtain ⟨⟨⟨⟨⟨⟨⟨-, h₁⟩, h₂⟩, -⟩, -⟩, h₃⟩, h₄⟩, h₅⟩ := h
      rw [← h₁, ← h₂, ← h₃, ← h₄, ← h₅]
    · intro h
      obtain ⟨⟩ := h
      exact ⟨⟨⟨⟨⟨⟨⟨trivial, rfl⟩, rfl⟩, hpath⟩, hpayload⟩, rfl⟩, rfl⟩, rfl⟩
  · have hp := limits.maxPathBytes.toNat_lt
    have hd := limits.maxPayloadBytes.toNat_lt
    constructor
    · intro h
      obtain ⟨⟨hne, hle⟩, hlen, hm⟩ := h
      exact ⟨trivial, ⟨trivial, trivial⟩, trivial, ⟨hle.trans_lt hp, hle⟩, hne,
        ⟨hlen.trans_lt hd, hlen⟩, hm, trivial⟩
    · intro h
      obtain ⟨-, -, -, ⟨-, hle⟩, hne, ⟨-, hlen⟩, hm, -⟩ := h
      exact ⟨⟨hne, hle⟩, hlen, hm⟩
  · simp [DecodedEntry.wire]

lemma DecodedEntry.check_eq_ok {limits : Limits} {mask : Omit} {e : DecodedEntry} :
    e.check limits mask = .ok () ↔ hasOmitted e.metadata.metadata mask = false ∧ e.Consistent ∧
      (e.operation = .symlink → e.payload.length ≤ limits.maxSymlinkBytes.toNat) := by
  obtain ⟨path, mode, operation, payload, metadata⟩ := e
  simp only [DecodedEntry.check, seq_eq_ok, ensure_eq_ok, DecodedEntry.checkPayload]
  constructor
  · intro h
    obtain ⟨ho, hp, hl⟩ := h
    refine ⟨ho, ⟨?_, ?_, fun hne => hl.resolve_right hne⟩, ?_⟩
    · rintro (rfl | rfl) <;> exact ensure_eq_ok.mp hp
    · rintro rfl
      exact ensure_eq_ok.mp hp
    · rintro rfl
      exact ensure_eq_ok.mp hp
  · intro h
    obtain ⟨ho, ⟨he, hl, hn⟩, hs⟩ := h
    refine ⟨ho, ?_, (em _).symm.imp_left hn⟩
    cases operation with
    | directory => exact ensure_eq_ok.mpr (he (Or.inl rfl))
    | symlink => exact ensure_eq_ok.mpr (hs rfl)
    | fileCopy => exact ensure_eq_ok.mpr (he (Or.inr rfl))
    | fileRaw => rfl
    | fileDelta => rfl
    | fileHardlink => exact ensure_eq_ok.mpr (hl rfl)

lemma exact_entry (limits : Limits) (mask : Omit) : Exact (readEntry limits mask)
    DecodedEntry.wire (fun e => (e.Fits limits ∧ e.Consistent) ∧
      hasOmitted e.metadata.metadata mask = false) := by
  refine (exact_fields limits).checked.congr (fun e => ?_) (fun _ _ => rfl)
  rw [DecodedEntry.check_eq_ok]
  constructor
  · intro h
    obtain ⟨⟨⟨h₁, h₂, h₃, h₄, h₅⟩, hc⟩, ho⟩ := h
    exact ⟨⟨⟨h₁, h₂⟩, h₃, h₅⟩, ho, hc, h₄⟩
  · intro h
    obtain ⟨⟨⟨h₁, h₂⟩, h₃, h₅⟩, ho, hc, h₄⟩ := h
    exact ⟨⟨⟨h₁, h₂, h₃, h₄, h₅⟩, hc⟩, ho⟩

lemma hasOmitted_eq_false_iff {m : Metadata} {mask : Omit} : hasOmitted m mask = false ↔
    ∀ family, mask.contains family = true → hasFamily m family = false := by
  simp [hasOmitted, Family.mem_all]

/-- Nothing of an omitted family is retained. -/
lemma hasOmitted_retain (m : Metadata) (mask : Omit) : hasOmitted (m.retain mask) mask = false := by
  rw [hasOmitted_eq_false_iff]
  intro family hf
  rw [retain_eq]
  cases family <;> simp [hasFamily, hf, Times.default]

/-- The empty record has nothing to omit. -/
lemma hasOmitted_default (mask : Omit) : hasOmitted Metadata.default mask = false := by
  rw [hasOmitted_eq_false_iff]
  intro family _
  cases family <;> rfl

lemma exact_root (limits : Limits) (header : Header) : Exact (readRoot limits header)
    (rootWire header) (RootOk limits header) := by
  rw [readRoot]
  split_ifs with hroot
  · refine (exact_record limits).checked.congr (fun m => ?_) (fun m _ => by simp [rootWire, hroot])
    simp only [checkRoot, seq_eq_ok, ensure_eq_ok]
    constructor
    · intro hx
      obtain ⟨h₁, h₂, h₃, h₄, h₅⟩ := hx
      rw [hroot] at h₁
      exact ⟨h₅ hroot, h₄, by simpa using h₁.symm, h₂, h₃⟩
    · intro hx
      obtain ⟨h₅, h₄, h₁, h₂, h₃⟩ := hx
      exact ⟨by simp [hroot, h₁], h₂, h₃, h₄, fun _ => h₅⟩
  · rw [Bool.not_eq_true] at hroot
    refine (Exact.pure CanonicalMetadata.default fun m => Iff.rfl).congr (fun m => ?_)
      (fun m _ => by simp [rootWire, hroot])
    constructor
    · intro hx
      obtain ⟨h, -⟩ := hx
      rw [hroot] at h
      have : m.metadata.isEmpty = true := by simpa using h.symm
      rw [Metadata.isEmpty_iff] at this
      exact ⟨CanonicalMetadata.ext_metadata this, trivial⟩
    · intro hx
      obtain ⟨rfl, -⟩ := hx
      exact ⟨hroot, rfl, rfl, hasOmitted_default _, fun h => absurd h (by simp [hroot])⟩

lemma checkRules_eq_ok {rules : List Rule} :
    checkRules rules = .ok () ↔ ∃ f, Filter.compile rules = .ok f := by
  rw [checkRules]
  split_ifs with h
  · subst h
    exact iff_of_true rfl ⟨_, rfl⟩
  · simp [Wire.bind_eq_ok, mapError_eq_ok]

/-- What the reader of the body accepts, for the header in front of it. -/
def BodyOk (limits : Limits) (header : Header) (p : ParsedPatch) : Prop :=
  p.header = header ∧
  ((p.rules.length = header.ruleCount.toNat ∧ ∀ r ∈ p.rules, RuleFits limits r) ∧
    ∃ f, Filter.compile p.rules = .ok f) ∧
  (p.entries.length = header.entryCount.toNat ∧ ∀ e ∈ p.entries,
    (e.Fits limits ∧ e.Consistent) ∧ hasOmitted e.metadata.metadata header.mask = false) ∧
  RootOk limits header p.root

lemma exact_body (limits : Limits) (header : Header) : Exact (readBody limits header)
    ParsedPatch.body (BodyOk limits header) := by
  refine (Exact.bind (I := fun p => p.header = header) ParsedPatch.rules
      ((exact_rule limits).replicate _).checked fun rules _ =>
    Exact.bind ParsedPatch.entries ((exact_entry limits header.mask).replicate _) fun entries _ =>
    Exact.bind ParsedPatch.root (exact_root limits header) fun root _ =>
    Exact.pure (ParsedPatch.mk header rules entries root) fun p => ?_).congr (fun p => ?_)
    (fun p hp => ?_)
  · cases p
    simp [and_assoc]
  · simp only [BodyOk, checkRules_eq_ok, and_true]
  · simp [ParsedPatch.body, hp.1]

/-! ### The decoder -/

lemma length_ruleWire {limits : Limits} {r : Rule} (h : RuleFits limits r) :
    9 ≤ (ruleWire r).length := by
  have : (utf8 r.pattern).length ≠ 0 := by
    rw [ne_eq, List.length_eq_zero_iff, utf8_eq_nil_iff]
    exact h.1
  simp [ruleWire]
  omega

lemma length_entryWire {limits : Limits} {e : DecodedEntry} (h : e.Fits limits) :
    41 ≤ e.wire.length := by
  have hpath : e.path.length ≠ 0 := by
    rw [ne_eq, List.length_eq_zero_iff]
    exact h.path
  have hmeta := e.metadata.metadata.length_wire_ge
  simp [DecodedEntry.wire, recordWire]
  omega

/-- The minimum sizes checked in advance exclude no well-formed patch. -/
lemma ParsedPatch.WellFormed.admissible {limits : Limits} {p : ParsedPatch}
    (h : p.WellFormed limits) : p.header.Admissible limits.envelope p.body := by
  have hrules : p.rules.length * 9 ≤ (p.rules.flatMap ruleWire).length :=
    mul_le_length_flatMap fun r hr => length_ruleWire (h.rules r hr)
  have hentries : p.entries.length * 41 ≤ (p.entries.flatMap DecodedEntry.wire).length :=
    mul_le_length_flatMap fun e he => length_entryWire (h.entries e he).1
  have hbody : p.body.length = (p.rules.flatMap ruleWire).length
      + ((p.entries.flatMap DecodedEntry.wire).length + (rootWire p.header p.root).length) := by
    simp [ParsedPatch.body]
  rw [h.ruleCount] at hrules
  rw [h.entryCount] at hentries
  refine ⟨h.maxBytes, h.reader, h.maxRules, h.maxEntries, ?_, ?_⟩
  · rw [Nat.le_div_iff_mul_le (by norm_num)]
    omega
  · rw [Nat.le_div_iff_mul_le (by norm_num)]
    omega

lemma ParsedPatch.wellFormed_iff {limits : Limits} {p : ParsedPatch} :
    p.WellFormed limits ↔ p.header.Admissible limits.envelope p.body ∧
      BodyOk limits p.header p ∧ Directory.validate p.entries = .ok () := by
  constructor
  · intro h
    exact ⟨h.admissible, ⟨rfl, ⟨⟨h.ruleCount, h.rules⟩, h.filter⟩,
      ⟨h.entryCount, fun e he => ⟨h.entries e he, h.retained e he⟩⟩, h.root⟩, h.structure_⟩
  · intro hx
    obtain ⟨ha, ⟨-, ⟨⟨hrc, hr⟩, hf⟩, ⟨hec, he⟩, hroot⟩, hs⟩ := hx
    exact ⟨ha.reader, hrc, hec, ha.rules, ha.entries, ha.length, hr, hf, fun e h => (he e h).1,
      fun e h => (he e h).2, hs, hroot⟩

/-- The decoder accepts exactly the sealed layouts of well-formed patches. -/
theorem ParsedPatch.decode_eq_ok {blake3 : List UInt8 → Digest} {bytes : List UInt8}
    {limits : Limits} {p : ParsedPatch} :
    decode blake3 bytes limits = .ok p ↔ bytes = p.layout blake3 ∧ p.WellFormed limits := by
  simp only [decode, Wire.bind_eq_ok, Prod.exists, Header.decodePrefix_eq_ok, ensure_eq_ok,
    mapError_eq_ok, exists_const, Except.ok.injEq, exact_body _ _ _ _ _, wellFormed_iff]
  constructor
  · intro hx
    obtain ⟨h, body, ⟨rfl, ha⟩, q, c, ⟨hq, hs⟩, hend, ⟨⟩, hv, rfl⟩ := hx
    have hrest : c.rest = [] := by rw [c.rest_eq_nil_iff, hend, hs.1]; rfl
    obtain ⟨-, rfl⟩ := (Step.start_iff hrest).mp hs
    obtain rfl := hq.1
    exact ⟨rfl, ha, hq, hv⟩
  · intro hx
    obtain ⟨rfl, ha, hq, hv⟩ := hx
    obtain ⟨c, hs, hrest⟩ := Step.exists_start p.body []
    rw [List.append_nil] at hs
    have hend : c.offset = p.body.length := by
      rw [(c.rest_eq_nil_iff).mp hrest, hs.1]
      rfl
    exact ⟨p.header, p.body, ⟨rfl, ha⟩, p, c, ⟨hq, hs⟩, hend, (), hv, rfl⟩

/-- The decoder accepts exactly its grammar, one byte string per value. Accepted strings with one
value are equal, under whatever limits, and start with the encoded header of what follows.
Conversely every well-formed patch, laid out and sealed, decodes to itself. -/
theorem decode_accepts_grammar (blake3 : List UInt8 → Digest) :
    (∀ (a b : List UInt8) (la lb : Limits) (p : ParsedPatch),
      ParsedPatch.decode blake3 a la = .ok p → ParsedPatch.decode blake3 b lb = .ok p → a = b) ∧
    (∀ (bytes : List UInt8) (limits : Limits) (p : ParsedPatch),
      ParsedPatch.decode blake3 bytes limits = .ok p →
      p.header.encode blake3 (bytes.drop headerLen) = bytes.take headerLen) ∧
    (∀ (p : ParsedPatch) (limits : Limits), p.WellFormed limits →
      ParsedPatch.decode blake3 (p.layout blake3) limits = .ok p) ∧
    (∀ (bytes : List UInt8) (limits : Limits) (p : ParsedPatch),
      ParsedPatch.decode blake3 bytes limits = .ok p → p.WellFormed limits) := by
  refine ⟨fun a b la lb p ha hb => ?_, fun bytes limits p h => ?_, fun p limits h => ?_,
    fun bytes limits p h => (ParsedPatch.decode_eq_ok.mp h).2⟩
  · rw [(ParsedPatch.decode_eq_ok.mp ha).1, (ParsedPatch.decode_eq_ok.mp hb).1]
  · obtain ⟨rfl, -⟩ := ParsedPatch.decode_eq_ok.mp h
    have hsize := Header.length_encode blake3 p.header p.body
    rw [ParsedPatch.layout, List.take_left' hsize, List.drop_left' hsize]
  · exact ParsedPatch.decode_eq_ok.mpr ⟨rfl, h⟩

end TreePatch

end Difz
