import Difz.File.RoundTrip
import Difz.Tree.Decode
import Difz.Zig.Language
import Difz.Zig.Record
import Difz.Zig.Snapshot

/-!
# The patch decoder of the native program

`decodePatch` (`src/directory_patch.zig`) reads header and body through one cursor over the whole
patch, checks each rule and entry as it reads it and builds the view of the target entries on the
way. The Rust decoder takes the header apart by offsets and works on the body alone. Both are the
same function, `decodePatch_eq`.
-/

namespace Difz

open Wire

namespace Zig

open TreePatch (Operation)

/-! ### Options and limits -/

structure Omit where
  xattr : Bool
  acl : Bool
  timestamps : Bool
  finder : Bool
  sparse : Bool
  hardlink : Bool
  deriving DecidableEq, Repr

def Omit.bits (omit_ : Omit) : UInt32 :=
  omit_.xattr.toUInt32 ||| omit_.acl.toUInt32 <<< 1 ||| omit_.timestamps.toUInt32 <<< 2
    ||| omit_.finder.toUInt32 <<< 3 ||| omit_.sparse.toUInt32 <<< 4 ||| omit_.hardlink.toUInt32 <<< 5

def Omit.fromBits (value : UInt32) : Except Error Omit :=
  if value &&& ~~~0x3f ≠ 0 then .error .invalidOmitMask
  else .ok ⟨value &&& 1 != 0, value &&& 2 != 0, value &&& 4 != 0, value &&& 8 != 0,
    value &&& 16 != 0, value &&& 32 != 0⟩

structure Limits where
  maxPatchBytes : Nat
  maxEntries : Nat
  maxRules : Nat
  maxPathBytes : Nat
  maxPatternBytes : Nat
  maxSymlinkBytes : Nat
  maxPayloadBytes : Nat
  maxOutputBytes : Nat

structure EncodedEntry where
  operation : Operation
  mode : UInt16
  path : List UInt8
  payload : List UInt8
  meta_ : Metadata
  deriving DecidableEq

structure DecodedPatch where
  rules : List Rule
  entries : List EncodedEntry
  sourceHash : Digest
  targetHash : Digest
  targetRoot : Metadata
  omit_ : Omit
  deriving DecidableEq

def hasOmittedMetadata (m : Metadata) (omit_ : Omit) : Bool :=
  (omit_.xattr && m.xattrs.length != 0)
    || (omit_.acl && (m.aces.length != 0 || m.nativeAcl.isSome))
    || (omit_.timestamps && (m.times.mtime.isSome || m.times.atime.isSome || m.times.btime.isSome))
    || (omit_.finder && (m.finderFlags != 0 || m.finderInfo.isSome))
    || (omit_.sparse && m.holes.length != 0)
    || (omit_.hardlink && m.hardlinkTo.isSome)

/-! ### Reading -/

namespace PatchReader

def take (length : Nat) : Reader Error (List UInt8) := Reader.take .unexpectedEndOfInput length

def readInt (α : Type) [Word α] : Reader Error α := Reader.word .unexpectedEndOfInput α

end PatchReader

open PatchReader

def countToUsize (value limit : Nat) : Except Error Nat :=
  if value > limit then .error .limitExceeded else .ok value

/-- `countToUsize(try reader.readInt(u32), limit)`. -/
def readCount (limit : Nat) : Reader Error Nat := do
  let value ← readInt UInt32
  Reader.lift (countToUsize value.toNat limit)

def actionFromInt : UInt8 → Option PathFilter.Action
  | 1 => some .include_
  | 2 => some .exclude
  | _ => none

def operationFromInt : UInt8 → Option Operation
  | 1 => some .directory
  | 2 => some .symlink
  | 3 => some .fileCopy
  | 4 => some .fileRaw
  | 5 => some .fileDelta
  | 6 => some .fileHardlink
  | _ => none

/-- The header fields as they are read behind the magic. -/
structure Head where
  headerFlags : UInt32
  omit_ : Omit
  ruleCount : Nat
  entryCount : Nat
  sourceHash : Digest
  targetHash : Digest
  deriving DecidableEq

def formatVersion : UInt16 := 2

def readHead (patchVersion : UInt16) (limits : Limits) : Reader Error Head := do
  let again ← readInt UInt16
  Reader.guard .unsupportedVersion (again = patchVersion)
  let neededReader ← readInt UInt16
  Reader.guard .readerTooOld (neededReader ≤ formatVersion)
  let headerFlags ← readInt UInt32
  Reader.guard .unsupportedFlags (headerFlags &&& ~~~0x7f = 0)
  let omit_ ← Reader.lift (Omit.fromBits (headerFlags >>> 1))
  let ruleCount ← readCount limits.maxRules
  let entryCount ← readCount limits.maxEntries
  let sourceHash ← Reader.array .unexpectedEndOfInput 32
  let targetHash ← Reader.array .unexpectedEndOfInput 32
  let _ ← take 32
  pure ⟨headerFlags, omit_, ruleCount, entryCount, sourceHash, targetHash⟩

def readRule (limits : Limits) : Reader Error Rule := do
  let actionRaw ← readInt UInt8
  let action ← Reader.lift (orReturn (actionFromInt actionRaw) .invalidRule)
  -- the second read happens only behind a zero byte
  let flags ← readInt UInt8
  Reader.guard .invalidRule (flags = 0)
  let reserved ← readInt UInt16
  Reader.guard .invalidRule (reserved = 0)
  let patternLength ← readCount limits.maxPatternBytes
  Reader.guard .invalidRule (patternLength ≠ 0)
  let pattern ← take patternLength
  Reader.guard .invalidUtf8 (isUtf8 pattern = true)
  pure ⟨action, pattern⟩

def readMeta (limits : Limits) : Reader Error Metadata := do
  let metaLength ← readCount limits.maxPayloadBytes
  let metaBytes ← take metaLength
  Reader.lift ((decodeCanonical metaBytes).mapError Metadata.Error.name)

/-- The kind an operation produces, once its payload passes. -/
def entryKind (limits : Limits) (operation : Operation) (payload : List UInt8) (m : Metadata) :
    Except Error Directory.Kind :=
  match operation with
  | .directory => if payload.length ≠ 0 then .error .invalidPayload else .ok .directory
  | .symlink =>
    if payload.length > limits.maxSymlinkBytes then .error .limitExceeded else .ok .symlink
  | .fileCopy => if payload.length ≠ 0 then .error .invalidPayload else .ok .file
  | .fileHardlink =>
    match m.hardlinkTo with
    | none => .error .invalidHardlinkRelation
    | some canonicalPath =>
      if payload ≠ canonicalPath then .error .invalidHardlinkRelation else .ok .file
  | .fileRaw | .fileDelta => .ok .file

/-- An entry of the patch and its place in the view of the target. -/
def readEntry (limits : Limits) (omit_ : Omit) : Reader Error (EncodedEntry × Entry) := do
  let operationRaw ← readInt UInt8
  let operation ← Reader.lift (orReturn (operationFromInt operationRaw) .invalidOperation)
  let flags ← readInt UInt8
  Reader.guard .unsupportedFlags (flags = 0)
  let mode ← readInt UInt16
  let pathLength ← readCount limits.maxPathBytes
  Reader.guard .invalidPath (pathLength ≠ 0)
  let payloadLength ← readInt UInt64
  Reader.guard .limitExceeded (payloadLength.toNat ≤ limits.maxPayloadBytes)
  let path ← take pathLength
  let payload ← take payloadLength.toNat
  let m ← readMeta limits
  Reader.guard .omittedMetadataPresent (hasOmittedMetadata m omit_ = false)
  let kind ← Reader.lift (entryKind limits operation payload m)
  Reader.guard .invalidHardlinkRelation (m.hardlinkTo = none ∨ operation = .fileHardlink)
  let data := if kind = .directory then [] else payload
  pure (⟨operation, mode, path, payload, m⟩, ⟨path, kind, mode, data, m⟩)

/-- The record of the root, when its flag is set. -/
def readTargetRoot (limits : Limits) (headerFlags : UInt32) (omit_ : Omit) :
    Reader Error Metadata :=
  if headerFlags &&& 1 ≠ 0 then do
    let targetRoot ← readMeta limits
    Reader.guard .omittedMetadataPresent (hasOmittedMetadata targetRoot omit_ = false)
    Reader.guard .badMetadata (targetRoot.isEmpty = false)
    Reader.lift ((validateRootMetadata targetRoot).mapError Directory.Error.name)
    pure targetRoot
  else pure Metadata.default

/-- The rules are compiled as soon as they are read. -/
def compileRules (pcre2 : Pcre2) (rules : List Rule) : Except Error Unit :=
  if rules.length > 0 then Filter.compile pcre2 rules >>= fun _ => .ok () else .ok ()

variable (pcre2 : Pcre2) (blake3 : List UInt8 → Digest)

/-- The body behind the header, with the view of the target entries. -/
def readPatch (limits : Limits) (head : Head) : Reader Error (DecodedPatch × List Entry) := do
  let rules ← Reader.replicate head.ruleCount (readRule limits)
  Reader.lift (compileRules pcre2 rules)
  let both ← Reader.replicate head.entryCount (readEntry limits head.omit_)
  let targetRoot ← readTargetRoot limits head.headerFlags head.omit_
  pure (⟨rules, both.map (·.1), head.sourceHash, head.targetHash, targetRoot, head.omit_⟩,
    both.map (·.2))

/-- A cursor inside `bytes`. -/
def readerAt (bytes : List UInt8) (position : Nat) : Wire.Cursor :=
  ⟨bytes, min position bytes.length, Nat.min_le_right _ _⟩

/-- The checks up to the body. -/
def decodeHead (bytes : List UInt8) (limits : Limits) : Except Error (Head × Wire.Cursor) := do
  ensure (bytes.length ≤ limits.maxPatchBytes) .limitExceeded
  ensure (120 ≤ bytes.length) .unexpectedEndOfInput
  ensure (field bytes 0 8 = utf8 "DIFZTREE") .invalidMagic
  let patchVersion : UInt16 := fromLeBytes (field bytes 8 10)
  ensure (patchVersion = formatVersion) .unsupportedVersion
  let expectedChecksum := field bytes 88 120
  let actualChecksum :=
    blake3 (utf8 "DIFZTREE-PATCH\x02" ++ field bytes 0 88 ++ bytes.drop 120)
  ensure (actualChecksum.toList = expectedChecksum) .patchHashMismatch
  let (head, reader) ← readHead patchVersion limits (readerAt bytes 8)
  let bodyBytes := bytes.length - reader.offset
  ensure (head.ruleCount ≤ bodyBytes / 9) .unexpectedEndOfInput
  let afterRules := bodyBytes - head.ruleCount * 9
  ensure (head.entryCount ≤ afterRules / 41) .unexpectedEndOfInput
  .ok (head, reader)

def decodePatch (bytes : List UInt8) (limits : Limits) : Except Error DecodedPatch := do
  let (head, reader) ← decodeHead blake3 bytes limits
  let ((patch, snapshotView), reader) ← readPatch pcre2 limits head reader
  ensure (reader.offset = bytes.length) .trailingData
  (validateSnapshot snapshotView).mapError Directory.Error.name
  .ok patch

/-! ### What corresponds to what -/

def Omit.of (mask : Metadata.Omit) : Omit :=
  ⟨mask.contains .xattr, mask.contains .acl, mask.contains .timestamps, mask.contains .finder,
    mask.contains .sparse, mask.contains .hardlink⟩

/-- The limits of the other program, with the one limit of the native program that only an
application looks at. -/
def Limits.of (limits : TreePatch.Limits) (maxOutputBytes : Nat) : Limits :=
  { maxPatchBytes := limits.envelope.maxPatchBytes.toNat
    maxEntries := limits.envelope.maxEntries.toNat
    maxRules := limits.envelope.maxRules.toNat
    maxPathBytes := limits.maxPathBytes.toNat
    maxPatternBytes := limits.maxPatternBytes.toNat
    maxSymlinkBytes := limits.maxSymlinkBytes.toNat
    maxPayloadBytes := limits.maxPayloadBytes.toNat
    maxOutputBytes := maxOutputBytes }

def EncodedEntry.of (e : TreePatch.DecodedEntry) : EncodedEntry :=
  ⟨e.operation, e.mode, e.path, e.payload, e.metadata.metadata⟩

def Head.of (header : TreePatch.Header) : Head :=
  ⟨header.flags, Omit.of header.mask, header.ruleCount.toNat, header.entryCount.toNat,
    header.sourceHash, header.targetHash⟩

def DecodedPatch.of (p : TreePatch.ParsedPatch) : DecodedPatch :=
  ⟨p.rules.map Rule.of, p.entries.map EncodedEntry.of, p.header.sourceHash, p.header.targetHash,
    p.root.metadata, Omit.of p.header.mask⟩

lemma Omit.fromBits_agree (value : UInt32) :
    Agree Metadata.Error.name (fun mask omit_ => omit_ = Omit.of mask)
      (Metadata.Omit.fromBits value) (Omit.fromBits value) := by
  have hmask : Metadata.Family.mask = 0x3f := by decide
  rw [Metadata.Omit.fromBits, Omit.fromBits]
  by_cases h : value &&& ~~~0x3f = 0
  · rw [dif_pos (hmask ▸ h), if_neg (not_not.mpr h)]
    rfl
  · rw [dif_neg (hmask ▸ h), if_pos h]
    rfl

lemma hasOmittedMetadata_of (m : Metadata) (mask : Metadata.Omit) :
    hasOmittedMetadata m (Omit.of mask) = TreePatch.hasOmitted m mask := by
  have hlen : ∀ {α : Type} (xs : List α), (xs.length != 0) = !xs.isEmpty := by
    intro α xs
    cases xs <;> rfl
  simp only [hasOmittedMetadata, Omit.of, TreePatch.hasOmitted, Metadata.Family.all, List.any_cons,
    List.any_nil, TreePatch.hasFamily, hlen, Bool.or_false, Bool.or_assoc]

/-! ### The body -/

variable {limits : TreePatch.Limits} {maxOutputBytes : Nat}

lemma readCount_agree (limit : Nat) :
    Reader.Agree TreePatch.Error.name Eq (TreePatch.length32 limit) (readCount limit) := by
  refine (Reader.Agree.word rfl UInt32).bind fun n m hnm => Reader.Agree.lift ?_
  subst hnm
  exact Agree.ite Iff.rfl (fun _ => rfl) fun _ => rfl

lemma action_agree (b : UInt8) : Agree TreePatch.Error.name Eq
    (match b with
      | 1 => .ok .include_
      | 2 => .ok .exclude
      | _ => .error .invalidRule)
    (orReturn (actionFromInt b) .invalidRule) := by
  unfold actionFromInt
  split <;> rfl

lemma operation_agree (b : UInt8) : Agree TreePatch.Error.name Eq (Operation.tryFrom b)
    (orReturn (operationFromInt b) .invalidOperation) := by
  refine Agree.of_eq ?_
  obtain ⟨v⟩ := b
  revert v
  decide +kernel

lemma pattern_agree (bytes : List UInt8) :
    Agree TreePatch.Error.name (fun pattern _ => bytes = utf8 pattern)
      (match fromUtf8 bytes with
        | some pattern => .ok pattern
        | none => .error (.snapshot .invalidUtf8))
      (ensure (isUtf8 bytes = true) .invalidUtf8) := by
  cases h : fromUtf8 bytes with
  | some pattern =>
    have hbytes := fromUtf8_eq_some_iff.mp h
    rw [ensure, if_pos (isUtf8_iff.mpr ⟨pattern, hbytes⟩)]
    exact hbytes
  | none =>
    have hnot : ¬isUtf8 bytes = true := by
      intro hu
      obtain ⟨s, hs⟩ := isUtf8_iff.mp hu
      rw [fromUtf8_eq_some_iff.mpr hs] at h
      exact absurd h (by simp)
    rw [ensure, if_neg hnot]
    rfl

lemma readRule_agree : Reader.Agree TreePatch.Error.name (fun r z => z = Rule.of r)
    (TreePatch.readRule limits) (readRule (Limits.of limits maxOutputBytes)) := by
  simp only [TreePatch.readRule, TreePatch.readAction, Reader.expect, bind_assoc]
  refine (Reader.Agree.word rfl UInt8).bind fun b b' hb => ?_
  subst hb
  refine (Reader.Agree.lift (action_agree b)).bind fun action action' haction => ?_
  subst haction
  refine (Reader.Agree.word rfl UInt8).bind fun flags flags' hflags => ?_
  subst hflags
  refine Reader.Agree.guard_bind Iff.rfl rfl fun _ => ?_
  refine (Reader.Agree.word rfl UInt16).bind fun reserved reserved' hreserved => ?_
  subst hreserved
  refine Reader.Agree.guard_bind Iff.rfl rfl fun _ => ?_
  refine (readCount_agree _).bind fun n n' hn => ?_
  subst hn
  refine Reader.Agree.guard_bind Iff.rfl rfl fun _ => ?_
  refine (Reader.Agree.take rfl n).bind fun bytes bytes' hbytes => ?_
  subst hbytes
  refine (Reader.Agree.lift (pattern_agree bytes)).bind fun pattern _ hpattern => ?_
  exact Reader.Agree.pure (by rw [Rule.of, hpattern])

lemma readMeta_agree : Reader.Agree TreePatch.Error.name (fun c m => m = c.metadata)
    (TreePatch.readRecord limits) (readMeta (Limits.of limits maxOutputBytes)) := by
  refine (readCount_agree _).bind fun n n' hn => ?_
  subst hn
  refine (Reader.Agree.take rfl n).bind fun bytes bytes' hbytes => ?_
  subst hbytes
  refine Reader.Agree.lift ?_
  rw [decodeCanonical_eq]
  cases CanonicalMetadata.decode bytes <;> rfl

/-- A payload that passes is empty for a directory, so that the view may drop it. -/
lemma entryKind_agree (e : TreePatch.DecodedEntry) :
    Agree TreePatch.Error.name
      (fun _ kind => kind = e.operation.kind ∧ (kind = .directory → e.payload = []))
      (e.checkPayload limits)
      (entryKind (Limits.of limits maxOutputBytes) e.operation e.payload e.metadata.metadata) := by
  obtain ⟨path, mode, operation, payload, metadata⟩ := e
  have hnil : payload = [] ↔ ¬payload.length ≠ 0 := by simp
  have hne : Directory.Kind.file ≠ .directory ∧ Directory.Kind.symlink ≠ .directory := by simp
  cases operation with
  | directory => exact Agree.ensure_else hnil rfl fun hp => ⟨rfl, fun _ => hp⟩
  | symlink => exact Agree.ensure_else not_lt.symm rfl fun _ => ⟨rfl, fun h => absurd h hne.2⟩
  | fileCopy => exact Agree.ensure_else hnil rfl fun _ => ⟨rfl, fun h => absurd h hne.1⟩
  | fileRaw => exact Agree.ok ⟨rfl, fun h => absurd h hne.1⟩
  | fileDelta => exact Agree.ok ⟨rfl, fun h => absurd h hne.1⟩
  | fileHardlink =>
    simp only [TreePatch.DecodedEntry.checkPayload, entryKind]
    cases hlink : metadata.metadata.hardlinkTo with
    | none => exact Agree.error rfl
    | some path =>
      refine Agree.ensure_else ?_ rfl fun _ => ⟨rfl, fun h => absurd h hne.1⟩
      rw [Option.some.injEq, ne_eq, not_not, eq_comm]

lemma payloadLength_agree (n limit : Nat) :
    Agree TreePatch.Error.name (fun m _ => m = n) (TreePatch.length n limit)
      (ensure (n ≤ limit) .limitExceeded) := by
  rw [TreePatch.length, ensure]
  by_cases h : n ≤ limit
  · rw [if_neg (not_lt.mpr h), if_pos h]
    rfl
  · rw [if_pos (not_le.mp h), if_neg h]
    rfl

lemma readEntry_agree (mask : Metadata.Omit) : Reader.Agree TreePatch.Error.name
    (fun e z => z.1 = EncodedEntry.of e ∧ Directory.View.record z.2 = Directory.View.record e)
    (TreePatch.readEntry limits mask)
    (readEntry (Limits.of limits maxOutputBytes) (Omit.of mask)) := by
  simp only [TreePatch.readEntry, TreePatch.readFields, Reader.checked, Reader.expect, bind_assoc,
    pure_bind, TreePatch.length64]
  refine (Reader.Agree.word rfl UInt8).bind fun b b' hb => ?_
  subst hb
  refine (Reader.Agree.lift (operation_agree b)).bind fun operation operation' hoperation => ?_
  subst hoperation
  refine (Reader.Agree.word rfl UInt8).bind fun flags flags' hflags => ?_
  subst hflags
  refine Reader.Agree.guard_bind Iff.rfl rfl fun _ => ?_
  refine (Reader.Agree.word rfl UInt16).bind fun mode mode' hmode => ?_
  subst hmode
  refine (readCount_agree _).bind fun n n' hn => ?_
  subst hn
  refine Reader.Agree.guard_bind Iff.rfl rfl fun _ => ?_
  refine (Reader.Agree.word rfl UInt64).bind fun k k' hk => ?_
  subst hk
  refine (Reader.Agree.lift (payloadLength_agree _ _)).bind fun k' _ hk => ?_
  subst hk
  refine (Reader.Agree.take rfl n).bind fun path path' hpath => ?_
  subst hpath
  refine (Reader.Agree.take rfl k.toNat).bind fun payload payload' hpayload => ?_
  subst hpayload
  refine readMeta_agree.bind fun m m' hm => ?_
  subst hm
  simp only [TreePatch.DecodedEntry.check, Reader.lift_bind, bind_assoc]
  refine Reader.Agree.guard_bind (by rw [hasOmittedMetadata_of]) rfl fun _ => ?_
  refine (Reader.Agree.lift (entryKind_agree ⟨path, mode, operation, payload, m⟩)).bind
    fun _ kind hkind => ?_
  obtain ⟨rfl, hdir⟩ := hkind
  refine Reader.Agree.guard_bind Iff.rfl rfl fun _ => ?_
  refine Reader.Agree.pure ⟨rfl, ?_⟩
  by_cases hkind : operation.kind = .directory
  · have hpayload : payload = [] := hdir hkind
    simp [Directory.View.record, hpayload]
  · simp [Directory.View.record, hkind]

lemma validateRoot_agree (root : Metadata) :
    Agree TreePatch.Error.name (fun _ _ => True)
      (ensure (root.holes = []) (TreePatch.Error.snapshot .invalidSparseExtent) >>= fun _ =>
        ensure (root.hardlinkTo = none) (.snapshot .invalidHardlinkRelation))
      ((validateRootMetadata root).mapError Directory.Error.name) := by
  rw [validateRootMetadata]
  by_cases hholes : root.holes = []
  · rw [ensure, if_pos hholes, if_neg (not_not.mpr hholes), ok_bind]
    by_cases hlink : root.hardlinkTo = none
    · rw [ensure, if_pos hlink, if_neg (not_not.mpr hlink)]
      trivial
    · rw [ensure, if_neg hlink, if_pos hlink]
      rfl
  · rw [ensure, if_neg hholes, if_pos hholes]
    rfl

lemma readTargetRoot_agree (header : TreePatch.Header) :
    Reader.Agree TreePatch.Error.name (fun c m => m = c.metadata)
      (TreePatch.readRoot limits header)
      (readTargetRoot (Limits.of limits maxOutputBytes) header.flags (Omit.of header.mask)) := by
  have hflag : header.rootMetadata = true ↔ header.flags &&& 1 ≠ 0 := by
    obtain ⟨-, -, hroot⟩ := TreePatch.Header.flags_eq_iff.mp (rfl : header.flags = header.flags)
    rw [hroot, bne_iff_ne]
  rw [TreePatch.readRoot, readTargetRoot]
  refine Reader.Agree.ite hflag (fun _ => ?_) fun _ => Reader.Agree.pure rfl
  refine readMeta_agree.bind fun c m hm => ?_
  subst hm
  simp only [TreePatch.checkRoot, Reader.lift_bind, bind_assoc]
  refine Reader.Agree.guard_bind (by rw [hasOmittedMetadata_of]) rfl fun _ => ?_
  refine Reader.Agree.guard_bind Iff.rfl rfl fun _ => ?_
  have hroot := Reader.Agree.lift (validateRoot_agree c.metadata)
  rw [Reader.lift_bind] at hroot
  have := hroot.bind (S := fun (c : CanonicalMetadata) m => m = c.metadata)
    (f := fun _ => pure c) (g := fun _ => pure c.metadata) fun _ _ _ => Reader.Agree.pure rfl
  rwa [bind_assoc] at this

lemma compileRules_agree {pcre2 : Pcre2} {rules : List PathFilter.Rule}
    (hne : Filter.compile pcre2 (rules.map Rule.of) ≠ .error .compileFailed) :
    Agree TreePatch.Error.name (fun _ _ => True) (TreePatch.checkRules rules)
      (compileRules pcre2 (rules.map Rule.of)) := by
  rw [TreePatch.checkRules, compileRules]
  by_cases hnil : rules = []
  · rw [if_pos hnil, if_neg (by simp [hnil])]
    trivial
  · rw [if_neg hnil, if_pos (by simpa using List.length_pos_iff.mpr hnil)]
    have hcompile : Agree TreePatch.Error.name (fun _ _ => True)
        ((PathFilter.Filter.compile rules).mapError .filter)
        (Filter.compile pcre2 (rules.map Rule.of)) :=
      (Filter.compile_agree hne).mapError fun _ => rfl
    exact hcompile.bind fun _ _ _ => Agree.ok trivial

lemma map_eq_map_of_forall₂ {α β γ : Type} {f : α → γ} {g : β → γ} {xs : List α} {ys : List β}
    (h : List.Forall₂ (fun x y => g y = f x) xs ys) : ys.map g = xs.map f := by
  induction h with
  | nil => rfl
  | cons hxy _ ih => rw [List.map_cons, List.map_cons, hxy, ih]

/-- The bodies agree where they start, unless the library refuses a pattern of the rules there. -/
lemma readPatch_agree {pcre2 : Pcre2} {header : TreePatch.Header} {c d : Wire.Cursor}
    (hcd : c.rest = d.rest)
    (hne : ∀ rules c', Reader.replicate header.ruleCount.toNat (TreePatch.readRule limits) c
      = .ok (rules, c') → Filter.compile pcre2 (rules.map Rule.of) ≠ .error .compileFailed) :
    Agree TreePatch.Error.name
      (fun p q => (q.1.1 = DecodedPatch.of p.1 ∧
        q.1.2.map Directory.View.record = p.1.entries.map Directory.View.record) ∧
        Abreast c d p.2 q.2)
      (TreePatch.readBody limits header c)
      (readPatch pcre2 (Limits.of limits maxOutputBytes) (Head.of header) d) := by
  simp only [TreePatch.readBody, Reader.checked, bind_assoc, pure_bind]
  refine ((@readRule_agree limits maxOutputBytes).replicate _ c d hcd).bind_of_eq
    fun p q hp _ hpq => ?_
  obtain ⟨⟨rules, c'⟩, ⟨zs, d'⟩⟩ := p, q
  obtain ⟨hzs, hcd', hleft, hright⟩ := hpq
  have hrules : zs = rules.map Rule.of := by
    rw [← map_eq_map_of_forall₂ (g := id) hzs, List.map_id]
  subst hrules
  have hrest : Reader.Agree TreePatch.Error.name
      (fun p q => q.1 = DecodedPatch.of p ∧
        q.2.map Directory.View.record = p.entries.map Directory.View.record)
      (do
        Reader.lift (TreePatch.checkRules rules)
        let entries ← Reader.replicate header.entryCount.toNat
          (TreePatch.readEntry limits header.mask)
        let root ← TreePatch.readRoot limits header
        pure (TreePatch.ParsedPatch.mk header rules entries root))
      (do
        Reader.lift (compileRules pcre2 (rules.map Rule.of))
        let both ← Reader.replicate header.entryCount.toNat
          (readEntry (Limits.of limits maxOutputBytes) (Omit.of header.mask))
        let targetRoot ← readTargetRoot (Limits.of limits maxOutputBytes) header.flags
          (Omit.of header.mask)
        pure (DecodedPatch.mk (rules.map Rule.of) (both.map (·.1)) header.sourceHash
          header.targetHash targetRoot (Omit.of header.mask), both.map (·.2))) := by
    refine (Reader.Agree.lift (compileRules_agree (hne rules c' hp))).bind fun _ _ _ => ?_
    refine ((readEntry_agree header.mask).replicate _).bind fun entries both hboth => ?_
    refine (readTargetRoot_agree header).bind fun root m hm => ?_
    subst hm
    have hentries := map_eq_map_of_forall₂ (hboth.imp fun _ _ h => h.1)
    have hviews := map_eq_map_of_forall₂ (hboth.imp fun _ _ h => h.2)
    refine Reader.Agree.pure ⟨?_, ?_⟩
    · rw [DecodedPatch.of, hentries]
    · rw [List.map_map]
      exact hviews
  refine (hrest c' d' hcd').mono fun p q hpq => ?_
  obtain ⟨hR, hahead, hleft', hright'⟩ := hpq
  exact ⟨hR, hahead, hleft'.trans hleft, hright'.trans hright⟩

/-! ### The header -/

lemma readerAt_eq {bytes : List UInt8} {i : Nat} (h : i ≤ bytes.length) :
    readerAt bytes i = ⟨bytes, i, h⟩ := by
  simp only [readerAt, Nat.min_eq_left h]

/-- Inside the input, reading is looking at a field. -/
lemma take_at {bytes : List UInt8} {i j n : Nat} (hj : i + n = j) (h : j ≤ bytes.length) :
    take n (readerAt bytes i) = .ok (field bytes i j, readerAt bytes j) := by
  subst hj
  rw [readerAt_eq (by omega), readerAt_eq h]
  refine (dif_pos h).trans ?_
  rw [Wire.Cursor.rest, field, List.drop_take, Nat.add_sub_cancel_left]

lemma readInt_at {α : Type} [Word α] {bytes : List UInt8} {i j : Nat}
    (hj : i + Word.width α = j) (h : j ≤ bytes.length) :
    readInt α (readerAt bytes i) = .ok (fromLeBytes (field bytes i j), readerAt bytes j) := by
  change (take (Word.width α) (readerAt bytes i) >>= fun p => .ok (fromLeBytes p.1, p.2)) = _
  rw [take_at hj h, ok_bind]

lemma array_at {bytes : List UInt8} {i j n : Nat} (hj : i + n = j) (h : j ≤ bytes.length) :
    Reader.array Error.unexpectedEndOfInput n (readerAt bytes i)
      = (tryInto .unexpectedEndOfInput n (field bytes i j)).map fun v => (v, readerAt bytes j) := by
  have htake := take_at hj h
  have hlen : (field bytes i j).length = n := by rw [length_field h]; omega
  rw [take] at htake
  rw [Reader.array, htake, tryInto, dif_pos hlen]
  exact dif_pos hlen

/-- A reader that succeeds hands its value on. -/
lemma bind_at {α β : Type} {r : Reader Error α} {f : α → Reader Error β} {c c' : Wire.Cursor}
    {x : α} (h : r c = .ok (x, c')) : (r >>= f) c = f x c' := by
  change (r c >>= fun p => f p.1 p.2) = _
  rw [h, ok_bind]

lemma guard_at {β : Type} {p : Prop} [Decidable p] {e : Error} {r : Reader Error β}
    {c : Wire.Cursor} : (Reader.guard e p >>= fun _ => r) c = (ensure p e >>= fun _ => r c) := by
  rw [Reader.guard, ensure]
  split_ifs <;> rfl

lemma lift_at {α β : Type} {x : Except Error α} {f : α → Reader Error β} {c : Wire.Cursor} :
    (Reader.lift x >>= f) c = (x >>= fun a => f a c) := by
  cases x <;> rfl

/-- The header fields by their offsets. -/
lemma readHead_eq {bytes : List UInt8} (h : 120 ≤ bytes.length) (patchVersion : UInt16)
    (limits : Limits) : readHead patchVersion limits (readerAt bytes 8) = (do
      ensure (fromLeBytes (field bytes 8 10) = patchVersion) .unsupportedVersion
      ensure ((fromLeBytes (field bytes 10 12) : UInt16) ≤ formatVersion) .readerTooOld
      let headerFlags : UInt32 := fromLeBytes (field bytes 12 16)
      ensure (headerFlags &&& ~~~0x7f = 0) .unsupportedFlags
      let omit_ ← Omit.fromBits (headerFlags >>> 1)
      let ruleCount ← countToUsize (fromLeBytes (field bytes 16 20) : UInt32).toNat limits.maxRules
      let entryCount ←
        countToUsize (fromLeBytes (field bytes 20 24) : UInt32).toNat limits.maxEntries
      let sourceHash ← tryInto .unexpectedEndOfInput 32 (field bytes 24 56)
      let targetHash ← tryInto .unexpectedEndOfInput 32 (field bytes 56 88)
      .ok (⟨headerFlags, omit_, ruleCount, entryCount, sourceHash, targetHash⟩,
        readerAt bytes 120)) := by
  have hhash : ∀ {i j : Nat}, i + 32 = j → j ≤ 120 → ∀ {β : Type}
      (f : Digest → Reader Error β),
      (Reader.array Error.unexpectedEndOfInput 32 >>= f) (readerAt bytes i)
        = (tryInto .unexpectedEndOfInput 32 (field bytes i j) >>= fun v =>
            f v (readerAt bytes j)) := by
    intro i j hij hj β f
    change (Reader.array _ 32 (readerAt bytes i) >>= fun p => f p.1 p.2) = _
    rw [array_at hij (hj.trans h)]
    cases tryInto Error.unexpectedEndOfInput 32 (field bytes i j) <;> rfl
  rw [readHead, bind_at (readInt_at (j := 10) rfl (by omega)), guard_at]
  refine congrArg _ (funext fun _ => ?_)
  rw [bind_at (readInt_at (j := 12) rfl (by omega)), guard_at]
  refine congrArg _ (funext fun _ => ?_)
  rw [bind_at (readInt_at (j := 16) rfl (by omega)), guard_at]
  refine congrArg _ (funext fun _ => ?_)
  rw [lift_at]
  refine congrArg _ (funext fun omit_ => ?_)
  simp only [readCount, bind_assoc]
  rw [bind_at (readInt_at (j := 20) rfl (by omega)), lift_at]
  refine congrArg _ (funext fun ruleCount => ?_)
  rw [bind_at (readInt_at (j := 24) rfl (by omega)), lift_at]
  refine congrArg _ (funext fun entryCount => ?_)
  rw [hhash (j := 56) rfl (by norm_num)]
  refine congrArg _ (funext fun sourceHash => ?_)
  rw [hhash (j := 88) rfl (by norm_num)]
  refine congrArg _ (funext fun targetHash => ?_)
  rw [bind_at (take_at (j := 120) rfl h)]
  rfl

/-- Masks and flag words: a word of known flags holds a mask. -/
lemma exists_mask {flags : UInt32} (h : flags &&& ~~~0x7f = 0) :
    ∃ mask, Metadata.Omit.fromBits (flags >>> 1) = .ok mask := by
  have hshift : ∀ n : Fin 128, (UInt32.ofNat n >>> 1) &&& ~~~Metadata.Family.mask = 0 := by
    decide +kernel
  have hlt : flags.toNat < 2 ^ 7 := TreePatch.Header.toNat_lt_of_and_not 7 h
  have hvalid := hshift ⟨flags.toNat, hlt⟩
  rw [UInt32.ofNat_toNat] at hvalid
  exact ⟨⟨flags >>> 1, hvalid⟩, dif_pos hvalid⟩

lemma tryInto_ok {ε : Type} (e : ε) {n : Nat} {w : List UInt8} (h : w.length = n) :
    tryInto e n w = .ok ⟨w, h⟩ :=
  dif_pos h

/-- Both counts against their limits in one check, or one after the other. -/
lemma counts_agree {α β : Type} {R : α → β → Prop} {ruleCount entryCount : UInt32}
    {x : Except TreePatch.Error α} {y : Nat → Nat → Except Error β}
    (h : Agree TreePatch.Error.name R x (y ruleCount.toNat entryCount.toNat)) :
    Agree TreePatch.Error.name R
      (ensure (ruleCount ≤ limits.envelope.maxRules ∧ entryCount ≤ limits.envelope.maxEntries)
        .limitExceeded >>= fun _ => x)
      (countToUsize ruleCount.toNat limits.envelope.maxRules.toNat >>= fun rules =>
        countToUsize entryCount.toNat limits.envelope.maxEntries.toNat >>= fun entries =>
          y rules entries) := by
  simp only [UInt32.le_iff_toNat_le, ensure, countToUsize]
  by_cases hr : ruleCount.toNat ≤ limits.envelope.maxRules.toNat
  · by_cases he : entryCount.toNat ≤ limits.envelope.maxEntries.toNat
    · rw [if_pos ⟨hr, he⟩, if_neg (not_lt.mpr hr), if_neg (not_lt.mpr he)]
      exact h
    · rw [if_neg fun h => he h.2, if_neg (not_lt.mpr hr), if_pos (not_le.mp he)]
      rfl
  · rw [if_neg fun h => hr h.1, if_pos (not_le.mp hr)]
    rfl

/-- One check of both counts against the size of the body, or one after the other. -/
lemma capacity_agree {α β : Type} {R : α → β → Prop} {p q : Prop} [Decidable p] [Decidable q]
    {x : Except TreePatch.Error α} {y : Except Error β}
    (h : Agree TreePatch.Error.name R x y) : Agree TreePatch.Error.name R
      (ensure (p ∧ q) .unexpectedEndOfInput >>= fun _ => x)
      (ensure p .unexpectedEndOfInput >>= fun _ => ensure q .unexpectedEndOfInput >>= fun _ => y) := by
  simp only [ensure]
  by_cases hp : p
  · by_cases hq : q
    · rw [if_pos ⟨hp, hq⟩, if_pos hp, if_pos hq]
      exact h
    · rw [if_neg fun h => hq h.2, if_pos hp, if_neg hq]
      rfl
  · rw [if_neg fun h => hp h.1, if_neg hp]
    rfl

lemma decodeHead_agree (bytes : List UInt8) : Agree TreePatch.Error.name
    (fun p q => q = (Head.of p.1, readerAt bytes 120) ∧ p.2 = bytes.drop 120 ∧ 120 ≤ bytes.length)
    (TreePatch.Header.decodePrefix blake3 bytes limits.envelope)
    (decodeHead blake3 bytes (Limits.of limits maxOutputBytes)) := by
  rw [TreePatch.Header.decodePrefix, decodeHead]
  refine Agree.ensure_bind Iff.rfl rfl fun _ => ?_
  refine Agree.ensure_bind Iff.rfl rfl fun hlen => ?_
  have hlen : 120 ≤ bytes.length := hlen
  have hfield : ∀ {i j : Nat}, j ≤ 120 → field (bytes.take TreePatch.headerLen) i j
      = field bytes i j := by
    intro i j hj
    rw [field, field, List.take_take, Nat.min_eq_left (show j ≤ TreePatch.headerLen from hj)]
  have hword : ∀ {i : Nat}, i + 4 ≤ 120 → TreePatch.Header.word (bytes.take TreePatch.headerLen) i
      = fromLeBytes (field bytes i (i + 4)) := by
    intro i hi
    rw [TreePatch.Header.word, hfield hi]
  refine Agree.ensure_bind (by rw [hfield (by norm_num)]) rfl fun _ => ?_
  refine Agree.ensure_bind (by rw [hfield (by norm_num)]; rfl) rfl fun _ => ?_
  have hsum : field (bytes.take TreePatch.headerLen) TreePatch.checksumOffset TreePatch.headerLen
      = field bytes 88 120 := hfield (by rfl)
  have hlead : field (bytes.take TreePatch.headerLen) 0 TreePatch.checksumOffset
      = field bytes 0 88 := hfield (by decide)
  refine Agree.ensure_bind (by rw [hsum, hlead]; rfl) rfl fun _ => ?_
  have hagain : ensure ((fromLeBytes (field bytes 8 10) : UInt16) = fromLeBytes (field bytes 8 10))
      Error.unsupportedVersion = .ok () := if_pos rfl
  have hsize : ∀ {i j : Nat}, i + 32 = j → j ≤ 120 → (field bytes i j).length = 32 := by
    intro i j hij hj
    rw [length_field (hj.trans hlen)]
    omega
  have hoffset : (readerAt bytes 120).offset = 120 := by rw [readerAt_eq hlen]
  rw [readHead_eq hlen, hagain, hword (by norm_num), hword (by norm_num), hword (by norm_num),
    hfield (by norm_num), hfield (by norm_num), hfield (by norm_num)]
  simp only [ok_bind, bind_assoc, tryInto_ok _ (hsize (i := 24) (j := 56) rfl (by norm_num)),
    tryInto_ok _ (hsize (i := 56) (j := 88) rfl (by norm_num)), hoffset, List.length_drop]
  refine Agree.ensure_bind Iff.rfl rfl fun _ => ?_
  refine Agree.ensure_bind Iff.rfl rfl fun hflags => ?_
  obtain ⟨mask, hmask⟩ := exists_mask hflags
  have hzig : Omit.fromBits ((fromLeBytes (field bytes 12 (12 + 4)) : UInt32) >>> 1)
      = .ok (Omit.of mask) := by
    have homit := Omit.fromBits_agree ((fromLeBytes (field bytes 12 (12 + 4)) : UInt32) >>> 1)
    rw [hmask, Agree.iff_eq] at homit
    exact homit
  rw [hmask, hzig, ok_bind]
  refine counts_agree (capacity_agree (Agree.ok ⟨?_, rfl, hlen⟩))
  have hbits : (fromLeBytes (field bytes 12 (12 + 4)) : UInt32) >>> 1 = mask.bits :=
    Metadata.Omit.fromBits_eq_ok.mp hmask
  rw [Head.of, TreePatch.Header.flags, ← TreePatch.Header.flags_eq_iff.mpr ⟨hflags, hbits, rfl⟩]

/-! ### The decoders -/

lemma validateSnapshot_agree {entries : List TreePatch.DecodedEntry} {view : List Entry}
    (h : view.map Directory.View.record = entries.map Directory.View.record) :
    Agree TreePatch.Error.name (fun _ _ => True)
      ((Directory.validate entries).mapError TreePatch.Error.snapshot)
      ((validateSnapshot view).mapError Directory.Error.name) := by
  have hshape : view.map Directory.shapeOf = entries.map Directory.shapeOf := by
    have hmap := congrArg (List.map Directory.Record.shape) h
    rw [List.map_map, List.map_map] at hmap
    exact hmap
  rw [validateSnapshot_eq, Directory.validate_congr hshape]
  cases Directory.validate entries with
  | ok u => trivial
  | error e => rfl

variable {pcre2 blake3}

/-- The rules that stand in a patch, as far as they can be read. -/
def rulesIn (blake3 : List UInt8 → Digest) (bytes : List UInt8) (limits : TreePatch.Limits) :
    List PathFilter.Rule :=
  match TreePatch.Header.decodePrefix blake3 bytes limits.envelope with
  | .error _ => []
  | .ok (header, body) =>
    match Reader.replicate header.ruleCount.toNat (TreePatch.readRule limits)
        (Wire.Cursor.start body) with
    | .error _ => []
    | .ok (rules, _) => rules

lemma decodePatch_agree {bytes : List UInt8}
    (hne : Filter.compile pcre2 ((rulesIn blake3 bytes limits).map Rule.of)
      ≠ .error .compileFailed) :
    Agree TreePatch.Error.name (fun p z => z = DecodedPatch.of p)
      (TreePatch.ParsedPatch.decode blake3 bytes limits)
      (decodePatch pcre2 blake3 bytes (Limits.of limits maxOutputBytes)) := by
  rw [TreePatch.ParsedPatch.decode, decodePatch]
  refine (decodeHead_agree blake3 bytes).bind_of_eq fun p q hp _ hpq => ?_
  obtain ⟨header, body⟩ := p
  obtain ⟨rfl, hbody, hlen⟩ := hpq
  have hrest : (Wire.Cursor.start body).rest = (readerAt bytes 120).rest := by
    rw [readerAt_eq hlen, Wire.Cursor.rest_start]
    exact hbody
  refine (readPatch_agree hrest fun rules c' hrules => ?_).bind fun p' q' hpq' => ?_
  · rw [rulesIn, hp] at hne
    dsimp only at hne
    rwa [hrules] at hne
  · obtain ⟨patch, reader⟩ := p'
    obtain ⟨⟨hpatch, hviews⟩, hahead, hleft, hright⟩ := hpq'
    have hend : reader.offset = body.length ↔ q'.2.offset = bytes.length := by
      have hb : reader.bytes = body := hleft
      have hb' : q'.2.bytes = bytes := hright
      rw [← hb, ← hb', ← Wire.Cursor.rest_eq_nil_iff, ← Wire.Cursor.rest_eq_nil_iff, hahead]
    refine Agree.ensure_bind hend rfl fun _ => ?_
    exact (validateSnapshot_agree hviews).bind fun _ _ _ => Agree.ok hpatch

/-- A pattern the library refuses fails the whole patch. -/
lemma decodePatch_compileFailed {bytes : List UInt8}
    (h : Filter.compile pcre2 ((rulesIn blake3 bytes limits).map Rule.of)
      = .error .compileFailed) :
    decodePatch pcre2 blake3 bytes (Limits.of limits maxOutputBytes) = .error .compileFailed := by
  have hnil : Filter.compile pcre2 ([].map Rule.of) ≠ .error .compileFailed := by
    simp [Filter.compile, pure, Except.pure, ok_bind]
  rw [rulesIn] at h
  cases hhead : TreePatch.Header.decodePrefix blake3 bytes limits.envelope with
  | error e =>
    rw [hhead] at h
    exact absurd h hnil
  | ok p =>
    obtain ⟨header, body⟩ := p
    simp only [hhead] at h
    cases hread : Reader.replicate header.ruleCount.toNat (TreePatch.readRule limits)
        (Wire.Cursor.start body) with
    | error e =>
      rw [hread] at h
      exact absurd h hnil
    | ok q =>
      obtain ⟨rules, c'⟩ := q
      simp only [hread] at h
      obtain ⟨_, hzig, rfl, hbody, hlen⟩ :=
        (@decodeHead_agree blake3 limits maxOutputBytes bytes).exists_ok hhead
      have hrest : (Wire.Cursor.start body).rest = (readerAt bytes 120).rest := by
        rw [readerAt_eq hlen, Wire.Cursor.rest_start]
        exact hbody
      obtain ⟨⟨zs, d'⟩, hzs, hforall, -⟩ :=
        ((@readRule_agree limits maxOutputBytes).replicate _ _ _ hrest).exists_ok hread
      have hrules : zs = rules.map Rule.of := by
        rw [← map_eq_map_of_forall₂ (g := id) hforall, List.map_id]
      subst hrules
      have hne : rules ≠ [] := by
        rintro rfl
        exact hnil h
      have hcompile : compileRules pcre2 (rules.map Rule.of) = .error .compileFailed := by
        rw [compileRules, if_pos (by simpa using List.length_pos_iff.mpr hne), h, error_bind]
      have hpatch : readPatch pcre2 (Limits.of limits maxOutputBytes) (Head.of header)
          (readerAt bytes 120) = .error .compileFailed := by
        have hcount : (Head.of header).ruleCount = header.ruleCount.toNat := rfl
        rw [readPatch, hcount, bind_at hzs, lift_at, hcompile, error_bind]
      rw [decodePatch, hzig, ok_bind]
      dsimp only
      rw [hpatch, error_bind]

/-- The decoders of the two programs are one function: on every byte string and under equal limits
both return the same patch, or both fail with an error of the same name. -/
theorem decodePatch_eq (bytes : List UInt8) (limits : TreePatch.Limits) (maxOutputBytes : Nat)
    (hpcre : Compiles pcre2 (rulesIn blake3 bytes limits)) :
    decodePatch pcre2 blake3 bytes (Limits.of limits maxOutputBytes)
      = ((TreePatch.ParsedPatch.decode blake3 bytes limits).mapError TreePatch.Error.name).map
          DecodedPatch.of :=
  Agree.iff_eq.mp (decodePatch_agree hpcre.ne_compileFailed)

/-- The BLAKE3 digest of the empty tree. -/
def emptyTreeHash : Digest :=
  ⟨File.ofHex "2caee57d82acfda40a7e75c47d6c419bc7357936baf44749e4351e76d196792a".toList, by decide⟩

/-- The header up to the checksum of a patch between empty trees with one rule. -/
def ruleLead : List UInt8 :=
  utf8 "DIFZTREE" ++ [2, 0, 2, 0, 0, 0, 0, 0, 1, 0, 0, 0, 0, 0, 0, 0]
    ++ (emptyTreeHash.toList ++ emptyTreeHash.toList)

/-- The rule to include a pattern. -/
def ruleBody (pattern : String) : List UInt8 :=
  [1, 0, 0, 0] ++ toLeBytes (UInt32.ofNat (utf8 pattern).length) ++ utf8 pattern

def rulePatch (pattern : String) (checksum : Digest) : List UInt8 :=
  ruleLead ++ checksum.toList ++ ruleBody pattern

/-- The digests that such a patch needs. -/
def ruleDigests (pattern : String) (checksum : Digest) : List (List UInt8 × Digest) :=
  [ (utf8 "DIFZTREE-ID\x02" ++ [0, 0, 0, 0], emptyTreeHash)
  , (utf8 "DIFZTREE-PATCH\x02" ++ ruleLead ++ ruleBody pattern, checksum) ]

/-- The BLAKE3 checksum of the patch with the pattern `a`. -/
def letterChecksum : Digest :=
  ⟨File.ofHex "c6ebb1bdb5cb9029a9a6f9160afc779df19ca687263e2da023ea826d61da17e0".toList, by decide⟩

def letterPatch : List UInt8 := rulePatch "a" letterChecksum

def letterHash : List UInt8 → Digest := File.tabulated (ruleDigests "a" letterChecksum)

lemma rulesIn_letterPatch :
    rulesIn letterHash letterPatch TreePatch.Limits.default = [⟨.include_, "a"⟩] := by
  decide +kernel

theorem decodePatch_eq_letter :
    Compiles Pcre2.reference (rulesIn letterHash letterPatch TreePatch.Limits.default) ∧
    decodePatch Pcre2.reference letterHash letterPatch (Limits.of TreePatch.Limits.default 0)
      = ((TreePatch.ParsedPatch.decode letterHash letterPatch TreePatch.Limits.default).mapError
          TreePatch.Error.name).map DecodedPatch.of := by
  have hpcre : Compiles Pcre2.reference
      (rulesIn letterHash letterPatch TreePatch.Limits.default) := by
    intro rule hrule
    rw [rulesIn_letterPatch, List.mem_singleton] at hrule
    subst hrule
    obtain ⟨regex, hregex, -⟩ := Pcre2.documented_reference.compile_pattern regular_letter
    have hsplit : (⟨.include_, "a"⟩ : PathFilter.Rule).split.2 = ['a'] := by decide
    rw [hsplit, hregex]
    rfl
  exact ⟨hpcre, decodePatch_eq letterPatch TreePatch.Limits.default 0 hpcre⟩

end Zig

end Difz
