import Difz.Tree.Soundness
import Difz.Zig.Masked

/-!
# Applying a patch in the native program

`applyPatchRoot` (`src/directory_patch.zig`) rebuilds an entry first and takes its length from the
budget afterwards, also that of a delta, which the Rust crate refuses before it decompresses
anything. The two programs therefore fail alike up to one kind of entry, a delta whose header
promises more than the budget.
-/

namespace Difz

open Wire

namespace Zig

/-! ### File patches -/

/-- The header of a file patch. -/
structure Info where
  sizeA : Nat
  sizeB : Nat
  sourceBlake3 : Digest
  targetBlake3 : Digest

def asUsize (n : UInt64) : Except Error Nat :=
  if n.toNat > 2 ^ 64 - 1 then .error .windowTooLarge else .ok n.toNat

def info (patch : List UInt8) : Except Error Info :=
  if patch.length < 5 ∨ patch.take 5 ≠ utf8 "ZDIF\x04" then .error .invalidMagic
  else if patch.length < 85 then .error .truncated
  else do
    let sizeA ← asUsize (fromLeBytes (field patch 69 77))
    let sizeB ← asUsize (fromLeBytes (field patch 77 85))
    let sourceBlake3 ← tryInto .truncated 32 (field patch 5 37)
    let targetBlake3 ← tryInto .truncated 32 (field patch 37 69)
    .ok ⟨sizeA, sizeB, sourceBlake3, targetBlake3⟩

def windowLogMin : Nat := 10

def windowLogMax : Nat := 31

def patchWindowLog (sourceLen targetLen : Nat) : Except Error Nat :=
  let maxWindow := 2 ^ windowLogMax
  if sourceLen > maxWindow ∨ targetLen > maxWindow then .error .windowTooLarge
  else
    let span := max sourceLen targetLen
    if span = 0 then .ok windowLogMin
    else
      let raw := Nat.size span
      .ok (max windowLogMin (min windowLogMax raw))

def exceedsOutputLimit (length maxOutputBytes : Nat) : Bool :=
  maxOutputBytes != 0 && length > maxOutputBytes

variable (native : Native)

def applyLimited (source patch : List UInt8) (maxOutputBytes : Nat) :
    Except Error (List UInt8) := do
  let parsed ← info patch
  ensure (parsed.sizeA = source.length) .sizeMismatch
  ensure (parsed.sourceBlake3 = native.blake3 source) .sourceHashMismatch
  ensure (exceedsOutputLimit parsed.sizeB maxOutputBytes = false) .resourceLimitExceeded
  let _ ← patchWindowLog source.length parsed.sizeB
  let frame := patch.drop 85
  let output ← (native.decompress source frame parsed.sizeB).mapError fun e =>
    (File.Error.ofZstdz e).name
  ensure (output.length = parsed.sizeB) .decompressionFailed
  ensure (parsed.targetBlake3 = native.blake3 output) .targetHashMismatch
  .ok output

/-- `patch` of `src/patch.zig`. -/
def patchFile (source diffBlob : List UInt8) : Except Error (List UInt8) :=
  applyLimited native source diffBlob 0

variable {native}

lemma info_agree (patch : List UInt8) : Agree File.Error.name
    (fun p i => i = ⟨p.1.sourceLen.toNat, p.1.targetLen.toNat, p.1.sourceHash, p.1.targetHash⟩ ∧
      p.2 = patch.drop 85)
    ((File.Header.decodePrefix patch).mapError File.Error.ofHeader) (info patch) := by
  have hsize : ∀ n : UInt64, asUsize n = .ok n.toNat := by
    intro n
    have hlt := n.toNat_lt
    exact if_neg (by omega)
  have hmagic : File.magic = utf8 "ZDIF\x04" := rfl
  have hheader : File.headerLen = 85 := rfl
  have hlong : patch.take 5 = utf8 "ZDIF\x04" → ¬patch.length < 5 := by
    intro h
    have hlen := congrArg List.length h
    rw [List.length_take, show (utf8 "ZDIF\x04").length = 5 from rfl] at hlen
    omega
  rw [File.Header.decodePrefix, info, hmagic, hheader]
  by_cases h : patch.take 5 = utf8 "ZDIF\x04"
  · rw [if_neg (not_not.mpr h), if_neg (not_or.mpr ⟨hlong h, not_not.mpr h⟩)]
    by_cases hshort : patch.length < 85
    · rw [if_pos hshort, if_pos hshort]
      rfl
    · have hfield : ∀ {i j : Nat}, i + 32 = j → j ≤ 85 → (field patch i j).length = 32 := by
        intro i j hij hj
        rw [length_field (by omega)]
        omega
      rw [if_neg hshort, if_neg hshort, hsize, hsize,
        tryInto_ok _ (hfield (i := 5) (j := 37) rfl (by norm_num)),
        tryInto_ok _ (hfield (i := 37) (j := 69) rfl (by norm_num)),
        tryInto_ok _ (hfield (i := 5) (j := 37) rfl (by norm_num)),
        tryInto_ok _ (hfield (i := 37) (j := 69) rfl (by norm_num))]
      exact ⟨rfl, rfl⟩
  · rw [if_pos h, if_pos (.inr h)]
    rfl

lemma patchWindowLog_eq (sourceLen targetLen : Nat) :
    patchWindowLog sourceLen targetLen
      = (File.windowLog sourceLen targetLen).mapError File.Error.name := by
  have hmax : Zstdz.maxInputLen = 2 ^ windowLogMax := rfl
  rw [patchWindowLog, File.windowLog, Zstdz.windowLog, hmax]
  dsimp only
  by_cases h : sourceLen > 2 ^ windowLogMax ∨ targetLen > 2 ^ windowLogMax
  · rw [if_pos h, if_pos h]
    rfl
  · rw [if_neg h, if_neg h]
    split_ifs with hspan
    · rw [hspan]
      rfl
    · rfl

lemma decodeFrame_agree {source frame : List UInt8} {expected log : Nat}
    (hlog : File.windowLog source.length expected = .ok log) :
    Agree File.Error.name Eq (File.decodeFrame native source frame expected) (do
      let output ← (native.decompress source frame expected).mapError fun e =>
        (File.Error.ofZstdz e).name
      ensure (output.length = expected) .decompressionFailed
      .ok output) := by
  rw [File.windowLog, mapError_eq_ok] at hlog
  rw [File.decodeFrame, Zstdz.decode, hlog, ok_bind]
  cases native.decompress source frame expected with
  | error e => rfl
  | ok output =>
    rw [ok_bind]
    have hname : ∀ e, (File.Error.ofZstdz e).name = (fun e => (File.Error.ofZstdz e).name) e :=
      fun _ => rfl
    refine Agree.mapError ?_ hname
    exact Agree.else_ensure Iff.rfl rfl fun _ => rfl

/-- The file operations of the two programs are one function. -/
lemma applyLimited_agree (source patch : List UInt8) (maxOutputBytes : Nat) :
    Agree File.Error.name Eq (File.apply native source patch maxOutputBytes)
      (applyLimited native source patch maxOutputBytes) := by
  rw [File.apply, applyLimited]
  refine (info_agree patch).bind fun p i hpi => ?_
  obtain ⟨header, frame⟩ := p
  obtain ⟨rfl, hframe⟩ := hpi
  have hframe : frame = patch.drop 85 := hframe
  subst hframe
  refine Agree.else_ensure Iff.rfl rfl fun _ => ?_
  refine Agree.else_ensure Iff.rfl rfl fun _ => ?_
  refine Agree.else_ensure (by simp [exceedsOutputLimit]) rfl fun _ => ?_
  refine (Agree.of_eq (patchWindowLog_eq _ _)).bind_of_eq fun log _ hlog _ _ => ?_
  have hframe : Agree File.Error.name Eq
      (File.decodeFrame native source (patch.drop 85) header.targetLen.toNat) _ :=
    decodeFrame_agree hlog
  have hrest := hframe.bind
    (f := fun output =>
      if header.targetHash ≠ native.blake3 output then .error .targetHashMismatch else .ok output)
    (g := fun output =>
      ensure (header.targetHash = native.blake3 output) .targetHashMismatch >>= fun _ => .ok output)
    (S := Eq) fun a b hab => by
      subst hab
      exact Agree.else_ensure Iff.rfl rfl fun _ => rfl
  simpa only [bind_assoc, ok_bind] using hrest

/-! ### Tree patches -/

def findEntry (entries : List Entry) (path : List UInt8) : Option Entry :=
  Directory.entryAt entries path

variable (native)

/-- The entry of a regular file in the source. -/
def sourceEntry (source : List Entry) (path : List UInt8) : Except Error Entry := do
  let old ← orReturn (findEntry source path) .missingSourceEntry
  ensure (old.kind = .file) .sourceKindMismatch
  .ok old

/-- The kind and the data of an entry, before its length is looked at. -/
def entryData (source built : List Entry) (encoded : EncodedEntry) :
    Except Error (Directory.Kind × List UInt8) :=
  match encoded.operation with
  | .directory => .ok (.directory, [])
  | .symlink => .ok (.symlink, encoded.payload)
  | .fileRaw => .ok (.file, encoded.payload)
  | .fileCopy => do
    let old ← sourceEntry source encoded.path
    .ok (.file, old.data)
  | .fileDelta => do
    let old ← sourceEntry source encoded.path
    let data ← patchFile native old.data encoded.payload
    .ok (.file, data)
  | .fileHardlink => do
    let canonical ← orReturn (findEntry built encoded.payload) .invalidHardlinkRelation
    ensure (¬(canonical.kind ≠ .file ∨ canonical.meta_.hardlinkTo ≠ none)) .invalidHardlinkRelation
    .ok (.file, canonical.data)

/-- One round of the loop, over the entries rebuilt so far and the bytes they take. -/
def applyEntry (source : List Entry) (maxOutputBytes : Nat) (state : List Entry × Nat)
    (encoded : EncodedEntry) : Except Error (List Entry × Nat) := do
  let (kind, data) ← entryData native source state.1 encoded
  ensure (data.length ≤ maxOutputBytes - state.2) .limitExceeded
  .ok (state.1 ++ [⟨encoded.path, kind, encoded.mode, data, encoded.meta_⟩],
    state.2 + data.length)

structure OwnedSnapshot where
  entries : List Entry
  rootMeta : Metadata
  deriving DecidableEq

/-- The part behind the decoder. -/
def expandPatch (source : List Entry) (decoded : DecodedPatch) (maxOutputBytes : Nat)
    (sourceRoot : Metadata) : Except Error OwnedSnapshot := do
  let maskedSource ← (maskedSnapshot source decoded.omit_).mapError Metadata.Error.name
  let maskedRoot ← (canonicalize sourceRoot decoded.omit_).mapError Metadata.Error.name
  let actualSourceHash ←
    (treeHashWithRoot native.blake3 maskedSource maskedRoot).mapError Directory.Error.name
  ensure (actualSourceHash = decoded.sourceHash) .sourceHashMismatch
  let (entries, _) ← decoded.entries.foldlM (applyEntry native source maxOutputBytes) ([], 0)
  (validateSnapshot entries).mapError Directory.Error.name
  let actualTargetHash ←
    (treeHashWithRoot native.blake3 entries decoded.targetRoot).mapError Directory.Error.name
  ensure (actualTargetHash = decoded.targetHash) .targetHashMismatch
  .ok ⟨entries, decoded.targetRoot⟩

def applyPatchRoot (pcre2 : Pcre2) (source : List Entry) (patchBytes : List UInt8)
    (limits : Limits) (sourceRoot : Metadata) : Except Error OwnedSnapshot := do
  let decoded ← decodePatch pcre2 native.blake3 patchBytes limits
  expandPatch native source decoded limits.maxOutputBytes sourceRoot

/-! ### Deltas -/

/-- A delta that is refused before decompression: its source matches its header, the lengths pass
the window check, and the target exceeds the budget. -/
structure Oversized (source patch : List UInt8) (remaining : UInt64) (header : File.Header) :
    Prop where
  parses : ∃ frame, File.Header.decodePrefix patch = .ok (header, frame)
  sourceLen : header.sourceLen.toNat = source.length
  sourceHash : header.sourceHash = native.blake3 source
  window : ∃ log, File.windowLog source.length header.targetLen.toNat = .ok log
  exceeds : remaining < header.targetLen

variable {native}

lemma delta_of_oversized {source patch : List UInt8} {remaining : UInt64} {header : File.Header}
    (h : Oversized native source patch remaining header) :
    TreePatch.delta native source patch remaining = .error .limitExceeded := by
  obtain ⟨frame, hparse⟩ := h.parses
  obtain ⟨log, hlog⟩ := h.window
  rw [TreePatch.delta, hparse]
  change (if header.targetLen > remaining then _ else _) = _
  rw [if_pos h.exceeds, if_neg (not_not.mpr h.sourceLen), if_neg (not_not.mpr h.sourceHash), hlog]
  rfl

/-- Any other delta ends as the file operation does. -/
lemma delta_of_not_oversized {source patch : List UInt8} {remaining : UInt64}
    (h : ∀ header, ¬Oversized native source patch remaining header) :
    TreePatch.delta native source patch remaining
      = (File.apply native source patch 0).mapError TreePatch.Error.file := by
  rw [TreePatch.delta]
  cases hparse : File.Header.decodePrefix patch with
  | error e =>
    rw [File.apply, hparse]
    rfl
  | ok p =>
    obtain ⟨header, frame⟩ := p
    change (if header.targetLen > remaining then _ else _) = _
    split_ifs with hgt hlen hhash
    · rw [File.apply, hparse]
      change _ = Except.mapError _ (if header.sourceLen.toNat ≠ source.length then _ else _)
      rw [if_pos hlen]
      rfl
    · rw [File.apply, hparse]
      change _ = Except.mapError _ (if header.sourceLen.toNat ≠ source.length then _ else _)
      rw [if_neg hlen, if_pos hhash]
      rfl
    · cases hlog : File.windowLog source.length header.targetLen.toNat with
      | ok log =>
        exact absurd ⟨⟨frame, hparse⟩, not_not.mp hlen, not_not.mp hhash, ⟨log, hlog⟩, hgt⟩
          (h header)
      | error e =>
        rw [File.apply, hparse]
        change _ = Except.mapError _ (if header.sourceLen.toNat ≠ source.length then _ else _)
        rw [if_neg hlen, if_neg hhash, if_neg (by simp), hlog]
        rfl
    · rfl

/-- What the file operation returns for an oversized delta does not fit the budget. -/
lemma length_of_oversized {source patch output : List UInt8} {remaining : UInt64}
    {header : File.Header} (h : Oversized native source patch remaining header)
    (happly : File.apply native source patch 0 = .ok output) :
    remaining.toNat < output.length := by
  obtain ⟨frame, hparse⟩ := h.parses
  have hlt := UInt64.lt_iff_toNat_lt.mp h.exceeds
  rw [File.apply, hparse] at happly
  change (if header.sourceLen.toNat ≠ source.length then _ else _) = _ at happly
  simp only [ite_error_eq_ok, Wire.bind_eq_ok, File.decodeFrame, mapError_eq_ok, Zstdz.decode,
    not_not] at happly
  obtain ⟨-, -, -, log, -, output', ⟨log', -, written, -, hlen, hout⟩, -, hout'⟩ := happly
  obtain rfl := Except.ok.inj hout
  obtain rfl := Except.ok.inj hout'
  omega

/-! ### One entry -/

lemma sourceFile_agree (source : Directory.CanonicalSnapshot) (path : List UInt8) :
    Agree TreePatch.Error.name (fun bytes old => old.data = bytes.bytes)
      (TreePatch.sourceFile source path)
      (sourceEntry (source.snapshot.entries.map Entry.of) path) := by
  rw [TreePatch.sourceFile, sourceEntry, findEntry,
    Directory.entryAt_map Entry.of Entry.pathOf_of, Directory.contentAt]
  cases Directory.entryAt source.snapshot.entries path with
  | none => rfl
  | some e =>
    rw [Option.map_some, Option.map_some, orReturn, ok_bind, Entry.of_eq]
    cases e.content <;> rfl

lemma linkedFile_agree (built : List Directory.Entry) (path : List UInt8) :
    Agree TreePatch.Error.name (fun bytes p => p = (.file, bytes.bytes))
      (TreePatch.linkedFile built path) (do
        let canonical ← orReturn (findEntry (built.map Entry.of) path) .invalidHardlinkRelation
        ensure (¬(canonical.kind ≠ .file ∨ canonical.meta_.hardlinkTo ≠ none))
          .invalidHardlinkRelation
        .ok (Directory.Kind.file, canonical.data)) := by
  rw [TreePatch.linkedFile, findEntry, Directory.entryAt_map Entry.of Entry.pathOf_of]
  cases Directory.entryAt built path with
  | none => rfl
  | some e =>
    rw [Option.map_some, orReturn, ok_bind, Entry.of_eq]
    dsimp only
    cases e.metadata.metadata.hardlinkTo with
    | none => cases e.content <;> rfl
    | some original => cases e.content <;> rfl

/-- The entries rebuilt so far are the same, and what one program has spent the other has not got
left. -/
structure Tracks (maxOutputBytes : Nat) (s : List Directory.Entry × UInt64)
    (z : List Entry × Nat) : Prop where
  entries : z.1 = s.1.map Entry.of
  budget : z.2 + s.2.toNat = maxOutputBytes

lemma account_agree {remaining : UInt64} {outputBytes maxOutputBytes : Nat}
    (hbudget : outputBytes + remaining.toNat = maxOutputBytes) (bytes : List UInt8) :
    Agree TreePatch.Error.name
      (fun p _ => p.1.bytes = bytes ∧ outputBytes + bytes.length + p.2.toNat = maxOutputBytes)
      (TreePatch.account remaining bytes)
      (ensure (bytes.length ≤ maxOutputBytes - outputBytes) .limitExceeded) := by
  by_cases hle : bytes.length ≤ remaining.toNat
  · obtain ⟨p, hp⟩ : ∃ p, TreePatch.account remaining bytes = .ok p := ⟨_, dif_pos hle⟩
    obtain ⟨slice, left⟩ := p
    obtain ⟨hslice, hleft⟩ := TreePatch.account_eq_ok.mp hp
    rw [hp, ensure, if_pos (by omega)]
    exact ⟨hslice, by dsimp only; omega⟩
  · rw [TreePatch.account, dif_neg hle, ensure, if_neg (by omega)]
    rfl

/-- A round whose bytes come from computations that agree. -/
lemma round_agree {maxOutputBytes outputBytes : Nat} {remaining : UInt64}
    (hbudget : outputBytes + remaining.toNat = maxOutputBytes) {d : TreePatch.DecodedEntry}
    (built : List Directory.Entry) {kind : Directory.Kind} {content : Slice → Directory.Content}
    (hof : ∀ bytes, Entry.of ⟨d.path, content bytes, d.metadata⟩
      = ⟨d.path, kind, d.mode, bytes.bytes, d.metadata.metadata⟩)
    {α : Type} (bytesOf : α → List UInt8) {x : Except TreePatch.Error α}
    {y : Except Error (Directory.Kind × List UInt8)}
    (h : Agree TreePatch.Error.name (fun a p => p = (kind, bytesOf a)) x y) :
    Agree TreePatch.Error.name (Tracks maxOutputBytes)
      ((x >>= fun a => TreePatch.account remaining (bytesOf a) >>= fun p =>
          .ok (content p.1, p.2)) >>= fun p =>
        .ok (built ++ [⟨d.path, p.1, d.metadata⟩], p.2))
      (y >>= fun p => ensure (p.2.length ≤ maxOutputBytes - outputBytes) .limitExceeded >>= fun _ =>
        .ok (built.map Entry.of ++ [⟨d.path, p.1, d.mode, p.2, d.metadata.metadata⟩],
          outputBytes + p.2.length)) := by
  simp only [bind_assoc, ok_bind]
  refine h.bind fun a p hp => ?_
  subst hp
  refine (account_agree hbudget (bytesOf a)).bind fun q _ hq => Agree.ok ⟨?_, hq.2⟩
  rw [List.map_append, List.map_singleton, hof, hq.1]

/-- The delta of an entry is oversized where the loop stands. -/
def OversizedEntry (native : Native) (source : Directory.CanonicalSnapshot) (remaining : UInt64)
    (d : TreePatch.DecodedEntry) (error : File.Error) : Prop :=
  d.operation = .fileDelta ∧ ∃ base header, TreePatch.sourceFile source d.path = .ok base ∧
    Oversized native base.bytes d.payload remaining header ∧
    File.apply native base.bytes d.payload 0 = .error error

lemma applyEntry_agree (source : Directory.CanonicalSnapshot) {maxOutputBytes : Nat}
    {s : List Directory.Entry × UInt64} {z : List Entry × Nat} {d : TreePatch.DecodedEntry}
    (hmode : ∃ mode, Directory.Mode.fromBits d.mode = .ok mode)
    (hlink : d.operation = .symlink → d.mode = Directory.Mode.link.bits)
    (h : Tracks maxOutputBytes s z) :
    Agree TreePatch.Error.name (Tracks maxOutputBytes) (TreePatch.rebuildEntry native source s d)
        (applyEntry native (source.snapshot.entries.map Entry.of) maxOutputBytes z
          (EncodedEntry.of d)) ∨
      ∃ e, OversizedEntry native source s.2 d e ∧
        TreePatch.rebuildEntry native source s d = .error .limitExceeded ∧
        applyEntry native (source.snapshot.entries.map Entry.of) maxOutputBytes z
          (EncodedEntry.of d) = .error e.name := by
  obtain ⟨built, remaining⟩ := s
  obtain ⟨zbuilt, outputBytes⟩ := z
  obtain ⟨hentries, hbudget⟩ := h
  have hentries : zbuilt = built.map Entry.of := hentries
  have hbudget : outputBytes + remaining.toNat = maxOutputBytes := hbudget
  subst hentries
  obtain ⟨mode, hm⟩ := hmode
  have hbits : d.mode = mode.bits := Directory.Mode.fromBits_eq_ok.mp hm
  have hmodeOk : (Directory.Mode.fromBits d.mode).mapError TreePatch.Error.snapshot = .ok mode :=
    mapError_eq_ok.mpr hm
  rw [TreePatch.rebuildEntry, TreePatch.rebuild, hmodeOk, ok_bind, applyEntry, entryData]
  have hfile : ∀ bytes, Entry.of ⟨d.path, .file mode bytes, d.metadata⟩
      = ⟨d.path, .file, d.mode, bytes.bytes, d.metadata.metadata⟩ := by
    intro bytes
    rw [Entry.of_eq, hbits]
    rfl
  dsimp only [EncodedEntry.of]
  cases hop : d.operation with
  | directory =>
    left
    refine Agree.ok ⟨?_, hbudget⟩
    rw [List.map_append, List.map_singleton, Entry.of_eq, hbits]
    rfl
  | symlink =>
    left
    have hof : ∀ bytes, Entry.of ⟨d.path, .symlink bytes, d.metadata⟩
        = ⟨d.path, .symlink, d.mode, bytes.bytes, d.metadata.metadata⟩ := by
      intro bytes
      rw [Entry.of_eq, hlink hop]
      rfl
    exact round_agree hbudget built hof (fun _ => d.payload) (x := .ok ()) (Agree.ok rfl)
  | fileRaw =>
    left
    exact round_agree hbudget built hfile (fun _ => d.payload) (x := .ok ()) (Agree.ok rfl)
  | fileCopy =>
    left
    refine round_agree hbudget built hfile Slice.bytes ?_
    exact (sourceFile_agree source d.path).map_right fun bytes old hdata => by rw [hdata]
  | fileDelta =>
    by_cases hover : ∃ base header, TreePatch.sourceFile source d.path = .ok base ∧
        Oversized native base.bytes d.payload remaining header
    · obtain ⟨base, header, hbase, hover⟩ := hover
      obtain ⟨old, hold, hdata⟩ := (sourceFile_agree source d.path).exists_ok hbase
      have hrefused := delta_of_oversized hover
      have hfileOp : Agree File.Error.name Eq (File.apply native base.bytes d.payload 0) _ :=
        applyLimited_agree base.bytes d.payload 0
      simp only [hbase, hold, hrefused, ok_bind, error_bind, patchFile, hdata]
      cases happly : File.apply native base.bytes d.payload 0 with
      | error e =>
        right
        refine ⟨e, ⟨hop, base, header, hbase, hover, happly⟩, trivial, ?_⟩
        rw [hfileOp.error_eq happly]
        rfl
      | ok output =>
        left
        have hlong := length_of_oversized hover happly
        obtain ⟨output', houtput, rfl⟩ := hfileOp.exists_ok happly
        rw [houtput, ok_bind, ok_bind, ensure, if_neg (by dsimp only; omega)]
        rfl
    · left
      have hdelta : Agree TreePatch.Error.name (fun bytes p => p = (Directory.Kind.file, bytes))
          (TreePatch.sourceFile source d.path >>= fun base =>
            TreePatch.delta native base.bytes d.payload remaining)
          (sourceEntry (source.snapshot.entries.map Entry.of) d.path >>= fun old =>
            patchFile native old.data d.payload >>= fun data => .ok (.file, data)) := by
        refine (sourceFile_agree source d.path).bind_of_eq fun base old hbase _ hdata => ?_
        have hnot : ∀ header, ¬Oversized native base.bytes d.payload remaining header :=
          fun header hx => hover ⟨base, header, hbase, hx⟩
        rw [delta_of_not_oversized hnot, hdata]
        refine Agree.map_right (R := Eq) ?_ fun _ _ hb => by rw [hb]
        exact (applyLimited_agree _ _ 0).mapError fun _ => rfl
      have hround := round_agree hbudget built hfile id hdelta
      simp only [bind_assoc] at hround ⊢
      exact hround
  | fileHardlink =>
    left
    exact round_agree hbudget built hfile Slice.bytes (linkedFile_agree built d.payload)

/-! ### The loop -/

/-- A run of the loop comes to an oversized delta that the file operation fails on. -/
def OversizedDelta (native : Native) (source : Directory.CanonicalSnapshot)
    (entries : List TreePatch.DecodedEntry) (start : List Directory.Entry × UInt64)
    (error : File.Error) : Prop :=
  ∃ before d after built remaining, entries = before ++ d :: after ∧
    before.foldlM (TreePatch.rebuildEntry native source) start = .ok (built, remaining) ∧
    OversizedEntry native source remaining d error

/-- What the structure check says about the mode of an entry. -/
def ModeOk (d : TreePatch.DecodedEntry) : Prop :=
  (∃ mode, Directory.Mode.fromBits d.mode = .ok mode) ∧
    (d.operation = .symlink → d.mode = Directory.Mode.link.bits)

lemma applyEntries_agree (source : Directory.CanonicalSnapshot) {maxOutputBytes : Nat}
    {ds : List TreePatch.DecodedEntry} {s : List Directory.Entry × UInt64} {z : List Entry × Nat}
    (hmode : ∀ d ∈ ds, ModeOk d) (h : Tracks maxOutputBytes s z) :
    Agree TreePatch.Error.name (Tracks maxOutputBytes)
        (ds.foldlM (TreePatch.rebuildEntry native source) s)
        ((ds.map EncodedEntry.of).foldlM
          (applyEntry native (source.snapshot.entries.map Entry.of) maxOutputBytes) z) ∨
      ∃ e, OversizedDelta native source ds s e ∧
        ds.foldlM (TreePatch.rebuildEntry native source) s = .error .limitExceeded ∧
        (ds.map EncodedEntry.of).foldlM
          (applyEntry native (source.snapshot.entries.map Entry.of) maxOutputBytes) z
            = .error e.name := by
  induction ds generalizing s z with
  | nil => exact .inl (Agree.ok h)
  | cons d ds ih =>
    simp only [List.map_cons, List.foldlM_cons]
    obtain ⟨hm, hl⟩ := hmode d (by simp)
    rcases applyEntry_agree source hm hl h with hstep | ⟨e, hover, hrust, hzig⟩
    · cases hnext : TreePatch.rebuildEntry native source s d with
      | error e =>
        left
        rw [hstep.error_eq hnext]
        exact Agree.error rfl
      | ok s' =>
        obtain ⟨z', hz', htracks⟩ := hstep.exists_ok hnext
        rw [hz', ok_bind, ok_bind]
        rcases ih (fun x hx => hmode x (by simp [hx])) htracks with hrest | ⟨e, hover, hrust, hzig⟩
        · exact .inl hrest
        · right
          obtain ⟨before, d', after, built, remaining, rfl, hrun, hentry⟩ := hover
          refine ⟨e, ⟨d :: before, d', after, built, remaining, rfl, ?_, hentry⟩, hrust, hzig⟩
          rw [List.foldlM_cons, hnext, ok_bind, hrun]
    · right
      refine ⟨e, ⟨[], d, ds, s.1, s.2, rfl, rfl, hover⟩, ?_, ?_⟩
      · rw [hrust, error_bind]
      · rw [hzig, error_bind]

lemma modeOk_of_validate {p : TreePatch.ParsedPatch}
    (h : Directory.validate p.entries = .ok ()) : ∀ d ∈ p.entries, ModeOk d := by
  intro d hd
  obtain ⟨before, after, hsplit⟩ := List.append_of_mem hd
  have hmode := (Directory.entryOk_of_validate h hsplit).mode
  exact ⟨⟨_, dif_pos hmode⟩, TreePatch.mode_of_symlink h d hd⟩

/-! ### The result -/

def OwnedSnapshot.of (s : Directory.CanonicalSnapshot) : OwnedSnapshot :=
  ⟨s.snapshot.entries.map Entry.of, s.snapshot.root.metadata⟩

lemma CollisionFree.mono {blake3 : List UInt8 → Digest} {records records' : List CanonicalMetadata}
    (h : CollisionFree blake3 records) (hsub : ∀ c ∈ records', c ∈ records) :
    CollisionFree blake3 records' :=
  fun a ha b hb => h a (hsub a ha) b (hsub b hb)

/-- The checks behind the loop: one program makes a canonical snapshot and takes its digest, the
other validates the structure and takes the digest of the entries, checking them again. -/
lemma finish_agree {entries : List Directory.Entry} {root : CanonicalMetadata} {targetHash : Digest}
    (hfree : CollisionFree native.blake3 (entries.map Directory.Entry.metadata)) :
    Agree TreePatch.Error.name (fun s z => z = OwnedSnapshot.of s)
      (do
        let result ← (Directory.CanonicalSnapshot.new ⟨entries, root⟩).mapError
          TreePatch.Error.snapshot
        ensure (result.hash native.blake3 = targetHash) .targetHashMismatch
        .ok result)
      (do
        (validateSnapshot (entries.map Entry.of)).mapError Directory.Error.name
        let actualTargetHash ← (treeHashWithRoot native.blake3 (entries.map Entry.of)
          root.metadata).mapError Directory.Error.name
        ensure (actualTargetHash = targetHash) .targetHashMismatch
        .ok ⟨entries.map Entry.of, root.metadata⟩) := by
  rw [validateSnapshot_of, treeHashWithRoot_eq (validateMetadataRelations_of hfree)]
  cases hnew : Directory.CanonicalSnapshot.new ⟨entries, root⟩ with
  | ok c =>
    have hc := Directory.CanonicalSnapshot.new_eq_ok.mp hnew
    have hvalid := c.isValid.structure_
    rw [hc] at hvalid
    have hof : OwnedSnapshot.of c = ⟨entries.map Entry.of, root.metadata⟩ := by
      rw [OwnedSnapshot.of, hc]
    rw [hvalid]
    exact Agree.ensure_bind Iff.rfl rfl fun _ => Agree.ok hof.symm
  | error e =>
    cases hvalid : Directory.validate entries with
    | ok u => rfl
    | error e' =>
      have hmap := map_newSnapshot ⟨entries, root⟩ fun _ => ()
      rw [hnew, Directory.Snapshot.check, hvalid] at hmap
      obtain rfl := Except.error.inj hmap
      rfl

variable {pcre2 : Pcre2}

lemma expandPatch_agree (source : Directory.CanonicalSnapshot) {p : TreePatch.ParsedPatch}
    (maxOutputBytes : UInt64) (hvalid : Directory.validate p.entries = .ok ())
    (hfree : CollisionFree native.blake3 (p.entries.map TreePatch.DecodedEntry.metadata)) :
    Agree TreePatch.Error.name (fun s z => z = OwnedSnapshot.of s)
        (TreePatch.expand native source p maxOutputBytes)
        (expandPatch native (source.snapshot.entries.map Entry.of) (DecodedPatch.of p)
          maxOutputBytes.toNat source.snapshot.root.metadata) ∨
      ∃ e, OversizedDelta native source p.entries ([], maxOutputBytes) e ∧
        TreePatch.expand native source p maxOutputBytes = .error .limitExceeded ∧
        expandPatch native (source.snapshot.entries.map Entry.of) (DecodedPatch.of p)
          maxOutputBytes.toNat source.snapshot.root.metadata = .error e.name := by
  have hhash : treeHashWithRoot native.blake3 _ _ = _ :=
    treeHashWithRoot_canonical (source.retain p.header.mask)
  have hmasked : maskedSnapshot (source.snapshot.entries.map Entry.of) (DecodedPatch.of p).omit_
      = .ok ((source.retain p.header.mask).snapshot.entries.map Entry.of) := maskedSnapshot_of _ _
  have hroot : canonicalize source.snapshot.root.metadata (DecodedPatch.of p).omit_
      = .ok (source.retain p.header.mask).snapshot.root.metadata := canonicalize_eq _ _
  rw [TreePatch.expand, expandPatch, TreePatch.masked_eq, hmasked, hroot, mapError_ok, mapError_ok,
    ok_bind, ok_bind, ok_bind, hhash, mapError_ok, ok_bind]
  by_cases heq : (source.retain p.header.mask).hash native.blake3 = p.header.sourceHash
  · have hzig : (source.retain p.header.mask).hash native.blake3 = (DecodedPatch.of p).sourceHash :=
      heq
    rw [ensure_pos heq, ensure_pos hzig, ok_bind, ok_bind]
    rcases applyEntries_agree source (modeOk_of_validate hvalid)
        (⟨rfl, Nat.zero_add _⟩ : Tracks maxOutputBytes.toNat ([], maxOutputBytes) ([], 0))
      with hrun | ⟨e, hover, hrust, hloop⟩
    · left
      refine hrun.bind_of_eq fun s z hs _ htracks => ?_
      obtain ⟨entries, left_⟩ := s
      obtain ⟨zentries, outputBytes⟩ := z
      have hentries : zentries = entries.map Entry.of := htracks.entries
      subst hentries
      obtain ⟨es, rfl, hes, -⟩ :=
        TreePatch.rebuilds_of_foldlM (TreePatch.mode_of_symlink hvalid) hs
      refine finish_agree (hfree.mono ?_)
      intro c hc
      obtain ⟨e, he, rfl⟩ := List.mem_map.mp hc
      obtain ⟨d, hd, hmeta⟩ := hes.metadata_mem (by simpa using he)
      rw [hmeta]
      exact List.mem_map_of_mem hd
    · right
      refine ⟨e, hover, by rw [hrust, error_bind], ?_⟩
      change (((p.entries.map EncodedEntry.of).foldlM _ _) >>= _) = _
      rw [hloop, error_bind]
  · left
    have hzig : (source.retain p.header.mask).hash native.blake3 ≠ (DecodedPatch.of p).sourceHash :=
      heq
    rw [ensure_neg heq, ensure_neg hzig]
    rfl

/-! ### Whole patches -/

section Whole

variable (native) (pcre2) (source : Directory.CanonicalSnapshot) (patch : List UInt8)
  (limits : TreePatch.ApplyLimits)

/-- The native program on the inputs of the other one. -/
def applyPatchOf : Except Error OwnedSnapshot :=
  applyPatchRoot native pcre2 (source.snapshot.entries.map Entry.of) patch
    (Limits.of limits.patch limits.maxOutputBytes.toNat) source.snapshot.root.metadata

/-- The programs rebuild the same snapshots and fail alike, up to a delta that one of them refuses
for its length and the other fails to decompress. -/
def AppliesAlike : Prop :=
  (∀ z, applyPatchOf native pcre2 source patch limits = .ok z ↔
    ∃ s, TreePatch.apply native source patch limits = .ok s ∧ z = OwnedSnapshot.of s) ∧
  ∀ e, applyPatchOf native pcre2 source patch limits = .error e →
    ∃ r, TreePatch.apply native source patch limits = .error r ∧ (r.name = e ∨
      r = .limitExceeded ∧ ∃ p error,
        TreePatch.ParsedPatch.decode native.blake3 patch limits.patch = .ok p ∧
        OversizedDelta native source p.entries ([], limits.maxOutputBytes) error ∧ error.name = e)

variable {native pcre2 source patch limits}

lemma appliesAlike_of_compiles
    (hfree : ∀ p, TreePatch.ParsedPatch.decode native.blake3 patch limits.patch = .ok p →
      CollisionFree native.blake3 (p.entries.map TreePatch.DecodedEntry.metadata))
    (hne : Filter.compile pcre2 ((rulesIn native.blake3 patch limits.patch).map Rule.of)
      ≠ .error .compileFailed) :
    AppliesAlike native pcre2 source patch limits := by
  have hagree : ∀ {x : Except TreePatch.Error Directory.CanonicalSnapshot}
      {y : Except Error OwnedSnapshot},
      Agree TreePatch.Error.name (fun s z => z = OwnedSnapshot.of s) x y →
      (∀ z, y = .ok z ↔ ∃ s, x = .ok s ∧ z = OwnedSnapshot.of s) ∧
        ∀ e, y = .error e → ∃ r, x = .error r ∧ r.name = e := by
    intro x y hxy
    cases x with
    | ok s =>
      obtain ⟨z, rfl, rfl⟩ := hxy.exists_ok rfl
      simp [eq_comm]
    | error r =>
      rw [hxy.error_eq rfl]
      simp
  have hdecode : Agree TreePatch.Error.name (fun p z => z = DecodedPatch.of p) _
      (decodePatch pcre2 native.blake3 patch
        (Limits.of limits.patch limits.maxOutputBytes.toNat)) := decodePatch_agree hne
  rw [AppliesAlike, applyPatchOf, applyPatchRoot, TreePatch.apply]
  cases hp : TreePatch.ParsedPatch.decode native.blake3 patch limits.patch with
  | error r =>
    rw [hdecode.error_eq hp]
    simp [error_bind]
  | ok p =>
    obtain ⟨decoded, hdecoded, rfl⟩ := hdecode.exists_ok hp
    have hvalid := (TreePatch.ParsedPatch.decode_eq_ok.mp hp).2.structure_
    rw [hdecoded, ok_bind, ok_bind]
    rcases expandPatch_agree source limits.maxOutputBytes hvalid
        (hfree p hp) with hrun | ⟨error, hover, hrust, hzig⟩
    · obtain ⟨hok, herror⟩ := hagree hrun
      refine ⟨hok, fun e he => ?_⟩
      obtain ⟨r, hr, hname⟩ := herror e he
      exact ⟨r, hr, .inl hname⟩
    · have hlimit : (Limits.of limits.patch limits.maxOutputBytes.toNat).maxOutputBytes
          = limits.maxOutputBytes.toNat := rfl
      rw [hlimit, hrust, hzig]
      refine ⟨by simp, fun e he => ?_⟩
      exact ⟨_, rfl, .inr ⟨rfl, p, error, rfl, hover, Except.error.inj he⟩⟩

/-- No error of the other program is called like the refusal of a pattern. -/
lemma name_ne_compileFailed (r : TreePatch.Error) : r.name ≠ .compileFailed := by
  have hdirectory : ∀ e : Directory.Error, e.name ≠ .compileFailed := by
    intro e
    cases e <;> simp [Directory.Error.name]
  have hmetadata : ∀ e : Metadata.Error, e.name ≠ .compileFailed := by
    intro e
    cases e <;> simp [Metadata.Error.name]
  have hfile : ∀ e : File.Error, e.name ≠ .compileFailed := by
    intro e
    cases e <;> simp [File.Error.name]
  have hfilter : ∀ e : PathFilter.Error, e.name ≠ .compileFailed := by
    intro e
    cases e with
    | path e => exact hdirectory e
    | emptyPattern => simp [PathFilter.Error.name]
    | outOfMemory => simp [PathFilter.Error.name]
  cases r with
  | metadata e => exact hmetadata e
  | snapshot e => exact hdirectory e
  | filter e => exact hfilter e
  | file e => exact hfile e
  | _ => simp [TreePatch.Error.name]

lemma not_appliesAlike_of_compileFailed
    (h : Filter.compile pcre2 ((rulesIn native.blake3 patch limits.patch).map Rule.of)
      = .error .compileFailed) :
    ¬AppliesAlike native pcre2 source patch limits := by
  intro halike
  have hzig : applyPatchOf native pcre2 source patch limits = .error .compileFailed := by
    rw [applyPatchOf, applyPatchRoot, decodePatch_compileFailed h, error_bind]
  obtain ⟨r, -, hname | ⟨-, p, error, -, -, hname⟩⟩ := halike.2 _ hzig
  · exact name_ne_compileFailed r hname
  · exact name_ne_compileFailed (.file error) hname

/-- The programs apply a patch alike exactly if the library takes the pattern of every rule in it, up
to the first that is empty: no class is spelled like a POSIX class, and no expression is too large. -/
theorem appliesAlike_iff {fits : List UInt8 → Prop} (hdoc : pcre2.Documented fits)
    (hfree : ∀ p, TreePatch.ParsedPatch.decode native.blake3 patch limits.patch = .ok p →
      CollisionFree native.blake3 (p.entries.map TreePatch.DecodedEntry.metadata)) :
    AppliesAlike native pcre2 source patch limits ↔
      ¬RefusedRules fits (rulesIn native.blake3 patch limits.patch) := by
  rw [← hdoc.compileFailed_iff]
  constructor
  · intro halike hfailed
    exact not_appliesAlike_of_compileFailed hfailed halike
  · exact appliesAlike_of_compiles hfree

end Whole

/-- What `apply` is given in the two patches below. -/
def smallLimits : TreePatch.ApplyLimits := ⟨TreePatch.Limits.default, 0⟩

theorem appliesAlike_letter : Pcre2.reference.Documented Short ∧
    AppliesAlike (File.stored (ruleDigests "a" letterChecksum)) Pcre2.reference
      Directory.CanonicalSnapshot.default letterPatch smallLimits := by
  have hentries : ∀ p, TreePatch.ParsedPatch.decode letterHash letterPatch
      TreePatch.Limits.default = .ok p → p.entries = [] := by
    intro p hp
    have hmap : (TreePatch.ParsedPatch.decode letterHash letterPatch
        TreePatch.Limits.default).toOption.all fun p => p.entries.isEmpty := by decide +kernel
    rw [hp] at hmap
    exact List.isEmpty_iff.mp hmap
  have hdoc := Pcre2.documented_reference
  refine ⟨hdoc, (appliesAlike_iff hdoc fun p hp => ?_).mpr ?_⟩
  · rw [hentries p hp]
    intro a ha
    simp at ha
  · rintro ⟨before, rule, after, heq, -, hrefused⟩
    have hmem : rule ∈ rulesIn letterHash letterPatch TreePatch.Limits.default := by
      rw [show rulesIn letterHash letterPatch TreePatch.Limits.default = _ from heq]
      simp
    rw [rulesIn_letterPatch, List.mem_singleton] at hmem
    have hsplit : (⟨.include_, "a"⟩ : PathFilter.Rule).split.2 = ['a'] := by decide
    rw [hmem, hsplit] at hrefused
    exact hrefused regular_letter

/-- The BLAKE3 checksum of the patch with the pattern `[:a:]`. -/
def posixChecksum : Digest :=
  ⟨File.ofHex "b73aee3bb8a02325d7fd3fede536f709cdcc9856de90638604aa0bf5ae7eab2d".toList, by decide⟩

def posixPatch : List UInt8 := rulePatch "[:a:]" posixChecksum

def posixNative : Native := File.stored (ruleDigests "[:a:]" posixChecksum)

/-- A patch between empty trees with the rule to include `[:a:]`: one program applies it, the other
refuses it. -/
theorem apply_differs : Pcre2.reference.Documented Short ∧
    (TreePatch.apply posixNative Directory.CanonicalSnapshot.default posixPatch
      smallLimits).toOption.isSome = true ∧
    applyPatchOf posixNative Pcre2.reference Directory.CanonicalSnapshot.default posixPatch
      smallLimits = .error .compileFailed ∧
    ¬AppliesAlike posixNative Pcre2.reference Directory.CanonicalSnapshot.default posixPatch
      smallLimits := by
  have hrules : rulesIn posixNative.blake3 posixPatch smallLimits.patch
      = [⟨.include_, "[:a:]"⟩] := by decide +kernel
  have hfailed : Filter.compile Pcre2.reference
      ((rulesIn posixNative.blake3 posixPatch smallLimits.patch).map Rule.of)
        = .error .compileFailed := by
    rw [hrules, Pcre2.documented_reference.compileFailed_iff]
    have hsplit : (⟨.include_, "[:a:]"⟩ : PathFilter.Rule).split.2 = ['[', ':', 'a', ':', ']'] := by
      decide
    refine refusedRules_cons.mpr ⟨by rw [hsplit]; simp, .inl fun hregular => hregular.1 ?_⟩
    exact hsplit ▸ hasPosixClass_posix
  refine ⟨Pcre2.documented_reference, by decide +kernel, ?_,
    not_appliesAlike_of_compileFailed hfailed⟩
  rw [applyPatchOf, applyPatchRoot, decodePatch_compileFailed hfailed, error_bind]

end Zig

end Difz
