import Difz.Tree.Encode

/-!
# Applying a tree patch

The expansion of a parsed patch against a source (`rust/src/tree_patch_apply.rs`): entry by entry,
under an output budget, each entry from its payload, from the source, or from an entry rebuilt
before it. `Rebuilds` says what a whole run of the loop produces.
-/

namespace Difz

open Wire Metadata Directory

namespace TreePatch

structure ApplyLimits where
  patch : Limits
  maxOutputBytes : UInt64

def ApplyLimits.default : ApplyLimits := ⟨Limits.default, UInt64.ofNat (64 * 2 ^ 30)⟩

variable (native : Native)

/-- Take the bytes from the budget. What the budget covers has a length a slice can have. -/
def account (remaining : UInt64) (bytes : List UInt8) : Except Error (Slice × UInt64) :=
  if h : bytes.length ≤ remaining.toNat then
    .ok (⟨bytes, h.trans_lt remaining.toNat_lt⟩, UInt64.ofNat (remaining.toNat - bytes.length))
  else .error .limitExceeded

/-- A file delta, refused before decompression when its target exceeds the budget. -/
def delta (source patch : List UInt8) (remaining : UInt64) : Except Error (List UInt8) := do
  let (header, _) ← (File.Header.decodePrefix patch).mapError fun e => .file (File.Error.ofHeader e)
  if header.targetLen > remaining then
    if header.sourceLen.toNat ≠ source.length then .error (.file .sizeMismatch)
    else if header.sourceHash ≠ native.blake3 source then .error (.file .sourceHashMismatch)
    else do
      let _ ← (File.windowLog source.length header.targetLen.toNat).mapError Error.file
      .error .limitExceeded
  else (File.apply native source patch 0).mapError Error.file

/-- The bytes of the regular file at a path of the source. -/
def sourceFile (source : CanonicalSnapshot) (path : List UInt8) : Except Error Slice :=
  match contentAt source.snapshot.entries path with
  | none => .error .missingSourceEntry
  | some (.file _ bytes) => .ok bytes
  | some (.directory _) | some (.symlink _) => .error .sourceKindMismatch

/-- The bytes of the file a reference names among the entries rebuilt so far. -/
def linkedFile (built : List Entry) (path : List UInt8) : Except Error Slice :=
  match entryAt built path with
  | none => .error (.snapshot .invalidHardlinkRelation)
  | some target =>
    if target.metadata.metadata.hardlinkTo.isSome then .error (.snapshot .invalidHardlinkRelation)
    else match target.content with
      | .file _ bytes => .ok bytes
      | .directory _ | .symlink _ => .error (.snapshot .invalidHardlinkRelation)

/-- The content of one entry and the budget left after it. -/
def rebuild (source : CanonicalSnapshot) (built : List Entry) (remaining : UInt64)
    (d : DecodedEntry) : Except Error (Content × UInt64) := do
  let mode ← (Mode.fromBits d.mode).mapError Error.snapshot
  match d.operation with
  | .directory => .ok (.directory mode, remaining)
  | .symlink =>
    let (target, remaining) ← account remaining d.payload
    .ok (.symlink target, remaining)
  | .fileRaw =>
    let (bytes, remaining) ← account remaining d.payload
    .ok (.file mode bytes, remaining)
  | .fileCopy =>
    let bytes ← sourceFile source d.path
    let (bytes, remaining) ← account remaining bytes.bytes
    .ok (.file mode bytes, remaining)
  | .fileDelta =>
    let bytes ← sourceFile source d.path
    let bytes ← delta native bytes.bytes d.payload remaining
    let (bytes, remaining) ← account remaining bytes
    .ok (.file mode bytes, remaining)
  | .fileHardlink =>
    let bytes ← linkedFile built d.payload
    let (bytes, remaining) ← account remaining bytes.bytes
    .ok (.file mode bytes, remaining)

/-- One round of the loop. -/
def rebuildEntry (source : CanonicalSnapshot) (state : List Entry × UInt64) (d : DecodedEntry) :
    Except Error (List Entry × UInt64) := do
  let (content, remaining) ← rebuild native source state.1 state.2 d
  .ok (state.1 ++ [⟨d.path, content, d.metadata⟩], remaining)

/-- Expand a parsed patch and check the result. -/
def expand (source : CanonicalSnapshot) (p : ParsedPatch) (maxOutputBytes : UInt64) :
    Except Error CanonicalSnapshot := do
  let projected ← masked source p.header.mask
  ensure (projected.hash native.blake3 = p.header.sourceHash) .sourceHashMismatch
  let (entries, _) ← p.entries.foldlM (rebuildEntry native source) ([], maxOutputBytes)
  let result ← (CanonicalSnapshot.new ⟨entries, p.root⟩).mapError Error.snapshot
  ensure (result.hash native.blake3 = p.header.targetHash) .targetHashMismatch
  .ok result

def apply (source : CanonicalSnapshot) (patch : List UInt8) (limits : ApplyLimits) :
    Except Error CanonicalSnapshot := do
  let p ← ParsedPatch.decode native.blake3 patch limits.patch
  expand native source p limits.maxOutputBytes

/-! ### The budget -/

lemma account_eq_ok {remaining left : UInt64} {bytes : List UInt8} {slice : Slice} :
    account remaining bytes = .ok (slice, left) ↔
      slice.bytes = bytes ∧ left.toNat + bytes.length = remaining.toNat := by
  have hlt := remaining.toNat_lt
  rw [account]
  split_ifs with h
  · have hsub : (UInt64.ofNat (remaining.toNat - bytes.length)).toNat
        = remaining.toNat - bytes.length := UInt64.toNat_ofNat_of_lt' (by
          rw [UInt64.size]
          omega)
    rw [Except.ok.injEq, Prod.mk.injEq, Slice.ext_iff, ← UInt64.toNat_inj, hsub]
    constructor
    · intro hx
      obtain ⟨rfl, hl⟩ := hx
      exact ⟨rfl, by omega⟩
    · intro hx
      obtain ⟨rfl, hl⟩ := hx
      exact ⟨rfl, by omega⟩
  · constructor
    · intro hc
      exact absurd hc (by simp)
    · intro hx
      obtain ⟨-, hl⟩ := hx
      omega

variable {native}

lemma delta_eq_ok {source patch out : List UInt8} {remaining : UInt64}
    (h : delta native source patch remaining = .ok out) :
    File.apply native source patch 0 = .ok out := by
  rw [delta, Wire.bind_eq_ok] at h
  obtain ⟨⟨header, frame⟩, -, h⟩ := h
  dsimp only at h
  split_ifs at h with hgt
  · rw [Wire.bind_eq_ok] at h
    obtain ⟨log, -, h⟩ := h
    exact absurd h (by simp)
  · exact mapError_eq_ok.mp h

/-- A delta made by the encoder gives its target back, or fails for the budget alone. -/
lemma delta_encode (hz : native.Inverts) {source target patch : List UInt8}
    (h : File.encode native source target = .ok patch) (remaining : UInt64) :
    delta native source patch remaining =
      if target.length ≤ remaining.toNat then .ok target else .error .limitExceeded := by
  have happly := File.apply_encode hz h 0
  obtain ⟨hs, ht, frame, -, -, rfl⟩ := File.encode_eq_ok.mp h
  have hsl : (File.headerOf native source target).sourceLen.toNat = source.length :=
    UInt64.toNat_ofNat_of_lt' (hs.trans_lt (by norm_num [Zstdz.maxInputLen, UInt64.size]))
  have htl : (File.headerOf native source target).targetLen.toNat = target.length :=
    UInt64.toNat_ofNat_of_lt' (ht.trans_lt (by norm_num [Zstdz.maxInputLen, UInt64.size]))
  obtain ⟨log, hlog⟩ := File.windowLog_of_le hs ht
  have hmap : ∀ f : File.HeaderError → Error, (Except.ok (File.headerOf native source target, frame)
      : Except File.HeaderError _).mapError f = .ok (File.headerOf native source target, frame) :=
    fun _ => rfl
  rw [delta, File.Header.decodePrefix_eq_ok.mpr rfl, hmap, ok_bind]
  dsimp only
  have hgt : (File.headerOf native source target).targetLen > remaining ↔
      ¬target.length ≤ remaining.toNat := by
    rw [gt_iff_lt, UInt64.lt_iff_toNat_lt, htl, not_le]
  by_cases hle : target.length ≤ remaining.toNat
  · rw [if_neg (fun h => hgt.mp h hle), if_pos hle, happly]
    rfl
  · have hsh : (File.headerOf native source target).sourceHash = native.blake3 source := rfl
    rw [if_pos (hgt.mpr hle), if_neg hle, if_neg (not_not.mpr hsl), if_neg (not_not.mpr hsh), htl,
      hlog]
    rfl

/-! ### What a run rebuilds -/

/-- The content an entry is rebuilt to, given the entries before it. -/
def Rebuilt (native : Native) (source : CanonicalSnapshot) (before : List Entry)
    (d : DecodedEntry) (content : Content) : Prop :=
  content.mode.bits = d.mode ∧
  match d.operation with
  | .directory => ∃ mode, content = .directory mode
  | .symlink => ∃ target : Slice, content = .symlink target ∧ target.bytes = d.payload
  | .fileRaw => ∃ mode, ∃ bytes : Slice, content = .file mode bytes ∧ bytes.bytes = d.payload
  | .fileCopy => ∃ mode bytes, content = .file mode bytes ∧
      ∃ e ∈ source.snapshot.entries, e.path = d.path ∧ ∃ m, e.content = .file m bytes
  | .fileDelta => ∃ mode bytes, content = .file mode bytes ∧
      ∃ e ∈ source.snapshot.entries, e.path = d.path ∧ ∃ m, ∃ base : Slice,
        e.content = .file m base ∧ File.apply native base.bytes d.payload 0 = .ok bytes.bytes
  | .fileHardlink => ∃ mode bytes, content = .file mode bytes ∧
      ∃ e ∈ before, e.path = d.payload ∧ e.metadata.metadata.hardlinkTo = none ∧
        ∃ m, e.content = .file m bytes

lemma sourceFile_eq_ok {source : CanonicalSnapshot} {path : List UInt8} {bytes : Slice}
    (h : sourceFile source path = .ok bytes) :
    ∃ e ∈ source.snapshot.entries, e.path = path ∧ ∃ m, e.content = .file m bytes := by
  rw [sourceFile] at h
  split at h
  · exact absurd h (by simp)
  · next m b hc =>
    obtain rfl := Except.ok.inj h
    obtain ⟨e, he, hec⟩ := Option.map_eq_some_iff.mp hc
    obtain ⟨hmem, hpath⟩ := mem_of_entryAt he
    exact ⟨e, hmem, by rw [← hpath, pathOf_entry], m, hec⟩
  · exact absurd h (by simp)
  · exact absurd h (by simp)

lemma linkedFile_eq_ok {built : List Entry} {path : List UInt8} {bytes : Slice}
    (h : linkedFile built path = .ok bytes) :
    ∃ e ∈ built, e.path = path ∧ e.metadata.metadata.hardlinkTo = none ∧
      ∃ m, e.content = .file m bytes := by
  rw [linkedFile] at h
  split at h
  · exact absurd h (by simp)
  · next e he =>
    rw [ite_error_eq_ok, Option.not_isSome_iff_eq_none] at h
    obtain ⟨hl, h⟩ := h
    obtain ⟨hmem, hpath⟩ := mem_of_entryAt he
    cases hc : e.content with
    | directory m => simp [hc] at h
    | symlink t => simp [hc] at h
    | file m b =>
      simp only [hc, Except.ok.injEq] at h
      exact ⟨e, hmem, by rw [← hpath, pathOf_entry], hl, m, by rw [hc, h]⟩

/-- One entry: its content and its share of the budget. For a symbolic link the mode is the one
every link has. -/
lemma rebuild_eq_ok {source : CanonicalSnapshot} {built : List Entry} {remaining left : UInt64}
    {d : DecodedEntry} {content : Content}
    (hmode : d.operation = .symlink → d.mode = Mode.link.bits)
    (h : rebuild native source built remaining d = .ok (content, left)) :
    Rebuilt native source built d content ∧
      left.toNat + content.bytes.length = remaining.toNat := by
  rw [rebuild, Wire.bind_eq_ok] at h
  obtain ⟨mode, hm, h⟩ := h
  rw [mapError_eq_ok, Mode.fromBits_eq_ok] at hm
  rw [Rebuilt]
  cases hop : d.operation with
  | directory =>
    simp only [hop, Except.ok.injEq, Prod.mk.injEq] at h
    obtain ⟨rfl, rfl⟩ := h
    exact ⟨⟨hm.symm, mode, rfl⟩, by simp [Content.bytes]⟩
  | symlink =>
    simp only [hop, Wire.bind_eq_ok, Prod.exists, account_eq_ok, Except.ok.injEq,
      Prod.mk.injEq] at h
    obtain ⟨t, l, ⟨ht, hl⟩, rfl, rfl⟩ := h
    exact ⟨⟨(hmode hop).symm, t, rfl, ht⟩, by rw [Content.bytes, ht, hl]⟩
  | fileRaw =>
    simp only [hop, Wire.bind_eq_ok, Prod.exists, account_eq_ok, Except.ok.injEq,
      Prod.mk.injEq] at h
    obtain ⟨b, l, ⟨hb, hl⟩, rfl, rfl⟩ := h
    exact ⟨⟨hm.symm, mode, b, rfl, hb⟩, by rw [Content.bytes, hb, hl]⟩
  | fileCopy =>
    simp only [hop, Wire.bind_eq_ok, Prod.exists, account_eq_ok, Except.ok.injEq,
      Prod.mk.injEq] at h
    obtain ⟨b, hb, b', l, ⟨hb', hl⟩, rfl, rfl⟩ := h
    obtain rfl := Slice.ext hb'
    exact ⟨⟨hm.symm, mode, b', rfl, sourceFile_eq_ok hb⟩, hl⟩
  | fileDelta =>
    simp only [hop, Wire.bind_eq_ok, Prod.exists, account_eq_ok, Except.ok.injEq,
      Prod.mk.injEq] at h
    obtain ⟨base, hbase, out, hout, b, l, ⟨rfl, hl⟩, rfl, rfl⟩ := h
    obtain ⟨e, he, hpath, m, hc⟩ := sourceFile_eq_ok hbase
    exact ⟨⟨hm.symm, mode, b, rfl, e, he, hpath, m, base, hc, delta_eq_ok hout⟩, hl⟩
  | fileHardlink =>
    simp only [hop, Wire.bind_eq_ok, Prod.exists, account_eq_ok, Except.ok.injEq,
      Prod.mk.injEq] at h
    obtain ⟨b, hb, b', l, ⟨hb', hl⟩, rfl, rfl⟩ := h
    obtain rfl := Slice.ext hb'
    exact ⟨⟨hm.symm, mode, b', rfl, linkedFile_eq_ok hb⟩, hl⟩

/-- The total content length of a list of entries. -/
def totalBytes (entries : List Entry) : Nat := (entries.map fun e => e.content.bytes.length).sum

@[simp] lemma totalBytes_nil : totalBytes [] = 0 := rfl

@[simp] lemma totalBytes_cons (e : Entry) (es : List Entry) :
    totalBytes (e :: es) = e.content.bytes.length + totalBytes es := by
  simp [totalBytes]

/-- Entries rebuilt one after the other behind those of `before`. -/
inductive Rebuilds (native : Native) (source : CanonicalSnapshot) :
    List Entry → List DecodedEntry → List Entry → Prop
  | nil {before : List Entry} : Rebuilds native source before [] []
  | cons {before : List Entry} {d : DecodedEntry} {ds : List DecodedEntry} {content : Content}
      {es : List Entry} (head : Rebuilt native source before d content)
      (tail : Rebuilds native source (before ++ [⟨d.path, content, d.metadata⟩]) ds es) :
      Rebuilds native source before (d :: ds) (⟨d.path, content, d.metadata⟩ :: es)

/-- A whole run of the loop. -/
lemma rebuilds_of_foldlM {source : CanonicalSnapshot} {ds : List DecodedEntry}
    {built entries : List Entry} {remaining left : UInt64}
    (hmode : ∀ d ∈ ds, d.operation = .symlink → d.mode = Mode.link.bits)
    (h : ds.foldlM (rebuildEntry native source) (built, remaining) = .ok (entries, left)) :
    ∃ es, entries = built ++ es ∧ Rebuilds native source built ds es ∧
      left.toNat + totalBytes es = remaining.toNat := by
  induction ds generalizing built remaining with
  | nil =>
    obtain ⟨rfl, rfl⟩ := Prod.mk.inj (Except.ok.inj h)
    exact ⟨[], by simp, .nil, by simp⟩
  | cons d ds ih =>
    simp only [List.foldlM_cons, rebuildEntry, Wire.bind_eq_ok, Prod.exists, Except.ok.injEq,
      Prod.mk.injEq] at h
    obtain ⟨_, _, ⟨content, left', hc, rfl, rfl⟩, h⟩ := h
    obtain ⟨hrebuilt, hleft⟩ := rebuild_eq_ok (hmode d (by simp)) hc
    obtain ⟨es, rfl, hes, hsum⟩ := ih (fun x hx => hmode x (List.mem_cons_of_mem _ hx)) h
    refine ⟨⟨d.path, content, d.metadata⟩ :: es, by simp, .cons hrebuilt hes, ?_⟩
    rw [totalBytes_cons]
    dsimp only
    omega

lemma Rebuilds.length_eq {source : CanonicalSnapshot} {before es : List Entry}
    {ds : List DecodedEntry} (h : Rebuilds native source before ds es) :
    es.length = ds.length := by
  induction h with
  | nil => rfl
  | cons _ _ ih => simp [ih]

/-- The entry at a position, rebuilt from the ones in front of it. -/
lemma Rebuilds.get {source : CanonicalSnapshot} {before es : List Entry} {ds : List DecodedEntry}
    (h : Rebuilds native source before ds es) {i : Nat} {d : DecodedEntry} {e : Entry}
    (hd : ds[i]? = some d) (he : es[i]? = some e) :
    e.path = d.path ∧ e.metadata = d.metadata ∧
      Rebuilt native source (before ++ es.take i) d e.content := by
  induction h generalizing i with
  | nil => simp at hd
  | cons head tail ih =>
    cases i with
    | zero =>
      obtain rfl := Option.some.inj hd
      obtain rfl := Option.some.inj he
      exact ⟨rfl, rfl, by simpa using head⟩
    | succ i =>
      have := ih (by simpa using hd) (by simpa using he)
      simpa using this

/-! ### The source of a run -/

lemma sourceFile_retain (source : CanonicalSnapshot) (mask : Omit) (path : List UInt8) :
    sourceFile (source.retain mask) path = sourceFile source path := by
  rw [sourceFile, sourceFile, contentAt_retain]

/-- The loop sees no metadata of the source. -/
lemma rebuildEntry_retain (source : CanonicalSnapshot) (mask : Omit) :
    rebuildEntry native (source.retain mask) = rebuildEntry native source := by
  funext state d
  simp only [rebuildEntry, rebuild, sourceFile_retain]

end TreePatch

end Difz
