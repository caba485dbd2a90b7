import Difz.Tree.RoundTrip
import Difz.Zig.Create
import Difz.Zig.Select

/-!
# Patches of the native program apply

`createPatch`, `readOptions` and `applyPatchRoot` of `src/directory_patch.zig` on snapshots of the
native program. Where the digest tells records apart, a snapshot that passes the native checks is a
canonical one in other words, so what is known of the other program carries over: a created patch
names its rules and its mask, and it rebuilds the masked target exactly.
-/

namespace Difz

open Wire

namespace Zig

open Directory (pathOf CanonicalSnapshot)

structure OwnedOptions where
  rules : List Rule
  omit_ : Omit
  deriving DecidableEq

def readOptions (pcre2 : Pcre2) (blake3 : List UInt8 → Digest) (patchBytes : List UInt8)
    (limits : Limits) : Except Error OwnedOptions := do
  let decoded ← decodePatch pcre2 blake3 patchBytes limits
  .ok ⟨decoded.rules, decoded.omit_⟩

/-- A snapshot with families left out, as both programs compare and digest it. -/
def OwnedSnapshot.masked (s : OwnedSnapshot) (omit_ : Omit) :
    Except Metadata.Error OwnedSnapshot := do
  let entries ← maskedSnapshot s.entries omit_
  let rootMeta ← canonicalize s.rootMeta omit_
  .ok ⟨entries, rootMeta⟩

/-- The bytes of all entries, every name of a file counted. -/
def OwnedSnapshot.totalBytes (s : OwnedSnapshot) : Nat := (s.entries.map (·.data.length)).sum

/-- The lengths of the records are words of 32 bits. -/
structure OwnedSnapshot.Short (s : OwnedSnapshot) : Prop where
  entries : ∀ e ∈ s.entries, (encodeCanonical e.meta_).length < 2 ^ 32
  root : (encodeCanonical s.rootMeta).length < 2 ^ 32

/-! ### Rules that compile -/

section Rules

variable {pcre2 : Pcre2}

lemma exists_ruleOf {rule : Rule} {compiled : CompiledRule pcre2}
    (h : rule.compile pcre2 = .ok compiled) : ∃ r : PathFilter.Rule, rule = Rule.of r := by
  obtain ⟨action, pattern⟩ := rule
  rw [Rule.compile, ite_error_eq_ok, ite_error_eq_ok] at h
  have hutf8 : isUtf8 (Rule.split ⟨action, pattern⟩).2 = true := by simpa using h.2.1
  obtain ⟨text, htext⟩ := isUtf8_iff.mp hutf8
  rw [Rule.split] at htext
  split at htext
  · next rest heq =>
    refine ⟨⟨action, "!" ++ text⟩, ?_⟩
    have hpattern : pattern = 0x21 :: rest := heq
    have hbytes : utf8 ("!" ++ text) = 0x21 :: utf8 text := by
      rw [utf8_eq_encodeChars, utf8_eq_encodeChars, String.toList_append]
      rfl
    rw [Rule.of, hbytes, hpattern, show rest = utf8 text from htext]
  · exact ⟨⟨action, text⟩, congrArg (Rule.mk action) htext⟩

/-- Rules that compile have patterns in UTF-8, and the library compiles their translations. -/
lemma exists_rules {rules : List Rule} {filter : Filter pcre2}
    (h : Filter.compile pcre2 rules = .ok filter) :
    ∃ rs : List PathFilter.Rule, rules = rs.map Rule.of ∧ Compiles pcre2 rs := by
  obtain ⟨compiled, hcompiled, -⟩ := Wire.bind_eq_ok.mp h
  clear h
  induction rules generalizing compiled with
  | nil => exact ⟨[], rfl, fun r hr => absurd hr (by simp)⟩
  | cons rule rules ih =>
    obtain ⟨c, cs, hc, hcs, -⟩ : ∃ c cs, rule.compile pcre2 = .ok c ∧
        rules.mapM (Rule.compile pcre2) = .ok cs ∧ compiled = c :: cs := by
      rw [List.mapM_cons] at hcompiled
      obtain ⟨c, hc, hrest⟩ := Wire.bind_eq_ok.mp hcompiled
      obtain ⟨cs, hcs, heq⟩ := Wire.bind_eq_ok.mp hrest
      exact ⟨c, cs, hc, hcs, (Except.ok.inj heq).symm⟩
    obtain ⟨r, rfl⟩ := exists_ruleOf hc
    obtain ⟨rs, rfl, hrs⟩ := ih cs hcs
    refine ⟨r :: rs, rfl, fun r' hr' => ?_⟩
    rcases List.mem_cons.mp hr' with rfl | hr'
    · rw [Rule.compile, Rule.split_of, ite_error_eq_ok, ite_error_eq_ok] at hc
      cases hregex : pcre2.compile (toRegex (encodeChars r'.split.2)) with
      | some regex => rfl
      | none => simp [hregex] at hc
    · exact hrs r' hr'

/-- Every mask of six flags is one of the other program. -/
lemma Omit.exists_mask (omit_ : Omit) : ∃ mask : Metadata.Omit, Omit.of mask = omit_ := by
  have hall : ∀ a b c d e f : Bool,
      (Metadata.Omit.fromBits (Omit.bits ⟨a, b, c, d, e, f⟩)).toOption.map Omit.of
        = some ⟨a, b, c, d, e, f⟩ := by decide +kernel
  obtain ⟨a, b, c, d, e, f⟩ := omit_
  obtain ⟨mask, -, heq⟩ := Option.map_eq_some_iff.mp (hall a b c d e f)
  exact ⟨mask, heq⟩

end Rules

/-! ### Snapshots that are canonical in other words -/

/-- The record of an entry without its reference. -/
def Entry.shared (e : Entry) : Metadata := { e.meta_ with hardlinkTo := none }

/-- A snapshot as the native layer reads it from a directory: it passes the checks, its records are
canonical, its lengths are machine words, and the digest tells the records that may be compared
apart, also with families left out. -/
structure Sound (blake3 : List UInt8 → Digest) (s : OwnedSnapshot) : Prop where
  snapshot : validateSnapshot s.entries = .ok ()
  relations : validateMetadataRelations blake3 s.entries = .ok ()
  records : ∀ e ∈ s.entries, e.shared.Valid
  lengths : ∀ e ∈ s.entries, e.data.length < 2 ^ 64
  tellsApart : ∀ e ∈ s.entries, ∀ f ∈ s.entries, ∀ mask : Metadata.Omit,
    canonicalHash blake3 (e.shared.retain mask) = canonicalHash blake3 (f.shared.retain mask) →
      e.shared.retain mask = f.shared.retain mask
  root : s.rootMeta.Valid
  rootHoles : s.rootMeta.holes = []
  rootLink : s.rootMeta.hardlinkTo = none

section Canonical

variable {blake3 : List UInt8 → Digest} {s : OwnedSnapshot} {e : Entry}

/-- A path an entry can have is one a reference can have. -/
lemma checkHardlink_of_validPath {path : List UInt8} (h : Directory.ValidPath path) :
    Metadata.checkHardlink (some path) = .ok () := by
  have hlength : path.length ≤ 4096 := h.bounded
  have htext := Directory.validateText_eq_ok.mpr h.text
  simp only [Directory.validateText, ite_error_eq_ok, Bool.not_eq_true', Bool.not_eq_false,
    and_true] at htext
  obtain ⟨hutf8, hslash, hback, hnul, hdrive⟩ := htext
  have hparts : ¬(path.splitOn 0x2f).any
      (fun part => part.isEmpty || part == utf8 "." || part == utf8 "..") = true := by
    simp only [List.any_eq_true, not_exists, not_and, Bool.or_eq_true, List.isEmpty_iff, beq_iff_eq,
      not_or, and_assoc]
    exact h.names
  rw [Metadata.checkHardlink, Metadata.validateHardlink, if_neg]
  simp only [Bool.or_eq_true, not_or, List.isEmpty_iff, decide_eq_true_eq, not_lt]
  exact ⟨⟨⟨⟨⟨⟨⟨h.nonempty, hlength⟩, by simp [hutf8]⟩, hslash⟩, hback⟩, hnul⟩,
    by simpa using hdrive⟩, hparts⟩

namespace Sound

lemma structured (h : Sound blake3 s) : Directory.Structured s.entries :=
  structured_of_validateSnapshot h.snapshot

lemma related (h : Sound blake3 s) : Related blake3 s.entries :=
  validateMetadataRelations_eq_ok.mp h.relations

/-- The record is canonical with its reference, which names an entry. -/
lemma record (h : Sound blake3 s) (he : e ∈ s.entries) : e.meta_.Valid := by
  have hshared := h.records e he
  have hlink : Metadata.checkHardlink e.meta_.hardlinkTo = .ok () := by
    cases hlink : e.meta_.hardlinkTo with
    | none => rfl
    | some path =>
      obtain ⟨before, after, hsplit⟩ := List.append_of_mem he
      obtain ⟨target, hat, -⟩ := h.related.hardlinks before e after hsplit path hlink
      obtain ⟨hmem, rfl⟩ := Directory.mem_of_entryAt hat
      exact checkHardlink_of_validPath (h.structured.paths target (by simp [hsplit, hmem]))
  exact ⟨hshared.xattrCount, hshared.xattrs, hshared.aceCount, hshared.aces, hshared.nativeAcl,
    hshared.times, hshared.holeCount, hshared.holes, hlink⟩

lemma exists_entry (h : Sound blake3 s) (he : e ∈ s.entries) :
    ∃ d : Directory.Entry, Entry.of d = e := by
  have hmode : e.mode &&& ~~~0o777 = 0 := h.structured.modes e he
  have hkind := h.structured.kinds e he
  let record : CanonicalMetadata := ⟨e.meta_, Metadata.validate_eq_ok.mpr (h.record he)⟩
  obtain ⟨path, kind, mode, data, meta_⟩ := e
  cases kind with
  | directory =>
    refine ⟨⟨path, .directory ⟨mode, hmode⟩, record⟩, ?_⟩
    have hempty : data = [] := by
      simpa [Directory.validateKind, Directory.View.record, ite_error_eq_ok] using hkind
    rw [hempty]
    rfl
  | file => exact ⟨⟨path, .file ⟨mode, hmode⟩ ⟨data, h.lengths _ he⟩, record⟩, rfl⟩
  | symlink =>
    simp only [Directory.validateKind, Directory.View.record, ite_error_eq_ok, ne_eq,
      not_not] at hkind
    obtain ⟨rfl, -⟩ := hkind
    exact ⟨⟨path, .symlink ⟨data, h.lengths _ he⟩, record⟩, rfl⟩

lemma shared_retain (m : Metadata) (mask : Metadata.Omit) :
    { m.retain mask with hardlinkTo := none } = { m with hardlinkTo := none }.retain mask := by
  rw [Metadata.retain_eq, Metadata.retain_eq]
  simp

lemma collisionFree (h : Sound blake3 s) (mask : Metadata.Omit) {ds : List Directory.Entry}
    (hds : ds.map Entry.of = s.entries) :
    CollisionFree blake3 ((ds.map (Directory.Entry.retain mask)).map Directory.Entry.metadata) := by
  have hinput : ∀ d : Directory.Entry, sharedInput (d.retain mask).metadata
      = utf8 "DIFZMETA\x01" ++ ((Entry.of d).shared.retain mask).wire := by
    intro d
    exact congrArg (fun m : Metadata => utf8 "DIFZMETA\x01" ++ m.wire)
      (shared_retain d.metadata.metadata mask)
  intro a ha b hb hab
  simp only [List.map_map, List.mem_map, Function.comp_apply] at ha hb
  obtain ⟨d, hd, rfl⟩ := ha
  obtain ⟨d', hd', rfl⟩ := hb
  have hmem : ∀ x ∈ ds, Entry.of x ∈ s.entries := fun x hx => hds ▸ List.mem_map_of_mem hx
  rw [hinput, hinput] at hab ⊢
  rw [h.tellsApart _ (hmem d hd) _ (hmem d' hd') mask (by
    rw [canonicalHash_eq_input, canonicalHash_eq_input]
    exact hab)]

/-- It is a canonical snapshot of the other program, entry by entry. -/
theorem exists_canonical (h : Sound blake3 s) : ∃ c : CanonicalSnapshot, OwnedSnapshot.of c = s ∧
    ∀ mask, CollisionFree blake3
      ((c.retain mask).snapshot.entries.map Directory.Entry.metadata) := by
  choose f hf using fun e (he : e ∈ s.entries) => h.exists_entry he
  obtain ⟨ds, hds⟩ : ∃ ds : List Directory.Entry, ds.map Entry.of = s.entries := by
    refine ⟨s.entries.attach.map fun e => f e.1 e.2, ?_⟩
    rw [List.map_map, Function.comp_def]
    simp only [hf, List.attach_map_subtype_val]
  have hfree : CollisionFree blake3 (ds.map Directory.Entry.metadata) := by
    have hretain : ds.map (Directory.Entry.retain Metadata.Omit.default) = ds := by
      refine (List.map_congr_left fun d _ => ?_).trans (List.map_id ds)
      rw [Directory.Entry.retain, CanonicalMetadata.retain_default]
      rfl
    rw [← hretain]
    exact h.collisionFree Metadata.Omit.default hds
  let root : CanonicalMetadata := ⟨s.rootMeta, Metadata.validate_eq_ok.mpr h.root⟩
  have hcheck : (⟨ds, root⟩ : Directory.Snapshot).check = .ok () := by
    have hsnapshot := h.snapshot
    have hrelations := h.relations
    rw [← hds, validateSnapshot_of] at hsnapshot
    rw [← hds, validateMetadataRelations_of hfree] at hrelations
    rw [Directory.Snapshot.check, hsnapshot, ok_bind]
    dsimp only
    rw [hrelations, ok_bind]
    simp [root, h.rootHoles, h.rootLink]
  exact ⟨⟨⟨ds, root⟩, hcheck⟩, congrArg (OwnedSnapshot.mk · s.rootMeta) hds,
    fun mask => h.collisionFree mask hds⟩

end Sound

end Canonical

/-! ### Created patches -/

section Created

variable {native : Native} {pcre2 : Pcre2} {source target : CanonicalSnapshot}
  {options : TreePatch.CreateOptions} {patch : List UInt8}

/-- What the native program writes is what the other one writes. -/
lemma create_of_createPatchOf (hshort : ShortRecords (target.retain options.mask))
    (hpcre : Compiles pcre2 options.rules)
    (h : createPatchOf native pcre2 source target options = .ok patch) :
    TreePatch.create native source target options = .ok patch := by
  have hvalid : ∀ s : CanonicalSnapshot,
      validateSnapshot (s.snapshot.entries.map Entry.of) = .ok () := by
    intro s
    rw [validateSnapshot_of]
    exact s.isValid.structure_
  have hmasked : ∀ s : CanonicalSnapshot,
      maskedSnapshot (s.snapshot.entries.map Entry.of) (Omit.of options.mask)
        = .ok ((s.retain options.mask).snapshot.entries.map Entry.of) := fun s =>
    maskedSnapshot_of s.snapshot.entries options.mask
  have hroot : ∀ s : CanonicalSnapshot,
      canonicalize s.snapshot.root.metadata (Omit.of options.mask)
        = .ok (s.retain options.mask).snapshot.root.metadata := fun s => canonicalize_eq _ _
  rw [createPatchOf, createPatch] at h
  simp only [hvalid, hmasked, hroot, mapError_ok, ok_bind] at h
  rw [TreePatch.create, TreePatch.masked_eq, TreePatch.masked_eq, ok_bind, ok_bind,
    createMasked_eq_ok hshort]
  exact (writePatch_eq_ok hshort hpcre _ _).mp h

/-- A delta that was created is never refused by the file operation. -/
lemma not_oversizedDelta (hz : native.Inverts) {mask : Metadata.Omit}
    {es : List Directory.Entry} {ds : List TreePatch.DecodedEntry}
    (h : List.Forall₂ (TreePatch.Describes native (source.retain mask)) es ds)
    (start : List Directory.Entry × UInt64) (error : File.Error) :
    ¬OversizedDelta native source ds start error := by
  rintro ⟨before, d, after, built, remaining, rfl, -, hop, base, header, hbase, -, herror⟩
  obtain ⟨e, -, hdescribes⟩ := TreePatch.exists_of_forall₂ h (y := d) (by simp)
  rcases hdescribes.operation_cases with ⟨m, -, ho, -⟩ | ⟨t, -, ho, -⟩ | ⟨m, bytes, -, hfile⟩
  · simp [hop] at ho
  · simp [hop] at ho
  · rcases hfile with ⟨link, -, ho, -⟩ | ⟨-, ⟨m, -, ho, -⟩ | ⟨m, previous, hat, -, henc⟩ | ⟨ho, -⟩⟩
    · simp [hop] at ho
    · simp [hop] at ho
    · rw [Directory.contentAt_retain] at hat
      rw [TreePatch.sourceFile, hdescribes.path, hat] at hbase
      obtain rfl := Except.ok.inj hbase
      rw [File.apply_encode hz henc, if_pos (.inl rfl)] at herror
      exact absurd herror (by simp)
    · simp [hop] at ho

lemma rulesIn_of_decode {blake3 : List UInt8 → Digest} {bytes : List UInt8}
    {limits : TreePatch.Limits} {p : TreePatch.ParsedPatch}
    (h : TreePatch.ParsedPatch.decode blake3 bytes limits = .ok p) :
    rulesIn blake3 bytes limits = p.rules := by
  obtain ⟨⟨header, body⟩, hprefix, hrest⟩ := Wire.bind_eq_ok.mp h
  obtain ⟨⟨p', reader⟩, hbody, hrest⟩ := Wire.bind_eq_ok.mp hrest
  simp only [Wire.bind_eq_ok, Except.ok.injEq] at hrest
  obtain ⟨-, -, -, -, rfl⟩ := hrest
  simp only [TreePatch.readBody, Reader.checked, Reader.bind_eq_ok, Reader.pure_eq_ok,
    Reader.lift_eq_ok] at hbody
  obtain ⟨rules, c, ⟨rules', c', hread, -, -, -, rfl, rfl⟩, -, -, -, -, -, -, rfl, -⟩ := hbody
  rw [rulesIn, hprefix]
  dsimp only
  rw [hread]

variable (hz : native.Inverts) (hshort : ShortRecords (target.retain options.mask))
  (hpcre : Compiles pcre2 options.rules)
  (hfree : CollisionFree native.blake3
    ((target.retain options.mask).snapshot.entries.map Directory.Entry.metadata))
  (h : createPatchOf native pcre2 source target options = .ok patch) (budget : UInt64)

include hz hshort hpcre h

/-- The decoder finds the rules and the mask. -/
lemma decodePatch_createPatchOf : ∃ p : TreePatch.ParsedPatch,
    TreePatch.ParsedPatch.decode native.blake3 patch TreePatch.Limits.default = .ok p ∧
      p.rules = options.rules ∧ p.header.mask = options.mask ∧
      decodePatch pcre2 native.blake3 patch (Limits.of TreePatch.Limits.default budget.toNat)
        = .ok (DecodedPatch.of p) := by
  have hcreate := create_of_createPatchOf hshort hpcre h
  obtain ⟨⟨p, hdecode, hrules, hmask⟩, -⟩ := TreePatch.apply_create hz hcreate
  have hne : Filter.compile pcre2
      ((rulesIn native.blake3 patch TreePatch.Limits.default).map Rule.of)
        ≠ .error .compileFailed := by
    rw [rulesIn_of_decode hdecode, hrules]
    exact hpcre.ne_compileFailed
  obtain ⟨_, hzig, rfl⟩ := (decodePatch_agree hne).exists_ok hdecode
  exact ⟨p, hdecode, hrules, hmask, hzig⟩

include hfree

/-- The native program rebuilds the masked target, if the budget covers it. -/
lemma applyPatchRoot_createPatchOf :
    applyPatchRoot native pcre2 (source.snapshot.entries.map Entry.of) patch
        (Limits.of TreePatch.Limits.default budget.toNat) source.snapshot.root.metadata
      = if TreePatch.totalBytes (target.retain options.mask).snapshot.entries ≤ budget.toNat then
          .ok (OwnedSnapshot.of (target.retain options.mask))
        else .error .limitExceeded := by
  have hcreate := create_of_createPatchOf hshort hpcre h
  obtain ⟨p, hdecode, -, -, hzig⟩ := decodePatch_createPatchOf hz hshort hpcre h budget
  have happly := (TreePatch.apply_create hz hcreate).2 budget
  obtain ⟨p', hlayout, hwf, -, -, -, hds⟩ := TreePatch.create_eq_ok hcreate
  obtain rfl : p' = p := by
    have hdecode' := TreePatch.ParsedPatch.decode_eq_ok.mpr ⟨hlayout, hwf⟩
    exact Except.ok.inj (hdecode'.symm.trans hdecode)
  have hrecords : CollisionFree native.blake3
      (p'.entries.map TreePatch.DecodedEntry.metadata) := by
    refine hfree.mono fun c hc => ?_
    obtain ⟨d, hd, rfl⟩ := List.mem_map.mp hc
    obtain ⟨e, he, hdescribes⟩ := TreePatch.exists_of_forall₂ hds hd
    exact List.mem_map.mpr ⟨e, he, hdescribes.metadata.symm⟩
  rw [TreePatch.apply, hdecode, ok_bind] at happly
  rw [applyPatchRoot, hzig, ok_bind]
  rcases expandPatch_agree source budget hwf.structure_ hrecords with hrun | ⟨e, hover, -, -⟩
  · dsimp only at happly
    rw [happly] at hrun
    split_ifs at hrun ⊢
    · obtain ⟨z, hexpand, rfl⟩ := hrun.exists_ok rfl
      exact hexpand
    · exact hrun.error_eq rfl
  · exact absurd hover (not_oversizedDelta hz hds ([], budget) e)

end Created

/-! ### The round trip -/

lemma masked_of (c : CanonicalSnapshot) (mask : Metadata.Omit) :
    (OwnedSnapshot.of c).masked (Omit.of mask) = .ok (OwnedSnapshot.of (c.retain mask)) := by
  have hentries : maskedSnapshot (OwnedSnapshot.of c).entries (Omit.of mask)
      = .ok ((c.retain mask).snapshot.entries.map Entry.of) := maskedSnapshot_of _ _
  have hroot : canonicalize (OwnedSnapshot.of c).rootMeta (Omit.of mask)
      = .ok (c.retain mask).snapshot.root.metadata := canonicalize_eq _ _
  rw [OwnedSnapshot.masked, hentries, hroot]
  rfl

lemma totalBytes_of (c : CanonicalSnapshot) :
    (OwnedSnapshot.of c).totalBytes = TreePatch.totalBytes c.snapshot.entries := by
  rw [OwnedSnapshot.totalBytes, OwnedSnapshot.of, TreePatch.totalBytes, List.map_map]
  refine congrArg List.sum (List.map_congr_left fun e _ => ?_)
  rw [Function.comp_apply, Entry.of_eq]

lemma shortRecords_of {c : CanonicalSnapshot} (h : (OwnedSnapshot.of c).Short) : ShortRecords c := by
  constructor
  · intro e he
    have hshort := h.entries (Entry.of e) (List.mem_map_of_mem he)
    rw [encodeCanonical_eq, Entry.of_eq] at hshort
    exact hshort
  · have hshort := h.root
    rw [encodeCanonical_eq] at hshort
    exact hshort

lemma limits_of_default (budget : Nat) : Limits.of TreePatch.Limits.default budget
    = { Limits.default with maxOutputBytes := budget } := rfl

section RoundTrip

variable {native : Native} {pcre2 : Pcre2} {source target : OwnedSnapshot} {rules : List Rule}
  {omit_ : Omit} {patch : List UInt8}

/-- The rules of a created patch are those of the other program. -/
lemma exists_rules_of_createPatch {sourceEntries targetEntries : List Entry}
    {options : CreateOptions} (h : createPatch native pcre2 sourceEntries targetEntries options
      = .ok patch) :
    ∃ rs : List PathFilter.Rule, options.rules = rs.map Rule.of ∧ Compiles pcre2 rs := by
  simp only [createPatch, writePatch, Wire.bind_eq_ok, ensure_eq_ok] at h
  obtain ⟨_, -, _, -, _, -, _, -, _, -, _, -, _, -, _, -, _, hcompile, -⟩ := h
  rw [compileRules] at hcompile
  split_ifs at hcompile with hlength
  · obtain ⟨filter, hfilter, -⟩ := Wire.bind_eq_ok.mp hcompile
    exact exists_rules hfilter
  · have hnil : options.rules = [] := by simpa using hlength
    exact ⟨[], hnil, fun r hr => absurd hr (by simp)⟩

/-- A patch the native program creates between two sound snapshots names its rules and its mask. It
applies to its source and rebuilds the masked target when the budget covers every content of it, and
fails with `limitExceeded` otherwise. -/
theorem createPatch_applies (hz : native.Inverts) (hsource : Sound native.blake3 source)
    (htarget : Sound native.blake3 target)
    (hshort : ∀ masked, target.masked omit_ = .ok masked → masked.Short)
    (h : createPatch native pcre2 source.entries target.entries
      ⟨rules, omit_, source.rootMeta, target.rootMeta⟩ = .ok patch) :
    ∃ masked, target.masked omit_ = .ok masked ∧ ∀ budget : UInt64,
      readOptions pcre2 native.blake3 patch { Limits.default with maxOutputBytes := budget.toNat }
        = .ok ⟨rules, omit_⟩ ∧
      applyPatchRoot native pcre2 source.entries patch
          { Limits.default with maxOutputBytes := budget.toNat } source.rootMeta
        = if masked.totalBytes ≤ budget.toNat then .ok masked else .error .limitExceeded := by
  obtain ⟨c, rfl, -⟩ := hsource.exists_canonical
  obtain ⟨d, rfl, hfree⟩ := htarget.exists_canonical
  obtain ⟨mask, rfl⟩ := omit_.exists_mask
  obtain ⟨rs, hrules, hpcre⟩ := exists_rules_of_createPatch h
  have hrules : rules = rs.map Rule.of := hrules
  subst hrules
  obtain ⟨options, rfl, rfl⟩ :
      ∃ options : TreePatch.CreateOptions, options.rules = rs ∧ options.mask = mask :=
    ⟨⟨rs, mask⟩, rfl, rfl⟩
  have hrecords : ShortRecords (d.retain options.mask) :=
    shortRecords_of (hshort _ (masked_of d options.mask))
  have hcreate : createPatchOf native pcre2 c d options = .ok patch := h
  refine ⟨_, masked_of d options.mask, fun budget => ?_⟩
  rw [← limits_of_default, totalBytes_of]
  constructor
  · obtain ⟨p, -, hnames, hmask, hdecode⟩ :=
      decodePatch_createPatchOf hz hrecords hpcre hcreate budget
    rw [readOptions, hdecode, ok_bind]
    dsimp only [DecodedPatch.of]
    rw [hnames, hmask]
  · exact applyPatchRoot_createPatchOf hz hrecords hpcre (hfree options.mask) hcreate budget

end RoundTrip

end Zig

end Difz
