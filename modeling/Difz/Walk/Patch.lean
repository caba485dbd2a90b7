import Difz.Walk.Recapture
import Difz.Zig.RoundTrip

/-!
# Patches of directories

`createPatchFromDirs` of `src/directory_fs.zig`, and `reconstruct`, what `applyPatchToNewDir` computes
before it writes anything. Both capture the source anew, the second with the rules and the mask that
the patch names, so the way back needs no more than the patch and the directory.

What a capture holds is already masked. A patch therefore rebuilds the capture of its target, not
only a projection of it: `createPatchFromDirs_reconstruct`.
-/

namespace Difz

open Wire

namespace Walk

open Zig (CreateOptions Entry Limits OwnedOptions OwnedSnapshot Pcre2 Related applyPatchRoot
  canonicalize createPatch maskedSnapshot readOptions treeHashWithRoot validateSnapshot
  validateMetadataRelations)

/-! ### The two directions -/

def createPatchFromDirs (native : Difz.Native) (pcre2 : Pcre2) (source target : Dir)
    (options : CreateOptions) : Except CaptureError (List UInt8) := do
  let sourceSnapshot ← snapshotDir native.blake3 pcre2 source ⟨options.rules, options.omit_⟩
  let targetSnapshot ← snapshotDir native.blake3 pcre2 target ⟨options.rules, options.omit_⟩
  let patchOptions : CreateOptions :=
    { options with sourceRoot := sourceSnapshot.rootMeta, targetRoot := targetSnapshot.rootMeta }
  (createPatch native pcre2 sourceSnapshot.entries targetSnapshot.entries patchOptions).mapError
    .named

/-- What an application computes before it writes anything. -/
def reconstruct (native : Difz.Native) (pcre2 : Pcre2) (source : Dir) (patchBytes : List UInt8)
    (limits : Limits) : Except CaptureError (OwnedOptions × OwnedSnapshot) := do
  let owned ← (readOptions pcre2 native.blake3 patchBytes limits).mapError .named
  let sourceSnapshot ← snapshotDir native.blake3 pcre2 source ⟨owned.rules, owned.omit_⟩
  let reconstructed ← (applyPatchRoot native pcre2 sourceSnapshot.entries patchBytes limits
    sourceSnapshot.rootMeta).mapError .named
  .ok (owned, reconstructed)

/-- The last test before the staged directory is published. -/
def verifyStaged (blake3 : List UInt8 → Digest) (pcre2 : Pcre2) (stage : Dir) (omit_ : Zig.Omit)
    (reconstructed : OwnedSnapshot) : Except CaptureError Bool := do
  let staged ← snapshotDir blake3 pcre2 stage ⟨[], omit_⟩
  let expectedHash ← (treeHashWithRoot blake3 reconstructed.entries
    reconstructed.rootMeta).mapError fun error => .named error.name
  let stagedHash ← (treeHashWithRoot blake3 staged.entries
    staged.rootMeta).mapError fun error => .named error.name
  .ok (expectedHash == stagedHash)

/-! ### What the native calls promise -/

/-- The families of the mask are left out of a record. -/
structure LeavesOut (omit_ : Zig.Omit) (m : Metadata) : Prop where
  xattr : omit_.xattr = true → m.xattrs = []
  acl : omit_.acl = true → m.aces = [] ∧ m.nativeAcl = none
  timestamps : omit_.timestamps = true → m.times = Metadata.Times.default
  finder : omit_.finder = true → m.finderFlags = 0 ∧ m.finderInfo = none
  sparse : omit_.sparse = true → m.holes = []
  hardlink : omit_.hardlink = true → m.hardlinkTo = none

/-- What the walk records of some object of the directory. -/
def Records (root : Dir) (omit_ : Zig.Omit) (e : Entry) : Prop :=
  ∃ o ∈ root.tree.objects [], recorded (root.native omit_) root.realPath o.1 o.2 = .ok e

/-- The records of a directory are canonical and leave out what the mask names, its contents have a
length, and the digest tells the records apart. -/
structure Readable (blake3 : List UInt8 → Digest) (root : Dir) (omit_ : Zig.Omit) : Prop where
  distinct : root.tree.Distinct
  valid : ∀ e, Records root omit_ e → e.shared.Valid
  leavesOut : ∀ e, Records root omit_ e → LeavesOut omit_ e.meta_
  length : ∀ e, Records root omit_ e → e.data.length < 2 ^ 64
  tellsApart : ∀ e f, Records root omit_ e → Records root omit_ f → ∀ mask : Metadata.Omit,
    Zig.canonicalHash blake3 (e.shared.retain mask) = Zig.canonicalHash blake3 (f.shared.retain mask) →
      e.shared.retain mask = f.shared.retain mask
  rootValid : (root.rootMeta omit_).Valid
  rootLeavesOut : LeavesOut omit_ (root.rootMeta omit_)
  rootHoles : (root.rootMeta omit_).holes = []
  rootLink : (root.rootMeta omit_).hardlinkTo = none

/-- A record without the families of the mask is canonical as it is. -/
lemma LeavesOut.canonicalize_eq {omit_ : Zig.Omit} {m : Metadata} (h : LeavesOut omit_ m)
    (hvalid : m.Valid) : canonicalize m omit_ = .ok m := by
  obtain ⟨mask, rfl⟩ := omit_.exists_mask
  have hcanonical := Zig.canonicalize_eq ⟨m, Metadata.validate_eq_ok.mpr hvalid⟩ mask
  have hretain : m.retain mask = m := by
    rw [Metadata.retain_eq]
    obtain ⟨xattrs, aces, nativeAcl, times, finderFlags, finderInfo, holes, hardlinkTo⟩ := m
    simp only [Metadata.mk.injEq, ite_eq_right_iff]
    exact ⟨fun hx => (h.xattr hx).symm, fun ha => (h.acl ha).1.symm, fun ha => (h.acl ha).2.symm,
      fun ht => (h.timestamps ht).symm, fun hf => (h.finder hf).1.symm,
      fun hf => (h.finder hf).2.symm, fun hs => (h.sparse hs).symm, fun hl => (h.hardlink hl).symm⟩
  rw [hretain] at hcanonical
  exact hcanonical

lemma maskedSnapshot_eq_self {omit_ : Zig.Omit} {entries : List Entry}
    (h : ∀ e ∈ entries, canonicalize e.meta_ omit_ = .ok e.meta_) :
    maskedSnapshot entries omit_ = .ok entries := by
  rw [maskedSnapshot]
  induction entries with
  | nil => rfl
  | cons e entries ih =>
    rw [List.mapM_cons, h e (by simp), ih fun f hf => h f (by simp [hf])]
    rfl

/-! ### What was captured -/

section Captured

variable {blake3 : List UInt8 → Digest} {pcre2 : Pcre2} {root : Dir} {options : SnapshotOptions}
  {s : OwnedSnapshot}

/-- The record of an entry. References are derived only where the family is not left out. -/
lemma exists_record (h : snapshotDir blake3 pcre2 root options = .ok s) {e : Entry}
    (he : e ∈ s.entries) : ∃ r, Records root options.omit_ r ∧ unlinked r = unlinked e ∧
      (options.omit_.hardlink = true → r = e) := by
  obtain ⟨listed, assigned, chosen, hstages, rfl⟩ := snapshotDir_eq_ok.mp h
  have hrecords : ∀ r ∈ sortEntries listed, Records root options.omit_ r := fun r hr =>
    (mem_of_walk hstages.walked).mp ((sortEntries_perm listed).mem_iff.mp hr)
  have hsub := (chooseEntries_spec hstages.structured_assigned hstages.choose).1
  by_cases homitted : options.omit_.hardlink = true
  · have hassigned : sortEntries listed = assigned := by
      have hassign := hstages.assign
      rw [assignUnless, if_pos homitted] at hassign
      exact Except.ok.inj hassign
    have hchosen : e ∈ chosen := by
      rw [rebaseUnless, if_pos homitted] at he
      exact he
    exact ⟨e, hrecords e (hassigned ▸ hsub.mem hchosen), rfl, fun _ => rfl⟩
  · obtain ⟨c, hc, hsame⟩ := exists_unlinked hstages.map_result he
    obtain ⟨r, hr, hrecord⟩ := exists_unlinked hstages.map_assigned (hsub.mem hc)
    exact ⟨r, hrecords r hr, hrecord.trans hsame, fun hyes => absurd hyes homitted⟩

lemma shared_of_unlinked {e f : Entry} (h : unlinked e = unlinked f) : e.shared = f.shared :=
  (congrArg Entry.meta_ h :)

lemma data_of_unlinked {e f : Entry} (h : unlinked e = unlinked f) : e.data = f.data :=
  (congrArg Entry.data h :)

namespace Readable

variable (hread : Readable blake3 root options.omit_)
  (h : snapshotDir blake3 pcre2 root options = .ok s)

include hread h

/-- A capture is sound for the patch layer. -/
theorem sound : Zig.Sound blake3 s := by
  have hroot : s.rootMeta = root.rootMeta options.omit_ := by
    obtain ⟨listed, assigned, chosen, -, rfl⟩ := snapshotDir_eq_ok.mp h
    rfl
  have haccepted : validateSnapshot s.entries = .ok () ∧
      validateMetadataRelations blake3 s.entries = .ok () := by
    obtain ⟨listed, assigned, chosen, hstages, rfl⟩ := snapshotDir_eq_ok.mp h
    exact hstages.accepted
  refine ⟨haccepted.1, haccepted.2, fun e he => ?_, fun e he => ?_, fun e he f hf mask => ?_,
    hroot ▸ hread.rootValid, hroot ▸ hread.rootHoles, hroot ▸ hread.rootLink⟩
  · obtain ⟨r, hr, hsame, -⟩ := exists_record h he
    rw [← shared_of_unlinked hsame]
    exact hread.valid r hr
  · obtain ⟨r, hr, hsame, -⟩ := exists_record h he
    rw [← data_of_unlinked hsame]
    exact hread.length r hr
  · obtain ⟨r, hr, hsame, -⟩ := exists_record h he
    obtain ⟨r', hr', hsame', -⟩ := exists_record h hf
    rw [← shared_of_unlinked hsame, ← shared_of_unlinked hsame']
    exact hread.tellsApart r r' hr hr' mask

lemma entry_leavesOut {e : Entry} (he : e ∈ s.entries) : LeavesOut options.omit_ e.meta_ := by
  obtain ⟨r, hr, hsame, homitted⟩ := exists_record h he
  have hshared : r.shared = e.shared := shared_of_unlinked hsame
  have hleaves := hread.leavesOut r hr
  have hxattrs : r.meta_.xattrs = e.meta_.xattrs := (congrArg Metadata.xattrs hshared :)
  have haces : r.meta_.aces = e.meta_.aces := (congrArg Metadata.aces hshared :)
  have hacl : r.meta_.nativeAcl = e.meta_.nativeAcl := (congrArg Metadata.nativeAcl hshared :)
  have htimes : r.meta_.times = e.meta_.times := (congrArg Metadata.times hshared :)
  have hflags : r.meta_.finderFlags = e.meta_.finderFlags :=
    (congrArg Metadata.finderFlags hshared :)
  have hinfo : r.meta_.finderInfo = e.meta_.finderInfo := (congrArg Metadata.finderInfo hshared :)
  have hholes : r.meta_.holes = e.meta_.holes := (congrArg Metadata.holes hshared :)
  exact
    { xattr := fun hx => hxattrs ▸ hleaves.xattr hx
      acl := fun ha => ⟨haces ▸ (hleaves.acl ha).1, hacl ▸ (hleaves.acl ha).2⟩
      timestamps := fun ht => htimes ▸ hleaves.timestamps ht
      finder := fun hf => ⟨hflags ▸ (hleaves.finder hf).1, hinfo ▸ (hleaves.finder hf).2⟩
      sparse := fun hs => hholes ▸ hleaves.sparse hs
      hardlink := fun hl => homitted hl ▸ hleaves.hardlink hl }

/-- A capture is masked as it is. -/
theorem masked_eq : s.masked options.omit_ = .ok s := by
  have hsound := hread.sound h
  have hentries : maskedSnapshot s.entries options.omit_ = .ok s.entries :=
    maskedSnapshot_eq_self fun e he =>
      (hread.entry_leavesOut h he).canonicalize_eq (hsound.record he)
  have hleaves : LeavesOut options.omit_ s.rootMeta := by
    obtain ⟨listed, assigned, chosen, -, rfl⟩ := snapshotDir_eq_ok.mp h
    exact hread.rootLeavesOut
  rw [OwnedSnapshot.masked, hentries, hleaves.canonicalize_eq hsound.root]
  rfl

end Readable

end Captured

/-! ### There and back -/

section Patch

variable {native : Difz.Native} {pcre2 : Pcre2} {source target : Dir} {options : CreateOptions}
  {patch : List UInt8} {t : OwnedSnapshot}

lemma createPatchFromDirs_eq_ok :
    createPatchFromDirs native pcre2 source target options = .ok patch ↔ ∃ s t : OwnedSnapshot,
      snapshotDir native.blake3 pcre2 source ⟨options.rules, options.omit_⟩ = .ok s ∧
      snapshotDir native.blake3 pcre2 target ⟨options.rules, options.omit_⟩ = .ok t ∧
      createPatch native pcre2 s.entries t.entries
        ⟨options.rules, options.omit_, s.rootMeta, t.rootMeta⟩ = .ok patch := by
  simp only [createPatchFromDirs, Wire.bind_eq_ok, mapError_eq_ok, ← exists_and_left]

/-- The hash of a sound snapshot is there. -/
lemma exists_treeHash {blake3 : List UInt8 → Digest} {s : OwnedSnapshot} (h : Zig.Sound blake3 s) :
    ∃ digest, treeHashWithRoot blake3 s.entries s.rootMeta = .ok digest := by
  obtain ⟨c, rfl, -⟩ := h.exists_canonical
  exact ⟨_, Zig.treeHashWithRoot_canonical c⟩

/-- A tree that the entries describe is captured as they are and passes the test, where modes and
records come back. -/
lemma verifyStaged_rebuilt {blake3 : List UInt8 → Digest} {s : OwnedSnapshot} {fs : FileSystem}
    {stage : Dir} {omit_ : Zig.Omit} {reads : Native} (hsound : Zig.Sound blake3 s)
    (hbuilt : Built s.entries fs) (hreordered : Reordered fs.tree stage.tree)
    (hreports : Reports stage.tree stage.stat) (hnative : stage.native omit_ = fs.seen reads)
    (hreads : ReadsBack reads stage.realPath omit_ s.entries)
    (hroot : stage.rootMeta omit_ = s.rootMeta) (hfits : Fits reads stage.realPath stage.tree) :
    snapshotDir blake3 pcre2 stage ⟨[], omit_⟩ = .ok s ∧
      verifyStaged blake3 pcre2 stage omit_ s = .ok true := by
  have hrebuilt : Rebuilt blake3 s.entries fs stage.tree :=
    ⟨accepted hsound.snapshot hsound.relations, hbuilt, hreordered⟩
  have hcapture : snapshotDir blake3 pcre2 stage ⟨[], omit_⟩ = .ok s := by
    rw [hrebuilt.snapshotDir_eq hreads rfl rfl hnative hreports hfits, hroot]
  obtain ⟨digest, hdigest⟩ := exists_treeHash hsound
  refine ⟨hcapture, ?_⟩
  rw [verifyStaged, hcapture, ok_bind, hdigest, mapError_ok, ok_bind, ok_bind, beq_self_eq_true]

variable (hz : native.Inverts) (hsource : Readable native.blake3 source options.omit_)
  (htarget : Readable native.blake3 target options.omit_)
  (ht : snapshotDir native.blake3 pcre2 target ⟨options.rules, options.omit_⟩ = .ok t)
  (hshort : t.Short) (h : createPatchFromDirs native pcre2 source target options = .ok patch)

include hz hsource htarget ht hshort h

lemma reconstruct_of_create {other : Forest Name Leaf} (hre : Reordered source.tree other)
    (budget : UInt64) :
    reconstruct native pcre2 { source with tree := other } patch
        { Limits.default with maxOutputBytes := budget.toNat }
      = if t.totalBytes ≤ budget.toNat then .ok (⟨options.rules, options.omit_⟩, t)
        else .error (.named .limitExceeded) := by
  obtain ⟨s, t', hs, ht', hcreate⟩ := createPatchFromDirs_eq_ok.mp h
  obtain rfl : t = t' := Except.ok.inj (ht.symm.trans ht')
  have hmasked := htarget.masked_eq ht
  have hshort' : ∀ masked, t.masked options.omit_ = .ok masked → masked.Short := by
    intro masked heq
    obtain rfl := Except.ok.inj (hmasked.symm.trans heq)
    exact hshort
  obtain ⟨masked, heq, hback⟩ := Zig.createPatch_applies hz (hsource.sound hs) (htarget.sound ht)
    hshort' hcreate
  obtain rfl : t = masked := Except.ok.inj (hmasked.symm.trans heq)
  obtain ⟨hread, happly⟩ := hback budget
  have hcapture := snapshotDir_of_reordered hsource.distinct hre hs
  rw [reconstruct, hread, mapError_ok, ok_bind, hcapture, ok_bind, happly]
  split_ifs <;> rfl

/-- A patch created from two directories is applied to its source, in whatever order that is
enumerated now: the rules and the mask are read back, and what is rebuilt is the capture of the
target, or the budget does not cover it. The loop then writes a tree that is captured as the target
was, so the test before publishing succeeds. -/
theorem createPatchFromDirs_reconstruct :
    (∀ other, Reordered source.tree other → ∀ budget : UInt64,
      reconstruct native pcre2 { source with tree := other } patch
          { Limits.default with maxOutputBytes := budget.toNat }
        = if t.totalBytes ≤ budget.toNat then .ok (⟨options.rules, options.omit_⟩, t)
          else .error (.named .limitExceeded)) ∧
    ∃ fs, writeObjects native.blake3 t.entries FileSystem.empty = (.ok [], fs) ∧
      ∀ stage : Dir, Reordered fs.tree stage.tree → Reports stage.tree stage.stat →
        ∀ reads, stage.native options.omit_ = fs.seen reads →
          ReadsBack reads stage.realPath options.omit_ t.entries →
            stage.rootMeta options.omit_ = t.rootMeta → Fits reads stage.realPath stage.tree →
              snapshotDir native.blake3 pcre2 stage ⟨[], options.omit_⟩ = .ok t ∧
                verifyStaged native.blake3 pcre2 stage options.omit_ t = .ok true := by
  refine ⟨fun other hre budget => reconstruct_of_create hz hsource htarget ht hshort h hre budget,
    ?_⟩
  have hsound := htarget.sound ht
  obtain ⟨fs, hrun, hbuilt⟩ := writeObjects_built hsound.snapshot hsound.relations
  exact ⟨fs, hrun, fun stage hreordered hreports reads hnative hreads hroot hfits =>
    verifyStaged_rebuilt hsound hbuilt hreordered hreports hnative hreads hroot hfits⟩

end Patch

/-! ### From nothing -/

/-- A directory with nothing in it. -/
def emptyDir : Dir := { sampleDir with tree := .nil }

def freshOptions : CreateOptions :=
  ⟨[], sampleOptions.omit_, Metadata.default, Metadata.default⟩

lemma snapshotDir_emptyDir (blake3 : List UInt8 → Digest) (pcre2 : Pcre2) :
    snapshotDir blake3 pcre2 emptyDir ⟨[], sampleOptions.omit_⟩ = .ok ⟨[], Metadata.default⟩ := by
  have hsort : sortEntries [] = [] := (sortEntries_perm []).eq_nil
  refine snapshotDir_eq_ok.mpr ⟨[], [], [], ⟨rfl, ?_, ?_, ?_, ?_, rfl, rfl, ?_⟩, rfl⟩
  · rw [hsort]
    rfl
  · rw [hsort, ← Zig.validateMetadataRelations_eq_ok]
    rfl
  · rw [hsort]
    rfl
  · rw [← Zig.validateMetadataRelations_eq_ok]
    rfl
  · rw [← Zig.validateMetadataRelations_eq_ok]
    rfl

lemma snapshotDir_restoredDir :
    snapshotDir (File.tabulated []) Pcre2.plain restoredDir ⟨[], sampleOptions.omit_⟩
      = .ok ⟨sampleEntries, Metadata.default⟩ := by
  have hrelations : validateMetadataRelations (File.tabulated []) sampleEntries = .ok () := by
    decide +kernel
  have hsnapshot : validateSnapshot sampleEntries = .ok () := by decide +kernel
  obtain ⟨fs, hrun, hbuilt⟩ := writeObjects_built hsnapshot hrelations
  obtain rfl : sampleSystem = fs := (Prod.mk.inj (writeObjects_sample.symm.trans hrun)).2
  exact (Rebuilt.mk (accepted hsnapshot hrelations) hbuilt reordered_sample).snapshotDir_eq
    readsBack_restored rfl rfl rfl reports_sample fits_restored

lemma readable_emptyDir : Readable (File.tabulated []) emptyDir sampleOptions.omit_ := by
  have hnone : ∀ e, ¬Records emptyDir sampleOptions.omit_ e := by
    rintro e ⟨o, ho, -⟩
    exact absurd ho (by simp [emptyDir, Forest.objects])
  refine ⟨trivial, fun e he => absurd he (hnone e), fun e he => absurd he (hnone e),
    fun e he => absurd he (hnone e), fun e _ he => absurd he (hnone e), ?_, ?_, rfl, rfl⟩
  · exact Metadata.validate_eq_ok.mp (by decide)
  · constructor <;> decide

/-- Every record of the sample is the default one. -/
lemma readable_restoredDir : Readable (File.tabulated []) restoredDir sampleOptions.omit_ := by
  have hrecord : ∀ e, Records restoredDir sampleOptions.omit_ e →
      e.meta_ = Metadata.default ∧ e.data.length < 2 ^ 64 := by
    rintro e ⟨o, ho, he⟩
    have hall : ∀ o ∈ restoredDir.tree.objects [],
        (recorded (restoredDir.native sampleOptions.omit_) restoredDir.realPath o.1
          o.2).toOption.all fun e => e.meta_ == Metadata.default && e.data.length < 2 ^ 64 := by
      decide +kernel
    have ho := hall o ho
    rw [he] at ho
    simpa [Except.toOption] using ho
  have hvalid : Metadata.default.Valid := Metadata.validate_eq_ok.mp (by decide)
  have hleaves : LeavesOut sampleOptions.omit_ Metadata.default := by constructor <;> decide
  have hshared : ∀ e, Records restoredDir sampleOptions.omit_ e → e.shared = Metadata.default := by
    intro e he
    rw [Entry.shared, (hrecord e he).1]
    rfl
  refine ⟨distinct_sample, fun e he => hshared e he ▸ hvalid, fun e he => (hrecord e he).1 ▸ hleaves,
    fun e he => (hrecord e he).2, fun e f he hf mask _ => ?_, hvalid, hleaves, rfl, rfl⟩
  rw [hshared e he, hshared f hf]

lemma short_sample : OwnedSnapshot.Short ⟨sampleEntries, Metadata.default⟩ :=
  ⟨by decide +kernel, by decide +kernel⟩

theorem createPatchFromDirs_reconstruct_sample : ∃ patch,
    createPatchFromDirs (File.stored []) Pcre2.plain emptyDir restoredDir freshOptions
      = .ok patch ∧
    reconstruct (File.stored []) Pcre2.plain emptyDir patch Limits.default
      = .ok (⟨[], sampleOptions.omit_⟩, ⟨sampleEntries, Metadata.default⟩) := by
  obtain ⟨patch, hpatch⟩ : ∃ patch, createPatch (File.stored []) Pcre2.plain [] sampleEntries
      freshOptions = .ok patch := by
    have hsome : (createPatch (File.stored []) Pcre2.plain [] sampleEntries
      freshOptions).toOption.isSome := by decide +kernel
    cases hrun : createPatch (File.stored []) Pcre2.plain [] sampleEntries freshOptions with
    | ok patch => exact ⟨patch, rfl⟩
    | error e => simp [hrun, Except.toOption] at hsome
  have hcreate : createPatchFromDirs (File.stored []) Pcre2.plain emptyDir restoredDir freshOptions
      = .ok patch :=
    createPatchFromDirs_eq_ok.mpr ⟨_, _, snapshotDir_emptyDir _ _, snapshotDir_restoredDir, hpatch⟩
  have hsource : Readable (File.stored []).blake3 emptyDir freshOptions.omit_ := readable_emptyDir
  have htarget : Readable (File.stored []).blake3 restoredDir freshOptions.omit_ :=
    readable_restoredDir
  have ht : snapshotDir (File.stored []).blake3 Pcre2.plain restoredDir
      ⟨freshOptions.rules, freshOptions.omit_⟩ = .ok ⟨sampleEntries, Metadata.default⟩ :=
    snapshotDir_restoredDir
  have hback := (createPatchFromDirs_reconstruct (File.stored_inverts []) hsource htarget ht
    short_sample hcreate).1 .nil ⟨trivial, fun _ => rfl⟩ (UInt64.ofNat Limits.default.maxOutputBytes)
  exact ⟨patch, hcreate, hback⟩

end Walk

end Difz
