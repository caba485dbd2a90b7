import Difz.Walk.Capture

/-!
# Capturing a rebuilt directory

Where the native calls give back the modes and records that were restored, the capture of a tree
built from a snapshot is that snapshot, entry by entry: `snapshotDir_rebuilt`. The references are not
read back; they are derived anew from the numbers of the files.
-/

namespace Difz

open Wire

namespace Walk

open Zig (Entry OwnedSnapshot Pcre2 Related validateSnapshot validateMetadataRelations)
open Directory (pathOf)
open Hardlink (Stat assignHardlinks)

/-- The native calls report the modes and the records of the entries, references apart. A family that
is left out has no references. -/
structure ReadsBack (native : Native) (realPath : List UInt8) (omit_ : Zig.Omit)
    (entries : List Entry) : Prop where
  mode : ∀ e ∈ entries, e.kind ≠ .symlink →
    canonicalMode native (native.permissions (absolute realPath (resolve e.path))) e.kind = e.mode
  attributes : ∀ e ∈ entries, native.attributes e.kind (absolute realPath (resolve e.path))
    = { e.meta_ with hardlinkTo := none }
  omitted : omit_.hardlink = true → ∀ e ∈ entries, e.meta_.hardlinkTo = none

section Rebuilt

variable {blake3 : List UInt8 → Digest} {pcre2 : Pcre2} {entries : List Entry} {fs : FileSystem}
  {tree : Forest Name Leaf} {native : Native} {realPath : List UInt8} {omit_ : Zig.Omit}
  {e f : Entry}

lemma Accepted.hardlinkTo_of_kind (h : Accepted blake3 entries) (he : e ∈ entries)
    (hkind : e.kind ≠ .file) : e.meta_.hardlinkTo = none := by
  cases hlink : e.meta_.hardlinkTo with
  | none => rfl
  | some path =>
    obtain ⟨before, after, hsplit⟩ := List.append_of_mem he
    obtain ⟨target, -, hlinks⟩ := h.related.hardlinks before e after hsplit path hlink
    exact absurd hlinks.kind hkind

lemma unlinked_of_none (h : e.meta_.hardlinkTo = none) : unlinked e = e := by
  rw [unlinked, ← h]
  rfl

/-- The walk records every entry without its reference. -/
lemma Rebuilt.recorded_eq (h : Rebuilt blake3 entries fs tree)
    (hreads : ReadsBack native realPath omit_ entries) (he : e ∈ entries)
    (hfits : (absolute realPath (resolve e.path)).length ≤ native.pathMax) :
    recorded (fs.seen native) realPath (resolve e.path) (objectOf entries e)
      = .ok (unlinked e) := by
  obtain ⟨-, hjoined⟩ := h.joined_resolve he
  have hattributes := hreads.attributes e he
  refine recorded_eq_ok.mpr ⟨?_, hfits, ?_⟩
  · rw [hjoined]
    exact Directory.validatePath_eq_ok.mpr (h.structured.paths e he)
  · have hdata := h.structured.kinds e he
    rw [hjoined, objectOf]
    cases hkind : e.kind with
    | directory =>
      have hdirectory : (Directory.View.record e).kind = .directory := hkind
      have hempty : (Directory.View.record e).data = [] := by
        simpa [Directory.validateKind, hdirectory, ite_error_eq_ok] using hdata
      have hmode := hreads.mode e he (by simp [hkind])
      rw [hkind] at hattributes hmode
      rw [entryFor]
      refine congrArg Except.ok ?_
      rw [unlinked, Hardlink.relink, ← hattributes, hkind, ← hmode, show e.data = [] from hempty]
      rfl
    | file =>
      have hmode := hreads.mode e he (by simp [hkind])
      have hinode : (fs.seen native).inode (inodeOf entries e) = ⟨e.data, none⟩ :=
        h.inode_seen he hkind
      rw [hkind] at hattributes hmode
      dsimp only
      rw [entryFor, hinode]
      refine congrArg Except.ok ?_
      rw [unlinked, Hardlink.relink, ← hattributes, hkind, ← hmode]
      have hlink : (native.attributes .file (absolute realPath (resolve e.path))).hardlinkTo
          = none := by rw [hattributes]
      change Entry.mk _ _ _ _ { native.attributes _ _ with hardlinkTo := none } = _
      rw [← hlink]
      rfl
    | symlink =>
      have hsymlink : (Directory.View.record e).kind = .symlink := hkind
      simp only [Directory.validateKind, hsymlink, ite_error_eq_ok, ne_eq, not_not] at hdata
      have hmode : e.mode = 0o777 := hdata.1
      rw [hkind] at hattributes
      refine congrArg Except.ok ?_
      rw [unlinked, Hardlink.relink, ← hattributes, hkind, hmode]
      rfl

/-- The sorted list of the walk has every entry without its reference. -/
lemma Rebuilt.sortEntries_eq (h : Rebuilt blake3 entries fs tree)
    (hreads : ReadsBack native realPath omit_ entries) {listed : List Entry}
    (hfits : Fits native realPath tree)
    (hrun : walk (fs.seen native) [] realPath tree = .ok listed) :
    sortEntries listed = entries.map unlinked := by
  have hsorted : Search.Sorted pathOf (entries.map unlinked) :=
    List.pairwise_map.mpr h.structured.sorted
  refine (sorted_sortEntries (paths_of_walk hrun h.reordered.distinct)).eq_of_mem_iff hsorted
    fun w => ?_
  rw [(sortEntries_perm listed).mem_iff, mem_of_walk hrun, List.mem_map]
  constructor
  · rintro ⟨⟨names, object⟩, ho, hw⟩
    obtain ⟨hnames, e, he, hpath, rfl⟩ := h.mem_objects.mp ho
    have hresolve : resolve e.path = names := by rw [hpath, resolve_joined hnames]
    have hrecord := h.recorded_eq hreads he (hresolve ▸ hfits _ ho)
    rw [hresolve] at hrecord
    exact ⟨e, he, Except.ok.inj (hrecord.symm.trans hw)⟩
  · rintro ⟨e, he, rfl⟩
    exact ⟨_, h.object_mem he, h.recorded_eq hreads he (hfits _ (h.object_mem he))⟩

lemma Accepted.related_unlinked (h : Accepted blake3 entries) :
    Related blake3 (entries.map unlinked) := by
  constructor
  · intro w hw hole hhole
    obtain ⟨e, he, rfl⟩ := List.mem_map.mp hw
    exact h.related.holes e he hole hhole
  · intro before w after hsplit path hlink
    have hw : w ∈ entries.map unlinked := by simp [hsplit]
    obtain ⟨e, -, rfl⟩ := List.mem_map.mp hw
    exact absurd hlink (by simp [unlinked, Hardlink.relink])

/-- An entry is what the passes leave alone and its reference. -/
lemma eq_of_kept (hkept : kept e = kept f) (houtline : outline e = outline f) : e = f := by
  have hkind : e.kind = f.kind := (congrArg Outline.kind houtline :)
  by_cases hfile : e.kind = .file
  · have hlink : e.meta_.hardlinkTo = f.meta_.hardlinkTo := by
      have hlinks := congrArg Outline.hardlinkTo houtline
      simpa only [outline, hfile, hkind.symm.trans hfile, if_true] using hlinks
    rw [kept_of_file hfile, kept_of_file (hkind.symm.trans hfile)] at hkept
    calc e = Hardlink.relink (unlinked e) e.meta_.hardlinkTo := rfl
      _ = Hardlink.relink (unlinked f) f.meta_.hardlinkTo := by rw [hkept, hlink]
      _ = f := rfl
  · rwa [kept, kept, if_neg hfile, if_neg fun hf => hfile (hkind.trans hf)] at hkept

lemma eq_of_map_kept {xs ys : List Entry} (hkept : xs.map kept = ys.map kept)
    (houtline : xs.map outline = ys.map outline) : xs = ys := by
  have hinjective : Function.Injective fun e : Entry => (kept e, outline e) := by
    intro e f h
    obtain ⟨h₁, h₂⟩ := Prod.mk.inj h
    exact eq_of_kept h₁ h₂
  refine List.map_injective_iff.mpr hinjective ?_
  rw [← List.zip_map', ← List.zip_map', hkept, houtline]

/-- The references are those of the entries. -/
lemma Rebuilt.assignUnless_eq (h : Rebuilt blake3 entries fs tree)
    (hreads : ReadsBack native realPath omit_ entries) {stat : List UInt8 → Stat}
    (hreports : Reports tree stat) :
    assignUnless omit_.hardlink stat (entries.map unlinked) = .ok entries := by
  rw [assignUnless]
  split_ifs with homitted
  · rw [List.map_congr_left fun e he => unlinked_of_none (hreads.omitted homitted e he),
      List.map_id']
  · have hrecaptures : List.Forall₂ Recaptures entries (entries.map unlinked) := by
      rw [List.forall₂_map_right_iff, List.forall₂_same]
      exact fun e _ => ⟨rfl, rfl, rfl, fun _ => rfl⟩
    obtain ⟨result, hrun, houtline⟩ := h.assignHardlinks_eq hreports hrecaptures
    have hkept : result.map kept = entries.map kept := by
      rw [map_kept_assignFrom hrun, List.map_map]
      refine List.map_congr_left fun e he => ?_
      by_cases hkind : e.kind = .file
      · have hunlinked : kept (unlinked e) = unlinked (unlinked e) := kept_of_file hkind
        rw [Function.comp_apply, hunlinked, kept_of_file hkind]
        rfl
      · rw [Function.comp_apply, unlinked_of_none (h.hardlinkTo_of_kind he hkind)]
    rw [hrun, eq_of_map_kept hkept houtline]
    rfl

lemma Rebuilt.rebaseUnless_eq (h : Rebuilt blake3 entries fs tree) (omitted : Bool) :
    rebaseUnless omitted entries = entries := by
  rw [rebaseUnless]
  split_ifs
  · rfl
  · rw [Hardlink.rebaseHardlinks_eq h.structured.sorted]
    nth_rewrite 3 [← List.map_id entries]
    exact List.map_congr_left fun e he =>
      Hardlink.rebased_of_whole h.structured.sorted h.related he

/-- What a rebuilt tree is captured as. -/
lemma Rebuilt.snapshotDir_eq (h : Rebuilt blake3 entries fs tree)
    (hreads : ReadsBack native realPath omit_ entries) {root : Dir} (htree : root.tree = tree)
    (hpath : root.realPath = realPath) (hnative : root.native omit_ = fs.seen native)
    (hreports : Reports tree root.stat) (hfits : Fits native realPath tree) :
    snapshotDir blake3 pcre2 root ⟨[], omit_⟩ = .ok ⟨entries, root.rootMeta omit_⟩ := by
  subst htree hpath
  have hseen : Fits (fs.seen native) root.realPath root.tree := hfits
  obtain ⟨-, -, listed, hwalk⟩ := (walk_cases h.listable).resolve_right fun hnot => hnot.1 hseen
  have hsort := h.sortEntries_eq hreads hfits hwalk
  have hsnapshot : validateSnapshot entries = .ok () := by
    rw [Zig.validateSnapshot_eq, Directory.validate_iff_structured]
    exact h.structured
  refine snapshotDir_eq_ok.mpr ⟨listed, entries, entries, ⟨hnative ▸ hwalk, ?_, ?_, ?_, h.related,
    rfl, hsnapshot, ?_⟩, ?_⟩
  · have hsame : (entries.map unlinked).map unlinked = entries.map unlinked := by
      rw [List.map_map]
      rfl
    rw [hsort, validateSnapshot_of_unlinked hsame, hsnapshot]
  · rw [hsort]
    exact h.related_unlinked
  · rw [hsort]
    exact h.assignUnless_eq hreads hreports
  · rw [h.rebaseUnless_eq]
    exact h.related
  · rw [h.rebaseUnless_eq]

/-- What the loop builds from an accepted snapshot is captured as that snapshot, whatever the order
of enumeration, where the native calls give modes and records back and every absolute path fits the
buffer of the walk. -/
theorem snapshotDir_rebuilt (hsnapshot : validateSnapshot entries = .ok ())
    (hrelations : validateMetadataRelations blake3 entries = .ok ()) :
    ∃ fs, writeObjects blake3 entries FileSystem.empty = (.ok [], fs) ∧
      ∀ root : Dir, Reordered fs.tree root.tree → Reports root.tree root.stat →
        ∀ native omit_, root.native omit_ = fs.seen native →
          ReadsBack native root.realPath omit_ entries →
            (Fits native root.realPath root.tree → snapshotDir blake3 pcre2 root ⟨[], omit_⟩
              = .ok ⟨entries, root.rootMeta omit_⟩) ∧
            (¬Fits native root.realPath root.tree →
              snapshotDir blake3 pcre2 root ⟨[], omit_⟩ = .error .nameTooLong) := by
  obtain ⟨fs, hrun, hbuilt⟩ := writeObjects_built hsnapshot hrelations
  refine ⟨fs, hrun, fun root hreordered hreports native omit_ hnative hreads => ?_⟩
  have h : Rebuilt blake3 entries fs root.tree :=
    ⟨accepted hsnapshot hrelations, hbuilt, hreordered⟩
  refine ⟨h.snapshotDir_eq hreads rfl rfl hnative hreports, fun hfits => ?_⟩
  have hseen : ¬Fits (fs.seen native) root.realPath root.tree := hfits
  have hlong := ((walk_cases h.listable).resolve_left fun hyes => hseen hyes.1).2
  rw [snapshotDir, hnative, hlong]
  rfl

end Rebuilt

/-- The modes of the sample entries. -/
def restoredNative : Native :=
  { sampleNative with permissions := fun path => if path = utf8 "/r/a" then 0o755 else 0o644 }

/-- The sample system, enumerated in the order of the sample tree. -/
def restoredDir : Dir :=
  { sampleDir with native := fun _ => sampleSystem.seen restoredNative }

lemma readsBack_restored :
    ReadsBack restoredNative restoredDir.realPath sampleOptions.omit_ sampleEntries := by
  constructor
  · decide +kernel
  · decide +kernel
  · exact fun h => absurd h (by decide)

lemma fits_restored : Fits restoredNative restoredDir.realPath restoredDir.tree := by
  unfold Fits
  decide +kernel

theorem snapshotDir_rebuilt_sample :
    snapshotDir (File.tabulated []) Pcre2.plain restoredDir ⟨[], sampleOptions.omit_⟩
      = .ok ⟨sampleEntries, Metadata.default⟩ := by
  have hrelations : validateMetadataRelations (File.tabulated []) sampleEntries = .ok () := by
    decide +kernel
  obtain ⟨fs, hrun, hall⟩ := snapshotDir_rebuilt (by decide +kernel) hrelations
  obtain rfl : sampleSystem = fs := (Prod.mk.inj (writeObjects_sample.symm.trans hrun)).2
  exact (hall restoredDir reordered_sample reports_sample restoredNative sampleOptions.omit_ rfl
    readsBack_restored).1 fits_restored

end Walk

end Difz
