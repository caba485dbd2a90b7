import Difz.Directory.Identity
import Difz.Stage.Atomic
import Difz.Walk.Patch

/-!
# What a run publishes

A run of the staged application whose parts are the capture, the reader and the rebuilder of the
other modules. Where the patch was created from directories and the source is still what it was, a
run that ends well has published a directory that is captured as the target was, whatever calls
failed on the way and whoever else was at work in the parent: `published_of_create`.
-/

namespace Difz

open Wire Program

namespace Stage

open Directory (CanonicalSnapshot Snapshot)
open Zig (OwnedSnapshot Pcre2)

/-! ### The parts of a run -/

/-- A snapshot as the native layer holds it. -/
def ownedOf (s : Snapshot) : OwnedSnapshot := ⟨s.entries.map Zig.Entry.of, s.root.metadata⟩

def limitsOf (limits : TreePatch.ApplyLimits) : Zig.Limits :=
  Zig.Limits.of limits.patch limits.maxOutputBytes.toNat

/-- A tree of the run stands for a directory, and what the run gets from the parts it calls is what
they compute from directories and the patch. -/
structure Interprets {Tree : Type} (env : Setting Tree) (dirOf : Tree → Walk.Dir) (native : Native)
    (pcre2 : Pcre2) (patch : List UInt8) (limits : TreePatch.ApplyLimits) : Prop where
  blake3 : env.blake3 = native.blake3
  capture : ∀ options tree s, env.capture options tree = .ok s →
    Walk.snapshotDir native.blake3 pcre2 (dirOf tree)
      ⟨options.rules.map Zig.Rule.of, Zig.Omit.of options.mask⟩ = .ok (ownedOf s)
  readOptions : ∀ options, env.readOptions patch limits = .ok options →
    Zig.readOptions pcre2 native.blake3 patch (limitsOf limits)
      = .ok ⟨options.rules.map Zig.Rule.of, Zig.Omit.of options.mask⟩
  applyPatchRoot : ∀ s result, env.applyPatchRoot s patch limits = .ok result →
    Zig.applyPatchRoot native pcre2 (ownedOf s).entries patch (limitsOf limits) (ownedOf s).rootMeta
      = .ok (ownedOf result)

/-- Two snapshots are equal, or different inputs of their hashes have one digest. -/
def SameUnlessCollision (blake3 : List UInt8 → Digest) (s t : CanonicalSnapshot) : Prop :=
  s = t ∨ ∃ x ∈ s.inputs blake3, ∃ y ∈ t.inputs blake3, x ≠ y ∧ blake3 x = blake3 y

lemma sameUnlessCollision_of_hash {blake3 : List UInt8 → Digest} {s t : CanonicalSnapshot}
    (h : s.hash blake3 = t.hash blake3) : SameUnlessCollision blake3 s t := by
  refine or_iff_not_imp_right.mpr fun hno => ?_
  push Not at hno
  have houter : s.hashInput (CanonicalMetadata.hash blake3)
      = t.hashInput (CanonicalMetadata.hash blake3) := by
    by_contra hne
    exact hno _ (by simp [CanonicalSnapshot.inputs]) _ (by simp [CanonicalSnapshot.inputs]) hne h
  refine CanonicalSnapshot.hashInput_injective (fun a ha b hb hab => ?_) houter
  rw [CanonicalMetadata.hash_eq, CanonicalMetadata.hash_eq] at hab
  by_contra hne
  exact hno _ (List.mem_cons_of_mem _ (List.mem_map_of_mem ha)) _
    (List.mem_cons_of_mem _ (List.mem_map_of_mem hb))
    (fun heq => hne (CanonicalMetadata.wire_injective (List.append_cancel_left heq))) hab

/-! ### The run -/

section Run

variable {Tree : Type} {env : Setting Tree} {dirOf : Tree → Walk.Dir} {native : Native}
  {pcre2 : Pcre2} {output staging : Name} {parent : Name → Option Nat} {content : Nat → Tree}
  {source : Nat} {patch : List UInt8} {limits : TreePatch.ApplyLimits}

/-- How a run that ends well came to its output. -/
lemma verified_of_ok {report : RestoreReport} {w : World Tree}
    (h : applyPatchToNewDir env output (.existing source) staging patch limits
      (World.initial (Disk.initial parent content env.empty)) = (.ok report, w)) :
    ∃ options snapshot reconstructed, env.readOptions patch limits = .ok options ∧
      env.capture options (content source) = .ok snapshot ∧
      env.applyPatchRoot snapshot patch limits = .ok reconstructed ∧
      Verified env output reconstructed options.mask w.disk := by
  have hintruder : ∀ name k,
      (Disk.initial parent content env.empty).parent name ≠ some (.intruder k) := by
    intro name k hk
    obtain ⟨n, -, hn⟩ := parent_initial_eq_some.mp hk
    exact absurd hn (by simp)
  have hclean : Clean (Disk.initial parent content env.empty) := by
    intro name k hk
    obtain ⟨n, -, hn⟩ := parent_initial_eq_some.mp hk
    exact absurd hn (by simp)
  have htriple := applyPatchToNewDir_triple env output staging hintruder source patch limits
  have hstart : At output staging (Disk.initial parent content env.empty) false Clean
      (World.initial (Disk.initial parent content env.empty)) :=
    ⟨sound_initial, hclean, rfl, rfl⟩
  exact (htriple.of_ok hstart h).2

/-- What was rebuilt is what the application computes from the source directory. -/
lemma Interprets.reconstruct_eq (hint : Interprets env dirOf native pcre2 patch limits)
    {tree : Tree}
    {options : SnapshotOptions} {snapshot reconstructed : Snapshot}
    (hoptions : env.readOptions patch limits = .ok options)
    (hsnapshot : env.capture options tree = .ok snapshot)
    (hreconstructed : env.applyPatchRoot snapshot patch limits = .ok reconstructed) :
    Walk.reconstruct native pcre2 (dirOf tree) patch (limitsOf limits)
      = .ok (⟨options.rules.map Zig.Rule.of, Zig.Omit.of options.mask⟩,
          ownedOf reconstructed) := by
  rw [Walk.reconstruct, hint.readOptions _ hoptions, mapError_ok, ok_bind,
    hint.capture _ _ _ hsnapshot, ok_bind, hint.applyPatchRoot _ _ hreconstructed]
  rfl

lemma treeHashWithRoot_eq_ok {s : Snapshot} {digest : Digest}
    (h : treeHashWithRoot env s = .ok digest) :
    ∃ c : CanonicalSnapshot, c.snapshot = s ∧ c.hash env.blake3 = digest := by
  obtain ⟨c, hc, hdigest⟩ := Wire.bind_eq_ok.mp h
  exact ⟨c, Directory.CanonicalSnapshot.new_eq_ok.mp (mapError_eq_ok.mp hc),
    Except.ok.inj hdigest⟩

/-- A run that ends well with a patch created from two directories, on the source of the patch in
whatever order it is enumerated now, has published a directory of its own. The capture of it is the
capture of the target, unless the digest collides on the inputs of their two hashes; and the budget
covers what was written. -/
theorem published_of_create {budget : UInt64}
    (hint : Interprets env dirOf native pcre2 patch ⟨TreePatch.Limits.default, budget⟩)
    (hz : native.Inverts) {original target : Walk.Dir} {options : Zig.CreateOptions}
    {t : OwnedSnapshot}
    (hsource : Walk.Readable native.blake3 original options.omit_)
    (htarget : Walk.Readable native.blake3 target options.omit_)
    (ht : Walk.snapshotDir native.blake3 pcre2 target ⟨options.rules, options.omit_⟩ = .ok t)
    (hshort : t.Short)
    (hcreate : Walk.createPatchFromDirs native pcre2 original target options = .ok patch)
    {other : Forest Walk.Name Walk.Leaf} (hre : Walk.Reordered original.tree other)
    (hcontent : dirOf (content source) = { original with tree := other })
    {report : RestoreReport} {w : World Tree}
    (h : applyPatchToNewDir env output (.existing source) staging patch
      ⟨TreePatch.Limits.default, budget⟩
      (World.initial (Disk.initial parent content env.empty)) = (.ok report, w)) :
    ∃ k, ∃ staged expected : CanonicalSnapshot, w.disk.parent output = some (.created k) ∧
      Walk.snapshotDir native.blake3 pcre2 (dirOf (w.disk.content (.created k)))
        ⟨[], options.omit_⟩ = .ok (OwnedSnapshot.of staged) ∧
      OwnedSnapshot.of expected = t ∧ t.totalBytes ≤ budget.toNat ∧
      SameUnlessCollision native.blake3 staged expected := by
  obtain ⟨read, snapshot, reconstructed, hread, hsnapshot, hreconstructed, k, s, digest, hk,
    hstaged, hexpected, hdigest⟩ := verified_of_ok h
  have hrun := hint.reconstruct_eq hread hsnapshot hreconstructed
  have hlimits : limitsOf ⟨TreePatch.Limits.default, budget⟩
      = { Zig.Limits.default with maxOutputBytes := budget.toNat } :=
    Zig.limits_of_default budget.toNat
  rw [hlimits, hcontent,
    Walk.reconstruct_of_create hz hsource htarget ht hshort hcreate hre budget] at hrun
  split_ifs at hrun with hbudget
  obtain ⟨howned, hresult⟩ := Prod.mk.inj (Except.ok.inj hrun)
  obtain ⟨-, homit⟩ := Zig.OwnedOptions.mk.inj howned
  obtain ⟨expected, hexpected, hhash⟩ := treeHashWithRoot_eq_ok hexpected
  obtain ⟨staged, hs, hhash'⟩ := treeHashWithRoot_eq_ok hdigest
  refine ⟨k, staged, expected, hk, ?_, ?_, hbudget, ?_⟩
  · have hcapture := hint.capture _ _ _ hstaged
    rw [homit, OwnedSnapshot.of, hs]
    exact hcapture
  · rw [hresult, OwnedSnapshot.of, hexpected]
    rfl
  · rw [← hint.blake3]
    exact sameUnlessCollision_of_hash (hhash'.trans hhash.symm)

end Run

/-! ### A run -/

/-- The directories of a run: the source, and what is written. -/
def sampleDirOf : Bool → Walk.Dir
  | false => Walk.emptyDir
  | true => Walk.restoredDir

def linkedName : CanonicalMetadata :=
  ⟨{ Metadata.default with hardlinkTo := some (utf8 "a-b") }, by decide⟩

lemma plainMode_valid : (0o644 : UInt16) &&& ~~~0o777 = 0 := by decide

def sampleSnapshot : Snapshot :=
  ⟨[⟨utf8 "a", .directory ⟨0o755, by decide⟩, .default⟩,
    ⟨utf8 "a-b", .file ⟨0o644, plainMode_valid⟩ ⟨utf8 "data", by decide⟩, .default⟩,
    ⟨utf8 "a/x", .file ⟨0o644, plainMode_valid⟩ ⟨utf8 "data", by decide⟩, linkedName⟩,
    ⟨utf8 "l", .symlink ⟨utf8 "a/x", by decide⟩, .default⟩], .default⟩

def samplePatch : List UInt8 :=
  (Zig.createPatch (File.stored []) Pcre2.plain [] Walk.sampleEntries
    Walk.freshOptions).toOption.getD []

/-- A system where nothing fails, and a program that knows the sample alone. -/
def sampleSetting : Setting Bool :=
  { os := .linux
    oracle := fun _ => ⟨none, none, none, id⟩
    blake3 := File.tabulated []
    empty := true
    perform := fun _ => id
    listing := fun _ => []
    capture := fun options tree =>
      if options.rules.isEmpty && options.mask.bits == 0 then
        .ok (if tree then sampleSnapshot else ⟨[], .default⟩)
      else .error .unexpected
    readOptions := fun _ _ => .ok ⟨[], .default⟩
    applyPatchRoot := fun s _ _ =>
      if s = ⟨[], .default⟩ then .ok sampleSnapshot else .error .unexpected
    restoreSteps := fun _ _ _ _ => []
    modificationSteps := fun _ _ _ => []
    finalSteps := fun _ _ _ => [] }

lemma createPatch_sample : Zig.createPatch (File.stored []) Pcre2.plain [] Walk.sampleEntries
    Walk.freshOptions = .ok samplePatch := by
  have hsome : (Zig.createPatch (File.stored []) Pcre2.plain [] Walk.sampleEntries
    Walk.freshOptions).toOption.isSome := by decide +kernel
  cases hrun : Zig.createPatch (File.stored []) Pcre2.plain [] Walk.sampleEntries
    Walk.freshOptions with
  | ok patch =>
    rw [samplePatch, hrun]
    rfl
  | error e => simp [hrun, Except.toOption] at hsome

lemma readOptions_sample : Zig.readOptions Pcre2.plain (File.tabulated []) samplePatch
    (limitsOf TreePatch.ApplyLimits.default) = .ok ⟨[], Zig.Omit.of .default⟩ := by
  decide +kernel

lemma applyPatchRoot_sample : Zig.applyPatchRoot (File.stored []) Pcre2.plain [] samplePatch
    (limitsOf TreePatch.ApplyLimits.default) Metadata.default = .ok (ownedOf sampleSnapshot) := by
  decide +kernel

lemma ownedOf_sampleSnapshot : ownedOf sampleSnapshot = ⟨Walk.sampleEntries, Metadata.default⟩ := by
  decide +kernel

lemma interprets_sample : Interprets sampleSetting sampleDirOf (File.stored []) Pcre2.plain
    samplePatch TreePatch.ApplyLimits.default where
  blake3 := rfl
  capture := by
    intro options tree s h
    obtain ⟨rules, ⟨bits, hbits⟩⟩ := options
    have hoptions : rules = [] ∧ bits = 0 := by
      by_contra hno
      have herror : sampleSetting.capture ⟨rules, ⟨bits, hbits⟩⟩ tree = .error .unexpected :=
        if_neg (by simpa using hno)
      exact absurd (herror.symm.trans h) (by simp)
    obtain ⟨rfl, rfl⟩ := hoptions
    obtain rfl := Except.ok.inj h
    have homit : Zig.Omit.of Metadata.Omit.default = Walk.sampleOptions.omit_ := by decide
    dsimp only [List.map_nil]
    rw [show (⟨0, hbits⟩ : Metadata.Omit) = Metadata.Omit.default from rfl, homit]
    cases tree with
    | false => exact Walk.snapshotDir_emptyDir _ _
    | true =>
      rw [if_pos rfl, ownedOf_sampleSnapshot]
      exact Walk.snapshotDir_restoredDir
  readOptions := by
    intro options h
    obtain rfl := Except.ok.inj h
    exact readOptions_sample
  applyPatchRoot := by
    intro s result h
    simp only [sampleSetting] at h
    split_ifs at h with hs
    · obtain rfl := Except.ok.inj h
      rw [hs]
      exact applyPatchRoot_sample

/-- The run from an empty directory, at the name `out`. -/
theorem published_of_create_sample : ∃ report w,
    applyPatchToNewDir sampleSetting (utf8 "out") (.existing 0) (utf8 "out.stage") samplePatch
      TreePatch.ApplyLimits.default
      (World.initial (Disk.initial (fun _ => none) (fun _ => false) true)) = (.ok report, w) ∧
    ∃ k, w.disk.parent (utf8 "out") = some (.created k) := by
  obtain ⟨report, w, hrun⟩ : ∃ report w, applyPatchToNewDir sampleSetting (utf8 "out")
      (.existing 0) (utf8 "out.stage") samplePatch TreePatch.ApplyLimits.default
      (World.initial (Disk.initial (fun _ => none) (fun _ => false) true)) = (.ok report, w) := by
    have hsome : (applyPatchToNewDir sampleSetting (utf8 "out") (.existing 0) (utf8 "out.stage")
        samplePatch TreePatch.ApplyLimits.default
        (World.initial (Disk.initial (fun _ => none) (fun _ => false) true))).1.toOption.isSome := by
      decide +kernel
    cases hrun : applyPatchToNewDir sampleSetting (utf8 "out") (.existing 0) (utf8 "out.stage")
        samplePatch TreePatch.ApplyLimits.default
        (World.initial (Disk.initial (fun _ => none) (fun _ => false) true)) with
    | mk result w =>
      cases result with
      | ok report => exact ⟨report, w, rfl⟩
      | error e => simp [hrun, Except.toOption] at hsome
  have hsource : Walk.Readable (File.stored []).blake3 Walk.emptyDir Walk.freshOptions.omit_ :=
    Walk.readable_emptyDir
  have htarget : Walk.Readable (File.stored []).blake3 Walk.restoredDir Walk.freshOptions.omit_ :=
    Walk.readable_restoredDir
  have ht : Walk.snapshotDir (File.stored []).blake3 Pcre2.plain Walk.restoredDir
      ⟨Walk.freshOptions.rules, Walk.freshOptions.omit_⟩
        = .ok ⟨Walk.sampleEntries, Metadata.default⟩ := Walk.snapshotDir_restoredDir
  have hcreate : Walk.createPatchFromDirs (File.stored []) Pcre2.plain Walk.emptyDir
      Walk.restoredDir Walk.freshOptions = .ok samplePatch :=
    Walk.createPatchFromDirs_eq_ok.mpr ⟨_, _, Walk.snapshotDir_emptyDir _ _,
      Walk.snapshotDir_restoredDir, createPatch_sample⟩
  obtain ⟨k, -, -, hk, -⟩ := published_of_create interprets_sample (File.stored_inverts [])
    hsource htarget ht Walk.short_sample hcreate
    (⟨trivial, fun _ => rfl⟩ : Walk.Reordered Walk.emptyDir.tree .nil) rfl hrun
  exact ⟨report, w, hrun, k, hk⟩

end Stage

end Difz
