import Difz.Stage.Apply
import Difz.Stage.Kept

/-!
# Staged application is atomic

The run as a whole: the output name gets a tree of the run exactly when the run succeeds, that tree
has been read back and has the digest of the rebuilt one, and nothing that belongs to others is
touched at any moment.
-/

namespace Difz

open Wire Program Metadata Directory

namespace Stage

variable {Tree : Type} {env : Setting Tree} {output staging : Name} {d₀ : Disk Tree} {owns : Bool}
  {k : Nat}

/-! ### The two ends of a run -/

/-- How a failed run leaves things. -/
structure Failed (output staging : Name) (d₀ : Disk Tree) (w : World Tree) : Prop where
  sound : Sound output staging d₀ w
  hidden : Hidden output w.disk
  clean : w.discarded = none → Clean w.disk

/-- The tree at the output name reads back as `reconstructed`. -/
def Verified (env : Setting Tree) (output : Name) (reconstructed : Snapshot) (mask : Omit)
    (d : Disk Tree) : Prop :=
  ∃ k staged digest, d.parent output = some (.created k) ∧
    env.capture ⟨[], mask⟩ (d.content (.created k)) = .ok staged ∧
    treeHashWithRoot env reconstructed = .ok digest ∧ treeHashWithRoot env staged = .ok digest

lemma failed_of_clean {w : World Tree} (h : At output staging d₀ owns Clean w) :
    Failed output staging d₀ w :=
  ⟨h.sound, h.here.hidden, fun _ => h.here⟩

section Runs

variable (hd₀ : ∀ name k, d₀.parent name ≠ some (.intruder k)) (hne : output ≠ staging)
include hd₀ hne

/-! ### Writing and removing the staged tree -/

lemma stageCall_keeps (c : Call) :
    Keeps (At output staging d₀ owns (Staged staging k)) (stageCall env output (.created k) c) :=
  treeCall_keeps hd₀ hne _

lemma writeFile_keeps (path data : List UInt8) :
    Keeps (At output staging d₀ owns (Staged staging k))
      (writeFile env output (.created k) path data) :=
  .bind (stageCall_keeps hd₀ hne _) fun _ => stageCall_keeps hd₀ hne _

lemma createLink_keeps (original link : List UInt8) :
    Keeps (At output staging d₀ owns (Staged staging k))
      (createLink env output (.created k) original link) := by
  refine .handle (.bind (stageCall_keeps hd₀ hne _) fun _ => .pure true) fun err => ?_
  split_ifs
  · exact .pure false
  · exact .fail err

lemma writeObject_keeps (entries : List Entry) (copied : List (List UInt8)) (e : Entry) :
    Keeps (At output staging d₀ owns (Staged staging k))
      (writeObject env output (.created k) entries copied e) := by
  rw [writeObject]
  split
  · exact .bind (stageCall_keeps hd₀ hne _) fun _ => .pure copied
  · split
    · exact .bind (writeFile_keeps hd₀ hne _ _) fun _ => .pure copied
    · refine .bind (createLink_keeps hd₀ hne _ _) fun linked => ?_
      split_ifs
      · exact .pure copied
      · exact .bind (writeFile_keeps hd₀ hne _ _) fun _ => .pure _
  · exact .bind (stageCall_keeps hd₀ hne _) fun _ => .pure copied

lemma nativeStep_keeps (report : RestoreReport) (step : NativeStep) :
    Keeps (At output staging d₀ owns (Staged staging k))
      (nativeStep env output (.created k) report step) := by
  refine .bind (.handle (stageCall_keeps hd₀ hne _) fun err => ?_) fun _ => .pure _
  split
  · exact .fail _
  · exact .fail _
  · exact .pure ()

lemma nativeSteps_keeps (report : RestoreReport) (steps : Tree → List NativeStep) :
    Keeps (At output staging d₀ owns (Staged staging k))
      (nativeSteps env output (.created k) report steps) :=
  .bind (readTree_keeps hd₀ _ _ (steady_staged hne k)) fun planned =>
    .fold (nativeStep_keeps hd₀ hne) report planned

lemma finishObject_keeps (mask : Omit) (report : RestoreReport) (e : Entry) :
    Keeps (At output staging d₀ owns (Staged staging k))
      (finishObject env output (.created k) mask report e) := by
  refine .bind (nativeSteps_keeps hd₀ hne _ _) fun report => ?_
  split
  · exact .pure report
  all_goals
    exact .bind (.lift _) fun _ => .bind (stageCall_keeps hd₀ hne _) fun _ => .pure report

/-- Writing stays inside the staged tree, however far it gets. -/
theorem writeSnapshot_keeps (s : Snapshot) (mask : Omit) :
    Keeps (At output staging d₀ owns (Staged staging k))
      (writeSnapshot env output (.created k) s mask) := by
  refine .bind (.lift _) fun _ => .bind (.lift _) fun _ => ?_
  refine .bind (.fold (writeObject_keeps hd₀ hne s.entries) [] s.entries) fun copied => ?_
  refine .bind (nativeSteps_keeps hd₀ hne _ _) fun report => ?_
  refine .bind (.fold (finishObject_keeps hd₀ hne mask) report _) fun report => ?_
  exact nativeSteps_keeps hd₀ hne report _

lemma makeDirectoriesWritable_keeps :
    Keeps (At output staging d₀ owns (Staged staging k))
      (makeDirectoriesWritable env output (.created k)) := by
  have hread : ∀ {α : Type} (read : Tree → Except Error α),
      Keeps (At output staging d₀ owns (Staged staging k))
        (readTree env.oracle output (.created k) read) :=
    fun read => readTree_keeps hd₀ _ read (steady_staged hne k)
  refine .bind (hread _) fun entries => .fold (fun _ entry => ?_) () entries
  refine .bind (hread _) fun _ => ?_
  split
  · exact .pure ()
  · exact .pure ()
  · exact .bind (stageCall_keeps hd₀ hne _) fun _ => hread _

/-- The handle of the staging directory is the tree the run made. -/
lemma openDir_staging_bind {α : Type} {f : Inode → Run Tree α} {R : α → World Tree → Prop}
    {F : World Tree → Prop}
    (hF : ∀ w, At output staging d₀ owns (Staged staging k) w → F w)
    (hf : Triple (At output staging d₀ owns (Staged staging k)) (f (.created k)) R F) :
    Triple (At output staging d₀ owns (Staged staging k))
      (openDir env.oracle output staging >>= f) R F := by
  refine Triple.bind ((openDir_triple hd₀ staging (steady_staged hne k)).mono (fun _ h => h)
    (fun _ _ h => h) hF) fun inode => ?_
  intro w hx
  obtain ⟨hsound, ⟨hstaged, hinode⟩, howns, hdiscarded⟩ := hx
  obtain rfl := Option.some.inj (hstaged.here.symm.trans hinode)
  exact hf w ⟨hsound, hstaged, howns, hdiscarded⟩

lemma deleteOwnedTree_triple :
    Triple (At output staging d₀ owns (Staged staging k)) (deleteOwnedTree env output staging)
      (fun _ => At output staging d₀ owns Clean)
      (At output staging d₀ owns (Staged staging k)) :=
  openDir_staging_bind hd₀ hne (fun _ h => h) <|
    .bind (makeDirectoriesWritable_keeps hd₀ hne) fun _ => deleteTree_triple hd₀ hne

/-! ### Both ends of the scope -/

lemma cleanup_triple :
    Triple (At output staging d₀ true (Staged staging k)) (cleanup env output staging)
      (fun _ => Failed output staging d₀) (Failed output staging d₀) := by
  have hdelete : Triple (At output staging d₀ true (Staged staging k))
      (.handle (deleteOwnedTree env output staging) fun err =>
        .modify fun w => { w with discarded := some err })
      (fun _ => Failed output staging d₀) (Failed output staging d₀) := by
    refine .handle ((deleteOwnedTree_triple hd₀ hne).mono (fun _ h => h)
      (fun _ _ h => failed_of_clean h) fun _ h => h) fun err => .modify fun w h => ?_
    exact ⟨h.sound.congr rfl rfl, h.here.hidden hne, fun hnone => absurd hnone (by simp)⟩
  intro w hw
  have hrun : cleanup env output staging w =
      Action.handle (deleteOwnedTree env output staging)
        (fun err => .modify fun w => { w with discarded := some err }) w := by
    rw [cleanup]
    change (if w.ownsStage then _ else _ : Run Tree Unit) w = _
    rw [hw.owns]
    rfl
  rw [hrun]
  exact hdelete w hw

lemma publishStagingDir_triple (φ : Tree → Prop) :
    Triple (At output staging d₀ owns fun d => Staged staging k d ∧ φ (d.content (.created k)))
      (publishStagingDir env output staging)
      (fun _ => At output staging d₀ owns fun d =>
        d.parent output = some (.created k) ∧ φ (d.content (.created k)))
      (At output staging d₀ owns (Staged staging k)) := by
  rw [publishStagingDir]
  have hfail : ∀ w, At output staging d₀ owns
      (fun d => Staged staging k d ∧ φ (d.content (.created k))) w →
      At output staging d₀ owns (Staged staging k) w :=
    fun _ h => h.imp fun _ hd => hd.1
  have hterminated : ∀ name name', terminatedBasename name = .ok name' → name' = name := by
    intro name name' h
    rw [terminatedBasename] at h
    split_ifs at h
    exact (Except.ok.inj h).symm
  split_ifs
  · exact rename_triple hd₀ hne φ
  · refine .lift_bind hfail fun source hsource => .lift_bind hfail fun target htarget => ?_
    rw [hterminated _ _ hsource, hterminated _ _ htarget]
    exact .mapError (rename_triple hd₀ hne φ)

/-- Behind the creation of the staging directory: either the verified tree is published, or the
staging directory is still there for the cleanup. -/
lemma stageAndPublish_triple (reconstructed : Snapshot) (mask : Omit) :
    Triple (At output staging d₀ true (Staged staging k))
      (stageAndPublish env output staging reconstructed mask)
      (fun _ w => Sound output staging d₀ w ∧ Verified env output reconstructed mask w.disk)
      (At output staging d₀ true (Staged staging k)) := by
  refine openDir_staging_bind hd₀ hne (fun _ h => h) ?_
  refine .bind (writeSnapshot_keeps hd₀ hne reconstructed mask) fun report => ?_
  refine .bind (readTree_triple hd₀ _ _ (steady_staged hne k)) fun staged => ?_
  -- from here on the staged tree is known to read back as `staged`
  have hsteady : Steady output fun d : Disk Tree => Staged staging k d ∧
      env.capture ⟨[], mask⟩ (d.content (.created k)) = .ok staged :=
    (steady_staged hne k).and_content k fun tree => env.capture ⟨[], mask⟩ tree = .ok staged
  have hfail : ∀ w, At output staging d₀ true (fun d => Staged staging k d ∧
      env.capture ⟨[], mask⟩ (d.content (.created k)) = .ok staged) w →
      At output staging d₀ true (Staged staging k) w :=
    fun _ h => h.imp fun _ hd => hd.1
  refine fallible_bind hd₀ hsteady hfail fun expectedHash hexpected => ?_
  refine fallible_bind hd₀ hsteady hfail fun stagedHash hstaged => ?_
  refine .lift_bind hfail fun _ hequal => ?_
  obtain rfl := ensure_eq_ok.mp hequal
  refine .bind (publishStagingDir_triple hd₀ hne
    fun tree => env.capture ⟨[], mask⟩ tree = .ok staged) fun _ => ?_
  refine .bind (Q := fun _ w => Sound output staging d₀ w ∧
    Verified env output reconstructed mask w.disk) (.modify fun w h => ?_)
    fun _ => .pure fun _ h => h
  exact ⟨h.sound.congr rfl rfl, k, staged, expectedHash, h.here.1, h.here.2,
    hexpected, hstaged⟩

end Runs

/-- The source is read as it was before the run. -/
lemma snapshotDir_source_bind (hd₀ : ∀ name k, d₀.parent name ≠ some (.intruder k)) {source : Nat}
    {options : SnapshotOptions} {α : Type} {f : Snapshot → Run Tree α}
    {R : α → World Tree → Prop} {F : World Tree → Prop}
    (hF : ∀ w, At output staging d₀ owns Clean w → F w)
    (hf : ∀ snapshot, env.capture options (d₀.content (.existing source)) = .ok snapshot →
      Triple (At output staging d₀ owns Clean) (f snapshot) R F) :
    Triple (At output staging d₀ owns Clean)
      (snapshotDir env output (.existing source) options >>= f) R F := by
  refine .bind ((readTree_triple hd₀ _ _ steady_clean).mono (fun _ h => h) (fun _ _ h => h) hF)
    fun snapshot => ?_
  intro w hx
  obtain ⟨hsound, ⟨hclean, hcapture⟩, howns, hdiscarded⟩ := hx
  rw [(hsound.since w.disk List.mem_cons_self).existing source] at hcapture
  exact hf snapshot hcapture w ⟨hsound, hclean, howns, hdiscarded⟩

/-- The contract of the whole run, from an untouched world. -/
lemma applyPatchToNewDir_triple (env : Setting Tree) (output staging : Name)
    (hd₀ : ∀ name k, d₀.parent name ≠ some (.intruder k)) (source : Nat) (patch : List UInt8)
    (limits : TreePatch.ApplyLimits) :
    Triple (At output staging d₀ false Clean)
      (applyPatchToNewDir env output (.existing source) staging patch limits)
      (fun _ w => Sound output staging d₀ w ∧ ∃ options snapshot reconstructed,
        env.readOptions patch limits = .ok options ∧
        env.capture options (d₀.content (.existing source)) = .ok snapshot ∧
        env.applyPatchRoot snapshot patch limits = .ok reconstructed ∧
        Verified env output reconstructed options.mask w.disk)
      (Failed output staging d₀) := by
  have hclean : ∀ w, At output staging d₀ false Clean w → Failed output staging d₀ w :=
    fun _ h => failed_of_clean h
  refine .lift_bind hclean fun _ _ => .lift_bind hclean fun _ _ => ?_
  refine .lift_bind hclean fun _ hname => ?_
  have hne : output ≠ staging := ensure_eq_ok.mp hname
  have habsent : Keeps (At output staging d₀ false Clean) (requireAbsent env output output) := by
    refine .bind (.handle (.bind (statFile_keeps hd₀ output steady_clean) fun _ => .pure true)
      fun err => ?_) fun found => ?_
    · split
      · exact .pure false
      · exact .fail _
    · split_ifs
      · exact .fail _
      · exact .pure ()
  refine .bind (habsent.mono (fun _ h => h) (fun _ _ h => h) hclean) fun _ => ?_
  refine fallible_bind hd₀ steady_clean hclean fun options hoptions => ?_
  refine snapshotDir_source_bind hd₀ hclean fun snapshot hsnapshot => ?_
  refine fallible_bind hd₀ steady_clean hclean fun reconstructed hreconstructed => ?_
  refine .bind ((createDir_triple hd₀ env.empty).mono (fun _ h => h) (fun _ _ h => h) hclean)
    fun _ => ?_
  refine .bind (Q := fun _ w => ∃ k, At output staging d₀ true (Staged staging k) w)
    (.modify fun w h => ?_) fun _ => .of_exists fun k => ?_
  · obtain ⟨k, hk⟩ := h.here
    exact ⟨k, h.sound.congr rfl rfl, hk, rfl, h.discarded⟩
  · refine .errdefer ?_ (cleanup_triple (k := k) hd₀ hne)
    exact (stageAndPublish_triple hd₀ hne reconstructed options.mask).mono (fun _ h => h)
      (fun _ _ h => ⟨h.1, options, snapshot, reconstructed, hoptions, hsnapshot, hreconstructed,
        h.2⟩) fun _ h => h

/-! ### Atomicity -/

/-- What a run from a parent directory with the objects `parent` and their `content` may do. -/
structure Atomic (env : Setting Tree) (output staging : Name) (parent : Name → Option Nat)
    (content : Nat → Tree) (source : Nat) (patch : List UInt8) (limits : TreePatch.ApplyLimits)
    (result : Except Error RestoreReport) (w : World Tree) : Prop where
  /-- the output is a tree of the run exactly after success -/
  published_iff : (∃ k, w.disk.parent output = some (.created k)) ↔ ∃ report, result = .ok report
  /-- it is there at no earlier moment -/
  unpublished : ∀ d ∈ w.past, ∀ k, d.parent output ≠ some (.created k)
  /-- and reads back with the digest of the tree the patch gives -/
  verified : ∀ report, result = .ok report → ∃ options snapshot reconstructed,
    env.readOptions patch limits = .ok options ∧
    env.capture options (content source) = .ok snapshot ∧
    env.applyPatchRoot snapshot patch limits = .ok reconstructed ∧
    Verified env output reconstructed options.mask w.disk
  /-- an output of someone else stays, from the moment it appears -/
  output_kept : w.moments.Pairwise fun earlier later =>
    ∀ inode, earlier.parent output = some inode → inode.Foreign →
      later.parent output = some inode ∧ later.content inode = earlier.content inode
  /-- what was there before the run stays at every moment, under any name -/
  existing_kept : ∀ d ∈ w.moments, ∀ name n, parent name = some n →
    d.parent name = some (.existing n) ∧ d.content (.existing n) = content n
  source_kept : ∀ d ∈ w.moments, d.content (.existing source) = content source
  others_kept : ∀ d ∈ w.moments, ∀ name, name ≠ output → name ≠ staging →
    d.parent name = (parent name).map .existing
  /-- no tree of the run is left after a failure, unless removing it failed -/
  cleaned : ∀ e, result = .error e → w.discarded = none →
    ∀ name k, w.disk.parent name ≠ some (.created k)

section Moments

variable {w : World Tree} {d : Disk Tree} {parent : Name → Option Nat} {content : Nat → Tree}
  {empty : Tree}

lemma parent_initial_eq_some {name : Name} {inode : Inode} :
    (Disk.initial parent content empty).parent name = some inode ↔
      ∃ n, parent name = some n ∧ .existing n = inode :=
  Option.map_eq_some_iff

lemma Sound.kept (h : Sound output staging d₀ w) (hd : d ∈ w.moments) : Kept output staging d₀ d :=
  h.since d (List.mem_reverse.mp hd)

lemma Sound.output_kept (h : Sound output staging d₀ w) :
    w.moments.Pairwise fun earlier later =>
      ∀ inode, earlier.parent output = some inode → inode.Foreign →
        later.parent output = some inode ∧ later.content inode = earlier.content inode :=
  List.pairwise_reverse.mpr (h.chronicle.imp fun hkept => hkept.foreign output)

lemma Sound.existing_kept (h : Sound output staging (Disk.initial parent content empty) w)
    (hd : d ∈ w.moments) {name : Name} {n : Nat} (hname : parent name = some n) :
    d.parent name = some (.existing n) ∧ d.content (.existing n) = content n :=
  (h.kept hd).foreign name (.existing n) (parent_initial_eq_some.mpr ⟨n, hname, rfl⟩) trivial

end Moments

/-- Whatever calls fail and whenever another process takes the output name, a run is atomic. -/
theorem applyPatchToNewDir_atomic (env : Setting Tree) (output staging : Name)
    (parent : Name → Option Nat) (content : Nat → Tree) (source : Nat) (patch : List UInt8)
    (limits : TreePatch.ApplyLimits) :
    let run := applyPatchToNewDir env output (.existing source) staging patch limits
      (World.initial (Disk.initial parent content env.empty))
    Atomic env output staging parent content source patch limits run.1 run.2 := by
  intro run
  have hintruder : ∀ name k,
      (Disk.initial parent content env.empty).parent name ≠ some (.intruder k) := by
    intro name k h
    obtain ⟨n, -, hn⟩ := parent_initial_eq_some.mp h
    exact absurd hn (by simp)
  have hclean : Clean (Disk.initial parent content env.empty) := by
    intro name k h
    obtain ⟨n, -, hn⟩ := parent_initial_eq_some.mp h
    exact absurd hn (by simp)
  have htriple := applyPatchToNewDir_triple env output staging hintruder source patch limits
  have hstart : At output staging (Disk.initial parent content env.empty) false Clean
      (World.initial (Disk.initial parent content env.empty)) :=
    ⟨sound_initial, hclean, rfl, rfl⟩
  have hrun : applyPatchToNewDir env output (.existing source) staging patch limits
      (World.initial (Disk.initial parent content env.empty)) = run := rfl
  obtain ⟨result, w⟩ := run
  cases result with
  | ok report =>
    obtain ⟨hsound, options, snapshot, reconstructed, hoptions, hsnapshot, hreconstructed,
      hverified⟩ := htriple.of_ok hstart hrun
    obtain ⟨k, _, _, hpublished, -⟩ := id hverified
    exact
      { published_iff := ⟨fun _ => ⟨report, rfl⟩, fun _ => ⟨k, hpublished⟩⟩
        unpublished := hsound.unpublished
        verified := fun _ _ =>
          ⟨options, snapshot, reconstructed, hoptions, hsnapshot, hreconstructed, hverified⟩
        output_kept := hsound.output_kept
        existing_kept := fun _ hd _ _ => hsound.existing_kept hd
        source_kept := fun _ hd => (hsound.kept hd).existing source
        others_kept := fun _ hd => (hsound.kept hd).others
        cleaned := fun e he => absurd he (by simp) }
  | error e =>
    obtain ⟨hsound, hhidden, hcleaned⟩ := htriple.of_error hstart hrun
    exact
      { published_iff := ⟨fun ⟨k, hk⟩ => absurd hk (hhidden k), fun ⟨_, h⟩ => absurd h (by simp)⟩
        unpublished := hsound.unpublished
        verified := fun _ h => absurd h (by simp)
        output_kept := hsound.output_kept
        existing_kept := fun _ hd _ _ => hsound.existing_kept hd
        source_kept := fun _ hd => (hsound.kept hd).existing source
        others_kept := fun _ hd => (hsound.kept hd).others
        cleaned := fun _ _ => hcleaned }

/-- A system where nothing fails and trees are not looked into. -/
def undisturbed : Setting Unit where
  os := .linux
  oracle _ := ⟨none, none, none, id⟩
  blake3 _ := List.Vector.replicate 32 0
  empty := ()
  perform _ := id
  listing _ := []
  capture _ _ := .ok ⟨[], CanonicalMetadata.default⟩
  readOptions _ _ := .ok ⟨[], Omit.default⟩
  applyPatchRoot s _ _ := .ok s
  restoreSteps _ _ _ _ := []
  modificationSteps _ _ _ := []
  finalSteps _ _ _ := []

example : (applyPatchToNewDir undisturbed (utf8 "out") (.existing 0) (utf8 "out.stage") []
    TreePatch.ApplyLimits.default
    (World.initial (Disk.initial (fun _ => none) (fun _ => ()) ()))).2.disk.parent (utf8 "out")
      = some (.created 4) := by
  decide +kernel

end Stage

end Difz
