import Difz.Stage.Atomic

/-!
# Writing a new file

`writeNewFileAtomic` of `src/lib.zig`, behind `difz_write_new_file_atomic`: the data goes to a file
with a random name next to the output, and a rename that never replaces gives it the output name. The
world is that of the staged directories, with files for trees, and so are its rules.
-/

namespace Difz

open Wire Program

namespace Stage

/-! ### Names -/

/-- `std.fs.path.basename`: what is between the last two separators, separators at the end apart. -/
def basename (path : List UInt8) : Name :=
  ((path.reverse.dropWhile (· == 0x2f)).takeWhile (· != 0x2f)).reverse

def hexDigit (n : Nat) : UInt8 := if n < 10 then UInt8.ofNat (0x30 + n) else UInt8.ofNat (0x57 + n)

/-- A word in `{x:0>16}`. -/
def hexWord (random : UInt64) : List UInt8 :=
  (List.range 16).map fun i => hexDigit (random.toNat / 16 ^ (15 - i) % 16)

def stagingName (output : Name) (random : UInt64) : Name :=
  utf8 "." ++ output ++ utf8 ".difz-stage-" ++ hexWord random

/-- The staging name is longer. -/
lemma stagingName_ne (output : Name) (random : UInt64) : output ≠ stagingName output random := by
  intro h
  have hlength := congrArg List.length h
  simp only [stagingName, hexWord, List.length_append, List.length_map, List.length_range] at hlength
  omega

/-! ### The run -/

section Run

variable (oracle : Nat → Choice (List UInt8)) (output staging : Name)

def bufPrint (size : Nat) (name : Name) : Except Error Name :=
  if name.length > size then .error .noSpaceLeft else .ok name

/-- Open the directory of the output. -/
def openParent : Run (List UInt8) Unit := atomicCall oracle output fun _ d => .ok ((), d)

/-- A file that was not there, and a handle to it. -/
def createFile (name : Name) : Run (List UInt8) Inode :=
  atomicCall oracle output fun tick d =>
    match d.parent name with
    | none => .ok (.created tick, (d.fill (.created tick) []).bind name (some (.created tick)))
    | some _ => .error .pathAlreadyExists

def writeStreamingAll (file : Inode) (data : List UInt8) : Run (List UInt8) Unit :=
  treeCall oracle output file (· ++ data)

def sync (file : Inode) : Run (List UInt8) Unit := treeCall oracle output file id

def deleteFile (name : Name) : Run (List UInt8) Unit :=
  atomicCall oracle output fun _ d =>
    match d.parent name with
    | none => .error .fileNotFound
    | some _ => .ok ((), d.bind name none)

/-- `errdefer if (owns_stage) parent.deleteFile(…) catch {}`. -/
def cleanupFile : Run (List UInt8) Unit := do
  let owns ← .gets (·.ownsStage)
  if owns then
    .handle (deleteFile oracle output staging) fun err =>
      .modify fun w => { w with discarded := some err }
  else pure ()

/-- The scope behind the creation of the staging file. -/
def writeAndRename (file : Inode) (data : List UInt8) : Run (List UInt8) Unit := do
  writeStreamingAll oracle output file data
  sync oracle output file
  renamePreserve oracle output staging output
  .modify fun w => { w with ownsStage := false }

/-- `size` is that of the buffer for the staging name. -/
def writeNewFileAtomic (size : Nat) (random : UInt64) (outputPath data : List UInt8) :
    Run (List UInt8) Unit := do
  let output := basename outputPath
  openParent oracle output
  let staging ← .lift (bufPrint size (stagingName output random))
  let file ← createFile oracle output staging
  .modify fun w => { w with ownsStage := true }
  .errdefer (cleanupFile oracle output staging) (writeAndRename oracle output staging file data)

/-- The code the C function returns. -/
def difzWriteNewFileAtomic (size : Nat) (random : UInt64) (outputPath data : List UInt8)
    (w : World (List UInt8)) : Int × World (List UInt8) :=
  match writeNewFileAtomic oracle size random outputPath data w with
  | (.ok (), w) => (0, w)
  | (.error .pathAlreadyExists, w) => (-3, w)
  | (.error _, w) => (-1, w)

end Run

/-! ### What its calls keep -/

/-- How a failed run leaves things. -/
structure Unwritten (output staging : Name) (d₀ : Disk (List UInt8)) (w : World (List UInt8)) :
    Prop where
  sound : Sound output staging d₀ w
  hidden : Hidden output w.disk
  clean : w.discarded = none → Clean w.disk

lemma unwritten_of_clean {output staging : Name} {d₀ : Disk (List UInt8)} {owns : Bool}
    {w : World (List UInt8)} (h : At output staging d₀ owns Clean w) :
    Unwritten output staging d₀ w :=
  ⟨h.sound, h.here.hidden, fun _ => h.here⟩

section Calls

variable {oracle : Nat → Choice (List UInt8)} {output staging : Name} {d₀ : Disk (List UInt8)}
  {owns : Bool} {k : Nat}
  (hd₀ : ∀ name k, d₀.parent name ≠ some (.intruder k))

include hd₀

lemma openParent_keeps : Keeps (At output staging d₀ owns Clean) (openParent oracle output) := by
  refine (read_triple hd₀ (fun _ _ => True) steady_clean fun tick d a d' h => ?_).mono
    (fun _ h => h) (fun _ _ h => h.imp fun _ hd => hd.1) fun _ h => h
  obtain ⟨-, rfl⟩ := Prod.mk.inj (Except.ok.inj h)
  exact ⟨rfl, trivial⟩

lemma createFile_triple :
    Triple (At output staging d₀ owns Clean) (createFile oracle output staging)
      (fun file => At output staging d₀ owns fun d => ∃ k, file = .created k ∧
        Staged staging k d ∧ d.content (.created k) = [])
      (At output staging d₀ owns Clean) := by
  rw [createFile, atomicCall]
  refine call_triple hd₀ steady_clean (fun d _ h => ⟨Kept.refl d, h⟩) (fun _ _ _ h _ => h)
    fun d tick file d' h hrun => ?_
  cases hname : d.parent staging with
  | some i => exact absurd hrun (by simp [hname])
  | none =>
    obtain ⟨rfl, rfl⟩ : .created tick = file ∧
        (d.fill (.created tick) []).bind staging (some (.created tick)) = d' := by
      simpa [hname] using hrun
    refine ⟨(Kept.fill_created tick []).trans (Kept.bind (.inr rfl) ?_ (by simp)), tick, rfl,
      ⟨by simp, fun name hne k => ?_⟩, by simp [Disk.fill]⟩
    · simp [hname]
    · rw [Disk.bind_parent_of_ne _ hne]
      exact h name k

variable (hne : output ≠ staging)
include hne

/-- A call on the staged file, and what is known of its bytes. -/
lemma treeCall_triple (effect : List UInt8 → List UInt8) (φ : List UInt8 → Prop) :
    Triple (At output staging d₀ owns fun d =>
        Staged staging k d ∧ φ (effect (d.content (.created k))))
      (treeCall oracle output (.created k) effect)
      (fun _ => At output staging d₀ owns fun d => Staged staging k d ∧ φ (d.content (.created k)))
      (At output staging d₀ owns (Staged staging k)) := by
  have hA : Steady output fun d : Disk (List UInt8) =>
      Staged staging k d ∧ φ (effect (d.content (.created k))) :=
    (steady_staged hne k).and_content k fun bytes => φ (effect bytes)
  refine call_triple hd₀ hA (fun d damage h => ⟨Kept.fill_created k _, h.1.fill _ _⟩)
    (fun _ _ _ h _ => h.1) fun d tick a d' h hrun => ?_
  obtain ⟨-, rfl⟩ := Prod.mk.inj (Except.ok.inj hrun)
  refine ⟨Kept.fill_created k _, h.1.fill _ _, ?_⟩
  have hbytes : (d.fill (.created k) (effect (d.content (.created k)))).content (.created k)
      = effect (d.content (.created k)) := Function.update_self ..
  rw [hbytes]
  exact h.2

/-- A rename that succeeds leaves the staged file under the output name alone. -/
lemma renamePreserve_triple (φ : List UInt8 → Prop) :
    Triple (At output staging d₀ owns fun d => Staged staging k d ∧ φ (d.content (.created k)))
      (renamePreserve oracle output staging output)
      (fun _ => At output staging d₀ owns fun d =>
        Staged output k d ∧ φ (d.content (.created k)))
      (At output staging d₀ owns (Staged staging k)) := by
  have hA : Steady output fun d : Disk (List UInt8) =>
      Staged staging k d ∧ φ (d.content (.created k)) :=
    (steady_staged hne k).and_content k φ
  rw [renamePreserve, atomicCall]
  refine call_triple hd₀ hA (fun d _ h => ⟨Kept.refl d, h.1⟩)
    (fun _ _ _ h _ => h.1) fun d tick a d' h hrun => ?_
  rw [renameEffect, h.1.here] at hrun
  cases hout : d.parent output with
  | some i => exact absurd hrun (by simp [hout])
  | none =>
    obtain rfl : (d.bind staging none).bind output (some (.created k)) = d' := by
      simpa [hout] using hrun
    refine ⟨h.1.kept_unbind.trans (Kept.bind (.inl rfl) ?_ (by simp)), ⟨by simp, ?_⟩, h.2⟩
    · simp [hne, hout]
    · intro name hname k'
      rw [Disk.bind_parent_of_ne _ hname]
      by_cases hstaging : name = staging
      · subst hstaging
        simp
      · rw [Disk.bind_parent_of_ne _ hstaging]
        exact h.1.only name hstaging k'

lemma deleteFile_triple :
    Triple (At output staging d₀ owns (Staged staging k)) (deleteFile oracle output staging)
      (fun _ => At output staging d₀ owns Clean)
      (At output staging d₀ owns (Staged staging k)) := by
  rw [deleteFile, atomicCall]
  refine call_triple hd₀ (steady_staged hne k) (fun d _ h => ⟨Kept.refl d, h⟩)
    (fun _ _ _ h _ => h) fun d tick a d' h hrun => ?_
  rw [h.here] at hrun
  obtain ⟨-, rfl⟩ := Prod.mk.inj (Except.ok.inj hrun)
  refine ⟨h.kept_unbind, fun name k' => ?_⟩
  by_cases hname : name = staging
  · subst hname
    simp
  · rw [Disk.bind_parent_of_ne _ hname]
    exact h.only name hname k'

/-- Behind the creation of the file: it is at the output name with the data, or still at its own. -/
lemma writeAndRename_triple (data : List UInt8) :
    Triple (At output staging d₀ true fun d =>
        Staged staging k d ∧ d.content (.created k) = [])
      (writeAndRename oracle output staging (.created k) data)
      (fun _ w => Sound output staging d₀ w ∧ Staged output k w.disk ∧
        w.disk.content (.created k) = data)
      (At output staging d₀ true (Staged staging k)) := by
  have hwrite : Triple (At output staging d₀ true fun d =>
        Staged staging k d ∧ d.content (.created k) = [])
      (writeStreamingAll oracle output (.created k) data)
      (fun _ => At output staging d₀ true fun d =>
        Staged staging k d ∧ d.content (.created k) = data)
      (At output staging d₀ true (Staged staging k)) :=
    (treeCall_triple hd₀ hne (· ++ data) (· = data)).mono
      (fun _ h => h.imp fun _ hd => ⟨hd.1, by rw [hd.2, List.nil_append]⟩) (fun _ _ h => h)
      fun _ h => h
  refine .bind hwrite fun _ => .bind (treeCall_triple hd₀ hne id (· = data)) fun _ => ?_
  refine .bind (renamePreserve_triple hd₀ hne (· = data)) fun _ => .modify fun w h => ?_
  exact ⟨h.sound.congr rfl rfl, h.here⟩

lemma cleanupFile_triple :
    Triple (At output staging d₀ true (Staged staging k)) (cleanupFile oracle output staging)
      (fun _ => Unwritten output staging d₀) (Unwritten output staging d₀) := by
  have hdelete : Triple (At output staging d₀ true (Staged staging k))
      (.handle (deleteFile oracle output staging) fun err =>
        .modify fun w => { w with discarded := some err })
      (fun _ => Unwritten output staging d₀) (Unwritten output staging d₀) := by
    refine .handle ((deleteFile_triple hd₀ hne).mono (fun _ h => h)
      (fun _ _ h => unwritten_of_clean h) fun _ h => h) fun err => .modify fun w h => ?_
    exact ⟨h.sound.congr rfl rfl, h.here.hidden hne, fun hnone => absurd hnone (by simp)⟩
  intro w hw
  have hrun : cleanupFile oracle output staging w =
      Action.handle (deleteFile oracle output staging)
        (fun err => .modify fun w => { w with discarded := some err }) w := by
    rw [cleanupFile]
    change (if w.ownsStage then _ else _ : Run (List UInt8) Unit) w = _
    rw [hw.owns]
    rfl
  rw [hrun]
  exact hdelete w hw

end Calls

/-! ### The whole run -/

/-- What a run may do to a directory with the objects `parent` and their `content`. -/
structure NewFile (output staging : Name) (parent : Name → Option Nat)
    (content : Nat → List UInt8) (data : List UInt8) (code : Int) (w : World (List UInt8)) :
    Prop where
  /-- the output is the run's file exactly after success -/
  written_iff : (∃ k, w.disk.parent output = some (.created k)) ↔ code = 0
  /-- with all the data in it -/
  complete : ∀ k, w.disk.parent output = some (.created k) → w.disk.content (.created k) = data
  /-- it is there at no earlier moment -/
  unwritten : ∀ d ∈ w.past, ∀ k, d.parent output ≠ some (.created k)
  /-- an output of someone else stays, from the moment it appears -/
  output_kept : w.moments.Pairwise fun earlier later =>
    ∀ inode, earlier.parent output = some inode → inode.Foreign →
      later.parent output = some inode ∧ later.content inode = earlier.content inode
  /-- what was there before the run stays at every moment, under any name -/
  existing_kept : ∀ d ∈ w.moments, ∀ name n, parent name = some n →
    d.parent name = some (.existing n) ∧ d.content (.existing n) = content n
  others_kept : ∀ d ∈ w.moments, ∀ name, name ≠ output → name ≠ staging →
    d.parent name = (parent name).map .existing
  /-- no other file of the run is left, unless removing it failed -/
  cleaned : w.discarded = none → ∀ name k, w.disk.parent name = some (.created k) → name = output

lemma writeNewFileAtomic_triple (oracle : Nat → Choice (List UInt8)) (size : Nat)
    (random : UInt64) (outputPath data : List UInt8) {d₀ : Disk (List UInt8)}
    (hd₀ : ∀ name k, d₀.parent name ≠ some (.intruder k)) :
    Triple (At (basename outputPath) (stagingName (basename outputPath) random) d₀ false Clean)
      (writeNewFileAtomic oracle size random outputPath data)
      (fun _ w => Sound (basename outputPath) (stagingName (basename outputPath) random) d₀ w ∧
        ∃ k, Staged (basename outputPath) k w.disk ∧ w.disk.content (.created k) = data)
      (Unwritten (basename outputPath) (stagingName (basename outputPath) random) d₀) := by
  have hclean : ∀ w, At (basename outputPath) (stagingName (basename outputPath) random) d₀ false
      Clean w → Unwritten (basename outputPath) (stagingName (basename outputPath) random) d₀ w :=
    fun _ h => unwritten_of_clean h
  have hne := stagingName_ne (basename outputPath) random
  refine .bind ((openParent_keeps hd₀).mono (fun _ h => h) (fun _ _ h => h) hclean) fun _ => ?_
  refine .lift_bind hclean fun staging hstaging => ?_
  obtain rfl : stagingName (basename outputPath) random = staging := by
    rw [bufPrint, ite_error_eq_ok] at hstaging
    exact Except.ok.inj hstaging.2
  refine .bind ((createFile_triple hd₀).mono (fun _ h => h) (fun _ _ h => h) hclean)
    fun file => ?_
  refine .bind (Q := fun _ w => ∃ k, file = .created k ∧ At (basename outputPath)
    (stagingName (basename outputPath) random) d₀ true (fun d =>
      Staged (stagingName (basename outputPath) random) k d ∧ d.content (.created k) = []) w)
    (.modify fun w h => ?_) fun _ => .of_exists fun k => ?_
  · obtain ⟨k, rfl, hk⟩ := h.here
    exact ⟨k, rfl, h.sound.congr rfl rfl, hk, rfl, h.discarded⟩
  · intro w h
    obtain ⟨rfl, h⟩ := h
    have hscope : Triple _ (.errdefer (cleanupFile oracle _ _)
        (writeAndRename oracle _ _ (.created k) data)) _ _ :=
      .errdefer (writeAndRename_triple hd₀ hne data) (cleanupFile_triple hd₀ hne)
    exact hscope.mono (fun _ h => h) (fun _ _ h => ⟨h.1, k, h.2⟩) (fun _ h => h) w h

lemma difzWriteNewFileAtomic_eq (oracle : Nat → Choice (List UInt8)) (size : Nat) (random : UInt64)
    (outputPath data : List UInt8) (w : World (List UInt8)) :
    ((writeNewFileAtomic oracle size random outputPath data w).1 = .ok () ↔
      (difzWriteNewFileAtomic oracle size random outputPath data w).1 = 0) ∧
    (difzWriteNewFileAtomic oracle size random outputPath data w).2
      = (writeNewFileAtomic oracle size random outputPath data w).2 := by
  rw [difzWriteNewFileAtomic]
  split
  · next heq => simp [heq]
  · next heq => simp [heq]
  · next heq => simp [heq]

/-- Whatever calls fail and whenever another process takes the output name, the C function writes the
whole file and returns 0, or it leaves nothing behind. -/
theorem difzWriteNewFileAtomic_atomic (oracle : Nat → Choice (List UInt8)) (size : Nat)
    (random : UInt64) (outputPath data : List UInt8) (parent : Name → Option Nat)
    (content : Nat → List UInt8) :
    let run := difzWriteNewFileAtomic oracle size random outputPath data
      (World.initial (Disk.initial parent content []))
    NewFile (basename outputPath) (stagingName (basename outputPath) random) parent content data
      run.1 run.2 := by
  obtain ⟨hcode, hworld⟩ := difzWriteNewFileAtomic_eq oracle size random outputPath data
    (World.initial (Disk.initial parent content []))
  intro run
  have hintruder : ∀ name k,
      (Disk.initial parent content []).parent name ≠ some (.intruder k) := by
    intro name k h
    obtain ⟨n, -, hn⟩ := parent_initial_eq_some.mp h
    exact absurd hn (by simp)
  have hclean : Clean (Disk.initial parent content []) := by
    intro name k h
    obtain ⟨n, -, hn⟩ := parent_initial_eq_some.mp h
    exact absurd hn (by simp)
  have htriple := writeNewFileAtomic_triple oracle size random outputPath data hintruder
  have hstart : At (basename outputPath) (stagingName (basename outputPath) random)
      (Disk.initial parent content []) false Clean
      (World.initial (Disk.initial parent content [])) :=
    ⟨sound_initial, hclean, rfl, rfl⟩
  change _ ↔ run.1 = 0 at hcode
  change run.2 = _ at hworld
  rw [hworld]
  cases hrun : writeNewFileAtomic oracle size random outputPath data
    (World.initial (Disk.initial parent content [])) with
  | mk result w =>
    rw [hrun] at hcode
    cases result with
    | ok u =>
      obtain ⟨hsound, k, hstaged, hdata⟩ := htriple.of_ok hstart hrun
      exact
        { written_iff := ⟨fun _ => hcode.mp rfl, fun _ => ⟨k, hstaged.here⟩⟩
          complete := fun k' hk' => by
            rw [hstaged.here] at hk'
            obtain rfl := Inode.created.inj (Option.some.inj hk')
            exact hdata
          unwritten := hsound.unpublished
          output_kept := hsound.output_kept
          existing_kept := fun _ hd _ _ => hsound.existing_kept hd
          others_kept := fun _ hd => (hsound.kept hd).others
          cleaned := fun _ name k' hk' => by
            by_contra hname
            exact hstaged.only name hname k' hk' }
    | error e =>
      obtain ⟨hsound, hhidden, hcleaned⟩ := htriple.of_error hstart hrun
      exact
        { written_iff := ⟨fun ⟨k, hk⟩ => absurd hk (hhidden k),
            fun hzero => absurd (hcode.mpr hzero) (by simp)⟩
          complete := fun k hk => absurd hk (hhidden k)
          unwritten := hsound.unpublished
          output_kept := hsound.output_kept
          existing_kept := fun _ hd _ _ => hsound.existing_kept hd
          others_kept := fun _ hd => (hsound.kept hd).others
          cleaned := fun hnone name k hk => absurd hk (hcleaned hnone name k) }

example : basename (utf8 "a/b//") = utf8 "b" ∧
    stagingName (utf8 "b") 0xc0de = utf8 ".b.difz-stage-000000000000c0de" := by
  decide +kernel

end Stage

end Difz
