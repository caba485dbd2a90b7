import Difz.Stage.World
import Difz.Tree.Apply

/-!
# Staged application of a patch

`applyPatchToNewDir` of `src/directory_fs.zig`: rebuild the target in memory, write it to a staging
directory of its own, read that back, compare digests and rename the directory to the output name.
What reads and writes native file systems is a parameter, call by call; the order of the calls,
the checks between them and what happens when one fails are those of the source.
-/

namespace Difz

open Wire Program Metadata Directory

namespace Stage

/-! ### What the run is given -/

structure SnapshotOptions where
  rules : List PathFilter.Rule
  mask : Omit

/-- A call on the staged tree, paths relative to its root. -/
inductive Call
  | createDir (path : List UInt8)
  | hardLink (original link : List UInt8)
  | createFile (path : List UInt8)
  | writeStreamingAll (path data : List UInt8)
  | symLink (target path : List UInt8) (isDirectory : Bool)
  | setFilePermissions (path : List UInt8) (mode : Option UInt16)
  | native (path : List UInt8) (code : Nat)

inductive CompromiseCode
  | nativeAclPreserved | portableAclPreserved | finderFlagsPreserved | finderInfoPreserved
  | birthTimePreserved | sparsePreserved | hardlinkCopied | rawXattrPreserved
  | symlinkMetadataPreserved | modificationTimePreserved

def CompromiseCode.tag : CompromiseCode → UInt32
  | nativeAclPreserved => 1
  | portableAclPreserved => 2
  | finderFlagsPreserved => 3
  | finderInfoPreserved => 4
  | birthTimePreserved => 5
  | sparsePreserved => 6
  | hardlinkCopied => 7
  | rawXattrPreserved => 8
  | symlinkMetadataPreserved => 9
  | modificationTimePreserved => 10

structure RestoreReport where
  mask : UInt32

def RestoreReport.add (report : RestoreReport) (code : CompromiseCode) : RestoreReport :=
  ⟨report.mask ||| 1 <<< (code.tag - 1)⟩

/-- A native call made to restore metadata. -/
structure NativeStep where
  call : Call
  /-- any error but a lack of memory is ignored -/
  tolerated : Bool
  reports : Option CompromiseCode

/-- The system a run meets and the parts of the program it calls. -/
structure Setting (Tree : Type) where
  os : Os
  oracle : Nat → Choice Tree
  blake3 : List UInt8 → Digest
  empty : Tree
  perform : Call → Tree → Tree
  /-- the entries below the root, in the order a recursive walk meets them -/
  listing : Tree → List (List UInt8 × Kind)
  /-- what `snapshotDir` makes of a tree when no call fails -/
  capture : SnapshotOptions → Tree → Except Error Snapshot
  readOptions : List UInt8 → TreePatch.ApplyLimits → Except Error SnapshotOptions
  applyPatchRoot : Snapshot → List UInt8 → TreePatch.ApplyLimits → Except Error Snapshot
  /-- xattrs, ACLs, holes, times and Finder fields, while everything is writable -/
  restoreSteps : Omit → Snapshot → List (List UInt8) → Tree → List NativeStep
  /-- the stored modification time of one entry -/
  modificationSteps : Omit → Entry → Tree → List NativeStep
  /-- the final ACLs and the root's modification time -/
  finalSteps : Omit → Snapshot → Tree → List NativeStep

variable {Tree : Type} (env : Setting Tree) (output : Name)

/-! ### Names and digests -/

def validateBasename (name : Name) : Except Error Unit := do
  (validatePath name).mapError Error.snapshot
  ensure (¬name.contains 0x2f) .notBasename

def treeHashWithRoot (s : Snapshot) : Except Error Digest := do
  let canonical ← (CanonicalSnapshot.new s).mapError Error.snapshot
  .ok (canonical.hash env.blake3)

/-! ### Writing the staged tree -/

/-- No mode on Windows, where only the default ones can be had. -/
def writablePermissions (mode : UInt16) : Option UInt16 :=
  if env.os = .mswin then none else some mode

def writableDirectoryPermissions : Option UInt16 := writablePermissions env 0o700

def permissionsForMode (content : Content) : Except Error (Option UInt16) :=
  if env.os = .mswin then
    let expected : UInt16 := match content with
      | .directory _ => 0o755
      | .file _ _ => 0o644
      | .symlink _ => 0o777
    if content.mode.bits ≠ expected then .error .unsupportedMode else .ok none
  else .ok (some content.mode.bits)

def canCopyHardlink : Error → Bool
  | .operationUnsupported | .accessDenied | .permissionDenied | .crossDevice
  | .linkQuotaExceeded => true
  | _ => false

/-- The absolute path of `target` seen from the directory `parent`, without `.` and `..`. -/
def resolvePosix (parent target : List UInt8) : List UInt8 :=
  let walk (dir : List (List UInt8)) (part : List UInt8) : List (List UInt8) :=
    if part = [] ∨ part = utf8 "." then dir
    else if part = utf8 ".." then dir.dropLast else dir ++ [part]
  [0x2f].intercalate ((components target).foldl walk ((components parent).foldl walk []))

def symlinkPointsToDirectory (entries : List Entry) (path target : List UInt8) : Bool :=
  if env.os ≠ .mswin then false
  else
    let targetPath := resolvePosix ((parentPath path).getD []) target
    if targetPath.isEmpty then true
    else match entryAt entries targetPath with
      | none => false
      | some e => match e.content with
        | .directory _ => true
        | .file _ _ | .symlink _ => false

def stageCall (stage : Inode) (c : Call) : Run Tree Unit :=
  treeCall env.oracle output stage (env.perform c)

/-- Link to an earlier file. `false` where the system cannot and a copy is in order. -/
def createLink (stage : Inode) (original link : List UInt8) : Run Tree Bool :=
  .handle (do stageCall env output stage (.hardLink original link); pure true)
    fun err => if canCopyHardlink err then pure false else .fail err

def writeFile (stage : Inode) (path data : List UInt8) : Run Tree Unit := do
  stageCall env output stage (.createFile path)
  stageCall env output stage (.writeStreamingAll path data)

/-- One round of the first loop. `copied` are the links written as copies. -/
def writeObject (stage : Inode) (entries : List Entry) (copied : List (List UInt8)) (e : Entry) :
    Run Tree (List (List UInt8)) :=
  match e.content with
  | .directory _ => do
    stageCall env output stage (.createDir e.path)
    pure copied
  | .file _ bytes =>
    match e.metadata.metadata.hardlinkTo with
    | none => do
      writeFile env output stage e.path bytes.bytes
      pure copied
    | some original => do
      let linked ← createLink env output stage original e.path
      if linked then pure copied
      else do
        writeFile env output stage e.path bytes.bytes
        pure (copied ++ [e.path])
  | .symlink target => do
    stageCall env output stage
      (.symLink target.bytes e.path (symlinkPointsToDirectory env entries e.path target.bytes))
    pure copied

def nativeStep (stage : Inode) (report : RestoreReport) (step : NativeStep) :
    Run Tree RestoreReport := do
  .handle (stageCall env output stage step.call) fun err =>
    match step.tolerated, err with
    | true, .outOfMemory | false, _ => .fail err
    | true, _ => pure ()
  pure (match step.reports with
    | none => report
    | some code => report.add code)

/-- The steps are chosen by looking at the tree as it is. -/
def nativeSteps (stage : Inode) (report : RestoreReport) (steps : Tree → List NativeStep) :
    Run Tree RestoreReport := do
  let planned ← readTree env.oracle output stage fun tree => .ok (steps tree)
  .fold (nativeStep env output stage) report planned

/-- One round of the last loop, which runs from the last entry to the first. -/
def finishObject (stage : Inode) (mask : Omit) (report : RestoreReport) (e : Entry) :
    Run Tree RestoreReport := do
  let report ← nativeSteps env output stage report (env.modificationSteps mask e)
  match e.content with
  | .symlink _ => pure report
  | .directory _ | .file _ _ => do
    let mode ← .lift (permissionsForMode env e.content)
    stageCall env output stage (.setFilePermissions e.path mode)
    pure report

def writeSnapshot (stage : Inode) (s : Snapshot) (mask : Omit) : Run Tree RestoreReport := do
  .lift ((validate s.entries).mapError Error.snapshot)
  .lift ((forBefore checkEntry [] s.entries).mapError Error.snapshot)
  let copied ← .fold (writeObject env output stage s.entries) [] s.entries
  let report ← nativeSteps env output stage ⟨0⟩ (env.restoreSteps mask s copied)
  let report ← .fold (finishObject env output stage mask) report s.entries.reverse
  nativeSteps env output stage report (env.finalSteps mask s)

def snapshotDir (inode : Inode) (options : SnapshotOptions) : Run Tree Snapshot :=
  readTree env.oracle output inode (env.capture options)

/-! ### Removing the staged tree -/

/-- One entry met by the walk: directories are made writable and entered. -/
def makeWritable (root : Inode) (entry : List UInt8 × Kind) : Run Tree Unit := do
  readTree env.oracle output root fun _ => .ok ()
  match entry.2 with
  | .file | .symlink => pure ()
  | .directory => do
    stageCall env output root (.setFilePermissions entry.1 (writableDirectoryPermissions env))
    readTree env.oracle output root fun _ => .ok ()

def makeDirectoriesWritable (root : Inode) : Run Tree Unit := do
  let entries ← readTree env.oracle output root fun tree => .ok (env.listing tree)
  .fold (fun _ => makeWritable env output root) () entries

def deleteOwnedTree (name : Name) : Run Tree Unit := do
  let root ← openDir env.oracle output name
  makeDirectoriesWritable env output root
  deleteTree env.oracle output name

/-- `errdefer if (owns_stage) deleteOwnedTree(…) catch {}`. -/
def cleanup (staging : Name) : Run Tree Unit := do
  let owns ← .gets (·.ownsStage)
  if owns then
    .handle (deleteOwnedTree env output staging) fun err =>
      .modify fun w => { w with discarded := some err }
  else pure ()

/-! ### Publishing -/

def pathMax : Nat := 1024

def terminatedBasename (name : Name) : Except Error Name :=
  if name.length ≥ pathMax then .error .nameTooLong else .ok name

def ofErrno : Errno → Error
  | .exist => .outputAlreadyExists
  | .noent => .fileNotFound
  | .acces => .accessDenied
  | .perm => .permissionDenied
  | .notdir => .notDir
  | .notempty => .dirNotEmpty
  | .nametoolong => .nameTooLong
  | .rofs => .readOnlyFileSystem
  | .nospc => .noSpaceLeft
  | .io => .fileSystem
  | .loop => .symLinkLoop
  | .ilseq => .badPathName
  | .other _ => .unexpected

def publishStagingDir (staging : Name) : Run Tree Unit :=
  if env.os ≠ .macos then renamePreserve env.oracle output staging output
  else do
    let source ← .lift (terminatedBasename staging)
    let target ← .lift (terminatedBasename output)
    .mapError ofErrno (renameatxNp env.oracle output source target)

/-! ### The whole run -/

/-- The output name must be free when the run starts. -/
def requireAbsent (name : Name) : Run Tree Unit := do
  let found ← .handle (do statFile env.oracle output name; pure true) fun err =>
    match err with
    | .fileNotFound => pure false
    | err => .fail err
  if found then .fail .outputAlreadyExists else pure ()

/-- The scope behind the creation of the staging directory. -/
def stageAndPublish (staging : Name) (reconstructed : Snapshot) (mask : Omit) :
    Run Tree RestoreReport := do
  let stage ← openDir env.oracle output staging
  let report ← writeSnapshot env output stage reconstructed mask
  let staged ← snapshotDir env output stage ⟨[], mask⟩
  let expectedHash ← fallible env.oracle output (treeHashWithRoot env reconstructed)
  let stagedHash ← fallible env.oracle output (treeHashWithRoot env staged)
  .lift (ensure (expectedHash = stagedHash) .stagedHashMismatch)
  publishStagingDir env output staging
  .modify fun w => { w with ownsStage := false }
  pure report

def applyPatchToNewDir (source : Inode) (staging : Name) (patch : List UInt8)
    (limits : TreePatch.ApplyLimits) : Run Tree RestoreReport := do
  .lift (validateBasename output)
  .lift (validateBasename staging)
  .lift (ensure (output ≠ staging) .stagingNameConflict)
  requireAbsent env output output
  let options ← fallible env.oracle output (env.readOptions patch limits)
  let sourceSnapshot ← snapshotDir env output source options
  let reconstructed ← fallible env.oracle output (env.applyPatchRoot sourceSnapshot patch limits)
  createDir env.oracle output env.empty staging
  .modify fun w => { w with ownsStage := true }
  .errdefer (cleanup env output staging)
    (stageAndPublish env output staging reconstructed options.mask)

end Stage

end Difz
