import Difz.Hardlink.Rebase
import Difz.Walk.Capture

/-!
# Modes while a tree is written

`writeSnapshotWith` of `src/directory_fs.zig` as a user whom modes bind. A native call on a path
needs search permission on each directory above it, and write permission on the last of them to
change what is in it. An attribute needs write permission on its object. An entry can have any mode,
also one that shuts its owner out, and so can an access list.

Objects are made with modes that let the owner in, and those of the entries are set at the end, from
the last entry to the first: the directories above an entry stand before it, so they are still open
when its turn comes. This module has the calls, and the loop that makes the objects.

`umask` is one that leaves the owner's permissions alone, and the owner can go through the
directories above the root.
-/

namespace Difz

open Wire

namespace Walk

open Program
open Program.Action (fold gets handle lift modify)
open Zig (Entry Omit Related validateSnapshot validateMetadataRelations)
open Directory (IsAncestor Kind)
open Hardlink (groupPath)

namespace Owner

/-! ### Native calls -/

/-- What a mode can let the owner do. -/
inductive Right
  | read
  | write
  | search

def Right.bit : Right → UInt16
  | .read => 0o400
  | .write => 0o200
  | .search => 0o100

def allows (mode : UInt16) (right : Right) : Bool := mode &&& right.bit != 0

/-- What has a mode. The names of a directory start from the root of the tree, which has none. -/
inductive Object
  | dir (names : List Name)
  | file (inode : Nat)
  deriving DecidableEq

/-- A file system with modes. -/
structure Guarded where
  fs : FileSystem
  mode : Object → UInt16

/-- Change the mode of an object. -/
def Guarded.change (g : Guarded) (o : Object) (f : UInt16 → UInt16) : Guarded :=
  { g with mode := Function.update g.mode o (f (g.mode o)) }

abbrev GuardedCalls := Program.Action Guarded Stage.Error

/-- The directories on the way to an object, the root of the tree included. -/
def above (names : List Name) : List (List Name) := names.inits.dropLast

def search (names : List Name) : GuardedCalls Unit := fun g =>
  if (above names).all fun dir => allows (g.mode (.dir dir)) .search then (.ok (), g)
  else (.error .accessDenied, g)

/-- Change what is in the directory of an object. -/
def enter (names : List Name) : GuardedCalls Unit := do
  search names
  let mode ← gets (·.mode (.dir names.dropLast))
  if allows mode .write then pure () else .fail .accessDenied

/-- The part of a call that modes have no say in. -/
def onFiles {α : Type} (x : Calls α) : GuardedCalls α := fun g =>
  match x g.fs with
  | (result, fs) => (result, { g with fs })

/-- What is at a path. Links have no modes to change, and nothing is known of special files. -/
def locate (names : List Name) : GuardedCalls (Option Object) := do
  search names
  let found ← gets (·.fs.tree.get names)
  match found with
  | none => .fail .fileNotFound
  | some none => pure (some (.dir names))
  | some (some (.file inode)) => pure (some (.file inode))
  | some (some (.symlink _)) => .fail .operationUnsupported
  | some (some .special) => pure none

/-- A call that takes a permission on the object itself. -/
def access (names : List Name) (right : Right) : GuardedCalls Unit := do
  let found ← locate names
  match found with
  | none => pure ()
  | some o => do
    let mode ← gets (·.mode o)
    if allows mode right then pure () else .fail .accessDenied

/-- Give the object at a path the mode that `f` makes of its own. -/
def changeMode (names : List Name) (f : UInt16 → UInt16) : GuardedCalls Unit := do
  let found ← locate names
  match found with
  | none => pure ()
  | some o => modify (·.change o f)

/-- A call on `.` looks it up in the root. -/
def lookupDot : GuardedCalls Unit := do
  let mode ← gets (·.mode (.dir []))
  if allows mode .search then pure () else .fail .accessDenied

def writableDirectoryPermissions : UInt16 := 0o700

def writableFilePermissions : UInt16 := 0o600

def createDir (path : List UInt8) : GuardedCalls Unit := do
  enter (resolve path)
  onFiles (Walk.createDir path)
  modify (·.change (.dir (resolve path)) fun _ => writableDirectoryPermissions)

def symLink (target path : List UInt8) : GuardedCalls Unit := do
  enter (resolve path)
  onFiles (Walk.symLink target path)

def hardLink (original link : List UInt8) : GuardedCalls Unit := do
  search (resolve original)
  enter (resolve link)
  onFiles (Walk.hardLink original link)

def createFile (path : List UInt8) : GuardedCalls Nat := do
  enter (resolve path)
  let inode ← onFiles (Walk.createFile path)
  modify (·.change (.file inode) fun _ => writableFilePermissions)
  pure inode

def setFilePermissions (names : List Name) (mode : UInt16) : GuardedCalls Unit :=
  changeMode names fun _ => mode

/-! ### The loops of `writeSnapshotWith` -/

/-- What is written as an attribute of an object. -/
inductive Attribute
  | xattrs
  | sparse
  | birthTime
  | nativeAcl
  | portableAcl
  | finder
  | symlinkMetadata
  | modificationTime

/-- What native calls do and report, apart from permissions. -/
structure Natives where
  /-- The mode that the access list of a record makes of the one its object has. -/
  acl : Metadata → UInt16 → UInt16
  /-- Whether something has to be written as an attribute of the object with these names. -/
  writes : Attribute → List Name → Bool

def createLink (original link : List UInt8) : GuardedCalls Bool :=
  handle (do hardLink original link; pure true)
    fun err => if Stage.canCopyHardlink err then pure false else .fail err

def writeFile (path data : List UInt8) : GuardedCalls Unit := do
  let file ← createFile path
  onFiles (writeStreamingAll file data)

/-- One round of the first loop. `copied` are the links written as copies. -/
def createObject (copied : List (List UInt8)) (e : Entry) : GuardedCalls (List (List UInt8)) :=
  match e.kind with
  | .directory => do
    createDir e.path
    pure copied
  | .file =>
    match e.meta_.hardlinkTo with
    | none => do
      writeFile e.path e.data
      pure copied
    | some original => do
      let linked ← createLink original e.path
      if linked then pure copied
      else do
        writeFile e.path e.data
        pure (copied ++ [e.path])
  | .symlink => do
    symLink e.data e.path
    pure copied

/-- `if (!omitted) …` -/
def unlessOmitted (omitted : Bool) (x : GuardedCalls Unit) : GuardedCalls Unit :=
  if omitted then pure () else x

variable (natives : Natives) (mask : Omit)

/-- `xattr_stream.set` where there is something to write. -/
def setXattr (what : Attribute) (names : List Name) : GuardedCalls Unit :=
  if natives.writes what names then access names .write else pure ()

/-- `native_acl.restore`, whose failures are passed over. -/
def restoreList (names : List Name) (meta_ : Metadata) : GuardedCalls Unit :=
  handle (changeMode names (natives.acl meta_)) fun _ => pure ()

/-- What has become of the access list decides on the sidecars. -/
def restoreAcl (names : List Name) (meta_ : Metadata) : GuardedCalls Unit := do
  restoreList natives names meta_
  setXattr natives .nativeAcl names
  setXattr natives .portableAcl names

def writablePermissions (kind : Kind) : UInt16 :=
  if kind = .directory then writableDirectoryPermissions else writableFilePermissions

/-- `restoreSparse` reads the file back; that it cannot be punched does not matter. -/
def restoreSparse (e : Entry) : GuardedCalls Unit :=
  if e.kind = .file then do
    access (resolve e.path) .read
    setXattr natives .sparse (resolve e.path)
  else pure ()

/-- A link that was written as a copy says so. -/
def markCopied (copied : List (List UInt8)) (e : Entry) : GuardedCalls Unit :=
  if e.path ∈ copied then access (resolve e.path) .write else pure ()

/-- One round of the second loop. A link is only looked at, what is kept of it is written later. -/
def restoreObject (copied : List (List UInt8)) (e : Entry) : GuardedCalls Unit :=
  if e.kind = .symlink then search (resolve e.path)
  else do
    setXattr natives .xattrs (resolve e.path)
    markCopied copied e
    unlessOmitted mask.sparse (restoreSparse natives e)
    unlessOmitted mask.timestamps (setXattr natives .birthTime (resolve e.path))
    unlessOmitted mask.acl do
      restoreAcl natives (resolve e.path) e.meta_
      setFilePermissions (resolve e.path) (writablePermissions e.kind)
    unlessOmitted mask.finder (setXattr natives .finder (resolve e.path))

/-- What is done to the root behind the second loop. -/
def restoreRoot (rootMeta : Metadata) : GuardedCalls Unit := do
  setXattr natives .xattrs []
  unlessOmitted mask.acl do
    restoreAcl natives [] rootMeta
    lookupDot
    setFilePermissions [] writableDirectoryPermissions
  unlessOmitted mask.finder (setXattr natives .finder [])
  unlessOmitted mask.timestamps do
    lookupDot
    setXattr natives .birthTime []

/-- What is kept of a link is an attribute of the directory that it is in. -/
def transportLink (e : Entry) : GuardedCalls Unit :=
  if e.kind = .symlink ∧ natives.writes .symlinkMetadata (resolve e.path) then
    access (resolve e.path).dropLast .write
  else pure ()

/-- One round of the loop over modes. -/
def finishObject (e : Entry) : GuardedCalls Unit :=
  if e.kind = .symlink then pure ()
  else do
    unlessOmitted mask.timestamps do
      search (resolve e.path)
      setXattr natives .modificationTime (resolve e.path)
    setFilePermissions (resolve e.path) e.mode

/-- Access lists are set once more, the root's first. -/
def restoreLists (rootMeta : Metadata) (entries : List Entry) : GuardedCalls Unit := do
  restoreList natives [] rootMeta
  fold (fun _ e =>
    if e.kind = .symlink then pure () else restoreList natives (resolve e.path) e.meta_) () entries

def finishRoot : GuardedCalls Unit := do
  lookupDot
  setXattr natives .modificationTime []

/-- What comes behind the loop over modes. -/
def finishSnapshot (entries : List Entry) (rootMeta : Metadata) : GuardedCalls Unit := do
  unlessOmitted mask.acl (restoreLists natives rootMeta entries)
  unlessOmitted mask.timestamps (finishRoot natives)

def writeSnapshot (blake3 : List UInt8 → Digest) (entries : List Entry) (rootMeta : Metadata) :
    GuardedCalls (List (List UInt8)) := do
  lift ((validateSnapshot entries).mapError Stage.Error.snapshot)
  lift ((validateMetadataRelations blake3 entries).mapError Stage.Error.snapshot)
  let copied ← fold createObject [] entries
  fold (fun _ e => restoreObject natives mask copied e) () entries
  restoreRoot natives mask rootMeta
  fold (fun _ e => transportLink natives e) () entries
  fold (fun _ e => finishObject natives mask e) () entries.reverse
  finishSnapshot natives mask entries rootMeta
  pure copied

/-! ### Objects on the way -/

/-- The mode that an object is made with. -/
def writableMode : Object → UInt16
  | .dir _ => writableDirectoryPermissions
  | .file _ => writableFilePermissions

lemma allows_directory (right : Right) : allows writableDirectoryPermissions right := by
  cases right <;> decide

/-- The directory has the mode it is made with, so the owner can do everything in it. -/
def Open (g : Guarded) (dir : List Name) : Prop :=
  g.mode (.dir dir) = writableDirectoryPermissions

lemma Open.allows {g : Guarded} {dir : List Name} (h : Open g dir) (right : Right) :
    allows (g.mode (.dir dir)) right := by
  rw [h]
  exact allows_directory right

lemma mem_above {names dir : List Name} : dir ∈ above names ↔ dir <+: names ∧ dir ≠ names := by
  induction names using List.reverseRecOn with
  | nil => simp [above]
  | append_singleton names name ih =>
    have habove : above (names ++ [name]) = names.inits := by simp [above, List.inits_append]
    rw [habove, List.mem_inits, List.prefix_concat_iff]
    constructor
    · intro h
      refine ⟨Or.inr h, ?_⟩
      rintro rfl
      have := h.length_le
      simp at this
    · rintro ⟨h | h, hne⟩
      · exact absurd h hne
      · exact h

section Calls

variable {g : Guarded} {names : List Name} {o : Object}

@[simp] lemma change_mode_self (f : UInt16 → UInt16) : (g.change o f).mode o = f (g.mode o) :=
  Function.update_self ..

lemma change_mode_of_ne {o' : Object} (f : UInt16 → UInt16) (h : o' ≠ o) :
    (g.change o f).mode o' = g.mode o' :=
  Function.update_of_ne h ..

lemma search_eq_ok (h : ∀ dir ∈ above names, allows (g.mode (.dir dir)) .search) :
    search names g = (.ok (), g) :=
  if_pos (List.all_eq_true.mpr h)

/-- A lookup gets to an object. -/
def Finds (g : Guarded) (names : List Name) (o : Object) : Prop := locate names g = (.ok (some o), g)

lemma finds_iff : Finds g names o ↔ (∀ dir ∈ above names, allows (g.mode (.dir dir)) .search) ∧
    ((g.fs.tree.get names = some none ∧ .dir names = o) ∨
      ∃ inode, g.fs.tree.get names = some (some (.file inode)) ∧ .file inode = o) := by
  by_cases hsearch : ∀ dir ∈ above names, allows (g.mode (.dir dir)) .search
  · rw [Finds, locate, bind_of_ok (search_eq_ok hsearch), bind_gets]
    rcases g.fs.tree.get names with _ | _ | ⟨inode⟩ | ⟨target⟩ | _
    · simp [Action.fail]
    · simpa [pure_eq_ok] using fun _ => hsearch
    · simpa [pure_eq_ok] using fun _ => hsearch
    · simp [Action.fail]
    · simp [pure_eq_ok]
  · have herror : search names g = (.error .accessDenied, g) :=
      if_neg fun hall => hsearch (List.all_eq_true.mp hall)
    simp [Finds, locate, bind_apply, herror, hsearch]

lemma finds_root : Finds g [] (.dir []) :=
  finds_iff.mpr ⟨by simp [above], Or.inl ⟨by rw [Forest.get], rfl⟩⟩

/-- An object is still found when the mode of one that is not above it changes. -/
lemma Finds.change {o' : Object} (h : Finds g names o) (f : UInt16 → UInt16)
    (hout : ∀ dir ∈ above names, o' ≠ .dir dir) : Finds (g.change o' f) names o := by
  obtain ⟨hsearch, hfound⟩ := finds_iff.mp h
  refine finds_iff.mpr ⟨fun dir hdir => ?_, hfound⟩
  rw [change_mode_of_ne f (hout dir hdir).symm]
  exact hsearch dir hdir

/-- No object is above itself. -/
lemma Finds.not_above (h : Finds g names o) : ∀ dir ∈ above names, o ≠ .dir dir := by
  rintro dir hdir rfl
  rcases (finds_iff.mp h).2 with ⟨-, hsame⟩ | ⟨inode, -, hsame⟩
  · exact (mem_above.mp hdir).2 (Object.dir.inj hsame).symm
  · cases hsame

lemma Finds.change_self (h : Finds g names o) (f : UInt16 → UInt16) :
    Finds (g.change o f) names o :=
  h.change f h.not_above

lemma access_eq_ok (h : Finds g names o) {right : Right} (hmode : allows (g.mode o) right) :
    access names right g = (.ok (), g) := by
  refine (bind_of_ok h).trans ((bind_gets ..).trans ?_)
  rw [if_pos hmode]
  rfl

lemma changeMode_eq_ok (h : Finds g names o) (f : UInt16 → UInt16) :
    changeMode names f g = (.ok (), g.change o f) :=
  bind_of_ok h

end Calls

section Attributes

variable {natives : Natives} {g : Guarded} {names : List Name} {o : Object} {meta_ : Metadata}

lemma setXattr_eq_ok (h : Finds g names o) {what : Attribute}
    (hmode : natives.writes what names → allows (g.mode o) .write) :
    setXattr natives what names g = (.ok (), g) := by
  rw [setXattr]
  split_ifs with hwrites
  · exact access_eq_ok h (hmode hwrites)
  · rfl

lemma restoreList_eq_ok (h : Finds g names o) :
    restoreList natives names meta_ g = (.ok (), g.change o (natives.acl meta_)) := by
  rw [restoreList, handle, changeMode_eq_ok h]

/-- The access list of an object goes into a sidecar, in one form or in both. -/
def Natives.KeepsAcl (natives : Natives) (names : List Name) : Prop :=
  natives.writes .nativeAcl names ∨ natives.writes .portableAcl names

/-- The list has been set when the sidecars are written. -/
lemma restoreAcl_eq_ok (h : Finds g names o)
    (hmode : natives.KeepsAcl names → allows (natives.acl meta_ (g.mode o)) .write) :
    restoreAcl natives names meta_ g = (.ok (), g.change o (natives.acl meta_)) := by
  have hfinds := h.change_self (natives.acl meta_)
  have hafter : natives.KeepsAcl names →
      allows ((g.change o (natives.acl meta_)).mode o) .write := by
    rwa [change_mode_self]
  refine (bind_of_ok (restoreList_eq_ok h)).trans ?_
  refine (bind_of_ok (setXattr_eq_ok hfinds fun hw => hafter (Or.inl hw))).trans ?_
  exact setXattr_eq_ok hfinds fun hw => hafter (Or.inr hw)

end Attributes

section Writing

variable {blake3 : List UInt8 → Digest} {entries before after : List Entry} {e : Entry}
  {g : Guarded}

/-- The object of an entry, among those of other entries. -/
def objectAt (done : List Entry) (e : Entry) : Object :=
  if e.kind = .directory then .dir (resolve e.path) else .file (inodeOf done e)

/-- The directories of the entries, and the root, are open. -/
def DirsOpen (done : List Entry) (g : Guarded) : Prop :=
  Open g [] ∧ ∀ d ∈ done, d.kind = .directory → Open g (resolve d.path)

lemma DirsOpen.mono {done : List Entry} (hopen : DirsOpen entries g)
    (hsub : ∀ d ∈ done, d ∈ entries) : DirsOpen done g :=
  ⟨hopen.1, fun d hd => hopen.2 d (hsub d hd)⟩

/-- Different entries have different names. -/
lemma resolve_injective (h : Accepted blake3 entries) {f : Entry} (he : e ∈ entries)
    (hf : f ∈ entries) (hsame : resolve e.path = resolve f.path) : e = f := by
  refine h.eq_of_path he hf ?_
  rw [← (h.joined_resolve he).2, ← (h.joined_resolve hf).2, hsame]

/-! ### Objects are made -/

/-- The root and the objects of the entries have the modes they are made with. -/
structure Fresh (done : List Entry) (g : Guarded) : Prop where
  root : Open g []
  objects : ∀ e ∈ done, e.kind ≠ .symlink →
    g.mode (objectAt done e) = writableMode (objectAt done e)

lemma objectAt_append (h : Accepted blake3 entries) (hsplit : entries = before ++ after)
    {f : Entry} (hf : f ∈ before) (hkind : f.kind ≠ .symlink) :
    objectAt (before ++ [e]) f = objectAt before f := by
  cases hk : f.kind with
  | directory => simp [objectAt, hk]
  | symlink => exact absurd hk hkind
  | file =>
    have hsame := objectOf_append (e := e) h hsplit hf
    simp only [objectOf, hk, Option.some.injEq, Leaf.file.injEq] at hsame
    simp [objectAt, hk, hsame]

/-- A link has the mode of the file that it refers to. -/
lemma Fresh.link (h : Accepted blake3 entries) (hsplit : entries = before ++ e :: after)
    (hfresh : Fresh before g) {original : List UInt8} (hlink : e.meta_.hardlinkTo = some original) :
    g.mode (objectAt (before ++ [e]) e) = writableMode (objectAt (before ++ [e]) e) := by
  obtain ⟨t, ht, rfl, -, hkind⟩ := h.exists_original hsplit hlink
  obtain ⟨hmem, hfile⟩ := List.mem_filter.mp ht
  simp only [decide_eq_true_eq] at hfile
  have hgroup : groupPath e = groupPath t := by rw [groupPath, groupPath, hlink, hfile.2]; rfl
  have hsame : objectAt (before ++ [e]) e = objectAt (before ++ [e]) t := by
    rw [objectAt, objectAt, inodeOf, inodeOf, hgroup]
    simp [hkind, hfile.1]
  rw [hsame, objectAt_append h hsplit hmem (by simp [hfile.1])]
  exact hfresh.objects t hmem (by simp [hfile.1])

end Writing

end Owner

end Walk

end Difz
