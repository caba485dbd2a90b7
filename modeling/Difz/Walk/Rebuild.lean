import Difz.Hardlink.Assign
import Difz.Stage.Apply
import Difz.Walk.Tree

/-!
# Rebuilding a directory tree

The first loop of `writeSnapshotWith` (`src/directory_fs.zig`) on a file system where a native call
fails only for what it finds: a name that is taken, or a directory or a file to link to that is
missing. The loop finds none of these, and the tree it leaves is the one that the entries describe,
`writeObjects_built`.

Whether a link points to a directory only matters on Windows, for a flag of the link, and is left
out.
-/

namespace Difz

open Wire

namespace Walk

open Program
open Program.Action (fold gets handle lift modify)
open Zig (Entry Related validateSnapshot validateMetadataRelations)
open Directory (Kind components pathOf entryAt)
open Hardlink (Stat groupPath assignHardlinks)

/-! ### Native calls -/

/-- A tree, and the files behind its names. -/
structure FileSystem where
  tree : Forest Name Leaf
  inodes : List Inode
  deriving DecidableEq

namespace FileSystem

def empty : FileSystem := ⟨.nil, []⟩

/-- What the native calls of a walk report of the files. -/
def seen (fs : FileSystem) (native : Native) : Native :=
  { native with inode := fun i => fs.inodes.getD i ⟨[], none⟩ }

end FileSystem

def Name.ofBytes (bytes : List UInt8) : Option Name :=
  if h : bytes ≠ [] ∧ 0x2f ∉ bytes then some ⟨bytes, h.1, h.2⟩ else none

/-- The names along a path. -/
def resolve (path : List UInt8) : List Name := (components path).filterMap Name.ofBytes

abbrev Calls := Program.Action FileSystem Stage.Error

def ofRefusal : Forest.Refusal → Stage.Error
  | .alreadyExists => .pathAlreadyExists
  | .missing => .fileNotFound
  | .notDirectory => .notDir

/-- Make an object, `none` standing for a directory. -/
def add (path : List UInt8) (object : Option Leaf) : Calls Unit := fun fs =>
  match fs.tree.put object (resolve path) with
  | .ok tree => (.ok (), { fs with tree })
  | .error refusal => (.error (ofRefusal refusal), fs)

def createDir (path : List UInt8) : Calls Unit := add path none

def symLink (target path : List UInt8) : Calls Unit := add path (some (.symlink target))

def hardLink (original link : List UInt8) : Calls Unit := do
  let found ← gets (·.tree.get (resolve original))
  match found with
  | none => .fail .fileNotFound
  | some none => .fail .permissionDenied
  | some (some leaf) => add link (some leaf)

/-- `createFile` with `exclusive`. The handle is the number of the new file, which has no
attributes. -/
def createFile (path : List UInt8) : Calls Nat := do
  let inode ← gets (·.inodes.length)
  add path (some (.file inode))
  modify fun fs => { fs with inodes := fs.inodes ++ [⟨[], none⟩] }
  pure inode

def writeStreamingAll (inode : Nat) (data : List UInt8) : Calls Unit :=
  modify fun fs => { fs with
    inodes := fs.inodes.modify inode fun file => { file with data := file.data ++ data } }

/-! ### The loop -/

/-- `Links.create`. `false` where the system cannot link and a copy is in order. -/
def createLink (original link : List UInt8) : Calls Bool :=
  handle (do hardLink original link; pure true)
    fun err => if Stage.canCopyHardlink err then pure false else .fail err

def writeFile (path data : List UInt8) : Calls Unit := do
  let file ← createFile path
  writeStreamingAll file data

/-- One round. `copied` are the links written as copies. -/
def createObject (copied : List (List UInt8)) (e : Entry) : Calls (List (List UInt8)) :=
  match e.kind with
  | .directory => do
    createDir e.path
    pure copied
  | .file =>
    match e.meta_.hardlinkTo with
    | none => do
      writeFile e.path e.data
      pure copied
    | some original => do
      let linked ← createLink original e.path
      if linked then pure copied
      else do
        writeFile e.path e.data
        pure (copied ++ [e.path])
  | .symlink => do
    symLink e.data e.path
    pure copied

/-- `writeSnapshotWith` up to the end of the loop. -/
def writeObjects (blake3 : List UInt8 → Digest) (entries : List Entry) :
    Calls (List (List UInt8)) := do
  lift ((validateSnapshot entries).mapError Stage.Error.snapshot)
  lift ((validateMetadataRelations blake3 entries).mapError Stage.Error.snapshot)
  fold createObject [] entries

/-! ### Paths and names -/

lemma ofBytes_bytes (name : Name) : Name.ofBytes name.bytes = some name := by
  rw [Name.ofBytes, dif_pos ⟨name.nonempty, name.separator⟩]

lemma resolve_joined {names : List Name} (h : names ≠ []) : resolve (joined names) = names := by
  rw [resolve, components_joined h]
  clear h
  induction names with
  | nil => rfl
  | cons name names ih =>
    rw [List.map_cons, List.filterMap_cons_some (ofBytes_bytes name), ih]

/-- A valid path is that of the names along it. -/
lemma joined_resolve {path : List UInt8} (h : Directory.ValidPath path) :
    resolve path ≠ [] ∧ joined (resolve path) = path := by
  have hbytes : (resolve path).map Name.bytes = components path := by
    have hparts := h.names
    have hsep := fun part => @Directory.separator_of_mem_components path part
    rw [resolve]
    generalize components path = parts at hparts hsep ⊢
    induction parts with
    | nil => rfl
    | cons part parts ih =>
      obtain ⟨⟨hne, -⟩, hparts⟩ := List.forall_mem_cons.mp hparts
      have hname : Name.ofBytes part = some ⟨part, hne, hsep part List.mem_cons_self⟩ :=
        dif_pos ⟨hne, hsep part List.mem_cons_self⟩
      rw [List.filterMap_cons_some hname, List.map_cons,
        ih hparts fun p hp => hsep p (List.mem_cons_of_mem _ hp)]
  constructor
  · intro hnil
    rw [hnil, components] at hbytes
    exact List.splitOn_ne_nil _ _ hbytes.symm
  · rw [joined, hbytes, components, List.intercalate_splitOn]

/-! ### What the loop builds -/

/-- The files that are not links to other files, in the order in which they get their numbers. -/
def originals (done : List Entry) : List Entry :=
  done.filter fun e => decide (e.kind = .file ∧ e.meta_.hardlinkTo = none)

/-- The number of the file an entry is a name of. -/
def inodeOf (done : List Entry) (e : Entry) : Nat :=
  ((originals done).map Entry.path).idxOf (groupPath e)

/-- What there is in the tree for an entry. -/
def objectOf (done : List Entry) (e : Entry) : Option Leaf :=
  match e.kind with
  | .directory => none
  | .file => some (.file (inodeOf done e))
  | .symlink => some (.symlink e.data)

/-- The file system has what the entries describe, and nothing else. -/
structure Built (done : List Entry) (fs : FileSystem) : Prop where
  distinct : fs.tree.Distinct
  objects : ∀ names, names ≠ [] → ∀ object, fs.tree.get names = some object ↔
    ∃ e ∈ done, e.path = joined names ∧ objectOf done e = object
  inodes : fs.inodes = (originals done).map fun e => ⟨e.data, none⟩

lemma built_nil : Built [] FileSystem.empty where
  distinct := trivial
  objects names hnames object := by
    obtain ⟨name, names, rfl⟩ := List.exists_cons_of_ne_nil hnames
    simp [FileSystem.empty, Forest.get, Forest.find]
  inodes := rfl

/-- A list of entries that passes both checks. -/
structure Accepted (blake3 : List UInt8 → Digest) (entries : List Entry) : Prop where
  structured : Directory.Structured entries
  related : Related blake3 entries

section Loop

variable {blake3 : List UInt8 → Digest} {entries before after : List Entry} {e : Entry}
  {fs : FileSystem}

namespace Accepted

lemma eq_of_path (h : Accepted blake3 entries) {e f : Entry} (he : e ∈ entries) (hf : f ∈ entries)
    (hpath : e.path = f.path) : e = f :=
  h.structured.sorted.eq_of_key he hf hpath

/-- The path is not taken by an entry before. -/
lemma path_notMem (h : Accepted blake3 entries) (hsplit : entries = before ++ e :: after)
    {f : Entry} (hf : f ∈ before) : f.path ≠ e.path := by
  intro hpath
  have hlt := ((h.structured.sorted.mem_before_iff hsplit).mp hf).2
  rw [Zig.pathOf_entry, Zig.pathOf_entry, hpath, Std.compare_self] at hlt
  exact absurd hlt (by decide)

/-- The file a link refers to is an original before it, with the same bytes. -/
lemma exists_original (h : Accepted blake3 entries) (hsplit : entries = before ++ e :: after)
    {original : List UInt8} (hlink : e.meta_.hardlinkTo = some original) :
    ∃ t ∈ originals before, t.path = original ∧ t.data = e.data ∧ e.kind = .file := by
  obtain ⟨t, hat, hlinks⟩ := h.related.hardlinks before e after hsplit original hlink
  obtain ⟨ht, hpath⟩ := Directory.mem_of_entryAt hat
  refine ⟨t, List.mem_filter.mpr ⟨ht, ?_⟩, hpath, hlinks.data, hlinks.kind⟩
  simp [hlinks.targetKind, hlinks.targetLink]

/-- The file behind an entry is that of an original, which is the entry itself or stands before. -/
lemma exists_group (h : Accepted blake3 entries) (hsplit : entries = before ++ e :: after)
    (hkind : e.kind = .file) :
    ∃ t ∈ originals (before ++ [e]), t.path = groupPath e ∧ t.data = e.data := by
  cases hlink : e.meta_.hardlinkTo with
  | none =>
    refine ⟨e, List.mem_filter.mpr ⟨by simp, by simp [hkind, hlink]⟩, ?_, rfl⟩
    rw [groupPath, hlink]
    rfl
  | some original =>
    obtain ⟨t, ht, hpath, hdata, -⟩ := h.exists_original hsplit hlink
    refine ⟨t, ?_, ?_, hdata⟩
    · rw [originals, List.filter_append]
      exact List.mem_append_left _ ht
    · rw [groupPath, hlink, hpath]
      rfl

end Accepted

lemma originals_append (xs ys : List Entry) : originals (xs ++ ys) = originals xs ++ originals ys :=
  List.filter_append xs ys

/-- Numbers do not change as the loop goes on. -/
lemma inodeOf_append {done rest : List Entry} {t : Entry} (ht : t ∈ originals done)
    (hpath : t.path = groupPath e) : inodeOf (done ++ rest) e = inodeOf done e := by
  rw [inodeOf, inodeOf, originals_append, List.map_append]
  exact List.idxOf_append_of_mem (hpath ▸ List.mem_map_of_mem ht)

lemma objectOf_append (h : Accepted blake3 entries) (hsplit : entries = before ++ after)
    {f : Entry} (hf : f ∈ before) : objectOf (before ++ [e]) f = objectOf before f := by
  cases hkind : f.kind with
  | directory => simp [objectOf, hkind]
  | symlink => simp [objectOf, hkind]
  | file =>
    obtain ⟨pre, post, rfl⟩ := List.append_of_mem hf
    have hpre : entries = pre ++ f :: (post ++ after) := by simp [hsplit]
    obtain ⟨t, ht, hpath, -⟩ := h.exists_group hpre hkind
    have hmem : t ∈ originals (pre ++ f :: post) := by
      rw [List.append_cons, originals_append]
      exact List.mem_append_left _ ht
    simp only [objectOf, hkind, inodeOf_append hmem hpath]

lemma validPath (h : Accepted blake3 entries) (hsplit : entries = before ++ e :: after) :
    Directory.ValidPath e.path :=
  h.structured.paths e (by simp [hsplit])

/-- The directory of the next entry is there, and its name is free. -/
lemma exists_put (h : Accepted blake3 entries) (hsplit : entries = before ++ e :: after)
    (hbuilt : Built before fs) (object : Option Leaf) :
    ∃ tree, fs.tree.put object (resolve e.path) = .ok tree := by
  obtain ⟨hnames, hjoined⟩ := joined_resolve (validPath h hsplit)
  refine Forest.exists_put_iff.mpr ⟨hnames, ?_, ?_⟩
  · by_cases htop : (resolve e.path).dropLast = []
    · rw [htop, Forest.get]
    · obtain ⟨above, name, hconcat⟩ := (List.eq_nil_or_concat (resolve e.path)).resolve_left hnames
      rw [List.concat_eq_append] at hconcat
      rw [hconcat, List.dropLast_concat] at htop ⊢
      have hparent : Directory.parentPath e.path = some (joined above) := by
        rw [← hjoined, hconcat, parentPath_joined, if_neg htop]
      obtain ⟨d, hd, hpath, hkind⟩ := h.structured.ancestors before e after hsplit _
        (Directory.isAncestor_of_parentPath hparent)
      refine (hbuilt.objects above htop none).mpr ⟨d, hd, hpath, ?_⟩
      have hdirectory : d.kind = .directory := hkind
      simp only [objectOf, hdirectory]
  · cases hget : fs.tree.get (resolve e.path) with
    | none => rfl
    | some found =>
      obtain ⟨f, hf, hpath, -⟩ := (hbuilt.objects _ hnames found).mp hget
      exact absurd (hpath.trans hjoined) (h.path_notMem hsplit hf)

/-- The tree with the object of the next entry in it. -/
lemma built_concat (h : Accepted blake3 entries) (hsplit : entries = before ++ e :: after)
    (hbuilt : Built before fs) {object : Option Leaf} {tree : Forest Name Leaf}
    {inodes : List Inode} (hput : fs.tree.put object (resolve e.path) = .ok tree)
    (hobject : objectOf (before ++ [e]) e = object)
    (hinodes : inodes = (originals (before ++ [e])).map fun e => ⟨e.data, none⟩) :
    Built (before ++ [e]) ⟨tree, inodes⟩ := by
  obtain ⟨hresolve, hjoined⟩ := joined_resolve (validPath h hsplit)
  refine ⟨Forest.distinct_put hbuilt.distinct hput, fun names hnames found => ?_, hinodes⟩
  rw [Forest.get_put hput]
  constructor
  · intro hget
    split_ifs at hget with hsame
    · refine ⟨e, by simp, by rw [hsame, hjoined], hobject.trans (Option.some.inj hget)⟩
    · obtain ⟨f, hf, hpath, hfound⟩ := (hbuilt.objects names hnames found).mp hget
      exact ⟨f, by simp [hf], hpath, (objectOf_append h hsplit hf).trans hfound⟩
  · rintro ⟨f, hf, hpath, hfound⟩
    rcases List.mem_append.mp hf with hf | hf
    · have hother : names ≠ resolve e.path := by
        rintro rfl
        exact h.path_notMem hsplit hf (hpath.trans hjoined)
      rw [if_neg hother]
      exact (hbuilt.objects names hnames found).mpr
        ⟨f, hf, hpath, (objectOf_append h hsplit hf).symm.trans hfound⟩
    · obtain rfl := List.mem_singleton.mp hf
      have hsame : names = resolve f.path := by rw [hpath, resolve_joined hnames]
      rw [if_pos hsame, ← hfound, hobject]

lemma add_eq_ok {path : List UInt8} {object : Option Leaf} {tree : Forest Name Leaf}
    (hput : fs.tree.put object (resolve path) = .ok tree) :
    add path object fs = (.ok (), { fs with tree }) := by
  rw [add, hput]

/-- A file with new contents gets the next number. -/
lemma inodeOf_concat (h : Accepted blake3 entries) (hsplit : entries = before ++ e :: after)
    (hbuilt : Built before fs) (hkind : e.kind = .file) (hlink : e.meta_.hardlinkTo = none) :
    originals (before ++ [e]) = originals before ++ [e] ∧
      inodeOf (before ++ [e]) e = fs.inodes.length := by
  have horiginals : originals (before ++ [e]) = originals before ++ [e] := by
    rw [originals_append]
    exact congrArg _ (List.filter_cons_of_pos (by simp [hkind, hlink]))
  have hfresh : e.path ∉ (originals before).map Entry.path := by
    intro hmem
    obtain ⟨f, hf, hpath⟩ := List.mem_map.mp hmem
    exact h.path_notMem hsplit (List.mem_filter.mp hf).1 hpath
  have hgroup : groupPath e = e.path := by rw [groupPath, hlink]; rfl
  refine ⟨horiginals, ?_⟩
  simp only [inodeOf, horiginals, hgroup, List.map_append, List.idxOf_append_of_notMem hfresh,
    List.map_cons, List.idxOf_cons_self, List.length_map, hbuilt.inodes, Nat.add_zero]

lemma writeFile_built (h : Accepted blake3 entries) (hsplit : entries = before ++ e :: after)
    (hbuilt : Built before fs) (hkind : e.kind = .file) (hlink : e.meta_.hardlinkTo = none) :
    ∃ fs', writeFile e.path e.data fs = (.ok (), fs') ∧ Built (before ++ [e]) fs' := by
  obtain ⟨tree, hput⟩ := exists_put h hsplit hbuilt (some (.file fs.inodes.length))
  obtain ⟨horiginals, hnumber⟩ := inodeOf_concat h hsplit hbuilt hkind hlink
  have hcreate : createFile e.path fs
      = (.ok fs.inodes.length, ⟨tree, fs.inodes ++ [(⟨[], none⟩ : Inode)]⟩) := by
    exact Program.bind_eq_ok.mpr ⟨_, fs, rfl,
      Program.bind_eq_ok.mpr ⟨(), _, add_eq_ok hput, rfl⟩⟩
  refine ⟨⟨tree, (fs.inodes ++ [(⟨[], none⟩ : Inode)]).modify fs.inodes.length
    fun file => { file with data := file.data ++ e.data }⟩, ?_, ?_⟩
  · exact Program.bind_eq_ok.mpr ⟨_, _, hcreate, rfl⟩
  · refine built_concat h hsplit hbuilt hput ?_ ?_
    · simp only [objectOf, hkind, hnumber]
    · rw [horiginals, List.map_append, ← hbuilt.inodes]
      simp [List.modify_eq_take_drop]

/-- A link gets the number of its original. -/
lemma hardLink_built (h : Accepted blake3 entries) (hsplit : entries = before ++ e :: after)
    (hbuilt : Built before fs) {original : List UInt8}
    (hlink : e.meta_.hardlinkTo = some original) :
    ∃ fs', hardLink original e.path fs = (.ok (), fs') ∧ Built (before ++ [e]) fs' := by
  obtain ⟨t, ht, rfl, -, hkind⟩ := h.exists_original hsplit hlink
  obtain ⟨hmem, hfile⟩ := List.mem_filter.mp ht
  have hgroup : groupPath e = t.path := by rw [groupPath, hlink]; rfl
  have horiginals : originals (before ++ [e]) = originals before := by
    rw [originals_append]
    simp [originals, hlink]
  obtain ⟨hnames, hjoined⟩ := joined_resolve (h.structured.paths t (by simp [hsplit, hmem]))
  simp only [decide_eq_true_eq] at hfile
  have hnumber : inodeOf before t = inodeOf before e := by
    rw [inodeOf, inodeOf, hgroup, groupPath, hfile.2]
    rfl
  have hfound : fs.tree.get (resolve t.path) = some (some (.file (inodeOf before e))) := by
    refine (hbuilt.objects _ hnames _).mpr ⟨t, hmem, hjoined.symm, ?_⟩
    simp only [objectOf, hfile.1, hnumber]
  obtain ⟨tree, hput⟩ := exists_put h hsplit hbuilt (some (.file (inodeOf before e)))
  refine ⟨{ fs with tree }, ?_, built_concat h hsplit hbuilt hput ?_ ?_⟩
  · have hgets : (gets (·.tree.get (resolve t.path)) : Calls _) fs
        = (.ok (some (some (.file (inodeOf before e)))), fs) := by
      rw [gets, hfound]
    exact Program.bind_eq_ok.mpr ⟨_, fs, hgets, add_eq_ok hput⟩
  · simp only [objectOf, hkind, inodeOf, horiginals]
  · rw [horiginals, hbuilt.inodes]

/-- One round finds what it needs, and no link has to be a copy. -/
lemma createObject_built (h : Accepted blake3 entries) (hsplit : entries = before ++ e :: after)
    (hbuilt : Built before fs) (copied : List (List UInt8)) :
    ∃ fs', createObject copied e fs = (.ok copied, fs') ∧ Built (before ++ [e]) fs' := by
  cases hkind : e.kind with
  | directory =>
    obtain ⟨tree, hput⟩ := exists_put h hsplit hbuilt none
    refine ⟨{ fs with tree }, ?_, built_concat h hsplit hbuilt hput ?_ ?_⟩
    · simp only [createObject, hkind]
      exact Program.bind_eq_ok.mpr ⟨(), _, add_eq_ok hput, rfl⟩
    · simp only [objectOf, hkind]
    · rw [originals_append, hbuilt.inodes]
      simp [originals, hkind]
  | symlink =>
    obtain ⟨tree, hput⟩ := exists_put h hsplit hbuilt (some (.symlink e.data))
    refine ⟨{ fs with tree }, ?_, built_concat h hsplit hbuilt hput ?_ ?_⟩
    · simp only [createObject, hkind]
      exact Program.bind_eq_ok.mpr ⟨(), _, add_eq_ok hput, rfl⟩
    · simp only [objectOf, hkind]
    · rw [originals_append, hbuilt.inodes]
      simp [originals, hkind]
  | file =>
    cases hlink : e.meta_.hardlinkTo with
    | none =>
      obtain ⟨fs', hwrite, hbuilt'⟩ := writeFile_built h hsplit hbuilt hkind hlink
      refine ⟨fs', ?_, hbuilt'⟩
      simp only [createObject, hkind, hlink]
      exact Program.bind_eq_ok.mpr ⟨(), _, hwrite, rfl⟩
    | some original =>
      obtain ⟨fs', hcall, hbuilt'⟩ := hardLink_built h hsplit hbuilt hlink
      have hcreate : createLink original e.path fs = (.ok true, fs') := by
        have hlinked : (do hardLink original e.path; pure true : Calls Bool) fs = (.ok true, fs') :=
          Program.bind_eq_ok.mpr ⟨(), fs', hcall, rfl⟩
        rw [createLink, handle, hlinked]
      refine ⟨fs', ?_, hbuilt'⟩
      simp only [createObject, hkind, hlink]
      exact Program.bind_eq_ok.mpr ⟨true, fs', hcreate, rfl⟩

/-- The whole loop, from any point on. -/
lemma fold_createObject (h : Accepted blake3 entries) (hsplit : entries = before ++ after)
    (hbuilt : Built before fs) (copied : List (List UInt8)) :
    ∃ fs', fold createObject copied after fs = (.ok copied, fs') ∧ Built entries fs' := by
  induction after generalizing before fs with
  | nil =>
    rw [List.append_nil] at hsplit
    exact ⟨fs, rfl, hsplit ▸ hbuilt⟩
  | cons e after ih =>
    obtain ⟨fs₁, hstep, hbuilt₁⟩ := createObject_built h hsplit hbuilt copied
    obtain ⟨fs', hrest, hbuilt'⟩ := ih (by simp [hsplit]) hbuilt₁
    exact ⟨fs', Program.bind_eq_ok.mpr ⟨_, fs₁, hstep, hrest⟩, hbuilt'⟩

lemma accepted (hsnapshot : validateSnapshot entries = .ok ())
    (hrelations : validateMetadataRelations blake3 entries = .ok ()) : Accepted blake3 entries := by
  rw [Zig.validateSnapshot_eq] at hsnapshot
  exact ⟨Directory.validate_iff_structured.mp hsnapshot,
    Zig.validateMetadataRelations_eq_ok.mp hrelations⟩

/-- What the checks accept is built, with every link a link. -/
theorem writeObjects_built (hsnapshot : validateSnapshot entries = .ok ())
    (hrelations : validateMetadataRelations blake3 entries = .ok ()) :
    ∃ fs, writeObjects blake3 entries FileSystem.empty = (.ok [], fs) ∧ Built entries fs := by
  obtain ⟨fs, hrun, hbuilt⟩ :=
    fold_createObject (accepted hsnapshot hrelations) rfl built_nil []
  refine ⟨fs, ?_, hbuilt⟩
  rw [writeObjects, hsnapshot, hrelations]
  exact hrun

end Loop

end Walk

end Difz
