import Difz.Directory.Contract
import Difz.Metadata.Normalize
import Difz.Path.Forest
import Difz.Zig.Snapshot

/-!
# Flattening a directory tree

`walk` of `src/directory_fs.zig`, which lists everything below a directory, and the sort by path
after it. A tree is what the enumerations of its directories report, in their order, so a statement
about every tree is one about every order of enumeration. What the native calls say of an object is
a parameter.

The walk meets the objects in the order of the tree and stops at the first one it cannot record,
`walk_eq`. Names with bytes below the separator make the order of the paths another one; that the
sorted list still has every directory before what is in it follows from the paths alone.
-/

namespace Difz

open Wire

namespace Walk

open Zig (Entry validateSnapshot)
open Directory (Kind components pathOf parentPath validatePath)

/-! ### Names and paths -/

/-- What an object in a directory can be called. -/
structure Name where
  bytes : List UInt8
  nonempty : bytes ≠ []
  separator : 0x2f ∉ bytes
  deriving DecidableEq

lemma Name.bytes_injective : Function.Injective Name.bytes := by
  intro a b h
  cases a
  cases b
  cases h
  rfl

/-- The path of an object, relative to the root of the tree. -/
def joined (names : List Name) : List UInt8 := [0x2f].intercalate (names.map Name.bytes)

/-- The path of an object with the one of the root in front. -/
def absolute (root : List UInt8) (names : List Name) : List UInt8 :=
  root ++ names.flatMap fun name => 0x2f :: name.bytes

lemma components_joined {names : List Name} (h : names ≠ []) :
    components (joined names) = names.map Name.bytes := by
  refine List.splitOn_intercalate _ (fun part hpart => ?_) (by simpa using h)
  obtain ⟨name, -, rfl⟩ := List.mem_map.mp hpart
  exact name.separator

lemma joined_concat {names : List Name} (h : names ≠ []) (name : Name) :
    joined (names ++ [name]) = joined names ++ 0x2f :: name.bytes := by
  rw [joined, joined]
  induction names with
  | nil => exact absurd rfl h
  | cons a names ih =>
    cases names with
    | nil => simp
    | cons b names =>
      have hrest := ih (by simp)
      simp only [List.cons_append, List.map_cons, List.intercalate_cons_cons] at hrest ⊢
      rw [hrest, ← List.append_assoc]

lemma joined_ne_nil {names : List Name} (h : names ≠ []) : joined names ≠ [] := by
  intro hnil
  have hparts := components_joined h
  rw [hnil] at hparts
  obtain ⟨name, names, rfl⟩ := List.exists_cons_of_ne_nil h
  exact name.nonempty (List.cons.inj hparts).1.symm

lemma joined_injective {a b : List Name} (ha : a ≠ []) (hb : b ≠ []) (h : joined a = joined b) :
    a = b := by
  have hparts := congrArg components h
  rw [components_joined ha, components_joined hb] at hparts
  exact List.map_injective_iff.mpr Name.bytes_injective hparts

/-- The directory of an object in the root has no path, and any other has that of its names. -/
lemma parentPath_joined (names : List Name) (name : Name) : parentPath (joined (names ++ [name]))
    = if names = [] then none else some (joined names) := by
  split_ifs with h
  · subst h
    rw [Directory.parentPath_eq_none_iff]
    simpa [joined] using name.separator
  · rw [Directory.parentPath_eq_some_iff]
    exact ⟨name.bytes, name.separator, joined_concat h name⟩

/-! ### What is in a directory -/

/-- Everything but a directory. Names of one file have its number in common. -/
inductive Leaf
  | file (inode : Nat)
  | symlink (target : List UInt8)
  | special
  deriving DecidableEq, Repr

/-- A file behind its names: its bytes, and what `readHardlink` finds in its attributes. -/
structure Inode where
  data : List UInt8
  hardlinkTo : Option (List UInt8)
  deriving DecidableEq, Repr

/-- What the native calls report of a tree that nothing changes, by absolute path. The buffer for
the target of a link takes the longest target there is. -/
structure Native where
  windows : Bool
  pathMax : Nat
  permissions : List UInt8 → UInt32
  /-- what `metadataFor`, `readSparse` and `mergeSymlinkMetadata` return -/
  attributes : Kind → List UInt8 → Metadata
  inode : Nat → Inode

inductive Error
  | snapshot (error : Directory.Error)
  | nameTooLong
  | unsupportedEntryKind
  deriving DecidableEq, Repr

section Run

variable (native : Native)

def canonicalMode (permissions : UInt32) (kind : Kind) : UInt16 :=
  if native.windows then
    match kind with
    | .directory => 0o755
    | .file => 0o644
    | .symlink => 0o777
  else (permissions &&& 0o777).toUInt16

/-- The entry of an object, `none` standing for a directory. -/
def entryFor (path absPath : List UInt8) : Option Leaf → Except Error Entry
  | none =>
    .ok ⟨path, .directory, canonicalMode native (native.permissions absPath) .directory, [],
      native.attributes .directory absPath⟩
  | some (.file inode) =>
    .ok ⟨path, .file, canonicalMode native (native.permissions absPath) .file,
      (native.inode inode).data,
      { native.attributes .file absPath with hardlinkTo := (native.inode inode).hardlinkTo }⟩
  | some (.symlink target) =>
    .ok ⟨path, .symlink, 0o777, target, native.attributes .symlink absPath⟩
  | some .special => .error .unsupportedEntryKind

/-- The body of the loop up to the descent: the absolute path, and the entry. -/
def visit (prefix_ absDir name : List UInt8) (object : Option Leaf) :
    Except Error (List UInt8 × Entry) := do
  let path := if prefix_.length = 0 then name else prefix_ ++ 0x2f :: name
  (validatePath path).mapError Error.snapshot
  let absPath := absDir ++ 0x2f :: name
  if absPath.length > native.pathMax then .error .nameTooLong
  else do
    let entry ← entryFor native path absPath object
    .ok (absPath, entry)

def walk : List UInt8 → List UInt8 → Forest Name Leaf → Except Error (List Entry)
  | _, _, .nil => .ok []
  | prefix_, absDir, .leaf name leaf rest => do
    let (_, entry) ← visit native prefix_ absDir name.bytes (some leaf)
    let entries ← walk prefix_ absDir rest
    .ok (entry :: entries)
  | prefix_, absDir, .node name children rest => do
    let (absPath, entry) ← visit native prefix_ absDir name.bytes none
    let below ← walk entry.path absPath children
    let entries ← walk prefix_ absDir rest
    .ok (entry :: (below ++ entries))

end Run

def entryLessThan (left right : Entry) : Bool := compare left.path right.path == .lt

/-- `std.mem.sort` by path. -/
def sortEntries (entries : List Entry) : List Entry :=
  entries.mergeSort fun left right => !entryLessThan right left

/-! ### The walk, object by object -/

section Objects

variable (native : Native) (root : List UInt8)

/-- What the walk makes of the object with these names. -/
def recorded (names : List Name) (object : Option Leaf) : Except Error Entry := do
  (validatePath (joined names)).mapError Error.snapshot
  if (absolute root names).length > native.pathMax then .error .nameTooLong
  else entryFor native (joined names) (absolute root names) object

variable {native root}

lemma path_of_entryFor {path absPath : List UInt8} {object : Option Leaf} {e : Entry}
    (h : entryFor native path absPath object = .ok e) : e.path = path := by
  match object with
  | none | some (.file _) | some (.symlink _) => exact congrArg Entry.path (Except.ok.inj h).symm
  | some .special => exact absurd h (by simp [entryFor])

lemma recorded_eq_ok {names : List Name} {object : Option Leaf} {e : Entry} :
    recorded native root names object = .ok e ↔ validatePath (joined names) = .ok () ∧
      (absolute root names).length ≤ native.pathMax ∧
      entryFor native (joined names) (absolute root names) object = .ok e := by
  rw [recorded]
  cases hpath : validatePath (joined names) with
  | error error => simp [Except.mapError, bind, Except.bind]
  | ok u =>
    simp only [Except.mapError, ok_bind, ite_error_eq_ok, not_lt, true_and, gt_iff_lt]

lemma visit_eq (pre : List Name) (name : Name) (object : Option Leaf) :
    visit native (joined pre) (absolute root pre) name.bytes object
      = (recorded native root (pre ++ [name]) object).map (absolute root (pre ++ [name]), ·) := by
  have habs : absolute root pre ++ 0x2f :: name.bytes = absolute root (pre ++ [name]) := by
    simp [absolute]
  have hpath : (if (joined pre).length = 0 then name.bytes
      else joined pre ++ 0x2f :: name.bytes) = joined (pre ++ [name]) := by
    by_cases hpre : pre = []
    · subst hpre
      simp [joined]
    · rw [if_neg (by simpa using joined_ne_nil hpre), joined_concat hpre]
  rw [visit, recorded, hpath, habs]
  cases validatePath (joined (pre ++ [name])) with
  | error error => rfl
  | ok u =>
    simp only [Except.mapError, ok_bind]
    split_ifs
    · rfl
    · cases entryFor native (joined (pre ++ [name])) (absolute root (pre ++ [name])) object <;> rfl

/-- The walk records the objects one after another, in the order of the tree. -/
theorem walk_eq (tree : Forest Name Leaf) (pre : List Name) :
    walk native (joined pre) (absolute root pre) tree
      = (tree.objects pre).mapM fun o => recorded native root o.1 o.2 := by
  induction tree generalizing pre with
  | nil => rfl
  | leaf name leaf rest ih =>
    rw [walk, visit_eq, Forest.objects, List.mapM_cons, ih]
    cases recorded native root (pre ++ [name]) (some leaf) <;> rfl
  | node name children rest ihc ihr =>
    rw [walk, visit_eq, Forest.objects, List.mapM_cons, List.mapM_append, ihr]
    cases hrecord : recorded native root (pre ++ [name]) none with
    | error error => rfl
    | ok e =>
      have hpath : e.path = joined (pre ++ [name]) :=
        path_of_entryFor (recorded_eq_ok.mp hrecord).2.2
      simp only [Except.map, ok_bind, hpath, ihc]
      cases (children.objects (pre ++ [name])).mapM fun o => recorded native root o.1 o.2 with
      | error error => rfl
      | ok below =>
        simp only [ok_bind, bind_assoc]
        cases (rest.objects pre).mapM fun o => recorded native root o.1 o.2 <;> rfl

end Objects

/-! ### The sort -/

lemma sortEntries_eq (entries : List Entry) :
    sortEntries entries = (Metadata.Sorter.byKey Entry.path).run entries :=
  (Metadata.Sorter.run_byKey Entry.path entries).symm

lemma sortEntries_perm (entries : List Entry) : (sortEntries entries).Perm entries :=
  List.mergeSort_perm _ _

lemma sorted_sortEntries {entries : List Entry} (h : (entries.map Entry.path).Nodup) :
    Search.Sorted pathOf (sortEntries entries) := by
  rw [sortEntries_eq]
  exact Metadata.Sorter.increasing _ h

/-! ### Trees that can be recorded -/

/-- A tree of directories, files and links within the bounds of a snapshot. -/
structure Listable (tree : Forest Name Leaf) : Prop where
  bounded : (tree.objects []).length ≤ Directory.maxEntries
  distinct : tree.Distinct
  paths : ∀ o ∈ tree.objects [], validatePath (joined o.1) = .ok ()
  links : ∀ names target, (names, some (.symlink target)) ∈ tree.objects [] →
    Directory.Native.validateSymlinkTarget (joined names) target = .ok ()
  ordinary : ∀ names, (names, some .special) ∉ tree.objects []

/-- Every absolute path fits the buffer of the walk. -/
def Fits (native : Native) (root : List UInt8) (tree : Forest Name Leaf) : Prop :=
  ∀ o ∈ tree.objects [], (absolute root o.1).length ≤ native.pathMax

/-- The entry says what the object is. -/
structure Describes (native : Native) (names : List Name) (object : Option Leaf) (e : Entry) :
    Prop where
  path : e.path = joined names
  content : match object with
    | none => e.kind = .directory ∧ e.data = []
    | some (.file inode) => e.kind = .file ∧ e.data = (native.inode inode).data
    | some (.symlink target) => e.kind = .symlink ∧ e.data = target
    | some .special => False

/-- There is one entry for each object. -/
def ListsOnce (native : Native) (tree : Forest Name Leaf) (entries : List Entry) : Prop :=
  ∃ objects, objects.Perm (tree.objects []) ∧
    List.Forall₂ (fun o e => Describes native o.1 o.2 e) objects entries

section Recorded

variable {native : Native} {root : List UInt8} {names : List Name} {object : Option Leaf}
  {e : Entry} {tree : Forest Name Leaf}

lemma describes_of_recorded (h : recorded native root names object = .ok e) :
    Describes native names object e := by
  have hentry := (recorded_eq_ok.mp h).2.2
  refine ⟨path_of_entryFor hentry, ?_⟩
  match object with
  | none | some (.file _) | some (.symlink _) =>
    obtain rfl := Except.ok.inj hentry
    exact ⟨rfl, rfl⟩
  | some .special => exact absurd hentry (by simp [entryFor])

lemma canonicalMode_valid (permissions : UInt32) (kind : Kind) :
    canonicalMode native permissions kind &&& ~~~0o777 = 0 := by
  unfold canonicalMode
  split_ifs
  · cases kind <;> decide
  · have hmask : (0o777 : UInt32).toUInt16 &&& ~~~0o777 = 0 := by decide
    rw [UInt32.toUInt16_and, UInt16.and_assoc, hmask, UInt16.and_zero]

lemma mode_of_recorded (h : recorded native root names object = .ok e) :
    e.mode &&& ~~~0o777 = 0 ∧ (e.kind = .symlink → e.mode = 0o777) := by
  have hentry := (recorded_eq_ok.mp h).2.2
  match object with
  | none | some (.file _) =>
    obtain rfl := Except.ok.inj hentry
    exact ⟨canonicalMode_valid _ _, by simp⟩
  | some (.symlink target) =>
    obtain rfl := Except.ok.inj hentry
    have hmask : (0o777 : UInt16) &&& ~~~0o777 = 0 := by decide
    exact ⟨hmask, fun _ => rfl⟩
  | some .special => exact absurd hentry (by simp [entryFor])

lemma validateKind_of_recorded (h : Listable tree) {o : List Name × Option Leaf}
    (ho : o ∈ tree.objects []) (hrecord : recorded native root o.1 o.2 = .ok e) :
    Directory.validateKind (Directory.View.record e) = .ok () := by
  obtain ⟨hpath, -, hentry⟩ := recorded_eq_ok.mp hrecord
  obtain ⟨names, object⟩ := o
  match object with
  | none | some (.file _) =>
    obtain rfl := Except.ok.inj hentry
    rfl
  | some (.symlink target) =>
    obtain rfl := Except.ok.inj hentry
    have hlink := h.links names target ho
    rw [← Directory.Native.validateKind_eq hpath]
    exact hlink
  | some .special => exact absurd ho (h.ordinary names)

/-- Of a listable tree only an object whose path is too long cannot be recorded. -/
lemma recorded_cases (h : Listable tree) {o : List Name × Option Leaf} (ho : o ∈ tree.objects []) :
    (∃ e, recorded native root o.1 o.2 = .ok e) ∨
    (native.pathMax < (absolute root o.1).length ∧
      recorded native root o.1 o.2 = .error .nameTooLong) := by
  rw [recorded, h.paths o ho]
  simp only [Except.mapError, ok_bind]
  split_ifs with hlong
  · exact .inr ⟨hlong, rfl⟩
  · obtain ⟨names, object⟩ := o
    match object with
    | none | some (.file _) | some (.symlink _) => exact .inl ⟨_, rfl⟩
    | some .special => exact absurd ho (h.ordinary names)

/-! ### The list of a tree -/

variable {entries : List Entry}

lemma walk_root (tree : Forest Name Leaf) : walk native [] root tree
    = (tree.objects []).mapM fun o => recorded native root o.1 o.2 := by
  rw [← walk_eq, absolute, List.flatMap_nil, List.append_nil]
  rfl

lemma mem_of_walk (h : walk native [] root tree = .ok entries) : e ∈ entries ↔
    ∃ o ∈ tree.objects [], recorded native root o.1 o.2 = .ok e :=
  mem_of_mapM (walk_root tree ▸ h)

lemma names_ne_nil (hdistinct : tree.Distinct) {o : List Name × Option Leaf}
    (ho : o ∈ tree.objects []) : o.1 ≠ [] := by
  obtain ⟨names, object⟩ := o
  exact ((Forest.mem_objects_nil_iff hdistinct).mp ho).1

/-- No two objects have one path. -/
lemma nodup_joined (hdistinct : tree.Distinct) :
    ((tree.objects []).map fun o => joined o.1).Nodup := by
  have hnames : ((tree.objects []).map Prod.fst).Nodup := Forest.nodup_objects hdistinct
  refine (List.nodup_map_iff_inj_on (List.Nodup.of_map _ hnames)).mpr fun a ha b hb hab => ?_
  exact List.inj_on_of_nodup_map hnames ha hb
    (joined_injective (names_ne_nil hdistinct ha) (names_ne_nil hdistinct hb) hab)

lemma paths_of_walk (h : walk native [] root tree = .ok entries) (hdistinct : tree.Distinct) :
    (entries.map Entry.path).Nodup := by
  have hpaths : entries.map Entry.path = (tree.objects []).map fun o => joined o.1 :=
    map_of_mapM (walk_root tree ▸ h) fun o e hrecord => (describes_of_recorded hrecord).path
  exact hpaths ▸ nodup_joined hdistinct

/-- The directory of every entry is listed, as a directory. -/
lemma exists_parent (hfits : ∀ o ∈ tree.objects [], ∃ e, recorded native root o.1 o.2 = .ok e)
    (h : walk native [] root tree = .ok entries) (hdistinct : tree.Distinct)
    (he : e ∈ entries) {parent : List UInt8} (hparent : parentPath e.path = some parent) :
    ∃ d ∈ entries, d.path = parent ∧ d.kind = .directory := by
  obtain ⟨⟨names, object⟩, ho, hrecord⟩ := (mem_of_walk h).mp he
  obtain ⟨hnames, hget⟩ := (Forest.mem_objects_nil_iff hdistinct).mp ho
  obtain ⟨above, name, rfl⟩ := (List.eq_nil_or_concat names).resolve_left hnames
  rw [List.concat_eq_append] at hget
  rw [(describes_of_recorded hrecord).path, List.concat_eq_append, parentPath_joined] at hparent
  split_ifs at hparent with habove
  obtain rfl := Option.some.inj hparent
  have hdir : (above, none) ∈ tree.objects [] :=
    (Forest.mem_objects_nil_iff hdistinct).mpr ⟨habove, Forest.get_of_append hget (by simp)⟩
  obtain ⟨d, hrecorded⟩ := hfits _ hdir
  have hdescribes := describes_of_recorded hrecorded
  exact ⟨d, (mem_of_walk h).mpr ⟨_, hdir, hrecorded⟩, hdescribes.path, hdescribes.content.1⟩

/-- A walk over a listable tree ends with a list, or with the one error there can be. -/
lemma walk_cases (hlistable : Listable tree) :
    (Fits native root tree ∧ (∀ o ∈ tree.objects [], ∃ e, recorded native root o.1 o.2 = .ok e) ∧
      ∃ entries, walk native [] root tree = .ok entries) ∨
    (¬Fits native root tree ∧ walk native [] root tree = .error .nameTooLong) := by
  rw [walk_root]
  rcases mapM_cases (fun o => recorded native root o.1 o.2) (tree.objects []) with
    ⟨hall, hrun⟩ | ⟨o, ho, e, he, hrun⟩
  · refine .inl ⟨fun o ho => ?_, hall, hrun⟩
    obtain ⟨e, he⟩ := hall o ho
    exact (recorded_eq_ok.mp he).2.1
  · rcases recorded_cases hlistable ho with ⟨e', hok⟩ | ⟨hlong, herror⟩
    · rw [hok] at he
      exact absurd he (by simp)
    · rw [herror] at he
      obtain rfl := Except.error.inj he
      exact .inr ⟨fun hfits => absurd (hfits o ho) (by omega), hrun⟩

/-- The sorted list of a listable tree is well structured. -/
lemma structured_sortEntries (hlistable : Listable tree)
    (hall : ∀ o ∈ tree.objects [], ∃ e, recorded native root o.1 o.2 = .ok e)
    (h : walk native [] root tree = .ok entries) :
    Directory.Structured (sortEntries entries) := by
  have hsorted := sorted_sortEntries (paths_of_walk h hlistable.distinct)
  have hmem : ∀ {e}, e ∈ sortEntries entries ↔ e ∈ entries := (sortEntries_perm entries).mem_iff
  refine ⟨?_, fun e he => ?_, fun e he => ?_, fun e he => ?_, hsorted,
    fun before e after hsplit ancestor => Directory.ancestors_of_parents ?_ hsplit⟩
  · have hlength := (sortEntries_perm entries).length_eq
    have hobjects := (mapM_eq_ok.mp (walk_root tree ▸ h)).length_eq
    rw [hlength, ← hobjects]
    exact hlistable.bounded
  · obtain ⟨o, ho, hrecord⟩ := (mem_of_walk h).mp (hmem.mp he)
    rw [Zig.pathOf_entry, (describes_of_recorded hrecord).path]
    exact Directory.validatePath_eq_ok.mp (hlistable.paths o ho)
  · obtain ⟨o, ho, hrecord⟩ := (mem_of_walk h).mp (hmem.mp he)
    exact (mode_of_recorded hrecord).1
  · obtain ⟨o, ho, hrecord⟩ := (mem_of_walk h).mp (hmem.mp he)
    exact validateKind_of_recorded hlistable ho hrecord
  · intro before e after hsplit parent hparent
    have he : e ∈ entries := hmem.mp (by simp [hsplit])
    obtain ⟨d, hd, hpath, hkind⟩ := exists_parent hall h hlistable.distinct he hparent
    refine ⟨d, (hsorted.mem_before_iff hsplit).mpr ⟨hmem.mpr hd, ?_⟩, hpath, hkind⟩
    have habove : Directory.IsAncestor parent e.path := Directory.isAncestor_of_parentPath hparent
    rw [Zig.pathOf_entry, hpath]
    exact habove.compare_eq_lt

/-- Where every path fits, the walk and the sort give a snapshot with each object once. -/
theorem walk_listable (hlistable : Listable tree) :
    (Fits native root tree → ∃ entries, walk native [] root tree = .ok entries ∧
      validateSnapshot (sortEntries entries) = .ok () ∧
      ListsOnce native tree (sortEntries entries)) ∧
    (¬Fits native root tree → walk native [] root tree = .error .nameTooLong) := by
  rcases walk_cases hlistable with ⟨hfits, hall, entries, hrun⟩ | ⟨hfits, hrun⟩
  · refine ⟨fun _ => ⟨entries, hrun, ?_, ?_⟩, fun hnot => absurd hfits hnot⟩
    · rw [Zig.validateSnapshot_eq]
      exact Directory.validate_iff_structured.mpr (structured_sortEntries hlistable hall hrun)
    · have hrecords := mapM_eq_ok.mp (walk_root tree ▸ hrun)
      have hdescribes : List.Forall₂ (fun e o => Describes native o.1 o.2 e) entries
          (tree.objects []) := (hrecords.imp fun o e hrecord => describes_of_recorded hrecord).flip
      obtain ⟨objects, hsorted, hperm⟩ :=
        List.perm_comp_forall₂ (sortEntries_perm entries) hdescribes
      exact ⟨objects, hperm, hsorted.flip⟩
  · exact ⟨fun h => absurd h hfits, fun _ => hrun⟩

end Recorded

end Walk

end Difz
