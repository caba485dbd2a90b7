import Difz.Hardlink.Rebase
import Difz.Walk.Inverse
import Difz.Zig.Apply
import Difz.Zig.Select

/-!
# Capturing a directory

`snapshotDir` of `src/directory_fs.zig` from end to end: the walk, the sort, the references between
names of one file, the selection by rules and the references within it, with the checks of the
source between them. What the native calls report of the directory is a parameter.

Each step only changes references or leaves entries out, so a snapshot has an entry for every object
in scope of the rules and for nothing else, and it depends on the directory alone: the order of
enumeration does not matter, `snapshotDir_reordered`.
-/

namespace Difz

open Wire

namespace Walk

open Zig (Entry OwnedSnapshot Pcre2 Related Rule validateSnapshot validateMetadataRelations
  selectEntries)
open Directory (IsAncestor pathOf)
open Hardlink (Stat assignHardlinks rebaseHardlinks relink)

/-! ### The steps -/

/-- A directory that nothing changes, and what the native calls say of it. -/
structure Dir where
  tree : Forest Name Leaf
  realPath : List UInt8
  native : Zig.Omit → Native
  stat : List UInt8 → Stat
  /-- what `metadataFor` returns for the directory itself -/
  rootMeta : Zig.Omit → Metadata

structure SnapshotOptions where
  rules : List Rule
  omit_ : Zig.Omit

inductive CaptureError
  | named (error : Zig.Error)
  | nameTooLong
  | unsupportedEntryKind
  | fileChangedDuringSnapshot
  deriving DecidableEq

def Error.capture : Error → CaptureError
  | .snapshot error => .named error.name
  | .nameTooLong => .nameTooLong
  | .unsupportedEntryKind => .unsupportedEntryKind

def captureHardlink : Hardlink.Error → CaptureError
  | .fileChangedDuringSnapshot => .fileChangedDuringSnapshot

/-- A check of the snapshot layer. -/
def checked (x : Except Directory.Error Unit) : Except CaptureError Unit :=
  x.mapError fun error => .named error.name

/-- `if (!options.omit.hardlink) try assignHardlinks(…)`. -/
def assignUnless (omitted : Bool) (stat : List UInt8 → Stat) (raw : List Entry) :
    Except CaptureError (List Entry) :=
  if omitted then .ok raw else (assignHardlinks stat raw).mapError captureHardlink

/-- Everything, or what the rules select. -/
def chooseEntries (pcre2 : Pcre2) (rules : List Rule) (raw : List Entry) :
    Except CaptureError (List Entry) :=
  if rules.length = 0 then .ok raw else (selectEntries pcre2 raw rules).mapError .named

def rebaseUnless (omitted : Bool) (entries : List Entry) : List Entry :=
  if omitted then entries else rebaseHardlinks entries

def snapshotDir (blake3 : List UInt8 → Digest) (pcre2 : Pcre2) (root : Dir)
    (options : SnapshotOptions) : Except CaptureError OwnedSnapshot := do
  let listed ← (walk (root.native options.omit_) [] root.realPath root.tree).mapError Error.capture
  let raw := sortEntries listed
  checked (validateSnapshot raw)
  checked (validateMetadataRelations blake3 raw)
  let raw ← assignUnless options.omit_.hardlink root.stat raw
  checked (validateMetadataRelations blake3 raw)
  let entries ← chooseEntries pcre2 options.rules raw
  checked (validateSnapshot entries)
  let entries := rebaseUnless options.omit_.hardlink entries
  checked (validateMetadataRelations blake3 entries)
  .ok ⟨entries, root.rootMeta options.omit_⟩

/-! ### What a capture went through -/

section Steps

variable {blake3 : List UInt8 → Digest} {pcre2 : Pcre2} {root : Dir} {options : SnapshotOptions}
  {s : OwnedSnapshot}

lemma checked_eq_ok {x : Except Directory.Error Unit} : checked x = .ok () ↔ x = .ok () :=
  mapError_eq_ok

lemma checked_relations {entries : List Entry} :
    checked (validateMetadataRelations blake3 entries) = .ok () ↔ Related blake3 entries :=
  checked_eq_ok.trans Zig.validateMetadataRelations_eq_ok

/-- The lists between the steps of a capture that succeeds. -/
structure Stages (blake3 : List UInt8 → Digest) (pcre2 : Pcre2) (root : Dir)
    (options : SnapshotOptions) (listed assigned chosen : List Entry) : Prop where
  walked : walk (root.native options.omit_) [] root.realPath root.tree = .ok listed
  structured : validateSnapshot (sortEntries listed) = .ok ()
  transported : Related blake3 (sortEntries listed)
  assign : assignUnless options.omit_.hardlink root.stat (sortEntries listed) = .ok assigned
  related : Related blake3 assigned
  choose : chooseEntries pcre2 options.rules assigned = .ok chosen
  selection : validateSnapshot chosen = .ok ()
  rebased : Related blake3 (rebaseUnless options.omit_.hardlink chosen)

theorem snapshotDir_eq_ok : snapshotDir blake3 pcre2 root options = .ok s ↔
    ∃ listed assigned chosen : List Entry,
      Stages blake3 pcre2 root options listed assigned chosen ∧
        s = ⟨rebaseUnless options.omit_.hardlink chosen, root.rootMeta options.omit_⟩ := by
  simp only [snapshotDir, Wire.bind_eq_ok, mapError_eq_ok, Except.ok.injEq]
  constructor
  · rintro ⟨listed, hwalk, ⟨⟩, hsnapshot, ⟨⟩, hrelated, assigned, hassign, ⟨⟩, hassigned, chosen,
      hchoose, ⟨⟩, hchosen, ⟨⟩, hrebased, hs⟩
    exact ⟨listed, assigned, chosen, ⟨hwalk, checked_eq_ok.mp hsnapshot,
      checked_relations.mp hrelated, hassign, checked_relations.mp hassigned, hchoose,
      checked_eq_ok.mp hchosen, checked_relations.mp hrebased⟩, hs.symm⟩
  · rintro ⟨listed, assigned, chosen, h, rfl⟩
    exact ⟨listed, h.walked, (), checked_eq_ok.mpr h.structured, (),
      checked_relations.mpr h.transported, assigned, h.assign, (), checked_relations.mpr h.related,
      chosen, h.choose, (), checked_eq_ok.mpr h.selection, (), checked_relations.mpr h.rebased, rfl⟩

end Steps

/-! ### What is in scope -/

/-- The rules include an object or something below it. -/
def Scope (pcre2 : Pcre2) (rules : List Rule) (tree : Forest Name Leaf) (names : List Name) :
    Prop :=
  rules = [] ∨ ∃ filter, Zig.Filter.compile pcre2 rules = .ok filter ∧
    ∃ o ∈ tree.objects [], filter.Includes (joined o.1) ∧ names <+: o.1

/-- There is an entry for each object in scope, and for nothing else. -/
structure Lists (native : Native) (tree : Forest Name Leaf) (scope : List Name → Prop)
    (entries : List Entry) : Prop where
  entry : ∀ o ∈ tree.objects [], scope o.1 → ∃ e ∈ entries, Describes native o.1 o.2 e
  object : ∀ e ∈ entries, ∃ o ∈ tree.objects [], scope o.1 ∧ Describes native o.1 o.2 e

/-- The paths above an object are those of the names above it. -/
lemma prefix_joined {names other : List Name} (h : names ≠ []) (hother : other ≠ []) :
    joined names = joined other ∨ IsAncestor (joined names) (joined other) ↔ names <+: other := by
  induction other using List.reverseRecOn with
  | nil => exact absurd rfl hother
  | append_singleton above name ih =>
    have hsame : joined names = joined (above ++ [name]) ↔ names = above ++ [name] :=
      ⟨joined_injective h hother, congrArg joined⟩
    rw [List.prefix_concat_iff, Directory.isAncestor_iff, parentPath_joined, hsame]
    by_cases habove : above = []
    · simp [habove, h]
    · simp only [if_neg habove, Option.some.injEq, exists_eq_left', ih habove]

/-! ### What the steps leave alone -/

/-- An entry without its reference. -/
def unlinked (e : Entry) : Entry := relink e none

section Unlinked

variable {stat : List UInt8 → Stat} {entries result : List Entry} {omitted : Bool}

lemma unlinked_rebased (selected : List Entry) (e : Entry) :
    unlinked (Hardlink.rebased selected e) = unlinked e := by
  rw [Hardlink.rebased]
  split_ifs <;> rfl

/-- What the passes over the references leave alone: everything but the references of files. -/
def kept (e : Entry) : Entry := if e.kind = .file then unlinked e else e

lemma unlinked_kept (e : Entry) : unlinked (kept e) = unlinked e := by
  rw [kept]
  split_ifs <;> rfl

lemma kept_of_file {e : Entry} (hkind : e.kind = .file) : kept e = unlinked e := if_pos hkind

lemma map_kept_assignFrom {canonical : List (Hardlink.FileIdentity × List UInt8)}
    (h : Hardlink.assignFrom stat canonical entries = .ok result) :
    result.map kept = entries.map kept := by
  induction entries generalizing canonical result with
  | nil =>
    obtain rfl := Except.ok.inj h
    rfl
  | cons e es ih =>
    obtain ⟨⟨canonical', e'⟩, hstep, h⟩ := Wire.bind_eq_ok.mp h
    obtain ⟨rest, hrest, h⟩ := Wire.bind_eq_ok.mp h
    obtain rfl := Except.ok.inj h
    have he : kept e' = kept e := by
      simp only [Hardlink.assignEntry] at hstep
      split_ifs at hstep with hkind
      · rw [← (Prod.mk.inj (Except.ok.inj hstep)).2]
      · rw [← (Prod.mk.inj (Except.ok.inj hstep)).2]
      · have hfile : e.kind = .file := not_not.mp hkind
        split at hstep
        · rw [← (Prod.mk.inj (Except.ok.inj hstep)).2, kept_of_file hfile]
          exact kept_of_file hfile
        · rw [← (Prod.mk.inj (Except.ok.inj hstep)).2]
    rw [List.map_cons, List.map_cons, he, ih hrest]

lemma map_unlinked_assign (h : assignUnless omitted stat entries = .ok result) :
    result.map unlinked = entries.map unlinked := by
  rw [assignUnless] at h
  split_ifs at h
  · rw [Except.ok.inj h]
  · have hmap := congrArg (List.map unlinked) (map_kept_assignFrom (mapError_eq_ok.mp h))
    simpa only [List.map_map, Function.comp_def, unlinked_kept] using hmap

lemma map_unlinked_rebase (hs : Search.Sorted pathOf entries) :
    (rebaseUnless omitted entries).map unlinked = entries.map unlinked := by
  rw [rebaseUnless]
  split_ifs
  · rfl
  · rw [Hardlink.rebaseHardlinks_eq hs, List.map_map]
    exact List.map_congr_left fun e _ => unlinked_rebased entries e

/-- What is left of a list without references has its structure. -/
lemma validateSnapshot_of_unlinked (h : result.map unlinked = entries.map unlinked) :
    validateSnapshot result = validateSnapshot entries := by
  have hshape : ∀ e : Entry, Directory.shapeOf (unlinked e) = Directory.shapeOf e := fun e => rfl
  rw [Zig.validateSnapshot_eq, Zig.validateSnapshot_eq]
  refine Directory.validate_congr ?_
  have hmap := congrArg (List.map Directory.shapeOf) h
  simpa only [List.map_map, Function.comp_def, hshape] using hmap

end Unlinked

lemma exists_unlinked {xs ys : List Entry} (h : xs.map unlinked = ys.map unlinked) {x : Entry}
    (hx : x ∈ xs) : ∃ y ∈ ys, unlinked y = unlinked x :=
  List.mem_map.mp (h ▸ List.mem_map_of_mem hx)

lemma path_of_unlinked {e f : Entry} (h : unlinked e = unlinked f) : e.path = f.path :=
  (congrArg Entry.path h :)

lemma Describes.of_unlinked {native : Native} {names : List Name} {object : Option Leaf}
    {e f : Entry} (h : Describes native names object f) (hsame : unlinked e = unlinked f) :
    Describes native names object e := by
  have hkind : e.kind = f.kind := (congrArg Entry.kind hsame :)
  have hdata : e.data = f.data := (congrArg Entry.data hsame :)
  refine ⟨(path_of_unlinked hsame).trans h.path, ?_⟩
  rw [hkind, hdata]
  exact h.content

/-! ### One entry for each object -/

section Sound

variable {blake3 : List UInt8 → Digest} {pcre2 : Pcre2} {root : Dir} {options : SnapshotOptions}
  {listed assigned chosen : List Entry}

/-- What the rules leave: a part with everything that is above one of its entries. -/
lemma chooseEntries_spec (hraw : Directory.Structured assigned)
    (h : chooseEntries pcre2 options.rules assigned = .ok chosen) :
    chosen.Sublist assigned ∧ ∀ e, e ∈ chosen ↔ e ∈ assigned ∧ (options.rules = [] ∨
      ∃ filter, Zig.Filter.compile pcre2 options.rules = .ok filter ∧
        Zig.InScope filter assigned e) := by
  rw [chooseEntries] at h
  split_ifs at h with hrules
  · obtain rfl := Except.ok.inj h
    have hnil : options.rules = [] := List.length_eq_zero_iff.mp hrules
    exact ⟨List.Sublist.refl _, fun e => by simp [hnil]⟩
  · have hne : options.rules ≠ [] := fun hnil => hrules (List.length_eq_zero_iff.mpr hnil)
    have hselect := mapError_eq_ok.mp h
    obtain ⟨filter, hcompile, -⟩ := Wire.bind_eq_ok.mp hselect
    obtain ⟨result, hrun, hsub, hmem⟩ := Zig.selectEntries_eq hcompile hraw
    obtain rfl := Except.ok.inj (hrun.symm.trans hselect)
    refine ⟨hsub, fun e => (hmem e).trans (and_congr_right fun _ => ?_)⟩
    simp only [hne, false_or, hcompile, Except.ok.injEq, exists_eq_left']

/-- A walk that ends with a list recorded every object. -/
lemma recorded_of_walk {native : Native} {path : List UInt8} {tree : Forest Name Leaf}
    (h : walk native [] path tree = .ok listed) {o : List Name × Option Leaf}
    (ho : o ∈ tree.objects []) : ∃ e, recorded native path o.1 o.2 = .ok e := by
  rw [walk_root] at h
  rcases mapM_cases (fun o => recorded native path o.1 o.2) (tree.objects []) with
    ⟨hall, -⟩ | ⟨-, -, e, -, herror⟩
  · exact hall o ho
  · exact absurd (h.symm.trans herror) (by simp)

namespace Stages

variable (h : Stages blake3 pcre2 root options listed assigned chosen)

include h

lemma map_assigned : assigned.map unlinked = (sortEntries listed).map unlinked :=
  map_unlinked_assign h.assign

lemma structured_assigned : Directory.Structured assigned := by
  refine Zig.structured_of_validateSnapshot ?_
  rw [validateSnapshot_of_unlinked h.map_assigned]
  exact h.structured

lemma structured_chosen : Directory.Structured chosen :=
  Zig.structured_of_validateSnapshot h.selection

lemma map_result : (rebaseUnless options.omit_.hardlink chosen).map unlinked
    = chosen.map unlinked :=
  map_unlinked_rebase h.structured_chosen.sorted

/-- The object of an entry between the steps. -/
lemma exists_object {e : Entry} (he : e ∈ assigned) :
    ∃ o ∈ root.tree.objects [], Describes (root.native options.omit_) o.1 o.2 e := by
  obtain ⟨r, hr, hsame⟩ := exists_unlinked h.map_assigned he
  obtain ⟨o, ho, hrecord⟩ := (mem_of_walk h.walked).mp ((sortEntries_perm listed).mem_iff.mp hr)
  exact ⟨o, ho, (describes_of_recorded hrecord).of_unlinked hsame.symm⟩

lemma exists_entry {o : List Name × Option Leaf} (ho : o ∈ root.tree.objects []) :
    ∃ e ∈ assigned, Describes (root.native options.omit_) o.1 o.2 e := by
  obtain ⟨r, hrecord⟩ := recorded_of_walk h.walked ho
  have hr := (mem_of_walk h.walked).mpr ⟨o, ho, hrecord⟩
  obtain ⟨e, he, hsame⟩ := exists_unlinked h.map_assigned.symm
    ((sortEntries_perm listed).mem_iff.mpr hr)
  exact ⟨e, he, (describes_of_recorded hrecord).of_unlinked hsame⟩

/-- Being in scope is the same for an object and for its entry. -/
lemma scope_iff (hdistinct : root.tree.Distinct) {o : List Name × Option Leaf}
    (ho : o ∈ root.tree.objects []) {e : Entry} (he : e ∈ assigned) (hpath : e.path = joined o.1) :
    e ∈ chosen ↔ Scope pcre2 options.rules root.tree o.1 := by
  rw [(chooseEntries_spec h.structured_assigned h.choose).2 e, and_iff_right he, Scope]
  refine or_congr_right (exists_congr fun filter => and_congr_right fun _ => ?_)
  have hnames := names_ne_nil hdistinct ho
  constructor
  · rintro ⟨f, hf, hincludes, hor⟩
    obtain ⟨p, hp, hdescribes⟩ := h.exists_object hf
    refine ⟨p, hp, hdescribes.path ▸ hincludes, ?_⟩
    rw [← prefix_joined hnames (names_ne_nil hdistinct hp), ← hpath, ← hdescribes.path]
    exact hor.imp_left (congrArg Entry.path)
  · rintro ⟨p, hp, hincludes, hprefix⟩
    obtain ⟨f, hf, hdescribes⟩ := h.exists_entry hp
    rw [← prefix_joined hnames (names_ne_nil hdistinct hp), ← hpath, ← hdescribes.path] at hprefix
    exact ⟨f, hf, hdescribes.path ▸ hincludes,
      hprefix.imp_left (h.structured_assigned.sorted.eq_of_key he hf)⟩

lemma lists (hdistinct : root.tree.Distinct) : Lists (root.native options.omit_) root.tree
    (Scope pcre2 options.rules root.tree) (rebaseUnless options.omit_.hardlink chosen) := by
  constructor
  · intro o ho hscope
    obtain ⟨e, he, hdescribes⟩ := h.exists_entry ho
    have hchosen := (h.scope_iff hdistinct ho he hdescribes.path).mpr hscope
    obtain ⟨e', he', hsame⟩ := exists_unlinked h.map_result.symm hchosen
    exact ⟨e', he', hdescribes.of_unlinked hsame⟩
  · intro e' he'
    obtain ⟨e, he, hsame⟩ := exists_unlinked h.map_result he'
    have hassigned := (chooseEntries_spec h.structured_assigned h.choose).1.mem he
    obtain ⟨o, ho, hdescribes⟩ := h.exists_object hassigned
    exact ⟨o, ho, (h.scope_iff hdistinct ho hassigned hdescribes.path).mp he,
      hdescribes.of_unlinked hsame.symm⟩

/-- The result passes both checks. -/
lemma accepted : validateSnapshot (rebaseUnless options.omit_.hardlink chosen) = .ok () ∧
    validateMetadataRelations blake3 (rebaseUnless options.omit_.hardlink chosen) = .ok () :=
  ⟨(validateSnapshot_of_unlinked h.map_result).trans h.selection,
    Zig.validateMetadataRelations_eq_ok.mpr h.rebased⟩

end Stages

/-! ### The order of enumeration -/

lemma sortEntries_eq_of_perm {sorted : List Entry} (hs : Search.Sorted pathOf sorted)
    (hperm : sorted.Perm listed) : sortEntries listed = sorted := by
  have hnodup : (sorted.map Entry.path).Nodup :=
    (List.nodup_map_iff_inj_on hs.nodup).mpr fun a ha b hb => hs.eq_of_key ha hb
  have hlisted := (hperm.map Entry.path).nodup_iff.mp hnodup
  refine (sorted_sortEntries hlisted).eq_of_mem_iff hs fun e => ?_
  rw [(sortEntries_perm listed).mem_iff, hperm.mem_iff]

lemma mem_objects_reordered {tree other : Forest Name Leaf} (hdistinct : tree.Distinct)
    (hre : Reordered tree other) {o : List Name × Option Leaf} :
    o ∈ other.objects [] ↔ o ∈ tree.objects [] := by
  obtain ⟨names, object⟩ := o
  rw [Forest.mem_objects_nil_iff hre.distinct, Forest.mem_objects_nil_iff hdistinct, hre.get]

/-- Another order of enumeration gives the same list after the sort. -/
lemma walk_reordered {native : Native} {path : List UInt8} {tree other : Forest Name Leaf}
    (hdistinct : tree.Distinct) (hre : Reordered tree other)
    (h : walk native [] path tree = .ok listed) :
    ∃ listed' : List Entry, walk native [] path other = .ok listed' ∧
      sortEntries listed' = sortEntries listed := by
  have hmem : ∀ o : List Name × Option Leaf, o ∈ other.objects [] ↔ o ∈ tree.objects [] :=
    fun o => mem_objects_reordered hdistinct hre
  obtain ⟨listed', hrun⟩ : ∃ listed' : List Entry, walk native [] path other = .ok listed' := by
    rw [walk_root]
    rcases mapM_cases (fun o => recorded native path o.1 o.2) (other.objects []) with
      ⟨-, hrun⟩ | ⟨o, ho, error, herror, -⟩
    · exact hrun
    · obtain ⟨e, he⟩ := recorded_of_walk h ((hmem o).mp ho)
      exact absurd (he.symm.trans herror) (by simp)
  refine ⟨listed', hrun, ?_⟩
  refine (sorted_sortEntries (paths_of_walk hrun hre.distinct)).eq_of_mem_iff
    (sorted_sortEntries (paths_of_walk h hdistinct)) fun e => ?_
  rw [(sortEntries_perm listed').mem_iff, (sortEntries_perm listed).mem_iff, mem_of_walk hrun,
    mem_of_walk h]
  simp only [hmem]

lemma snapshotDir_of_reordered {other : Forest Name Leaf} {s : OwnedSnapshot}
    (hdistinct : root.tree.Distinct) (hre : Reordered root.tree other)
    (h : snapshotDir blake3 pcre2 root options = .ok s) :
    snapshotDir blake3 pcre2 { root with tree := other } options = .ok s := by
  obtain ⟨listed, assigned, chosen, hstages, rfl⟩ := snapshotDir_eq_ok.mp h
  obtain ⟨listed', hrun, hsort⟩ := walk_reordered hdistinct hre hstages.walked
  refine snapshotDir_eq_ok.mpr ⟨listed', assigned, chosen, ?_, rfl⟩
  exact ⟨hrun, hsort ▸ hstages.structured, hsort ▸ hstages.transported, hsort ▸ hstages.assign,
    hstages.related, hstages.choose, hstages.selection, hstages.rebased⟩

/-- A capture that succeeds is a snapshot with valid relations. It has an entry for each object that
the rules include or that is above one, and for nothing else, and it is the same for every order in
which the directories are enumerated. -/
theorem snapshotDir_sound {s : OwnedSnapshot} (hdistinct : root.tree.Distinct)
    (h : snapshotDir blake3 pcre2 root options = .ok s) :
    validateSnapshot s.entries = .ok () ∧ validateMetadataRelations blake3 s.entries = .ok () ∧
      Lists (root.native options.omit_) root.tree (Scope pcre2 options.rules root.tree) s.entries ∧
      ∀ other, Reordered root.tree other →
        snapshotDir blake3 pcre2 { root with tree := other } options = .ok s := by
  obtain ⟨listed, assigned, chosen, hstages, rfl⟩ := snapshotDir_eq_ok.mp h
  exact ⟨hstages.accepted.1, hstages.accepted.2, hstages.lists hdistinct,
    fun other hre => snapshotDir_of_reordered hdistinct hre h⟩

end Sound

/-- The sample tree at `/r`. -/
def sampleDir : Dir :=
  ⟨sampleTree, utf8 "/r", fun _ => sampleNative, sampleStat, fun _ => Metadata.default⟩

/-- A rule that includes a file in a directory, which is selected with it. -/
def sampleOptions : SnapshotOptions :=
  ⟨[⟨.include_, utf8 "a/x"⟩], ⟨false, false, false, false, false, false⟩⟩

/-- The sorted list, with the reference of the name in the directory. -/
def sampleAssigned (link : Option (List UInt8)) : List Entry :=
  [⟨utf8 "a", .directory, 0o644, [], Metadata.default⟩,
    ⟨utf8 "a-b", .file, 0o644, utf8 "data", Metadata.default⟩,
    ⟨utf8 "a/x", .file, 0o644, utf8 "data", { Metadata.default with hardlinkTo := link }⟩,
    ⟨utf8 "l", .symlink, 0o777, utf8 "a/x", Metadata.default⟩]

/-- Of the selected names, the one in the directory is the first of its file. -/
lemma snapshotDir_sample : snapshotDir (File.tabulated []) Pcre2.plain sampleDir sampleOptions
    = .ok ⟨[⟨utf8 "a", .directory, 0o644, [], Metadata.default⟩,
        ⟨utf8 "a/x", .file, 0o644, utf8 "data", Metadata.default⟩], Metadata.default⟩ := by
  have hsort : ∀ listed : List Entry, (sampleAssigned none).Perm listed →
      sortEntries listed = sampleAssigned none :=
    fun listed => sortEntries_eq_of_perm (by unfold Search.Sorted; decide +kernel)
  cases hwalk : walk sampleNative [] (utf8 "/r") sampleTree with
  | error e =>
    have hsome : (walk sampleNative [] (utf8 "/r") sampleTree).toOption.isSome := by decide +kernel
    simp [hwalk, Except.toOption] at hsome
  | ok listed =>
    have hperm : ((walk sampleNative [] (utf8 "/r") sampleTree).toOption.all fun listed =>
        decide ((sampleAssigned none).Perm listed)) = true := by decide +kernel
    rw [hwalk] at hperm
    have hraw := hsort listed (of_decide_eq_true hperm)
    refine snapshotDir_eq_ok.mpr ⟨listed, sampleAssigned (some (utf8 "a-b")),
      [⟨utf8 "a", .directory, 0o644, [], Metadata.default⟩,
        ⟨utf8 "a/x", .file, 0o644, utf8 "data",
          { Metadata.default with hardlinkTo := some (utf8 "a-b") }⟩], ⟨hwalk, ?_, ?_, ?_, ?_, ?_,
      ?_, ?_⟩, ?_⟩
    · rw [hraw]
      decide +kernel
    · rw [hraw, ← Zig.validateMetadataRelations_eq_ok]
      decide +kernel
    · rw [hraw]
      decide +kernel
    · rw [← Zig.validateMetadataRelations_eq_ok]
      decide +kernel
    · decide +kernel
    · decide +kernel
    · rw [← Zig.validateMetadataRelations_eq_ok]
      decide +kernel
    · decide +kernel

theorem snapshotDir_sound_sample : ∃ s : OwnedSnapshot,
    snapshotDir (File.tabulated []) Pcre2.plain sampleDir sampleOptions = .ok s ∧
      s.entries.map Entry.path = [utf8 "a", utf8 "a/x"] ∧
      Lists sampleNative sampleTree (Scope Pcre2.plain sampleOptions.rules sampleTree)
        s.entries :=
  ⟨_, snapshotDir_sample, rfl, (snapshotDir_sound distinct_sample snapshotDir_sample).2.2.1⟩

end Walk

end Difz
