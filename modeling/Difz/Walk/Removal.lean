import Difz.Walk.Modes

/-!
# Removing what was written

`deleteOwnedTree` of `src/directory_fs.zig`, which takes a staging directory away when the work on
it fails. It opens every directory before it looks into it, so that no mode in the tree keeps it from
being removed, but for that of the root, which it leaves alone: `deleteOwnedTree_iff`. While a tree
is written the root has the mode that it was made with, unless the access list of its record has
just been set: `deleteOwnedTree_writeSnapshot`.
-/

namespace Difz

open Wire

namespace Walk

open Program
open Program.Action (fold gets handle lift modify)
open Zig (Entry Omit validateSnapshot)

namespace Owner

/-! ### The walks -/

abbrev Modes := List Name → UInt16

abbrev Removing := Program.Action Modes Stage.Error

def allowed (dir : List Name) (right : Right) : Removing Unit := fun modes =>
  if allows (modes dir) right then (.ok (), modes) else (.error .accessDenied, modes)

/-- What is in a directory, by its names. A handle of the directory stands for `root`, so what is
above it does not matter. -/
def makeDirectoriesWritable (root : List Name) : Forest Name Leaf → Removing Unit
  | .nil => pure ()
  | .leaf _ _ rest => do
    allowed root .search
    makeDirectoriesWritable root rest
  | .node name children rest => do
    allowed root .search
    modify fun modes => Function.update modes (root ++ [name]) writableDirectoryPermissions
    allowed (root ++ [name]) .read
    makeDirectoriesWritable (root ++ [name]) children
    makeDirectoriesWritable root rest

/-- The loop of `std.Io.Dir.deleteTree`, with what it leaves. -/
def deleteContents (modes : Modes) (root : List Name) :
    Forest Name Leaf → Except Stage.Error Unit × Forest Name Leaf
  | .nil => (.ok (), .nil)
  | .leaf name leaf rest =>
    if allows (modes root) .search ∧ allows (modes root) .write then
      deleteContents modes root rest
    else (.error .accessDenied, .leaf name leaf rest)
  | .node name children rest =>
    if allows (modes root) .search ∧ allows (modes (root ++ [name])) .read then
      match deleteContents modes (root ++ [name]) children with
      | (.error err, left) => (.error err, .node name left rest)
      | (.ok (), left) =>
        if allows (modes root) .write then deleteContents modes root rest
        else (.error .accessDenied, .node name left rest)
    else (.error .accessDenied, .node name children rest)

/-- `none` where the tree is gone, `parent` being the mode of the directory that it is in. -/
def deleteOwnedTree (parent : UInt16) (modes : Modes) (tree : Forest Name Leaf) :
    Except Stage.Error Unit × Option (Forest Name Leaf) :=
  if allows parent .search ∧ allows (modes []) .read then
    match makeDirectoriesWritable [] tree modes with
    | (.error err, _) => (.error err, some tree)
    | (.ok (), modes) =>
      match deleteContents modes [] tree with
      | (.error err, left) => (.error err, some left)
      | (.ok (), left) =>
        if allows parent .write then (.ok (), none) else (.error .accessDenied, some left)
  else (.error .accessDenied, some tree)

section Removing

/-- Everything in a directory and the directory itself can be opened. -/
def Full (mode : UInt16) : Prop := ∀ right, allows mode right

lemma full_writable : Full writableDirectoryPermissions := by
  intro right
  cases right <;> decide

/-- The directories in a forest are open to the owner in every way. -/
def AllFull (modes : Modes) (root : List Name) (tree : Forest Name Leaf) : Prop :=
  ∀ o ∈ tree.objects root, o.2 = none → Full (modes o.1)

variable {modes modes' : Modes} {root : List Name}

/-- No directory loses a permission. -/
def Widens (modes modes' : Modes) : Prop :=
  ∀ dir, modes' dir = modes dir ∨ modes' dir = writableDirectoryPermissions

lemma Widens.full (h : Widens modes modes') {dir : List Name} (hfull : Full (modes dir)) :
    Full (modes' dir) := by
  rcases h dir with hmode | hmode
  · rwa [hmode]
  · rw [hmode]
    exact full_writable

lemma Widens.trans {modes'' : Modes} (h : Widens modes modes') (h' : Widens modes' modes'') :
    Widens modes modes'' := by
  intro dir
  rcases h' dir with hmode | hmode
  · rw [hmode]
    exact h dir
  · exact Or.inr hmode

lemma widens_update (modes : Modes) (dir : List Name) :
    Widens modes (Function.update modes dir writableDirectoryPermissions) := by
  intro other
  by_cases hsame : other = dir
  · exact Or.inr (hsame ▸ Function.update_self ..)
  · exact Or.inl (Function.update_of_ne hsame ..)

lemma allowed_eq_ok {right : Right} (h : Full (modes root)) :
    allowed root right modes = (.ok (), modes) :=
  if_pos (h right)

/-- Each directory is opened by the one above it before it is looked into. -/
lemma makeDirectoriesWritable_full (tree : Forest Name Leaf) (hroot : Full (modes root)) :
    ∃ modes', makeDirectoriesWritable root tree modes = (.ok (), modes') ∧ Widens modes modes' ∧
      AllFull modes' root tree := by
  induction tree generalizing root modes with
  | nil => exact ⟨modes, rfl, fun _ => Or.inl rfl, by simp [AllFull, Forest.objects]⟩
  | leaf name leaf rest ih =>
    obtain ⟨modes', hrest, hwidens, hfull⟩ := ih hroot
    refine ⟨modes', ?_, hwidens, ?_⟩
    · exact Program.bind_eq_ok.mpr ⟨(), modes, allowed_eq_ok hroot, hrest⟩
    · intro o ho hnone
      rcases List.mem_cons.mp ho with rfl | ho
      · exact absurd hnone (by simp)
      · exact hfull o ho hnone
  | node name children rest ihc ihr =>
    let opened := Function.update modes (root ++ [name]) writableDirectoryPermissions
    have hopened : Full (opened (root ++ [name])) := by
      simp only [opened, Function.update_self]
      exact full_writable
    have hwidens := widens_update modes (root ++ [name])
    obtain ⟨modes₁, hchildren, hwidens₁, hfull₁⟩ := ihc hopened
    obtain ⟨modes', hrest, hwidens', hfull'⟩ := ihr (hwidens₁.full (hwidens.full hroot))
    refine ⟨modes', ?_, (hwidens.trans hwidens₁).trans hwidens', fun o ho hnone => ?_⟩
    · exact Program.bind_eq_ok.mpr ⟨(), modes, allowed_eq_ok hroot,
        Program.bind_eq_ok.mpr ⟨(), opened, rfl, Program.bind_eq_ok.mpr ⟨(), opened,
          allowed_eq_ok hopened, Program.bind_eq_ok.mpr ⟨(), modes₁, hchildren, hrest⟩⟩⟩⟩
    · rw [Forest.objects, List.mem_cons, List.mem_append] at ho
      rcases ho with rfl | ho | ho
      · exact hwidens'.full (hwidens₁.full hopened)
      · exact hwidens'.full (hfull₁ o ho hnone)
      · exact hfull' o ho hnone

lemma deleteContents_nil (tree : Forest Name Leaf) (hroot : Full (modes root))
    (hfull : AllFull modes root tree) : deleteContents modes root tree = (.ok (), .nil) := by
  induction tree generalizing root with
  | nil => rfl
  | leaf name leaf rest ih =>
    rw [deleteContents, if_pos ⟨hroot _, hroot _⟩]
    exact ih hroot fun o ho => hfull o (List.mem_cons_of_mem _ ho)
  | node name children rest ihc ihr =>
    have hname : Full (modes (root ++ [name])) := hfull _ List.mem_cons_self rfl
    have hchildren := ihc hname fun o ho =>
      hfull o (List.mem_cons_of_mem _ (List.mem_append_left _ ho))
    rw [deleteContents, if_pos ⟨hroot _, hname _⟩, hchildren]
    simp only [if_pos (hroot .write)]
    exact ihr hroot fun o ho => hfull o (List.mem_cons_of_mem _ (List.mem_append_right _ ho))

/-- A directory has the mode it had when those below another one are opened. -/
lemma makeDirectoriesWritable_mode (dir : List Name) (hdir : dir.length ≤ root.length)
    (tree : Forest Name Leaf) (mode : UInt16) :
    Keeps (fun modes => modes dir = mode) (makeDirectoriesWritable root tree) := by
  have hallowed : ∀ names right, Keeps (fun modes => modes dir = mode) (allowed names right) := by
    intro names right modes hmode
    rw [allowed]
    split_ifs
    · exact hmode
    · exact hmode
  induction tree generalizing root with
  | nil => exact Keeps.pure ()
  | leaf name leaf rest ih => exact (hallowed root .search).bind fun _ => ih hdir
  | node name children rest ihc ihr =>
    have hbelow : dir.length ≤ (root ++ [name]).length := by
      rw [List.length_append]
      omega
    refine (hallowed root .search).bind fun _ => Keeps.bind (Triple.modify fun modes hmode => ?_)
      fun _ => (hallowed _ .read).bind fun _ => (ihc hbelow).bind fun _ => ihr hdir
    rw [Function.update_of_ne]
    · exact hmode
    · rintro rfl
      rw [List.length_append, List.length_singleton] at hdir
      omega

/-- Whatever is in a directory keeps it from being removed when the directory cannot be changed. -/
lemma deleteContents_shut (modes : Modes) (root : List Name) {tree : Forest Name Leaf}
    (htree : tree ≠ .nil)
    (hshut : ¬ (allows (modes root) .search ∧ allows (modes root) .write)) :
    (deleteContents modes root tree).1 ≠ .ok () := by
  cases tree with
  | nil => exact absurd rfl htree
  | leaf name leaf rest =>
    rw [deleteContents, if_neg hshut]
    exact nofun
  | node name children rest =>
    rw [deleteContents]
    by_cases hopen : allows (modes root) .search ∧ allows (modes (root ++ [name])) .read
    · have hwrite : ¬ allows (modes root) .write := fun hwrite => hshut ⟨hopen.1, hwrite⟩
      rw [if_pos hopen]
      obtain ⟨result, left⟩ := deleteContents modes (root ++ [name]) children
      cases result with
      | error err => exact nofun
      | ok _ => simp [hwrite]
    · rw [if_neg hopen]
      exact nofun

/-- The owner can look into the root, and take away what is in it. -/
def Removable (mode : UInt16) (tree : Forest Name Leaf) : Prop :=
  allows mode .read ∧ (tree = .nil ∨ (allows mode .search ∧ allows mode .write))

/-- Nothing keeps a tree from being removed, but for the mode of its root. -/
theorem deleteOwnedTree_iff {parent : UInt16} (hparent : Full parent) (modes : Modes)
    (tree : Forest Name Leaf) :
    deleteOwnedTree parent modes tree = (.ok (), none) ↔ Removable (modes []) tree := by
  by_cases hread : allows (modes []) .read
  case neg =>
    rw [deleteOwnedTree, if_neg fun hopen => hread hopen.2]
    exact ⟨fun hrun => by simp at hrun, fun hremovable => absurd hremovable.1 hread⟩
  rw [deleteOwnedTree, if_pos ⟨hparent _, hread⟩, Removable, and_iff_right hread]
  by_cases hchange : allows (modes []) .search ∧ allows (modes []) .write
  · have hroot : Full (modes []) := by
      intro right
      cases right with
      | read => exact hread
      | write => exact hchange.2
      | search => exact hchange.1
    obtain ⟨modes', hopen, hwidens, hfull⟩ := makeDirectoriesWritable_full tree hroot
    simp [hopen, deleteContents_nil tree (hwidens.full hroot) hfull, hparent .write, hchange]
  · by_cases htree : tree = .nil
    · subst htree
      simp [makeDirectoriesWritable, deleteContents, hparent .write, pure]
    · have hmode := makeDirectoriesWritable_mode [] (le_refl _) tree (modes []) modes rfl
      cases hopen : makeDirectoriesWritable [] tree modes with
      | mk result modes' =>
        rw [hopen] at hmode
        cases result with
        | error err => simp [htree, hchange]
        | ok _ =>
          have hmode : modes' [] = modes [] := hmode
          have hshut := deleteContents_shut modes' [] htree (by rwa [hmode])
          cases hdelete : deleteContents modes' [] tree with
          | mk deleted left =>
            rw [hdelete] at hshut
            cases deleted with
            | error err => simp [hdelete, htree, hchange]
            | ok _ => exact absurd rfl hshut

end Removing

section Failing

variable {path : List UInt8} {names : List Name} {P : UInt16 → Prop}

/-- The mode of the root of the tree. -/
def RootMode (P : UInt16 → Prop) (g : Guarded) : Prop := P (g.mode (.dir []))

/-! ### Calls that leave the mode of the root alone -/

lemma keeps_search : Keeps (RootMode P) (search names) := by
  intro g hg
  rw [search]
  split_ifs
  · exact hg
  · exact hg

lemma keeps_gets {α : Type} (f : Guarded → α) :
    Keeps (RootMode P) (gets f : GuardedCalls α) := fun _ hg => hg

lemma keeps_enter : Keeps (RootMode P) (enter names) := by
  refine keeps_search.bind fun _ => (keeps_gets _).bind fun mode => ?_
  split_ifs
  · exact Keeps.pure ()
  · exact Keeps.fail _

lemma keeps_onFiles {α : Type} (x : Calls α) : Keeps (RootMode P) (onFiles x) := by
  intro g hg
  rw [onFiles]
  obtain ⟨result, fs⟩ := x g.fs
  cases result with
  | ok a => exact hg
  | error err => exact hg

lemma keeps_lookupDot : Keeps (RootMode P) lookupDot := by
  refine (keeps_gets _).bind fun mode => ?_
  split_ifs
  · exact Keeps.pure ()
  · exact Keeps.fail _

/-- Only the empty path leads to the root. -/
lemma locate_spec : Triple (RootMode P) (locate names)
    (fun found g => RootMode P g ∧ (found = some (.dir []) → names = [])) (RootMode P) := by
  refine Triple.bind keeps_search fun _ => Triple.bind (keeps_gets _) fun found => ?_
  split
  · exact Triple.fail fun g hg => hg
  · exact Triple.pure fun g hg => ⟨hg, by simp⟩
  · exact Triple.pure fun g hg => ⟨hg, by simp⟩
  · exact Triple.fail fun g hg => hg
  · exact Triple.pure fun g hg => ⟨hg, by simp⟩

lemma keeps_access (right : Right) : Keeps (RootMode P) (access names right) := by
  refine Triple.bind (locate_spec.mono (fun _ hg => hg) (fun _ _ hg => hg.1) fun _ hg => hg)
    fun found => ?_
  split
  · exact Keeps.pure ()
  · refine (keeps_gets _).bind fun mode => ?_
    split_ifs
    · exact Keeps.pure ()
    · exact Keeps.fail _

lemma rootMode_change {g : Guarded} {o : Object} (hg : RootMode P g) (ho : o ≠ .dir [])
    (f : UInt16 → UInt16) : RootMode P (g.change o f) := by
  rw [RootMode, change_mode_of_ne f ho.symm]
  exact hg

lemma keeps_changeMode (hnames : names ≠ []) (f : UInt16 → UInt16) :
    Keeps (RootMode P) (changeMode names f) := by
  refine Triple.bind locate_spec fun found => ?_
  cases found with
  | none => exact Triple.pure fun g hg => hg.1
  | some o =>
    exact Triple.modify fun g hg => rootMode_change hg.1 (fun ho => hnames (hg.2 (congrArg _ ho))) f

lemma keeps_createDir (hpath : resolve path ≠ []) : Keeps (RootMode P) (createDir path) := by
  refine keeps_enter.bind fun _ => (keeps_onFiles _).bind fun _ => Triple.modify fun g hg => ?_
  exact rootMode_change hg (fun ho => hpath (Object.dir.inj ho)) _

lemma keeps_writeFile (data : List UInt8) : Keeps (RootMode P) (writeFile path data) := by
  refine Keeps.bind ?_ fun _ => keeps_onFiles _
  refine keeps_enter.bind fun _ => (keeps_onFiles _).bind fun inode => ?_
  refine Keeps.bind (Triple.modify fun g hg => ?_) fun _ => Keeps.pure _
  exact rootMode_change hg (by simp) fun _ => writableFilePermissions

lemma keeps_createLink (original : List UInt8) :
    Keeps (RootMode P) (createLink original path) := by
  have hlink : Keeps (RootMode P) (hardLink original path) :=
    keeps_search.bind fun _ => keeps_enter.bind fun _ => keeps_onFiles _
  refine (hlink.bind fun _ => Keeps.pure true).handle fun err => ?_
  split_ifs
  · exact Keeps.pure false
  · exact Keeps.fail err

lemma keeps_createObject {e : Entry} (hpath : resolve e.path ≠ []) (copied : List (List UInt8)) :
    Keeps (RootMode P) (createObject copied e) := by
  rw [createObject]
  split
  · exact (keeps_createDir hpath).bind fun _ => Keeps.pure _
  · split
    · exact (keeps_writeFile _).bind fun _ => Keeps.pure _
    · refine (keeps_createLink _).bind fun linked => ?_
      split_ifs
      · exact Keeps.pure _
      · exact (keeps_writeFile _).bind fun _ => Keeps.pure _
  · exact (keeps_enter.bind fun _ => keeps_onFiles _).bind fun _ => Keeps.pure _

variable (natives : Natives) (mask : Omit)

lemma keeps_setXattr (what : Attribute) : Keeps (RootMode P) (setXattr natives what names) := by
  rw [setXattr]
  split_ifs
  · exact keeps_access _
  · exact Keeps.pure ()

lemma keeps_restoreList (hnames : names ≠ []) (meta_ : Metadata) :
    Keeps (RootMode P) (restoreList natives names meta_) :=
  (keeps_changeMode hnames _).handle fun _ => Keeps.pure ()

lemma keeps_unlessOmitted {omitted : Bool} {x : GuardedCalls Unit} (h : Keeps (RootMode P) x) :
    Keeps (RootMode P) (unlessOmitted omitted x) := by
  rw [unlessOmitted]
  split_ifs
  · exact Keeps.pure ()
  · exact h

lemma keeps_restoreObject {e : Entry} (hpath : resolve e.path ≠ []) (copied : List (List UInt8)) :
    Keeps (RootMode P) (restoreObject natives mask copied e) := by
  have hcopied : Keeps (RootMode P) (markCopied copied e) := by
    rw [markCopied]
    split_ifs
    · exact keeps_access _
    · exact Keeps.pure ()
  have hsparse : Keeps (RootMode P) (restoreSparse natives e) := by
    rw [restoreSparse]
    split_ifs
    · exact (keeps_access _).bind fun _ => keeps_setXattr natives .sparse
    · exact Keeps.pure ()
  rw [restoreObject]
  split_ifs with hkind
  · exact keeps_search
  · refine (keeps_setXattr natives .xattrs).bind fun _ => hcopied.bind fun _ => ?_
    refine (keeps_unlessOmitted hsparse).bind fun _ => ?_
    refine (keeps_unlessOmitted (keeps_setXattr natives .birthTime)).bind fun _ => ?_
    refine (keeps_unlessOmitted (Keeps.bind ?_ fun _ => keeps_changeMode hpath _)).bind
      fun _ => keeps_unlessOmitted (keeps_setXattr natives .finder)
    exact (keeps_restoreList natives hpath _).bind fun _ =>
      (keeps_setXattr natives .nativeAcl).bind fun _ => keeps_setXattr natives .portableAcl

lemma keeps_finishObject {e : Entry} (hpath : resolve e.path ≠ []) :
    Keeps (RootMode P) (finishObject natives mask e) := by
  rw [finishObject]
  split_ifs
  · exact Keeps.pure ()
  · refine (keeps_unlessOmitted ?_).bind fun _ => keeps_changeMode hpath _
    exact keeps_search.bind fun _ => keeps_setXattr natives .modificationTime

/-! ### The access list of the root -/

variable {rootMeta : Metadata}

/-- The mode the root was made with, or what its access list makes of that. -/
def Listed (natives : Natives) (mask : Omit) (rootMeta : Metadata) (mode : UInt16) : Prop :=
  mode = writableDirectoryPermissions ∨
    (mask.acl = false ∧ mode = natives.acl rootMeta writableDirectoryPermissions)

/-- What keeps the root open also keeps it open or listed. -/
lemma keeps_listed {α : Type} {x : GuardedCalls α}
    (h : Keeps (RootMode (· = writableDirectoryPermissions)) x) :
    Triple (RootMode (· = writableDirectoryPermissions)) x
      (fun _ => RootMode (· = writableDirectoryPermissions))
      (RootMode (Listed natives mask rootMeta)) :=
  h.mono (fun _ hg => hg) (fun _ _ hg => hg) fun _ hg => Or.inl hg

lemma restoreList_root (hacl : mask.acl = false) :
    Triple (RootMode (· = writableDirectoryPermissions)) (restoreList natives [] rootMeta)
      (fun _ => RootMode (Listed natives mask rootMeta))
      (RootMode (Listed natives mask rootMeta)) := by
  intro g hg
  rw [restoreList_eq_ok finds_root]
  right
  rw [change_mode_self]
  exact ⟨hacl, congrArg _ hg⟩

lemma restoreRoot_root :
    Triple (RootMode (· = writableDirectoryPermissions)) (restoreRoot natives mask rootMeta)
      (fun _ => RootMode (· = writableDirectoryPermissions))
      (RootMode (Listed natives mask rootMeta)) := by
  refine Triple.bind (keeps_listed natives mask (keeps_setXattr natives .xattrs)) fun _ => ?_
  refine Triple.bind (Q := fun _ => RootMode (· = writableDirectoryPermissions)) ?_ fun _ => ?_
  · rw [unlessOmitted]
    split_ifs with hacl
    · exact Triple.pure fun _ hg => hg
    · refine Triple.bind (Triple.bind (restoreList_root natives mask
        (Bool.eq_false_of_not_eq_true hacl)) fun _ => (keeps_setXattr natives .nativeAcl).bind
          fun _ => keeps_setXattr natives .portableAcl) fun _ => ?_
      refine Triple.bind keeps_lookupDot fun _ g _ => ?_
      rw [setFilePermissions, changeMode_eq_ok finds_root]
      exact change_mode_self ..
  · refine keeps_listed natives mask ?_
    refine (keeps_unlessOmitted (keeps_setXattr natives .finder)).bind fun _ => ?_
    exact keeps_unlessOmitted (keeps_lookupDot.bind fun _ => keeps_setXattr natives .birthTime)

lemma finishSnapshot_root {entries : List Entry} (hpaths : ∀ e ∈ entries, resolve e.path ≠ []) :
    Triple (RootMode (· = writableDirectoryPermissions))
      (finishSnapshot natives mask entries rootMeta)
      (fun _ => RootMode (Listed natives mask rootMeta))
      (RootMode (Listed natives mask rootMeta)) := by
  refine Triple.bind (Q := fun _ => RootMode (Listed natives mask rootMeta)) ?_ fun _ =>
    keeps_unlessOmitted (keeps_lookupDot.bind fun _ => keeps_setXattr natives .modificationTime)
  rw [unlessOmitted]
  split_ifs with hacl
  · exact Triple.pure fun _ hg => Or.inl hg
  · refine Triple.bind (restoreList_root natives mask (Bool.eq_false_of_not_eq_true hacl))
      fun _ => Keeps.fold_mem (fun _ e he => ?_) ()
    split_ifs
    · exact Keeps.pure ()
    · exact keeps_restoreList natives (hpaths e he) _

/-- Wherever writing stops. No entry is the root, whatever else is wrong with the tree. -/
lemma writeSnapshot_root (blake3 : List UInt8 → Digest) (entries : List Entry)
    (rootMeta : Metadata) :
    Triple (RootMode (· = writableDirectoryPermissions))
      (writeSnapshot natives mask blake3 entries rootMeta)
      (fun _ => RootMode (Listed natives mask rootMeta))
      (RootMode (Listed natives mask rootMeta)) := by
  refine Triple.lift_bind (fun _ hg => Or.inl hg) fun _ hsnapshot => ?_
  refine Triple.lift_bind (fun _ hg => Or.inl hg) fun _ _ => ?_
  have hpaths : ∀ e ∈ entries, resolve e.path ≠ [] := by
    intro e he
    rw [Zig.validateSnapshot_eq] at hsnapshot
    exact (joined_resolve
      ((Directory.validate_iff_structured.mp (mapError_eq_ok.mp hsnapshot)).paths e he)).1
  refine Triple.bind (keeps_listed natives mask (Keeps.fold_mem
    (fun copied e he => keeps_createObject (hpaths e he) copied) [])) fun copied => ?_
  refine Triple.bind (keeps_listed natives mask (Keeps.fold_mem
    (fun _ e he => keeps_restoreObject natives mask (hpaths e he) copied) ())) fun _ => ?_
  refine Triple.bind (restoreRoot_root natives mask) fun _ => ?_
  refine Triple.bind (keeps_listed natives mask (Keeps.fold_mem (fun _ e he => ?_) ()))
    fun _ => ?_
  · rw [transportLink]
    split_ifs
    · exact keeps_access _
    · exact Keeps.pure ()
  refine Triple.bind (keeps_listed natives mask (Keeps.fold_mem (fun _ e he =>
    keeps_finishObject natives mask (hpaths e (List.mem_reverse.mp he))) ())) fun _ => ?_
  exact Triple.bind (finishSnapshot_root natives mask hpaths) fun _ => Keeps.pure copied

/-- Wherever writing stops and whatever was there before, what is written can be removed unless the
access list of the root shuts the owner out. -/
theorem deleteOwnedTree_writeSnapshot (blake3 : List UInt8 → Digest) (entries : List Entry)
    (rootMeta : Metadata) (parent : UInt16) (g g' : Guarded)
    (result : Except Stage.Error (List (List UInt8)))
    (hparent : Full parent) (hroot : g.mode (.dir []) = writableDirectoryPermissions)
    (hrun : writeSnapshot natives mask blake3 entries rootMeta g = (result, g')) :
    ((mask.acl = false → Full (natives.acl rootMeta writableDirectoryPermissions)) →
      deleteOwnedTree parent (fun dir => g'.mode (.dir dir)) g'.fs.tree = (.ok (), none)) ∧
    Listed natives mask rootMeta (g'.mode (.dir [])) ∧
    (deleteOwnedTree parent (fun dir => g'.mode (.dir dir)) g'.fs.tree = (.ok (), none) ↔
      Removable (g'.mode (.dir [])) g'.fs.tree) := by
  have hlisted : Listed natives mask rootMeta (g'.mode (.dir [])) := by
    have hkept := writeSnapshot_root natives mask blake3 entries rootMeta g hroot
    rw [hrun] at hkept
    cases result with
    | ok copied => exact hkept
    | error err => exact hkept
  have hiff := deleteOwnedTree_iff hparent (fun dir => g'.mode (.dir dir)) g'.fs.tree
  refine ⟨fun hlist => hiff.mpr ?_, hlisted, hiff⟩
  have hfull : Full (g'.mode (.dir [])) := by
    rcases hlisted with hmode | ⟨hacl, hmode⟩
    · rw [hmode]
      exact full_writable
    · rw [hmode]
      exact hlist hacl
  exact ⟨hfull .read, Or.inr ⟨hfull .search, hfull .write⟩⟩

end Failing

/-- Something is in the directory already, with a name that an entry has. -/
def takenDir : Guarded :=
  ⟨⟨.node nameMinus (.leaf nameX .special .nil) .nil, []⟩, fun o => if o = .dir [] then 0o700 else 0⟩

/-- Access lists that agree with the modes. -/
def sameLists : Natives := { readOnlyLists (· ≠ []) with acl := fun _ mode => mode }

/-- What is written is removed, unless the access list of the root takes the right to write away. -/
theorem deleteOwnedTree_writeSnapshot_sample :
    let taken := writeSnapshot sameLists keepAll (File.tabulated []) shutEntries Metadata.default
      takenDir
    let shut := writeSnapshot (readOnlyLists (· = [nameA])) keepAll (File.tabulated []) shutEntries
      Metadata.default freshDir
    (taken.1 = .error .pathAlreadyExists ∧
      deleteOwnedTree 0o755 (fun dir => taken.2.mode (.dir dir)) taken.2.fs.tree = (.ok (), none)) ∧
    deleteOwnedTree 0o755 (fun dir => shut.2.mode (.dir dir)) shut.2.fs.tree ≠ (.ok (), none) := by
  intro taken shut
  have hparent : Full 0o755 := by
    intro right
    cases right <;> decide
  refine ⟨⟨rfl, ?_⟩, fun hgone => ?_⟩
  · exact (deleteOwnedTree_writeSnapshot sameLists keepAll (File.tabulated []) shutEntries
      Metadata.default 0o755 takenDir taken.2 taken.1 hparent rfl rfl).1 fun _ => full_writable
  · have hremovable := ((deleteOwnedTree_writeSnapshot (readOnlyLists (· = [nameA])) keepAll
      (File.tabulated []) shutEntries Metadata.default 0o755 freshDir shut.2 shut.1 hparent rfl
      rfl).2.2.mp hgone).2
    have hmode : shut.2.mode (.dir []) = 0o500 := rfl
    rw [hmode] at hremovable
    exact hremovable.elim nofun fun hopen => absurd hopen.2 (by decide)

end Owner

end Walk

end Difz
