import Difz.Walk.Rebuild

/-!
# Flattening and rebuilding

The walk over a rebuilt tree finds what the entries say, whatever the order of enumeration, and the
references that `assignHardlinks` derives from the numbers of the files are those of the entries.
With the list of a walk being a snapshot this makes flattening and rebuilding inverse,
`walk_rebuild_inverse`, up to one limit: a walk fails at an absolute path of more than `PATH_MAX`
bytes.
-/

namespace Difz

open Wire

namespace Walk

open Zig (Entry Related validateSnapshot validateMetadataRelations)
open Directory (Kind pathOf)
open Hardlink (Stat groupPath assignHardlinks)

/-- The same directories, enumerated in any order. -/
structure Reordered (tree other : Forest Name Leaf) : Prop where
  distinct : other.Distinct
  get : ∀ names, other.get names = tree.get names

/-- The number of a file. -/
def inodeAt : Option Leaf → Option Nat
  | some (.file inode) => some inode
  | none | some (.symlink _) | some .special => none

/-- What `stat` says of the files of a tree: two names have one identity exactly when they are names
of one file, and a file with several names says so. -/
structure Reports (tree : Forest Name Leaf) (stat : List UInt8 → Stat) : Prop where
  kind : ∀ o ∈ tree.objects [], (inodeAt o.2).isSome → (stat (joined o.1)).kind = .file
  identity : ∀ o ∈ tree.objects [], ∀ p ∈ tree.objects [], (inodeAt o.2).isSome →
    (inodeAt p.2).isSome →
      ((stat (joined o.1)).identity = (stat (joined p.1)).identity ↔ inodeAt o.2 = inodeAt p.2)
  nlink : ∀ o ∈ tree.objects [], ∀ p ∈ tree.objects [], (inodeAt o.2).isSome →
    inodeAt o.2 = inodeAt p.2 → o.1 ≠ p.1 → ¬(stat (joined o.1)).nlink < 2

/-- What a tree has to give back of an entry. Only files have references. -/
structure Outline where
  path : List UInt8
  kind : Kind
  data : List UInt8
  hardlinkTo : Option (List UInt8)
  deriving DecidableEq

def outline (e : Entry) : Outline :=
  ⟨e.path, e.kind, e.data, if e.kind = .file then e.meta_.hardlinkTo else none⟩

/-! ### The objects of a rebuilt tree -/

/-- A tree built from accepted entries, with its directories in any order. -/
structure Rebuilt (blake3 : List UInt8 → Digest) (entries : List Entry) (fs : FileSystem)
    (tree : Forest Name Leaf) : Prop extends Accepted blake3 entries where
  built : Built entries fs
  reordered : Reordered fs.tree tree

/-- What the walk records for an entry. -/
structure Recaptures (e w : Entry) : Prop where
  path : w.path = e.path
  kind : w.kind = e.kind
  data : w.data = e.data
  hardlinkTo : e.kind = .file → w.meta_.hardlinkTo = none

section Rebuilt

variable {blake3 : List UInt8 → Digest} {entries : List Entry} {fs : FileSystem}
  {tree : Forest Name Leaf} {native : Native} {root : List UInt8} {e f w : Entry}

lemma Accepted.joined_resolve (h : Accepted blake3 entries) (he : e ∈ entries) :
    resolve e.path ≠ [] ∧ joined (resolve e.path) = e.path :=
  Walk.joined_resolve (h.structured.paths e he)

lemma Accepted.exists_original_mem (h : Accepted blake3 entries) (he : e ∈ entries)
    (hkind : e.kind = .file) :
    ∃ t ∈ originals entries, t.path = groupPath e ∧ t.data = e.data := by
  obtain ⟨before, after, hsplit⟩ := List.append_of_mem he
  obtain ⟨t, ht, hpath, hdata⟩ := h.exists_group hsplit hkind
  refine ⟨t, ?_, hpath, hdata⟩
  rw [hsplit, List.append_cons, originals_append]
  exact List.mem_append_left _ ht

/-- Two files have one number when they are in one group. -/
lemma Accepted.inodeOf_eq_iff (h : Accepted blake3 entries) (he : e ∈ entries)
    (hkind : e.kind = .file) :
    inodeOf entries e = inodeOf entries f ↔ groupPath e = groupPath f := by
  obtain ⟨t, ht, hpath, -⟩ := h.exists_original_mem he hkind
  exact List.idxOf_inj (hpath ▸ List.mem_map_of_mem ht)

lemma inodeAt_objectOf (hkind : e.kind = .file) :
    inodeAt (objectOf entries e) = some (inodeOf entries e) := by
  simp only [objectOf, hkind, inodeAt]

namespace Rebuilt

lemma mem_objects (h : Rebuilt blake3 entries fs tree) {names : List Name}
    {object : Option Leaf} : (names, object) ∈ tree.objects [] ↔
      names ≠ [] ∧ ∃ e ∈ entries, e.path = joined names ∧ objectOf entries e = object := by
  rw [Forest.mem_objects_nil_iff h.reordered.distinct, h.reordered.get]
  exact and_congr_right fun hnames => h.built.objects names hnames object

/-- Every entry has its object. -/
lemma object_mem (h : Rebuilt blake3 entries fs tree) (he : e ∈ entries) :
    (resolve e.path, objectOf entries e) ∈ tree.objects [] := by
  obtain ⟨hnames, hjoined⟩ := h.joined_resolve he
  exact h.mem_objects.mpr ⟨hnames, e, he, hjoined.symm, rfl⟩

lemma listable (h : Rebuilt blake3 entries fs tree) : Listable tree := by
  have hmem : ∀ o ∈ tree.objects [], o.1 ≠ [] ∧
      ∃ e ∈ entries, e.path = joined o.1 ∧ objectOf entries e = o.2 :=
    fun o ho => h.mem_objects.mp ho
  refine ⟨?_, h.reordered.distinct, fun o ho => ?_, fun names target ho => ?_, fun names ho => ?_⟩
  · have hpaths := nodup_joined h.reordered.distinct
    have hsub : ((tree.objects []).map fun o => joined o.1) ⊆ entries.map Entry.path := by
      intro path hpath
      obtain ⟨o, ho, rfl⟩ := List.mem_map.mp hpath
      obtain ⟨-, e, he, hjoined, -⟩ := hmem o ho
      exact hjoined ▸ List.mem_map_of_mem he
    have hlength := (hpaths.subperm hsub).length_le
    rw [List.length_map, List.length_map] at hlength
    exact hlength.trans h.structured.bounded
  · obtain ⟨-, e, he, hjoined, -⟩ := hmem o ho
    rw [← hjoined]
    exact Directory.validatePath_eq_ok.mpr (h.structured.paths e he)
  · obtain ⟨-, e, he, hjoined, hobject⟩ := hmem _ ho
    have hvalid : Directory.validatePath e.path = .ok () :=
      Directory.validatePath_eq_ok.mpr (h.structured.paths e he)
    have hkind := h.structured.kinds e he
    rw [← Directory.Native.validateKind_eq hvalid, Directory.Native.validateKind, seq_eq_ok,
      seq_eq_ok] at hkind
    obtain ⟨-, -, hlink⟩ := hkind
    cases hk : e.kind with
    | directory | file => simp [objectOf, hk] at hobject
    | symlink =>
      have hsymlink : (Directory.View.record e).kind = .symlink := hk
      obtain rfl : e.data = target := by simpa [objectOf, hk] using hobject
      rw [if_pos hsymlink] at hlink
      rw [← hjoined]
      exact hlink
  · obtain ⟨-, e, he, -, hobject⟩ := hmem _ ho
    cases hkind : e.kind <;> simp [objectOf, hkind] at hobject

/-! ### The list of a rebuilt tree -/

/-- The bytes of the file with the number of an entry are those of the entry. -/
lemma inode_seen (h : Rebuilt blake3 entries fs tree) (he : e ∈ entries) (hkind : e.kind = .file) :
    (fs.seen native).inode (inodeOf entries e) = ⟨e.data, none⟩ := by
  obtain ⟨t, ht, hpath, hdata⟩ := h.exists_original_mem he hkind
  have hindex : ((originals entries).map Entry.path)[inodeOf entries e]? = some (groupPath e) :=
    List.getElem?_idxOf (hpath ▸ List.mem_map_of_mem ht)
  rw [List.getElem?_map, Option.map_eq_some_iff] at hindex
  obtain ⟨t', hget, hpath'⟩ := hindex
  have ht' := List.mem_of_getElem? hget
  obtain rfl : t' = t := h.eq_of_path (List.mem_filter.mp ht').1 (List.mem_filter.mp ht).1
    (hpath'.trans hpath.symm)
  simp only [FileSystem.seen, h.built.inodes, List.getD_eq_getElem?_getD, List.getElem?_map, hget,
    Option.map_some, Option.getD_some, hdata]

lemma recaptures (h : Rebuilt blake3 entries fs tree) (he : e ∈ entries)
    (hrecord : recorded (fs.seen native) root (resolve e.path) (objectOf entries e) = .ok w) :
    Recaptures e w := by
  obtain ⟨-, hjoined⟩ := h.joined_resolve he
  have hpath := (describes_of_recorded hrecord).path.trans hjoined
  have hentry := (recorded_eq_ok.mp hrecord).2.2
  have hdata := h.structured.kinds e he
  cases hkind : e.kind with
  | directory =>
    rw [objectOf, hkind] at hentry
    obtain rfl := Except.ok.inj hentry
    have hdirectory : (Directory.View.record e).kind = .directory := hkind
    have hempty : (Directory.View.record e).data = [] := by
      simpa [Directory.validateKind, hdirectory, ite_error_eq_ok] using hdata
    exact ⟨hpath, hkind.symm, hempty.symm, by simp [hkind]⟩
  | file =>
    rw [objectOf, hkind] at hentry
    obtain rfl := Except.ok.inj hentry
    rw [h.inode_seen he hkind]
    exact ⟨hpath, hkind.symm, rfl, fun _ => rfl⟩
  | symlink =>
    rw [objectOf, hkind] at hentry
    obtain rfl := Except.ok.inj hentry
    exact ⟨hpath, hkind.symm, rfl, by simp [hkind]⟩

/-- The walk gives one entry for each entry, and the sort puts them in the same order. -/
lemma recaptures_sortEntries (h : Rebuilt blake3 entries fs tree) {listed : List Entry}
    (hrun : walk (fs.seen native) [] root tree = .ok listed)
    (hall : ∀ o ∈ tree.objects [], ∃ w, recorded (fs.seen native) root o.1 o.2 = .ok w) :
    List.Forall₂ Recaptures entries (sortEntries listed) := by
  let record := fun e : Entry =>
    recorded (fs.seen native) root (resolve e.path) (objectOf entries e)
  obtain ⟨ws, hws⟩ : ∃ ws, entries.mapM record = .ok ws := by
    rcases mapM_cases record entries with ⟨-, hws⟩ | ⟨e, he, error, herror, -⟩
    · exact hws
    · obtain ⟨w, hw⟩ := hall _ (h.object_mem he)
      exact absurd (hw.symm.trans herror) (by simp)
  have hrecaptures : List.Forall₂ Recaptures entries ws :=
    ((List.forall₂_and_left entries ws).mpr ⟨fun e he => he, mapM_eq_ok.mp hws⟩).imp
      fun e w hw => h.recaptures hw.1 hw.2
  have hpaths : entries.map pathOf = ws.map pathOf := by
    rw [← List.forall₂_eq_eq_eq, List.forall₂_map_left_iff, List.forall₂_map_right_iff]
    exact hrecaptures.imp fun e w hw => hw.path.symm
  have hsorted : Search.Sorted pathOf ws := by
    have hentries := h.structured.sorted
    rw [Search.Sorted, ← List.pairwise_map (f := pathOf) (R := fun a b => compare a b = .lt)]
      at hentries ⊢
    rwa [← hpaths]
  have hmem : ∀ w, w ∈ sortEntries listed ↔ w ∈ ws := by
    intro w
    rw [(sortEntries_perm listed).mem_iff, mem_of_walk hrun, mem_of_mapM hws]
    constructor
    · rintro ⟨⟨names, object⟩, ho, hw⟩
      obtain ⟨hnames, e, he, hpath, rfl⟩ := h.mem_objects.mp ho
      refine ⟨e, he, ?_⟩
      change recorded _ _ (resolve e.path) _ = _
      rw [hpath, resolve_joined hnames]
      exact hw
    · rintro ⟨e, he, hw⟩
      exact ⟨_, h.object_mem he, hw⟩
  rw [(sorted_sortEntries (paths_of_walk hrun h.reordered.distinct)).eq_of_mem_iff hsorted hmem]
  exact hrecaptures

/-! ### References from identities -/

variable {stat : List UInt8 → Stat} {before after ws rest : List Entry}

/-- Files have one identity when they are in one group. -/
lemma identity_eq_iff (h : Rebuilt blake3 entries fs tree) (hreports : Reports tree stat)
    (he : e ∈ entries) (hf : f ∈ entries) (hek : e.kind = .file) (hfk : f.kind = .file) :
    (stat e.path).identity = (stat f.path).identity ↔ groupPath e = groupPath f := by
  have hidentity := hreports.identity _ (h.object_mem he) _ (h.object_mem hf)
  simp only [inodeAt_objectOf hek, inodeAt_objectOf hfk, (h.joined_resolve he).2,
    (h.joined_resolve hf).2, Option.isSome_some, forall_const, Option.some.injEq] at hidentity
  exact hidentity.trans (h.inodeOf_eq_iff he hek)

lemma two_le_nlink (h : Rebuilt blake3 entries fs tree) (hreports : Reports tree stat)
    (he : e ∈ entries) (hf : f ∈ entries) (hek : e.kind = .file) (hfk : f.kind = .file)
    (hgroup : groupPath e = groupPath f) (hne : e.path ≠ f.path) : ¬(stat e.path).nlink < 2 := by
  have hnlink := hreports.nlink _ (h.object_mem he) _ (h.object_mem hf)
  simp only [inodeAt_objectOf hek, inodeAt_objectOf hfk, (h.joined_resolve he).2,
    Option.isSome_some, forall_const, Option.some.injEq] at hnlink
  refine hnlink ((h.inodeOf_eq_iff he hek).mpr hgroup) fun hnames => hne ?_
  rw [← (h.joined_resolve he).2, hnames, (h.joined_resolve hf).2]

/-- An earlier name counts when it is in the group. -/
lemma counted_iff (h : Rebuilt blake3 entries fs tree) (hreports : Reports tree stat)
    (hsplit : entries = before ++ e :: after) (hkind : e.kind = .file) (hw : Recaptures e w)
    (hf : f ∈ before) {v : Entry} (hv : Recaptures f v) :
    Hardlink.Counted stat (Hardlink.identityOf stat w) v = true ↔
      f.kind = .file ∧ groupPath f = groupPath e := by
  have he : e ∈ entries := by simp [hsplit]
  have hfe : f ∈ entries := by simp [hsplit, hf]
  simp only [Hardlink.Counted, Hardlink.identityOf, hv.kind, hv.path, hw.path, Bool.and_eq_true,
    beq_iff_eq, Bool.not_eq_true', decide_eq_false_iff_not]
  constructor
  · rintro ⟨⟨hfk, -⟩, hidentity⟩
    exact ⟨hfk, (h.identity_eq_iff hreports hfe he hfk hkind).mp hidentity⟩
  · rintro ⟨hfk, hgroup⟩
    exact ⟨⟨hfk, h.two_le_nlink hreports hfe he hfk hkind hgroup (h.path_notMem hsplit hf)⟩,
      (h.identity_eq_iff hreports hfe he hfk hkind).mpr hgroup⟩

end Rebuilt

lemma Recaptures.outline_eq (hw : Recaptures e w)
    (hlink : e.kind = .file → e.meta_.hardlinkTo = none) : outline w = outline e := by
  rw [outline, outline, hw.path, hw.kind, hw.data]
  split_ifs with hkind
  · rw [hw.hardlinkTo hkind, hlink hkind]
  · rfl

/-- The item behind an element of the second list. -/
lemma exists_of_forall₂ {α β : Type} {R : α → β → Prop} {xs : List α} {as bs : List β} {b : β}
    (h : List.Forall₂ R xs (as ++ b :: bs)) :
    ∃ pre x post, xs = pre ++ x :: post ∧ List.Forall₂ R pre as ∧ R x b := by
  have htake := List.forall₂_take_append xs as (b :: bs) h
  have hdrop := List.forall₂_drop_append xs as (b :: bs) h
  obtain ⟨x, post, hx, -, hxs⟩ := List.forall₂_cons_right_iff.mp hdrop
  exact ⟨_, x, post, by rw [← hxs, List.take_append_drop], htake, hx⟩

section Pass

variable {stat : List UInt8 → Stat} {before after ws rest : List Entry}

lemma groupPath_of_original {t : Entry} (ht : t ∈ originals before) :
    t ∈ before ∧ t.kind = .file ∧ groupPath t = t.path := by
  obtain ⟨hmem, hfile⟩ := List.mem_filter.mp ht
  obtain ⟨hkind, hlink⟩ := of_decide_eq_true hfile
  refine ⟨hmem, hkind, ?_⟩
  rw [groupPath, hlink]
  rfl

/-- No file before an entry is in the group that its path stands for. -/
lemma Accepted.groupPath_ne (h : Accepted blake3 entries) (hsplit : entries = before ++ e :: after)
    (hf : f ∈ before) : groupPath f ≠ e.path := by
  intro hgroup
  cases hlink : f.meta_.hardlinkTo with
  | none =>
    rw [groupPath, hlink] at hgroup
    exact h.path_notMem hsplit hf hgroup
  | some original =>
    obtain ⟨pre, post, rfl⟩ := List.append_of_mem hf
    have hpre : entries = pre ++ f :: (post ++ e :: after) := by simp [hsplit]
    obtain ⟨t, ht, rfl, -, -⟩ := h.exists_original hpre hlink
    rw [groupPath, hlink] at hgroup
    exact h.path_notMem hsplit (by simp [(List.mem_filter.mp ht).1]) hgroup

namespace Rebuilt

/-- An original has no earlier name. -/
lemma find_original (h : Rebuilt blake3 entries fs tree) (hreports : Reports tree stat)
    (hsplit : entries = before ++ e :: after) (hkind : e.kind = .file) (hw : Recaptures e w)
    (hws : List.Forall₂ Recaptures before ws) (hlink : e.meta_.hardlinkTo = none) :
    ws.find? (Hardlink.Counted stat (Hardlink.identityOf stat w)) = none := by
  refine List.find?_eq_none.mpr fun v hv hcount => ?_
  obtain ⟨as, bs, rfl⟩ := List.append_of_mem hv
  obtain ⟨pre, f, post, hbefore, -, hrecapture⟩ := exists_of_forall₂ hws
  have hf : f ∈ before := by simp [hbefore]
  obtain ⟨-, hgroup⟩ := (h.counted_iff hreports hsplit hkind hw hf hrecapture).mp hcount
  refine h.groupPath_ne hsplit hf (hgroup.trans ?_)
  rw [groupPath, hlink]
  rfl

/-- The first earlier name of a link is the one that stands for its group, since the original of any
other name comes before that. -/
lemma find_link (h : Rebuilt blake3 entries fs tree) (hreports : Reports tree stat)
    (hsplit : entries = before ++ e :: after) (hkind : e.kind = .file) (hw : Recaptures e w)
    (hws : List.Forall₂ Recaptures before ws) {t : Entry} (ht : t ∈ originals before)
    (hgroup : groupPath e = t.path) :
    ∃ first, ws.find? (Hardlink.Counted stat (Hardlink.identityOf stat w)) = some first ∧
      groupPath first = t.path := by
  -- an original of the group counts
  have hcounts : ∀ s ∈ originals before, s.path = t.path → ∀ v, Recaptures s v →
      Hardlink.Counted stat (Hardlink.identityOf stat w) v = true := by
    intro s hs hpath v hv
    obtain ⟨hmem, hsk, hsgroup⟩ := groupPath_of_original hs
    exact (h.counted_iff hreports hsplit hkind hw hmem hv).mpr
      ⟨hsk, hsgroup.trans (hpath.trans hgroup.symm)⟩
  obtain ⟨first, hfind⟩ : ∃ first,
      ws.find? (Hardlink.Counted stat (Hardlink.identityOf stat w)) = some first := by
    obtain ⟨pre, post, hbefore⟩ := List.append_of_mem (List.mem_filter.mp ht).1
    obtain ⟨as, v, bs, hwsplit, -, hv⟩ := exists_of_forall₂ (hbefore ▸ hws).flip
    refine Option.isSome_iff_exists.mp (List.find?_isSome.mpr ⟨v, by simp [hwsplit], ?_⟩)
    exact hcounts t ht rfl v hv
  obtain ⟨hcount, as, bs, hwsplit, hnot⟩ := List.find?_eq_some_iff_append.mp hfind
  obtain ⟨pre, f, post, hbefore, has, hfirst⟩ := exists_of_forall₂ (hwsplit ▸ hws)
  have hf : f ∈ before := by simp [hbefore]
  obtain ⟨hfk, hfgroup⟩ := (h.counted_iff hreports hsplit hkind hw hf hfirst).mp hcount
  have hflink : f.meta_.hardlinkTo = none := by
    cases hlink : f.meta_.hardlinkTo with
    | none => rfl
    | some path =>
      have hpre : entries = pre ++ f :: (post ++ e :: after) := by simp [hsplit, hbefore]
      obtain ⟨s, hs, rfl, -, -⟩ := h.exists_original hpre hlink
      have hpath : s.path = t.path := by
        rw [groupPath, hlink] at hfgroup
        exact hfgroup.trans hgroup
      have hsbefore : s ∈ originals before := by
        rw [hbefore, originals_append]
        exact List.mem_append_left _ hs
      obtain ⟨pre', post', hpre'⟩ := List.append_of_mem (List.mem_filter.mp hs).1
      obtain ⟨as', v, bs', has', -, hv⟩ := exists_of_forall₂ (hpre' ▸ has).flip
      have hbad := hnot v (by simp [has'])
      rw [hcounts s hsbefore hpath v hv] at hbad
      exact absurd hbad (by decide)
  refine ⟨first, hfind, ?_⟩
  rw [groupPath, hfirst.hardlinkTo hfk]
  rw [groupPath, hflink] at hfgroup
  exact hfirst.path.trans (hfgroup.trans hgroup)

/-- What the pass makes of an entry has the reference of the entry it was built from. -/
lemma outline_linked (h : Rebuilt blake3 entries fs tree) (hreports : Reports tree stat)
    (hsplit : entries = before ++ e :: after) (hws : List.Forall₂ Recaptures before ws)
    (hw : Recaptures e w) : outline (Hardlink.linked stat ws w) = outline e := by
  by_cases hkind : e.kind = .file
  · cases hlink : e.meta_.hardlinkTo with
    | none =>
      have hsame : Hardlink.linked stat ws w = w := by
        rw [Hardlink.linked, h.find_original hreports hsplit hkind hw hws hlink]
        split_ifs <;> rfl
      rw [hsame]
      exact hw.outline_eq fun _ => hlink
    | some original =>
      have hgroup : groupPath e = original := by
        rw [groupPath, hlink]
        rfl
      obtain ⟨t, ht, rfl, -, -⟩ := h.exists_original hsplit hlink
      obtain ⟨hmem, htk, htgroup⟩ := groupPath_of_original ht
      obtain ⟨first, hfind, hfirst⟩ := h.find_link hreports hsplit hkind hw hws ht hgroup
      have hnlink : ¬(stat w.path).nlink < 2 := by
        rw [hw.path]
        exact h.two_le_nlink hreports (by simp [hsplit]) (by simp [hsplit, hmem]) hkind htk
          (hgroup.trans htgroup.symm) (h.path_notMem hsplit hmem).symm
      rw [Hardlink.linked, if_pos ⟨hw.kind.trans hkind, hnlink⟩, hfind]
      simp only [outline, Hardlink.setLink, hw.path, hw.kind, hw.data, hkind, hfirst, hlink,
        if_true]
  · have hother : Hardlink.linked stat ws w = w := by
      rw [Hardlink.linked, if_neg]
      exact fun hand => hkind (hw.kind ▸ hand.1)
    rw [hother]
    exact hw.outline_eq fun hfile => absurd hfile hkind

/-- The pass over the whole list. -/
lemma map_outline (h : Rebuilt blake3 entries fs tree) (hreports : Reports tree stat)
    (hsplit : entries = before ++ after) (hws : List.Forall₂ Recaptures before ws)
    (hrest : List.Forall₂ Recaptures after rest) :
    (mapBefore (Hardlink.linked stat) ws rest).map outline = after.map outline := by
  induction hrest generalizing before ws with
  | nil => rfl
  | @cons e w after rest hw _ ih =>
    rw [mapBefore, List.map_cons, List.map_cons, h.outline_linked hreports hsplit hws hw,
      ih (by simp [hsplit]) (List.rel_append hws (.cons hw .nil))]

lemma assignHardlinks_eq (h : Rebuilt blake3 entries fs tree) (hreports : Reports tree stat)
    (hrest : List.Forall₂ Recaptures entries rest) :
    ∃ result, assignHardlinks stat rest = .ok result ∧
      result.map outline = entries.map outline := by
  have hfile : ∀ w ∈ rest, w.kind = .file → (stat w.path).kind = .file := by
    intro w hw hkind
    obtain ⟨as, bs, rfl⟩ := List.append_of_mem hw
    obtain ⟨pre, e, post, hentries, -, hrecapture⟩ := exists_of_forall₂ hrest
    have he : e ∈ entries := by simp [hentries]
    have hek : e.kind = .file := hrecapture.kind.symm.trans hkind
    have hstat := hreports.kind _ (h.object_mem he)
    simp only [inodeAt_objectOf hek, Option.isSome_some, forall_const,
      (h.joined_resolve he).2] at hstat
    rwa [hrecapture.path]
  have hstart : Hardlink.Remembers stat [] [] := fun _ => rfl
  exact ⟨_, Hardlink.assignFrom_eq hstart hfile, h.map_outline hreports rfl .nil hrest⟩

end Rebuilt

end Pass

end Rebuilt

/-! ### Both ways -/

/-- Flattening: within the bounds of a snapshot, and where every absolute path fits, a tree becomes
a snapshot with each object once, whatever the order of enumeration. Rebuilding: the loop over an
accepted snapshot meets no missing directory or original and no name that is taken, and flattening
its tree, whatever the order of enumeration, gives the paths, kinds, bytes, targets and references
back. -/
theorem walk_rebuild_inverse :
    (∀ native root tree, Listable tree →
      (Fits native root tree → ∃ listed, walk native [] root tree = .ok listed ∧
        validateSnapshot (sortEntries listed) = .ok () ∧
        ListsOnce native tree (sortEntries listed)) ∧
      (¬Fits native root tree → walk native [] root tree = .error .nameTooLong)) ∧
    ∀ blake3 entries, validateSnapshot entries = .ok () →
      validateMetadataRelations blake3 entries = .ok () →
      ∃ fs, writeObjects blake3 entries FileSystem.empty = (.ok [], fs) ∧
        ∀ tree, Reordered fs.tree tree → ∀ native root,
          (Fits native root tree → ∃ listed, walk (fs.seen native) [] root tree = .ok listed ∧
            ∀ stat, Reports tree stat → ∃ result,
              assignHardlinks stat (sortEntries listed) = .ok result ∧
                result.map outline = entries.map outline) ∧
          (¬Fits native root tree →
            walk (fs.seen native) [] root tree = .error .nameTooLong) := by
  refine ⟨fun native root tree hlistable => walk_listable hlistable,
    fun blake3 entries hsnapshot hrelations => ?_⟩
  obtain ⟨fs, hrun, hbuilt⟩ := writeObjects_built hsnapshot hrelations
  refine ⟨fs, hrun, fun tree hreordered native root => ?_⟩
  have h : Rebuilt blake3 entries fs tree := ⟨accepted hsnapshot hrelations, hbuilt, hreordered⟩
  rcases @walk_cases (fs.seen native) root tree h.listable with
    ⟨hfits, hall, listed, hwalk⟩ | ⟨hfits, hwalk⟩
  · refine ⟨fun _ => ⟨listed, hwalk, fun stat hreports => ?_⟩, fun hnot => absurd hfits hnot⟩
    exact h.assignHardlinks_eq hreports (h.recaptures_sortEntries hwalk hall)
  · exact ⟨fun hyes => absurd hyes hfits, fun _ => hwalk⟩

/-! ### Names below the separator -/

def nameA : Name := ⟨utf8 "a", by decide, by decide⟩

def nameLink : Name := ⟨utf8 "l", by decide, by decide⟩

def nameMinus : Name := ⟨utf8 "a-b", by decide, by decide⟩

def nameX : Name := ⟨utf8 "x", by decide, by decide⟩

/-- A file with one name in a directory and one whose path comes between the two. -/
def sampleTree : Forest Name Leaf :=
  .node nameA (.leaf nameX (.file 0) .nil)
    (.leaf nameLink (.symlink (utf8 "a/x")) (.leaf nameMinus (.file 0) .nil))

def sampleNative : Native :=
  ⟨false, Stage.pathMax, fun _ => 0o644, fun _ _ => Metadata.default, fun _ => ⟨utf8 "data", none⟩⟩

def sampleEntries : List Entry :=
  [⟨utf8 "a", .directory, 0o755, [], Metadata.default⟩,
    ⟨utf8 "a-b", .file, 0o644, utf8 "data", Metadata.default⟩,
    ⟨utf8 "a/x", .file, 0o644, utf8 "data",
      { Metadata.default with hardlinkTo := some (utf8 "a-b") }⟩,
    ⟨utf8 "l", .symlink, 0o777, utf8 "a/x", Metadata.default⟩]

/-- What the loop leaves. -/
def sampleSystem : FileSystem :=
  ⟨.leaf nameLink (.symlink (utf8 "a/x")) (.leaf nameMinus (.file 0)
    (.node nameA (.leaf nameX (.file 0) .nil) .nil)), [⟨utf8 "data", none⟩]⟩

def sampleStat (path : List UInt8) : Stat :=
  if path = utf8 "a/x" ∨ path = utf8 "a-b" then ⟨.file, 2, 1, 7⟩ else ⟨.directory, 1, 1, 8⟩

lemma writeObjects_sample :
    writeObjects (File.tabulated []) sampleEntries FileSystem.empty = (.ok [], sampleSystem) := by
  rfl

lemma distinct_sample : sampleTree.Distinct := by
  refine ⟨by decide, ⟨by decide, trivial⟩, by decide, by decide, trivial⟩

lemma listable_sample : Listable sampleTree := by
  refine ⟨by decide, distinct_sample, by decide +kernel, fun names target ho => ?_,
    fun names ho => ?_⟩
  · have hlink : (names, some (Leaf.symlink target))
        = ([nameLink], some (.symlink (utf8 "a/x"))) := by
      simpa [sampleTree, Forest.objects] using ho
    obtain ⟨rfl, hobject⟩ := Prod.mk.inj hlink
    obtain rfl := Leaf.symlink.inj (Option.some.inj hobject)
    decide +kernel
  · simp [sampleTree, Forest.objects] at ho

/-- Another order of enumeration than that of the tree the loop leaves. -/
lemma reordered_sample : Reordered sampleSystem.tree sampleTree := by
  have hsystem : sampleSystem.tree.Distinct :=
    ⟨by decide, by decide, by decide, ⟨by decide, trivial⟩, trivial⟩
  exact ⟨distinct_sample, Forest.get_eq_of_perm distinct_sample hsystem (by decide)⟩

lemma reports_sample : Reports sampleTree sampleStat where
  kind := by decide +kernel
  identity := by decide +kernel
  nlink := by decide +kernel

theorem walk_rebuild_inverse_sample :
    (∃ listed, walk sampleNative [] (utf8 "/r") sampleTree = .ok listed ∧
      validateSnapshot (sortEntries listed) = .ok () ∧
      ListsOnce sampleNative sampleTree (sortEntries listed)) ∧
    ∃ fs, writeObjects (File.tabulated []) sampleEntries FileSystem.empty = (.ok [], fs) ∧
      ∃ listed, walk (fs.seen sampleNative) [] (utf8 "/r") sampleTree = .ok listed ∧
        ∃ result, assignHardlinks sampleStat (sortEntries listed) = .ok result ∧
          result.map outline = sampleEntries.map outline := by
  have hfits : Fits sampleNative (utf8 "/r") sampleTree := by
    unfold Fits
    decide +kernel
  obtain ⟨hflatten, hrebuild⟩ := walk_rebuild_inverse
  obtain ⟨fs, hrun, hall⟩ := hrebuild (File.tabulated []) sampleEntries (by decide +kernel)
    (by decide +kernel)
  obtain rfl : sampleSystem = fs := (Prod.mk.inj (writeObjects_sample.symm.trans hrun)).2
  obtain ⟨listed, hwalk, hback⟩ :=
    (hall sampleTree reordered_sample sampleNative (utf8 "/r")).1 hfits
  exact ⟨(hflatten sampleNative (utf8 "/r") sampleTree listable_sample).1 hfits, _, hrun, listed,
    hwalk, hback sampleStat reports_sample⟩

/-! ### A path that is too long -/

def nameArchive : Name := ⟨utf8 "archive", by decide, by decide⟩

/-- One file in the root. -/
def archiveTree : Forest Name Leaf := .leaf nameArchive (.file 0) .nil

/-- Four directories with long names, 1020 bytes. -/
def longRoot : List UInt8 := (List.replicate 4 (0x2f :: List.replicate 254 0x61)).flatten

/-- The path of the file is valid, and the walk stops at it. -/
theorem walk_long : Listable archiveTree ∧
    walk sampleNative [] longRoot archiveTree = .error .nameTooLong := by
  refine ⟨⟨by decide, ⟨by decide, trivial⟩, by decide +kernel, fun names target ho => ?_,
    fun names ho => ?_⟩, by decide +kernel⟩
  · simp [archiveTree, Forest.objects] at ho
  · simp [archiveTree, Forest.objects] at ho

end Walk

end Difz
