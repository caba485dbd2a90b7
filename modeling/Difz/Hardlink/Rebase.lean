import Difz.Hardlink.Assign

/-!
# Hardlinks of a selection

`rebaseHardlinks` of `src/directory_fs.zig`: after some entries of a snapshot were filtered out, a
group may have lost the file its members refer to. One pass with a map from group to path makes
the first file left in each group the one that the others refer to.

The groups of the full snapshot are all the pass needs to know: `rebased` says what becomes of an
entry in terms of the first selected file of its group.
-/

namespace Difz

open Wire

section MapBefore

variable {α β : Type} {f : List α → α → β} {before xs : List α}

/-- Where the items before do not matter. -/
lemma mapBefore_eq_map {g : α → β}
    (h : ∀ pre x post, xs = pre ++ x :: post → f (before ++ pre) x = g x) :
    mapBefore f before xs = xs.map g := by
  induction xs generalizing before with
  | nil => rfl
  | cons a xs ih =>
    have ha : f before a = g a := by simpa using h [] a xs rfl
    rw [mapBefore, List.map_cons, ha, ih]
    intro pre x post hxs
    simpa using h (a :: pre) x post (by simp [hxs])

end MapBefore

namespace Hardlink

open Zig (Entry Links Related validateSnapshot validateMetadataRelations)
open Directory (Kind entryAt pathOf)

/-! ### The pass -/

/-- An entry with another reference, or none. -/
def relink (e : Entry) (link : Option (List UInt8)) : Entry :=
  { e with meta_ := { e.meta_ with hardlinkTo := link } }

/-- The body of the loop: the map from groups to paths, and the entry. -/
def rebaseEntry (canonical : List (List UInt8 × List UInt8)) (e : Entry) :
    List (List UInt8 × List UInt8) × Entry :=
  if e.kind ≠ .file then (canonical, e)
  else
    let group := e.meta_.hardlinkTo.getD e.path
    match canonical.lookup group with
    | some path => (canonical, relink e (some path))
    | none => ((group, e.path) :: canonical, relink e none)

def rebaseFrom : List (List UInt8 × List UInt8) → List Entry → List Entry
  | _, [] => []
  | canonical, e :: es =>
    let (canonical, e) := rebaseEntry canonical e
    e :: rebaseFrom canonical es

def rebaseHardlinks (entries : List Entry) : List Entry := rebaseFrom [] entries

/-! ### The pass, entry by entry -/

/-- A file of the group named by `group`. -/
def Member (group : List UInt8) (f : Entry) : Bool := f.kind == .file && groupPath f == group

lemma member_iff {group : List UInt8} {f : Entry} :
    Member group f = true ↔ f.kind = .file ∧ groupPath f = group := by
  simp [Member]

/-- What the pass makes of an entry behind the entries `before`. -/
def redirected (before : List Entry) (e : Entry) : Entry :=
  if e.kind = .file then relink e ((before.find? (Member (groupPath e))).map Entry.path) else e

lemma rebaseEntry_eq {before : List Entry} {canonical : List (List UInt8 × List UInt8)}
    (h : Recalls Member Entry.path before canonical) (e : Entry) :
    ∃ canonical', rebaseEntry canonical e = (canonical', redirected before e) ∧
      Recalls Member Entry.path (before ++ [e]) canonical' := by
  by_cases hkind : e.kind = .file
  · have hmember : ∀ group, Member group e = true ↔ groupPath e = group := by
      intro group
      simp [Member, hkind]
    have hlookup := h (groupPath e)
    cases hfind : before.find? (Member (groupPath e)) with
    | some f =>
      rw [hfind, Option.map_some] at hlookup
      refine ⟨canonical, ?_, h.skip fun group hg => ?_⟩
      · rw [groupPath] at hlookup
        simp [rebaseEntry, redirected, hkind, hfind, hlookup]
      · rw [← (hmember group).mp hg, hfind]
        rfl
    | none =>
      rw [hfind, Option.map_none] at hlookup
      refine ⟨(groupPath e, e.path) :: canonical, ?_, h.insert hmember hfind⟩
      have hredirected : redirected before e = relink e none := by
        simp [redirected, hkind, hfind]
      rw [groupPath] at hlookup
      simp [rebaseEntry, hkind, hlookup, hredirected, groupPath]
  · refine ⟨canonical, by simp [rebaseEntry, redirected, hkind], h.skip fun group hg => ?_⟩
    simp [Member, hkind] at hg

lemma rebaseFrom_eq {before es : List Entry} {canonical : List (List UInt8 × List UInt8)}
    (h : Recalls Member Entry.path before canonical) :
    rebaseFrom canonical es = mapBefore redirected before es := by
  induction es generalizing before canonical with
  | nil => rfl
  | cons e es ih =>
    obtain ⟨canonical', hstep, h'⟩ := rebaseEntry_eq h e
    rw [rebaseFrom, hstep, mapBefore]
    exact congrArg _ (ih h')

/-! ### Groups -/

/-- One file refers to another. -/
def Refers (entries : List Entry) (e f : Entry) : Prop :=
  e ∈ entries ∧ f ∈ entries ∧ e.meta_.hardlinkTo = some f.path

/-- The files connected by references. -/
def SameGroup (entries : List Entry) : Entry → Entry → Prop := Relation.EqvGen (Refers entries)

/-- The path of the first file of `selected` in the group of `e`. -/
def representative (selected : List Entry) (e : Entry) : List UInt8 :=
  ((selected.find? (Member (groupPath e))).map Entry.path).getD e.path

/-- An entry of the selection after the pass. -/
def rebased (selected : List Entry) (e : Entry) : Entry :=
  if e.kind = .file then
    relink e (if representative selected e = e.path then none else some (representative selected e))
  else e

lemma rebased_path (selected : List Entry) (e : Entry) : (rebased selected e).path = e.path := by
  rw [rebased]
  split_ifs <;> rfl

lemma rebased_of_file {selected : List Entry} {e : Entry} (hkind : e.kind = .file) :
    rebased selected e = relink e
      (if representative selected e = e.path then none else some (representative selected e)) :=
  if_pos hkind

section Selection

variable {blake3 : List UInt8 → Digest} {entries selected : List Entry}

/-- Every group with a selected file has a first one, which stands for it. -/
lemma exists_representative (hs : Search.Sorted pathOf selected) {e : Entry} (he : e ∈ selected)
    (hkind : e.kind = .file) : ∃ first ∈ selected, first.kind = .file ∧
      groupPath first = groupPath e ∧ representative selected e = first.path ∧
      ∀ f ∈ selected, f.kind = .file → groupPath f = groupPath e →
        f = first ∨ compare first.path f.path = .lt := by
  have hsome : (selected.find? (Member (groupPath e))).isSome :=
    List.find?_isSome.mpr ⟨e, he, member_iff.mpr ⟨hkind, rfl⟩⟩
  obtain ⟨first, hfirst⟩ := Option.isSome_iff_exists.mp hsome
  obtain ⟨hmember, pre, post, hsplit, hpre⟩ := List.find?_eq_some_iff_append.mp hfirst
  obtain ⟨hfk, hfg⟩ := member_iff.mp hmember
  refine ⟨first, by simp [hsplit], hfk, hfg, by rw [representative, hfirst]; rfl, ?_⟩
  intro f hf hk hg
  rw [hsplit] at hf hs
  rcases List.mem_append.mp hf with hf | hf
  · have := hpre f hf
    rw [member_iff.mpr ⟨hk, hg⟩] at this
    exact absurd this (by decide)
  · rcases List.mem_cons.mp hf with rfl | hf
    · exact .inl rfl
    · exact .inr ((List.pairwise_cons.mp (List.pairwise_append.mp hs).2.1).1 f hf)

/-- The pass, with the first file of each group in place of the map. -/
lemma rebaseHardlinks_eq (hs : Search.Sorted pathOf selected) :
    rebaseHardlinks selected = selected.map (rebased selected) := by
  have hnil : Recalls Member Entry.path [] [] := fun _ => rfl
  rw [rebaseHardlinks, rebaseFrom_eq hnil]
  refine mapBefore_eq_map fun pre e post hsplit => ?_
  rw [List.nil_append, redirected, rebased, representative]
  by_cases hkind : e.kind = .file
  · rw [if_pos hkind, if_pos hkind]
    cases hfind : pre.find? (Member (groupPath e)) with
    | some f =>
      have hlt := ((hs.mem_before_iff hsplit).mp (List.mem_of_find?_eq_some hfind)).2
      have hne : f.path ≠ e.path := by
        intro heq
        rw [Zig.pathOf_entry, Zig.pathOf_entry, heq, Std.compare_self] at hlt
        exact absurd hlt (by decide)
      simp [hsplit, hfind, hne]
    | none => simp [hsplit, hfind, member_iff.mpr ⟨hkind, rfl⟩]
  · rw [if_neg hkind, if_neg hkind]

/-- The file a group is named after agrees with all its members and precedes the others. -/
lemma exists_original (hs : Search.Sorted pathOf entries) (hr : Related blake3 entries) {e : Entry}
    (he : e ∈ entries) (hkind : e.kind = .file) : ∃ r ∈ entries, r.path = groupPath e ∧
      Links blake3 e r ∧ (r = e ∨ compare r.path e.path = .lt) := by
  cases hlink : e.meta_.hardlinkTo with
  | none =>
    refine ⟨e, he, by rw [groupPath, hlink]; rfl, ⟨hkind, hkind, hlink, rfl, rfl, ?_⟩, .inl rfl⟩
    rw [← hlink]
  | some path =>
    obtain ⟨before, after, hsplit⟩ := List.append_of_mem he
    obtain ⟨r, hat, hlinks⟩ := hr.hardlinks before e after hsplit path hlink
    obtain ⟨hmem, hpath⟩ := Directory.mem_of_entryAt hat
    obtain ⟨hrmem, hlt⟩ := (hs.mem_before_iff hsplit).mp hmem
    exact ⟨r, hrmem, by rw [groupPath, hlink]; exact hpath, hlinks, .inr hlt⟩

lemma groupPath_of_none {r : Entry} (h : r.meta_.hardlinkTo = none) : groupPath r = r.path := by
  rw [groupPath, h]
  rfl

/-- Two files are connected by references when these name the same file. -/
lemma sameGroup_iff (hs : Search.Sorted pathOf entries) (hr : Related blake3 entries) {e f : Entry}
    (he : e ∈ entries) (hf : f ∈ entries) (hek : e.kind = .file) (hfk : f.kind = .file) :
    SameGroup entries e f ↔ groupPath e = groupPath f := by
  constructor
  · intro h
    clear he hf hek hfk
    induction h with
    | rel x y hxy =>
      obtain ⟨hx, hy, hlink⟩ := hxy
      obtain ⟨before, after, hsplit⟩ := List.append_of_mem hx
      obtain ⟨r, hat, hlinks⟩ := hr.hardlinks before x after hsplit y.path hlink
      obtain ⟨hmem, hpath⟩ := Directory.mem_of_entryAt hat
      obtain rfl := hs.eq_of_key ((hs.mem_before_iff hsplit).mp hmem).1 hy hpath
      rw [groupPath_of_none hlinks.targetLink, groupPath, hlink]
      rfl
    | refl x => rfl
    | symm x y _ ih => exact ih.symm
    | trans x y z _ _ ih₁ ih₂ => exact ih₁.trans ih₂
  · intro h
    have hjoined : ∀ x ∈ entries, x.kind = .file → ∃ r ∈ entries, r.path = groupPath x ∧
        SameGroup entries x r := by
      intro x hx hk
      obtain ⟨r, hmem, hpath, hlinks, -⟩ := exists_original hs hr hx hk
      refine ⟨r, hmem, hpath, ?_⟩
      cases hlink : x.meta_.hardlinkTo with
      | none =>
        rw [groupPath_of_none hlink] at hpath
        obtain rfl := hs.eq_of_key hmem hx hpath
        exact .refl _
      | some path =>
        rw [groupPath, hlink] at hpath
        exact .rel _ _ ⟨hx, hmem, by rw [hlink, hpath]; rfl⟩
    obtain ⟨r, hr₁, hrp, her⟩ := hjoined e he hek
    obtain ⟨t, ht, htp, hft⟩ := hjoined f hf hfk
    obtain rfl := hs.eq_of_key hr₁ ht (hrp.trans (h.trans htp.symm))
    exact her.trans _ _ _ (hft.symm _ _)

/-- The members of a group are equal but for their references. -/
lemma links_of_groupPath_eq (hs : Search.Sorted pathOf entries) (hr : Related blake3 entries)
    {e f : Entry} (he : e ∈ entries) (hf : f ∈ entries) (hek : e.kind = .file)
    (hfk : f.kind = .file) (h : groupPath f = groupPath e) (link : Option (List UInt8)) :
    Links blake3 (relink e link) (relink f none) := by
  obtain ⟨r, hrmem, hrp, hre, -⟩ := exists_original hs hr he hek
  obtain ⟨t, htmem, htp, htf, -⟩ := exists_original hs hr hf hfk
  obtain rfl := hs.eq_of_key hrmem htmem (hrp.trans (h.symm.trans htp.symm))
  exact ⟨hek, hfk, rfl, htf.mode.symm.trans hre.mode, htf.data.symm.trans hre.data,
    hre.hash.trans htf.hash.symm⟩

/-- The pass changes references only. -/
lemma relink_rebased (selected : List Entry) (e : Entry) :
    relink (rebased selected e) e.meta_.hardlinkTo = e := by
  rw [rebased]
  split_ifs <;> rfl

lemma holes_rebased (selected : List Entry) (e : Entry) :
    (rebased selected e).meta_.holes = e.meta_.holes := by
  rw [rebased]
  split_ifs <;> rfl

lemma checkHole_rebased (selected : List Entry) (e : Entry) (hole : Metadata.Hole) :
    Zig.checkHole (rebased selected e) hole = Zig.checkHole e hole := by
  rw [rebased]
  split_ifs <;> rfl

/-- Members of one group have one representative. -/
lemma representative_congr {e f : Entry} (he : e ∈ selected) (hkind : e.kind = .file)
    (h : groupPath f = groupPath e) :
    representative selected f = representative selected e := by
  have hsome : (selected.find? (Member (groupPath e))).isSome :=
    List.find?_isSome.mpr ⟨e, he, member_iff.mpr ⟨hkind, rfl⟩⟩
  obtain ⟨g, hg⟩ := Option.isSome_iff_exists.mp hsome
  rw [representative, representative, h, hg]
  rfl

/-- What the pass leaves in an entry of kind file. -/
lemma hardlinkTo_rebased {e : Entry} (hkind : e.kind = .file) :
    (rebased selected e).meta_.hardlinkTo =
      if representative selected e = e.path then none else some (representative selected e) := by
  rw [rebased_of_file hkind]
  rfl

lemma groupPath_rebased {e : Entry} (hkind : e.kind = .file) :
    groupPath (rebased selected e) = representative selected e := by
  rw [groupPath, hardlinkTo_rebased hkind, rebased_path]
  split_ifs with h
  · exact h.symm
  · rfl

lemma kind_rebased (e : Entry) : (rebased selected e).kind = e.kind := by
  rw [rebased]
  split_ifs <;> rfl

lemma sorted_map_rebased (hs : Search.Sorted pathOf selected) :
    Search.Sorted pathOf (selected.map (rebased selected)) := by
  refine List.pairwise_map.mpr (hs.imp fun hlt => ?_)
  rwa [Zig.pathOf_entry, Zig.pathOf_entry, rebased_path, rebased_path]

/-- The relations of the selection after the pass. -/
lemma related_rebased (hs : Search.Sorted pathOf entries) (hr : Related blake3 entries)
    (hsub : selected.Sublist entries) : Related blake3 (selected.map (rebased selected)) := by
  have hsel : Search.Sorted pathOf selected := hs.sublist hsub
  constructor
  · intro e' he' hole hhole
    obtain ⟨e, he, rfl⟩ := List.mem_map.mp he'
    rw [holes_rebased] at hhole
    rw [checkHole_rebased]
    exact hr.holes e (hsub.mem he) hole hhole
  · intro before' e' after' hsplit' path hpath
    obtain ⟨before, rest, hsplit, rfl, hrest⟩ := List.map_eq_append_iff.mp hsplit'
    obtain ⟨e, after, rfl, rfl, rfl⟩ := List.map_eq_cons_iff.mp hrest
    have he : e ∈ selected := by simp [hsplit]
    -- only a file can have been given a reference
    have hkind : e.kind = .file := by
      by_contra hkind
      rw [rebased, if_neg hkind] at hpath
      obtain ⟨pre, post, hfull⟩ := List.append_of_mem (hsub.mem he)
      obtain ⟨target, -, hlinks⟩ := hr.hardlinks pre e post hfull path hpath
      exact hkind hlinks.kind
    rw [hardlinkTo_rebased hkind] at hpath
    split_ifs at hpath with hne
    obtain ⟨first, hfirst, hfk, hfg, hrep, hleast⟩ := exists_representative hsel he hkind
    rw [hrep] at hpath hne
    have hlt : compare first.path e.path = .lt := by
      rcases hleast e he hkind rfl with rfl | hlt
      · exact absurd rfl hne
      · exact hlt
    have hbefore : first ∈ before := (hsel.mem_before_iff hsplit).mpr ⟨hfirst, hlt⟩
    have hsorted : Search.Sorted pathOf before := by
      rw [hsplit] at hsel
      exact (List.pairwise_append.mp hsel).1
    have hself : rebased selected first = relink first none := by
      rw [rebased_of_file hfk, representative_congr he hkind hfg, hrep, if_pos rfl]
    refine ⟨rebased selected first, ?_, ?_⟩
    · rw [Directory.entryAt_map _ (rebased_path selected),
        (Directory.entryAt_eq_some_iff hsorted).mpr ⟨hbefore, Option.some.inj hpath⟩]
      rfl
    · rw [hself, rebased_of_file hkind]
      exact links_of_groupPath_eq hs hr (hsub.mem he) (hsub.mem hfirst) hkind hfk hfg _

/-- In a whole snapshot every group is named after its first file already. -/
lemma rebased_of_whole (hs : Search.Sorted pathOf entries) (hr : Related blake3 entries) {e : Entry}
    (he : e ∈ entries) : rebased entries e = e := by
  by_cases hkind : e.kind = .file
  · obtain ⟨r, hrmem, hrp, hlinks, hre⟩ := exists_original hs hr he hkind
    obtain ⟨first, hfirst, hfk, hfg, hrep, hleast⟩ := exists_representative hs he hkind
    have hrg : groupPath r = groupPath e := (groupPath_of_none hlinks.targetLink).trans hrp
    -- the first member would have to come before the file it refers to
    obtain rfl : r = first := by
      obtain ⟨t, htmem, htp, -, htf⟩ := exists_original hs hr hfirst hfk
      obtain rfl := hs.eq_of_key htmem hrmem (htp.trans (hfg.trans hrp.symm))
      rcases htf with rfl | hlt
      · rfl
      · rcases hleast t hrmem hlinks.targetKind hrg with rfl | hgt
        · rfl
        · have := Std.TransCmp.lt_trans hlt hgt
          rw [Std.compare_self] at this
          exact absurd this (by decide)
    have hlink : (if r.path = e.path then none else some r.path) = e.meta_.hardlinkTo := by
      cases hown : e.meta_.hardlinkTo with
      | none =>
        rw [if_pos (hrp.trans (groupPath_of_none hown))]
      | some path =>
        have hne : r.path ≠ e.path := by
          intro heq
          obtain rfl := hs.eq_of_key hrmem he heq
          rw [hlinks.targetLink] at hown
          exact absurd hown (by simp)
        rw [if_neg hne, hrp, groupPath, hown]
        rfl
    rw [rebased_of_file hkind, hrep, hlink]
    rfl
  · exact if_neg hkind

/-- Two selected files refer to one file exactly when their groups were the same. -/
lemma representative_eq_iff (hs : Search.Sorted pathOf selected) {e f : Entry} (he : e ∈ selected)
    (hf : f ∈ selected) (hek : e.kind = .file) (hfk : f.kind = .file) :
    representative selected e = representative selected f ↔ groupPath e = groupPath f := by
  constructor
  · intro h
    obtain ⟨first, hfirst, -, hfg, hrep, -⟩ := exists_representative hs he hek
    obtain ⟨first', hfirst', -, hfg', hrep', -⟩ := exists_representative hs hf hfk
    obtain rfl := hs.eq_of_key hfirst hfirst' (hrep.symm.trans (h.trans hrep'))
    exact hfg.symm.trans hfg'
  · intro h
    exact representative_congr hf hfk h

end Selection

/-! ### The pass on a selection -/

/-- On the entries selected from a snapshot the pass yields valid relations, keeps the groups, makes
the first selected file of each the one that the others refer to, and touches nothing else. -/
theorem rebaseHardlinks_spec (blake3 : List UInt8 → Digest) (entries selected : List Entry)
    (hsnapshot : validateSnapshot entries = .ok ())
    (hrelations : validateMetadataRelations blake3 entries = .ok ())
    (hsub : selected.Sublist entries) :
    ∃ rebase : Entry → Entry, rebaseHardlinks selected = selected.map rebase ∧
      validateMetadataRelations blake3 (rebaseHardlinks selected) = .ok () ∧
      (∀ e ∈ selected, ∀ f ∈ selected, e.kind = .file → f.kind = .file →
        (SameGroup (rebaseHardlinks selected) (rebase e) (rebase f) ↔ SameGroup entries e f)) ∧
      (∀ e ∈ selected, e.kind = .file → ∃ first ∈ selected, first.kind = .file ∧
        SameGroup entries first e ∧ (rebase first).meta_.hardlinkTo = none ∧
        ∀ f ∈ selected, f.kind = .file → SameGroup entries f e → f ≠ first →
          compare first.path f.path = .lt ∧ (rebase f).meta_.hardlinkTo = some first.path) ∧
      (∀ e ∈ selected, relink (rebase e) e.meta_.hardlinkTo = e) ∧
      (∀ e ∈ selected, e.kind ≠ .file → rebase e = e) ∧
      (selected = entries → rebaseHardlinks selected = entries) := by
  have hs : Search.Sorted pathOf entries := by
    apply Directory.sorted_of_validate
    rw [← Zig.validateSnapshot_eq]
    exact hsnapshot
  have hr := Zig.validateMetadataRelations_eq_ok.mp hrelations
  have hsel : Search.Sorted pathOf selected := hs.sublist hsub
  have hrun := rebaseHardlinks_eq hsel
  have hrel := related_rebased hs hr hsub
  have hgroup : ∀ e ∈ selected, ∀ f ∈ selected, e.kind = .file → f.kind = .file →
      (SameGroup entries e f ↔ groupPath e = groupPath f) := fun e he f hf hek hfk =>
    sameGroup_iff hs hr (hsub.mem he) (hsub.mem hf) hek hfk
  refine ⟨rebased selected, hrun, ?_, ?_, ?_, fun e _ => relink_rebased selected e,
    fun e _ hkind => if_neg hkind, ?_⟩
  · rw [hrun]
    exact Zig.validateMetadataRelations_eq_ok.mpr hrel
  · intro e he f hf hek hfk
    rw [hrun, hgroup e he f hf hek hfk, sameGroup_iff (sorted_map_rebased hsel) hrel
      (List.mem_map_of_mem he) (List.mem_map_of_mem hf) ((kind_rebased e).trans hek)
      ((kind_rebased f).trans hfk), groupPath_rebased hek, groupPath_rebased hfk]
    exact representative_eq_iff hsel he hf hek hfk
  · intro e he hek
    obtain ⟨first, hfirst, hfk, hfg, hrep, hleast⟩ := exists_representative hsel he hek
    refine ⟨first, hfirst, hfk, (hgroup first hfirst e he hfk hek).mpr hfg, ?_, ?_⟩
    · rw [hardlinkTo_rebased hfk, representative_congr he hek hfg, hrep, if_pos rfl]
    · intro f hf hk hsame hne
      have hg := (hgroup f hf e he hk hek).mp hsame
      have hlt := (hleast f hf hk hg).resolve_left hne
      have hpath : first.path ≠ f.path := fun heq => hne (hsel.eq_of_key hf hfirst heq.symm)
      refine ⟨hlt, ?_⟩
      rw [hardlinkTo_rebased hk, representative_congr he hek hg, hrep, if_neg hpath]
  · rintro rfl
    rw [hrun]
    nth_rewrite 3 [← List.map_id selected]
    exact List.map_congr_left fun e he => rebased_of_whole hs hr he

/-- Two of three files, without the one the third refers to. -/
theorem rebaseHardlinks_spec_promoted :
    rebaseHardlinks [emptyFile (utf8 "a") none, emptyFile (utf8 "b") (some (utf8 "0"))]
        = [emptyFile (utf8 "a") none, emptyFile (utf8 "b") none] ∧
      ∀ blake3, validateMetadataRelations blake3 (rebaseHardlinks
        [emptyFile (utf8 "a") none, emptyFile (utf8 "b") (some (utf8 "0"))]) = .ok () := by
  refine ⟨by decide +kernel, fun blake3 => ?_⟩
  have hcaptured := captured_trio blake3 (Or.inl (Eq.refl (utf8 "0")))
  obtain ⟨rebase, -, hok, -⟩ := rebaseHardlinks_spec blake3 (trio (utf8 "0"))
    [emptyFile (utf8 "a") none, emptyFile (utf8 "b") (some (utf8 "0"))]
    hcaptured.snapshot hcaptured.relations (List.sublist_cons_self _ _)
  exact hok

end Hardlink

end Difz
