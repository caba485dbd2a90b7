import Difz.Walk.Capture

/-!
# Hard links of a captured directory

In a tree where no reference was transported, the names of one file are told by its number alone. A
capture of such a tree fails only for rules that do not compile, and it puts two names that the rules
leave in one group exactly when they are names of one file, `snapshotDir_groups`.
-/

namespace Difz

open Wire

namespace Walk

open Zig (Entry OwnedSnapshot Pcre2 Related Rule validateSnapshot)
open Directory (pathOf)
open Hardlink (Captured Stat assignHardlinks groupPath identityOf rebased standsFor)

/-- A tree within the bounds of a snapshot, where nothing was transported: no entry has a reference,
every extent is one of zeros, and the names of one file have one mode and one record. -/
structure Ordinary (root : Dir) (omit_ : Zig.Omit) : Prop where
  listable : Listable root.tree
  fits : Fits (root.native omit_) root.realPath root.tree
  reports : Reports root.tree root.stat
  fresh : ∀ o ∈ root.tree.objects [], ∀ e,
    recorded (root.native omit_) root.realPath o.1 o.2 = .ok e →
      e.meta_.hardlinkTo = none ∧ ∀ hole ∈ e.meta_.holes, Zig.checkHole e hole = .ok ()
  shared : ∀ o ∈ root.tree.objects [], ∀ p ∈ root.tree.objects [], (inodeAt o.2).isSome →
    inodeAt o.2 = inodeAt p.2 → ∀ e f,
      recorded (root.native omit_) root.realPath o.1 o.2 = .ok e →
        recorded (root.native omit_) root.realPath p.1 p.2 = .ok f →
          f.mode = e.mode ∧ f.meta_ = e.meta_

/-- The rules are none, or they compile. -/
def Compiled (pcre2 : Pcre2) (rules : List Rule) : Prop :=
  rules = [] ∨ ∃ filter, Zig.Filter.compile pcre2 rules = .ok filter

section Ordinary

variable {blake3 : List UInt8 → Digest} {pcre2 : Pcre2} {root : Dir} {omit_ : Zig.Omit}
  {options : SnapshotOptions} {listed assigned chosen : List Entry} {e f : Entry}
  {o p : List Name × Option Leaf}

lemma inodeAt_of_recorded {native : Native} {path : List UInt8} {names : List Name}
    {object : Option Leaf} (h : recorded native path names object = .ok e) (hkind : e.kind = .file) :
    ∃ inode, inodeAt object = some inode ∧ e.data = (native.inode inode).data := by
  have hcontent := (describes_of_recorded h).content
  match object, hcontent with
  | some (.file inode), hcontent => exact ⟨inode, rfl, hcontent.2⟩
  | none, hcontent | some (.symlink _), hcontent =>
    rw [hkind] at hcontent
    exact absurd hcontent.1 (by decide)
  | some .special, hcontent => exact hcontent.elim

namespace Ordinary

/-- The identities of two recorded files are equal when their numbers are. -/
lemma identity_iff (h : Ordinary root omit_) (ho : o ∈ root.tree.objects [])
    (hp : p ∈ root.tree.objects [])
    (he : recorded (root.native omit_) root.realPath o.1 o.2 = .ok e)
    (hf : recorded (root.native omit_) root.realPath p.1 p.2 = .ok f)
    (hek : e.kind = .file) (hfk : f.kind = .file) :
    identityOf root.stat e = identityOf root.stat f ↔ inodeAt o.2 = inodeAt p.2 := by
  obtain ⟨i, hi, -⟩ := inodeAt_of_recorded he hek
  obtain ⟨j, hj, -⟩ := inodeAt_of_recorded hf hfk
  rw [identityOf, identityOf, (describes_of_recorded he).path, (describes_of_recorded hf).path]
  exact h.reports.identity o ho p hp (by simp [hi]) (by simp [hj])

/-- The sorted list of an ordinary tree, with the identities of its files. -/
lemma captured (h : Ordinary root omit_)
    (hwalk : walk (root.native omit_) [] root.realPath root.tree = .ok listed) :
    Captured blake3 root.stat (sortEntries listed) := by
  have hmem : ∀ e ∈ sortEntries listed, ∃ o ∈ root.tree.objects [],
      recorded (root.native omit_) root.realPath o.1 o.2 = .ok e := fun e he =>
    (mem_of_walk hwalk).mp ((sortEntries_perm listed).mem_iff.mp he)
  refine ⟨?_, ?_, fun e he hkind => ?_, fun e he f hf hkind hshares => ?_,
    fun e he f hf hkind hshares hne => ?_⟩
  · rw [Zig.validateSnapshot_eq, Directory.validate_iff_structured]
    exact structured_sortEntries h.listable (fun o ho => recorded_of_walk hwalk ho) hwalk
  · refine Zig.validateMetadataRelations_eq_ok.mpr ⟨fun e he => ?_, ?_⟩
    · obtain ⟨o, ho, hrecord⟩ := hmem e he
      exact (h.fresh o ho e hrecord).2
    · intro before e after hsplit path hlink
      obtain ⟨o, ho, hrecord⟩ := hmem e (by simp [hsplit])
      rw [(h.fresh o ho e hrecord).1] at hlink
      exact absurd hlink (by simp)
  · obtain ⟨o, ho, hrecord⟩ := hmem e he
    obtain ⟨i, hi, -⟩ := inodeAt_of_recorded hrecord hkind
    rw [(describes_of_recorded hrecord).path]
    exact h.reports.kind o ho (by simp [hi])
  · obtain ⟨o, ho, hrecord⟩ := hmem e he
    obtain ⟨p, hp, hrecord'⟩ := hmem f hf
    obtain ⟨i, hi, hdata⟩ := inodeAt_of_recorded hrecord hkind
    obtain ⟨j, hj, hdata'⟩ := inodeAt_of_recorded hrecord' hshares.1
    have hsame := (h.identity_iff ho hp hrecord hrecord' hkind hshares.1).mp hshares.2.symm
    obtain ⟨hmode, hmeta⟩ := h.shared o ho p hp (by simp [hi]) hsame e f hrecord hrecord'
    obtain rfl : i = j := Option.some.inj (hi.symm.trans (hsame.trans hj))
    exact ⟨hdata'.trans hdata.symm, hmode, hmeta⟩
  · obtain ⟨o, ho, hrecord⟩ := hmem e he
    obtain ⟨p, hp, hrecord'⟩ := hmem f hf
    obtain ⟨i, hi, -⟩ := inodeAt_of_recorded hrecord hkind
    have hsame := (h.identity_iff ho hp hrecord hrecord' hkind hshares.1).mp hshares.2.symm
    have hnames : o.1 ≠ p.1 := by
      intro hnames
      have hget := (Forest.mem_objects_nil_iff h.listable.distinct).mp ho
      have hget' := (Forest.mem_objects_nil_iff h.listable.distinct).mp hp
      have hobject : o.2 = p.2 :=
        Option.some.inj (hget.2.symm.trans ((congrArg root.tree.get hnames).trans hget'.2))
      rw [hnames, hobject] at hrecord
      exact hne (Except.ok.inj (hrecord'.symm.trans hrecord))
    have hnlink := h.reports.nlink o ho p hp (by simp [hi]) hsame hnames
    rw [(describes_of_recorded hrecord).path]
    exact UInt64.not_lt.mp hnlink

/-- Nothing was transported, so the pass derives every reference. -/
lemma namesFirst (h : Ordinary root omit_)
    (hwalk : walk (root.native omit_) [] root.realPath root.tree = .ok listed) :
    Hardlink.NamesFirst root.stat (sortEntries listed) := by
  intro e he t _ hlink
  obtain ⟨o, ho, hrecord⟩ := (mem_of_walk hwalk).mp ((sortEntries_perm listed).mem_iff.mp he)
  rw [(h.fresh o ho e hrecord).1] at hlink
  exact absurd hlink (by simp)

/-- Two files stand in one group exactly when they have one identity. -/
lemma standsFor_iff (h : Ordinary root omit_)
    (hwalk : walk (root.native omit_) [] root.realPath root.tree = .ok listed)
    (he : e ∈ sortEntries listed) (hf : f ∈ sortEntries listed) (hek : e.kind = .file)
    (hfk : f.kind = .file) :
    standsFor root.stat (sortEntries listed) e = standsFor root.stat (sortEntries listed) f ↔
      identityOf root.stat e = identityOf root.stat f := by
  have hcaptured : Captured (fun _ => ⟨List.replicate 32 0, rfl⟩) root.stat (sortEntries listed) :=
    h.captured hwalk
  rw [hcaptured.standsFor_eq_iff (h.namesFirst hwalk) he hf hek hfk]
  constructor
  · intro hconnected
    clear he hf hek hfk
    induction hconnected with
    | rel x y hxy =>
      obtain ⟨hx, -, -, -, hid | hlink⟩ := hxy
      · exact hid
      · obtain ⟨o, ho, hrecord⟩ :=
          (mem_of_walk hwalk).mp ((sortEntries_perm listed).mem_iff.mp hx)
        rw [(h.fresh o ho x hrecord).1] at hlink
        exact absurd hlink (by simp)
    | refl x => rfl
    | symm x y _ ih => exact ih.symm
    | trans x y z _ _ ih₁ ih₂ => exact ih₁.trans ih₂
  · exact fun hid => .rel _ _ ⟨he, hf, hek, hfk, .inl hid⟩

variable (blake3) in
/-- The steps up to the selection. -/
lemma exists_assigned (h : Ordinary root omit_)
    (hwalk : walk (root.native omit_) [] root.realPath root.tree = .ok listed) :
    ∃ assigned : List Entry, assignUnless omit_.hardlink root.stat (sortEntries listed)
        = .ok assigned ∧ Related blake3 assigned ∧
      if omit_.hardlink then assigned = sortEntries listed
      else assigned = mapBefore (Hardlink.assigned root.stat) [] (sortEntries listed) := by
  have hcaptured : Captured blake3 root.stat (sortEntries listed) := h.captured hwalk
  rw [assignUnless]
  split_ifs
  · exact ⟨_, rfl, hcaptured.related, rfl⟩
  · exact ⟨_, mapError_eq_ok.mpr hcaptured.assignHardlinks_eq,
      hcaptured.related_of_namesFirst (h.namesFirst hwalk), rfl⟩

end Ordinary

/-- Rules that compile select from every list with the structure of a snapshot. -/
lemma exists_chosen {rules : List Rule} (hcompiled : Compiled pcre2 rules)
    (hraw : Directory.Structured assigned) :
    ∃ chosen : List Entry, chooseEntries pcre2 rules assigned = .ok chosen ∧
      chosen.Sublist assigned ∧ Directory.Structured chosen := by
  by_cases hrules : rules = []
  · exact ⟨assigned, by rw [chooseEntries, if_pos (by simp [hrules])], List.Sublist.refl _, hraw⟩
  · obtain ⟨filter, hcompile⟩ := hcompiled.resolve_left hrules
    obtain ⟨chosen, hrun, hsub, hmem⟩ := Zig.selectEntries_eq hcompile hraw
    refine ⟨chosen, ?_, hsub, Zig.structured_of_sublist hraw hsub fun e he d hd habove =>
      (hmem d).mpr ⟨hd, ((hmem e).mp he).2.above habove⟩⟩
    rw [chooseEntries, if_neg (by simpa using hrules), hrun]
    rfl

namespace Ordinary

variable (blake3) in
lemma exists_stages (h : Ordinary root options.omit_) (hcompiled : Compiled pcre2 options.rules) :
    ∃ listed assigned chosen : List Entry,
      Stages blake3 pcre2 root options listed assigned chosen := by
  obtain ⟨-, -, listed, hwalk⟩ : Fits _ _ _ ∧ _ ∧ ∃ listed : List Entry,
      walk (root.native options.omit_) [] root.realPath root.tree = .ok listed :=
    (walk_cases h.listable).resolve_right fun hnot => hnot.1 h.fits
  have hcaptured : Captured blake3 root.stat (sortEntries listed) := h.captured hwalk
  obtain ⟨assigned, hassign, hrelated, hsame⟩ := h.exists_assigned blake3 hwalk
  have hstructured : Directory.Structured assigned := by
    refine Zig.structured_of_validateSnapshot ?_
    rw [validateSnapshot_of_unlinked (map_unlinked_assign hassign)]
    exact hcaptured.snapshot
  obtain ⟨chosen, hchoose, hsub, hchosen⟩ := exists_chosen hcompiled hstructured
  refine ⟨listed, assigned, chosen, hwalk, hcaptured.snapshot, hcaptured.related, hassign, hrelated,
    hchoose, ?_, ?_⟩
  · rw [Zig.validateSnapshot_eq, Directory.validate_iff_structured]
    exact hchosen
  · rw [rebaseUnless]
    split_ifs at hsame ⊢
    · -- without references a part of the list is as good as the list
      subst hsame
      refine ⟨fun e he => hrelated.holes e (hsub.mem he), fun before e after hsplit path hlink => ?_⟩
      have he : e ∈ sortEntries listed := hsub.mem (by simp [hsplit])
      obtain ⟨o, ho, hrecord⟩ := (mem_of_walk hwalk).mp ((sortEntries_perm listed).mem_iff.mp he)
      rw [(h.fresh o ho e hrecord).1] at hlink
      exact absurd hlink (by simp)
    · rw [Hardlink.rebaseHardlinks_eq hchosen.sorted]
      exact Hardlink.related_rebased hstructured.sorted hrelated hsub

end Ordinary

lemma compiled_of_choose {rules : List Rule} (h : chooseEntries pcre2 rules assigned = .ok chosen) :
    Compiled pcre2 rules := by
  by_cases hrules : rules = []
  · exact .inl hrules
  · rw [chooseEntries, if_neg (by simpa using hrules)] at h
    obtain ⟨filter, hcompile, -⟩ := Wire.bind_eq_ok.mp (mapError_eq_ok.mp h)
    exact .inr ⟨filter, hcompile⟩

/-- The entry of the walk behind an entry of the result, and its group. -/
lemma exists_recorded (h : Ordinary root options.omit_)
    (hstages : Stages blake3 pcre2 root options listed assigned chosen)
    (hlinks : options.omit_.hardlink = false) (he : e ∈ chosen) (hkind : e.kind = .file) :
    ∃ r ∈ sortEntries listed, r.path = e.path ∧ r.kind = .file ∧
      groupPath e = standsFor root.stat (sortEntries listed) r := by
  obtain ⟨assigned', hassign, -, hsame⟩ := h.exists_assigned blake3 hstages.walked
  obtain rfl := Except.ok.inj (hstages.assign.symm.trans hassign)
  rw [hlinks, if_neg (by simp)] at hsame
  have hassigned := (chooseEntries_spec hstages.structured_assigned hstages.choose).1.mem he
  rw [hsame] at hassigned
  obtain ⟨pre, r, post, hsplit, rfl⟩ := mem_mapBefore.mp hassigned
  have hrk : r.kind = .file := by
    rw [Hardlink.assigned] at hkind
    split_ifs at hkind with hr
    · exact hr
    · exact hkind
  refine ⟨r, by simp [hsplit], (Hardlink.Captured.assigned_path _ r).symm, hrk, ?_⟩
  rw [List.nil_append]
  exact Hardlink.Captured.groupPath_assigned hsplit hrk

/-- The reference of an entry of the result, on an ordinary tree. -/
lemma groupPath_iff (h : Ordinary root options.omit_)
    (hstages : Stages blake3 pcre2 root options listed assigned chosen)
    (hlinks : options.omit_.hardlink = false) (ho : o ∈ root.tree.objects [])
    (hp : p ∈ root.tree.objects []) (hoi : (inodeAt o.2).isSome) (hpi : (inodeAt p.2).isSome)
    (he : e ∈ chosen) (hf : f ∈ chosen) (hoe : e.path = joined o.1) (hpf : f.path = joined p.1) :
    groupPath (rebased chosen e) = groupPath (rebased chosen f) ↔ inodeAt o.2 = inodeAt p.2 := by
  have hdistinct := h.listable.distinct
  -- the entry with the path of a file records that file
  have horigin : ∀ {q : List Name × Option Leaf} {x : Entry}, q ∈ root.tree.objects [] →
      (inodeAt q.2).isSome → x ∈ sortEntries listed → x.path = joined q.1 →
        recorded (root.native options.omit_) root.realPath q.1 q.2 = .ok x := by
    intro q x hq _ hx hpath
    obtain ⟨q', hq', hrecord⟩ :=
      (mem_of_walk hstages.walked).mp ((sortEntries_perm listed).mem_iff.mp hx)
    have hjoined : joined q'.1 = joined q.1 :=
      (describes_of_recorded hrecord).path.symm.trans hpath
    obtain rfl := List.inj_on_of_nodup_map (nodup_joined hdistinct) hq' hq hjoined
    exact hrecord
  have hkind : ∀ {q : List Name × Option Leaf} {x : Entry}, q ∈ root.tree.objects [] →
      (inodeAt q.2).isSome → x ∈ chosen → x.path = joined q.1 → x.kind = .file := by
    intro q x hq hqi hx hpath
    have hassigned := (chooseEntries_spec hstages.structured_assigned hstages.choose).1.mem hx
    obtain ⟨y, hy, hsame⟩ := exists_unlinked hstages.map_assigned hassigned
    have hrecord := horigin hq hqi hy ((path_of_unlinked hsame).trans hpath)
    have hxk : x.kind = y.kind := (congrArg Entry.kind hsame.symm :)
    have hcontent := (describes_of_recorded hrecord).content
    obtain ⟨names, object⟩ := q
    match object, hcontent with
    | some (.file _), hcontent => exact hxk.trans hcontent.1
    | none, _ | some (.symlink _), _ | some .special, _ => simp [inodeAt] at hqi
  have hek := hkind ho hoi he hoe
  have hfk := hkind hp hpi hf hpf
  obtain ⟨r, hr, hrp, hrk, hgroup⟩ := exists_recorded h hstages hlinks he hek
  obtain ⟨t, ht, htp, htk, hgroup'⟩ := exists_recorded h hstages hlinks hf hfk
  rw [Hardlink.groupPath_rebased hek, Hardlink.groupPath_rebased hfk,
    Hardlink.representative_eq_iff hstages.structured_chosen.sorted he hf hek hfk, hgroup, hgroup',
    h.standsFor_iff hstages.walked hr ht hrk htk]
  exact h.identity_iff ho hp (horigin ho hoi hr (hrp.trans hoe)) (horigin hp hpi ht (htp.trans hpf))
    hrk htk

/-- A capture of an ordinary tree succeeds exactly when the rules compile, and two names that are
left are in one group exactly when they are names of one file. Without the family no entry has a
reference. -/
theorem snapshotDir_groups (h : Ordinary root options.omit_) :
    ((∃ s : OwnedSnapshot, snapshotDir blake3 pcre2 root options = .ok s) ↔
      Compiled pcre2 options.rules) ∧
    ∀ s : OwnedSnapshot, snapshotDir blake3 pcre2 root options = .ok s →
      ∀ o ∈ root.tree.objects [], ∀ p ∈ root.tree.objects [],
        (inodeAt o.2).isSome → (inodeAt p.2).isSome → ∀ e ∈ s.entries, ∀ f ∈ s.entries,
          e.path = joined o.1 → f.path = joined p.1 →
            if options.omit_.hardlink then e.meta_.hardlinkTo = none
            else (groupPath e = groupPath f ↔ inodeAt o.2 = inodeAt p.2) := by
  refine ⟨⟨fun hrun => ?_, fun hcompiled => ?_⟩, fun s hrun o ho p hp hoi hpi e he f hf hoe hpf => ?_⟩
  · obtain ⟨s, hrun⟩ := hrun
    obtain ⟨listed, assigned, chosen, hstages, -⟩ := snapshotDir_eq_ok.mp hrun
    exact compiled_of_choose hstages.choose
  · obtain ⟨listed, assigned, chosen, hstages⟩ := h.exists_stages blake3 hcompiled
    exact ⟨_, snapshotDir_eq_ok.mpr ⟨listed, assigned, chosen, hstages, rfl⟩⟩
  · obtain ⟨listed, assigned, chosen, hstages, rfl⟩ := snapshotDir_eq_ok.mp hrun
    simp only [rebaseUnless] at he hf
    split_ifs at he hf ⊢ with hlinks
    · obtain ⟨assigned', hassign, -, hsame⟩ := h.exists_assigned blake3 hstages.walked
      obtain rfl := Except.ok.inj (hstages.assign.symm.trans hassign)
      rw [if_pos hlinks] at hsame
      have hmem := (chooseEntries_spec hstages.structured_assigned hstages.choose).1.mem he
      rw [hsame] at hmem
      obtain ⟨q, hq, hrecord⟩ :=
        (mem_of_walk hstages.walked).mp ((sortEntries_perm listed).mem_iff.mp hmem)
      exact (h.fresh q hq e hrecord).1
    · rw [Hardlink.rebaseHardlinks_eq hstages.structured_chosen.sorted] at he hf
      obtain ⟨c, hc, rfl⟩ := List.mem_map.mp he
      obtain ⟨d, hd, rfl⟩ := List.mem_map.mp hf
      rw [Hardlink.rebased_path] at hoe hpf
      exact groupPath_iff h hstages (by simpa using hlinks) ho hp hoi hpi hc hd hoe hpf

end Ordinary

lemma ordinary_sample : Ordinary sampleDir sampleOptions.omit_ where
  listable := listable_sample
  fits := by
    unfold Fits
    decide +kernel
  reports := reports_sample
  fresh := by
    intro o ho e hrecord
    have hall : ∀ o ∈ sampleTree.objects [], (recorded sampleNative (utf8 "/r") o.1 o.2).toOption.all
        fun e => e.meta_.hardlinkTo.isNone && e.meta_.holes.isEmpty := by decide +kernel
    have ho := hall o ho
    rw [show recorded sampleNative (utf8 "/r") o.1 o.2 = .ok e from hrecord] at ho
    obtain ⟨hlink, hholes⟩ : e.meta_.hardlinkTo = none ∧ e.meta_.holes = [] := by
      simpa [Except.toOption] using ho
    exact ⟨hlink, by simp [hholes]⟩
  shared := by
    intro o ho p hp hoi hsame e f hrecord hrecord'
    have hall : ∀ o ∈ sampleTree.objects [], (recorded sampleNative (utf8 "/r") o.1 o.2).toOption.all
        fun e => (inodeAt o.2).isNone || (e.mode == 0o644 && e.meta_ == Metadata.default) := by
      decide +kernel
    have hpi : (inodeAt p.2).isSome := hsame ▸ hoi
    have ho := hall o ho
    have hp := hall p hp
    rw [show recorded sampleNative (utf8 "/r") o.1 o.2 = .ok e from hrecord] at ho
    rw [show recorded sampleNative (utf8 "/r") p.1 p.2 = .ok f from hrecord'] at hp
    obtain ⟨i, hi⟩ := Option.isSome_iff_exists.mp hoi
    obtain ⟨j, hj⟩ := Option.isSome_iff_exists.mp hpi
    obtain ⟨hmode, hmeta⟩ : e.mode = 0o644 ∧ e.meta_ = Metadata.default := by
      simpa [Except.toOption, hi] using ho
    obtain ⟨hmode', hmeta'⟩ : f.mode = 0o644 ∧ f.meta_ = Metadata.default := by
      simpa [Except.toOption, hj] using hp
    exact ⟨hmode'.trans hmode.symm, hmeta'.trans hmeta.symm⟩

/-- The two names of the file in the sample tree. -/
theorem snapshotDir_groups_sample : ∃ s : OwnedSnapshot,
    snapshotDir (File.tabulated []) Pcre2.plain sampleDir { sampleOptions with rules := [] } = .ok s ∧
      ∀ e ∈ s.entries, ∀ f ∈ s.entries, e.path = utf8 "a/x" → f.path = utf8 "a-b" →
        groupPath e = groupPath f := by
  have h : Ordinary sampleDir { sampleOptions with rules := [] }.omit_ := ordinary_sample
  have hok : ∃ s : OwnedSnapshot, snapshotDir (File.tabulated []) Pcre2.plain sampleDir
      { sampleOptions with rules := [] } = .ok s := (snapshotDir_groups h).1.mpr (.inl rfl)
  obtain ⟨s, hrun⟩ := hok
  refine ⟨s, hrun, fun e he f hf hx hb => ?_⟩
  have hgroups := (snapshotDir_groups h).2 s hrun ([nameA, nameX], some (.file 0)) (by decide)
    ([nameMinus], some (.file 0)) (by decide) rfl rfl e he f hf (hx.trans (by decide))
    (hb.trans (by decide))
  rw [if_neg (by decide)] at hgroups
  exact hgroups.mpr rfl

end Walk

end Difz
