import Difz.Directory.Canonical
import Difz.Directory.Containment

/-!
# The contract of a snapshot

What an accepted snapshot is, without the loops and searches that check it. The structure check
looks up one parent per entry among the entries before it; `validate_iff_structured` turns that
into all ancestors. The check of a link target counts levels; `validateSymlinkTarget_eq_ok` turns
that into a walk over names.
-/

namespace Difz

open Wire Resolve

namespace Directory

variable {T : Type} [View T]

/-! ### Text and paths -/

/-- Relative text with one separator and no drive. -/
structure ValidText (bytes : List UInt8) : Prop where
  utf8 : isUtf8 bytes = true
  relative : bytes.head? ≠ some 0x2f
  backslash : 0x5c ∉ bytes
  nul : 0 ∉ bytes
  drive : ∀ letter rest, bytes = letter :: 0x3a :: rest → isAsciiAlphabetic letter = false

lemma validateText_eq_ok {bytes : List UInt8} : validateText bytes = .ok () ↔ ValidText bytes := by
  have hslash : (Difz.utf8 "/").isPrefixOf bytes = true ↔ bytes.head? = some 0x2f := by
    have hone : Difz.utf8 "/" = [0x2f] := by decide +kernel
    rw [hone]
    cases bytes with
    | nil => simp
    | cons b bytes => simpa using eq_comm
  have hdrive : (bytes.length ≥ 2 && bytes.head?.any isAsciiAlphabetic
      && bytes[1]? == some 0x3a) = true ↔
      ¬∀ letter rest, bytes = letter :: 0x3a :: rest → isAsciiAlphabetic letter = false := by
    match bytes with
    | [] => simp
    | [b] => simp
    | b :: c :: rest => simp [and_comm]
  simp only [validateText, ite_error_eq_ok, hslash, hdrive, not_not, List.contains_iff_mem,
    Bool.not_eq_true', Bool.not_eq_false, and_true]
  constructor
  · intro h
    obtain ⟨hutf8, hrel, hback, hnul, hdrv⟩ := h
    exact ⟨hutf8, hrel, hback, hnul, hdrv⟩
  · intro h
    exact ⟨h.utf8, h.relative, h.backslash, h.nul, h.drive⟩

/-- Names under the root, down to the last component. -/
structure ValidPath (path : List UInt8) : Prop where
  nonempty : path ≠ []
  bounded : path.length ≤ maxPathBytes
  text : ValidText path
  names : ∀ part ∈ components path, part ≠ [] ∧ part ≠ utf8 "." ∧ part ≠ utf8 ".."

lemma validatePath_eq_ok {path : List UInt8} : validatePath path = .ok () ↔ ValidPath path := by
  simp only [validatePath, ite_error_eq_ok, seq_eq_ok, validateText_eq_ok, List.isEmpty_iff,
    not_lt, gt_iff_lt, List.any_eq_true, Bool.or_eq_true, beq_iff_eq, and_true]
  constructor
  · intro h
    obtain ⟨hne, hlen, htext, hparts⟩ := h
    refine ⟨hne, hlen, htext, fun part hpart => ⟨?_, ?_, ?_⟩⟩ <;> rintro rfl <;>
      exact hparts ⟨_, hpart, by simp⟩
  · intro h
    refine ⟨h.nonempty, h.bounded, h.text, fun hx => ?_⟩
    obtain ⟨part, hpart, hbad⟩ := hx
    obtain ⟨hempty, hdot, hup⟩ := h.names part hpart
    rcases hbad with (hbad | hbad) | hbad
    · exact hempty hbad
    · exact hdot hbad
    · exact hup hbad

/-- A link target that, read name by name from the directory of the link, stays under the root. -/
structure Contained (path target : List UInt8) : Prop where
  nonempty : target ≠ []
  text : ValidText target
  inside : (normalize (components path).dropLast (targetParts target)).isSome

lemma validateSymlinkTarget_eq_ok {path target : List UInt8} :
    validateSymlinkTarget path target = .ok () ↔
      ValidPath path ∧ Contained path target ∧ [] ∉ components target := by
  have hdepth : path.count 0x2f = (components path).dropLast.length := by
    rw [List.length_dropLast, length_components, Nat.add_sub_cancel]
  have hinside : (∃ n, lexicalDepth (path.count 0x2f) (targetParts target) = some n) ↔
      (normalize (components path).dropLast (targetParts target)).isSome := by
    rw [hdepth, lexicalDepth_eq_length_normalize, ← Option.isSome_iff_exists, Option.isSome_map]
  rw [validateSymlinkTarget, seq_eq_ok, validatePath_eq_ok, ite_error_eq_ok, seq_eq_ok,
    validateText_eq_ok, Wire.bind_eq_ok, List.isEmpty_iff]
  simp only [walkDepth_eq_ok, and_true]
  refine and_congr_right fun _ => ?_
  constructor
  · intro h
    obtain ⟨hne, htext, n, hempty, hn⟩ := h
    exact ⟨⟨hne, htext, hinside.mp ⟨n, hn⟩⟩, hempty⟩
  · intro h
    obtain ⟨⟨hne, htext, hin⟩, hempty⟩ := h
    obtain ⟨n, hn⟩ := hinside.mpr hin
    exact ⟨hne, htext, n, hempty, hn⟩

/-! ### Ancestors -/

/-- A path of a directory above `path`. -/
def IsAncestor (ancestor path : List UInt8) : Prop := ∃ rest, path = ancestor ++ 0x2f :: rest

/-- The ancestors of a path are its parent and the ancestors of its parent. -/
lemma isAncestor_iff {ancestor path : List UInt8} :
    IsAncestor ancestor path ↔
      ∃ parent, parentPath path = some parent ∧ (ancestor = parent ∨ IsAncestor ancestor parent) := by
  constructor
  · intro h
    obtain ⟨rest, rfl⟩ := h
    cases hrest : parentPath rest with
    | none =>
      refine ⟨ancestor, parentPath_eq_some_iff.mpr ⟨rest, ?_, rfl⟩, .inl rfl⟩
      exact parentPath_eq_none_iff.mp hrest
    | some inner =>
      obtain ⟨name, hname, rfl⟩ := parentPath_eq_some_iff.mp hrest
      exact ⟨ancestor ++ 0x2f :: inner,
        parentPath_eq_some_iff.mpr ⟨name, hname, by simp⟩, .inr ⟨inner, rfl⟩⟩
  · intro h
    obtain ⟨parent, hparent, hor⟩ := h
    obtain ⟨name, -, rfl⟩ := parentPath_eq_some_iff.mp hparent
    rcases hor with rfl | ⟨rest, rfl⟩
    · exact ⟨name, rfl⟩
    · exact ⟨rest ++ 0x2f :: name, by simp⟩

lemma isAncestor_of_parentPath {path parent : List UInt8} (h : parentPath path = some parent) :
    IsAncestor parent path :=
  isAncestor_iff.mpr ⟨parent, h, .inl rfl⟩

lemma IsAncestor.length_lt {ancestor path : List UInt8} (h : IsAncestor ancestor path) :
    ancestor.length < path.length := by
  obtain ⟨rest, rfl⟩ := h
  simp

/-- A list of entries with sorted paths that holds, before each entry, all directories above it. -/
structure Structured (entries : List T) : Prop where
  bounded : entries.length ≤ maxEntries
  paths : ∀ e ∈ entries, ValidPath (pathOf e)
  modes : ∀ e ∈ entries, (View.record e).mode &&& ~~~0o777 = 0
  kinds : ∀ e ∈ entries, validateKind (View.record e) = .ok ()
  sorted : Search.Sorted pathOf entries
  ancestors : ∀ before e after, entries = before ++ e :: after →
    ∀ ancestor, IsAncestor ancestor (pathOf e) →
      ∃ d ∈ before, pathOf d = ancestor ∧ (View.record d).kind = .directory

lemma validateParent_eq_ok {before : List T} (hs : Search.Sorted pathOf before)
    {path : List UInt8} : validateParent before path = .ok () ↔
      ∀ parent, parentPath path = some parent →
        ∃ d ∈ before, pathOf d = parent ∧ (View.record d).kind = .directory := by
  rw [validateParent]
  cases parentPath path with
  | none => simp
  | some parent =>
    simp only [Option.some.injEq, forall_eq']
    constructor
    · intro h
      cases hat : entryAt before parent with
      | none => simp [hat] at h
      | some d =>
        obtain ⟨hmem, hpath⟩ := mem_of_entryAt hat
        refine ⟨d, hmem, hpath, ?_⟩
        cases hkind : (View.record d).kind <;> simp_all
    · intro h
      obtain ⟨d, hmem, hpath, hkind⟩ := h
      rw [(entryAt_eq_some_iff hs).mpr ⟨hmem, hpath⟩]
      simp [hkind]

/-- Looking up one parent per entry reaches every ancestor: the parent was itself checked. -/
lemma ancestors_of_parents {entries : List T}
    (h : ∀ before e after, entries = before ++ e :: after → ∀ parent,
      parentPath (pathOf e) = some parent →
        ∃ d ∈ before, pathOf d = parent ∧ (View.record d).kind = .directory)
    {before after : List T} {e : T} (hsplit : entries = before ++ e :: after)
    {ancestor : List UInt8} (hanc : IsAncestor ancestor (pathOf e)) :
    ∃ d ∈ before, pathOf d = ancestor ∧ (View.record d).kind = .directory := by
  obtain ⟨parent, hparent, hor⟩ := isAncestor_iff.mp hanc
  obtain ⟨d, hmem, hpath, hkind⟩ := h before e after hsplit parent hparent
  rcases hor with rfl | hup
  · exact ⟨d, hmem, hpath, hkind⟩
  -- the directory found stands further up the list, and its own ancestors before it
  obtain ⟨pre, post, hbefore⟩ := List.append_of_mem hmem
  have hshorter : pre.length < before.length := by simp [hbefore]
  have hpre : entries = pre ++ d :: (post ++ e :: after) := by simp [hsplit, hbefore]
  obtain ⟨a, ha, hfound⟩ := ancestors_of_parents h hpre (hpath ▸ hup)
  exact ⟨a, by simp [hbefore, ha], hfound⟩
termination_by before.length

/-- The check accepts exactly the well-structured lists. -/
theorem validate_iff_structured {entries : List T} :
    validate entries = .ok () ↔ Structured entries := by
  constructor
  · intro h
    have hsorted := sorted_of_validate h
    have hok : ∀ e ∈ entries, ∃ before, EntryOk before e := by
      intro e hmem
      obtain ⟨before, after, hsplit⟩ := List.append_of_mem hmem
      exact ⟨before, entryOk_of_validate h hsplit⟩
    refine ⟨(validate_eq_ok.mp h).1, fun e hmem => ?_, fun e hmem => ?_, fun e hmem => ?_,
      hsorted, fun before e after hsplit ancestor => ancestors_of_parents ?_ hsplit⟩
    · obtain ⟨before, hentry⟩ := hok e hmem
      exact validatePath_eq_ok.mp hentry.path
    · obtain ⟨before, hentry⟩ := hok e hmem
      exact hentry.mode
    · obtain ⟨before, hentry⟩ := hok e hmem
      exact hentry.kind
    · intro before e after hsplit
      have hs : Search.Sorted pathOf before := by
        rw [hsplit] at hsorted
        exact (List.pairwise_append.mp hsorted).1
      exact (validateParent_eq_ok hs).mp (entryOk_of_validate h hsplit).parent
  · intro h
    refine validate_eq_ok.mpr ⟨h.bounded, fun before e after hsplit => ?_⟩
    have hmem : e ∈ entries := by simp [hsplit]
    have hsorted := h.sorted
    rw [hsplit] at hsorted
    obtain ⟨hbefore, -, hlt⟩ := List.pairwise_append.mp hsorted
    refine validateEntry_eq_ok.mpr ⟨validatePath_eq_ok.mpr (h.paths e hmem), h.modes e hmem,
      h.kinds e hmem, ?_, (validateParent_eq_ok hbefore).mpr fun parent hparent => ?_⟩
    · cases hlast : before.getLast? with
      | none => rfl
      | some p =>
        exact validateOrder_some_eq_ok.mpr
          (hlt p (List.mem_of_getLast? hlast) e List.mem_cons_self)
    · exact h.ancestors before e after hsplit parent (isAncestor_of_parentPath hparent)

/-! ### Snapshots -/

/-- The contract of a snapshot, up to the condition `Link path target` on its symbolic links. -/
structure Snapshot.Contract (Link : List UInt8 → List UInt8 → Prop) (s : Snapshot) : Prop where
  bounded : s.entries.length ≤ maxEntries
  paths : ∀ e ∈ s.entries, ValidPath e.path
  increasing : s.entries.Pairwise fun a b => a.path < b.path
  ancestors : ∀ before e after, s.entries = before ++ e :: after →
    ∀ ancestor, IsAncestor ancestor e.path →
      ∃ d ∈ before, d.path = ancestor ∧ ∃ mode, d.content = .directory mode
  links : ∀ e ∈ s.entries, ∀ target, e.content = .symlink target → Link e.path target.bytes
  holes : ∀ e ∈ s.entries, ∀ hole ∈ e.metadata.metadata.holes, ∃ mode bytes,
    e.content = .file mode bytes ∧
    hole.offset.toNat + hole.length.toNat ≤ bytes.bytes.length ∧
    ∀ i, hole.offset.toNat ≤ i → i < hole.offset.toNat + hole.length.toNat →
      bytes.bytes[i]? = some 0
  hardlinks : ∀ before e after, s.entries = before ++ e :: after →
    ∀ path, e.metadata.metadata.hardlinkTo = some path → ∃ original ∈ before,
      original.path = path ∧ original.metadata.metadata.hardlinkTo = none ∧
      (∃ mode bytes, e.content = .file mode bytes ∧ original.content = .file mode bytes) ∧
      { e.metadata.metadata with hardlinkTo := none }
        = { original.metadata.metadata with hardlinkTo := none }
  rootHoles : s.root.metadata.holes = []
  rootHardlink : s.root.metadata.hardlinkTo = none

lemma compare_eq_lt_iff {a b : List UInt8} : compare a b = .lt ↔ a < b := by
  induction a generalizing b with
  | nil => cases b <;> simp
  | cons x xs ih =>
    cases b with
    | nil => simp
    | cons y ys =>
      rw [List.compare_cons_cons, Ordering.then_eq_lt, Std.compare_eq_lt, ih,
        Std.compare_eq_iff_eq, List.cons_lt_cons_iff]

/-- A directory sorts before what is in it. -/
lemma IsAncestor.compare_eq_lt {ancestor path : List UInt8} (h : IsAncestor ancestor path) :
    compare ancestor path = .lt := by
  obtain ⟨rest, rfl⟩ := h
  induction ancestor with
  | nil => rfl
  | cons b ancestor ih =>
    rw [List.cons_append, List.compare_cons_cons, Std.compare_self]
    exact ih

lemma record_kind_eq_directory {e : Entry} :
    (View.record e).kind = .directory ↔ ∃ mode, e.content = .directory mode := by
  obtain ⟨path, content, metadata⟩ := e
  cases content <;> simp [View.record, Entry.structure]

lemma record_mode_valid (e : Entry) : (View.record e).mode &&& ~~~0o777 = 0 := by
  obtain ⟨path, content, metadata⟩ := e
  cases content with
  | directory mode => exact mode.valid
  | file mode bytes => exact mode.valid
  | symlink target => exact Mode.link.valid

lemma validateKind_entry_eq_ok {e : Entry} : validateKind (View.record e) = .ok () ↔
    ∀ target, e.content = .symlink target → validateSymlinkTarget e.path target.bytes = .ok () := by
  obtain ⟨path, content, metadata⟩ := e
  cases content <;> simp [validateKind, View.record, Entry.structure]

lemma forall_mem_field {bytes : List UInt8} {i n : Nat} (h : i + n ≤ bytes.length) (b : UInt8) :
    (∀ x ∈ field bytes i (i + n), x = b) ↔
      ∀ k, i ≤ k → k < i + n → bytes[k]? = some b := by
  constructor
  · intro hfield k hk hlt
    have hlen : k < bytes.length := by omega
    rw [List.getElem?_eq_getElem hlen]
    refine congrArg some (hfield _ (List.mem_iff_getElem?.mpr ⟨k - i, ?_⟩))
    rw [field, List.getElem?_drop, List.getElem?_take, if_pos (by omega), Nat.add_sub_cancel' hk,
      List.getElem?_eq_getElem hlen]
  · intro hbytes x hx
    obtain ⟨k, hk⟩ := List.mem_iff_getElem?.mp hx
    rw [field, List.getElem?_drop, List.getElem?_take] at hk
    split_ifs at hk with hlt
    exact Option.some.inj (hk.symm.trans (hbytes (i + k) (by omega) hlt))

lemma checkHole_eq_ok {content : Content} {hole : Metadata.Hole} :
    checkHole content hole = .ok () ↔ ∃ mode bytes, content = .file mode bytes ∧
      hole.offset.toNat + hole.length.toNat ≤ bytes.bytes.length ∧
      ∀ i, hole.offset.toNat ≤ i → i < hole.offset.toNat + hole.length.toNat →
        bytes.bytes[i]? = some 0 := by
  cases content with
  | directory mode => simp [checkHole]
  | symlink target => simp [checkHole]
  | file mode bytes =>
    have hbounds : ¬(hole.offset.toNat > bytes.bytes.length ∨
        hole.length.toNat > bytes.bytes.length - hole.offset.toNat) ↔
        hole.offset.toNat + hole.length.toNat ≤ bytes.bytes.length := by omega
    simp only [checkHole, ite_error_eq_ok, hbounds, and_true, List.any_eq_true, bne_iff_ne,
      not_exists, not_and, not_not]
    constructor
    · intro h
      exact ⟨mode, bytes, rfl, h.1, (forall_mem_field h.1 0).mp h.2⟩
    · intro h
      obtain ⟨m, b, heq, hin, hzero⟩ := h
      obtain ⟨rfl, rfl⟩ := Content.file.inj heq
      exact ⟨hin, (forall_mem_field hin 0).mpr hzero⟩

/-- `CanonicalSnapshot::new` accepts exactly the contract, where a link target has no empty part
and stays under the root. -/
theorem CanonicalSnapshot.new_iff_contract (s : Snapshot) :
    (∃ c, CanonicalSnapshot.new s = .ok c) ↔
      s.Contract fun path target => Contained path target ∧ [] ∉ components target := by
  have hnew : (∃ c, CanonicalSnapshot.new s = .ok c) ↔ s.Valid := by
    rw [← Snapshot.check_eq_ok]
    constructor
    · intro h
      obtain ⟨c, hc⟩ := h
      rw [← CanonicalSnapshot.new_eq_ok.mp hc]
      exact c.valid
    · intro h
      exact ⟨⟨s, h⟩, CanonicalSnapshot.new_eq_ok.mpr rfl⟩
  rw [hnew]
  constructor
  · intro h
    have hs := validate_iff_structured.mp h.structure_
    refine ⟨hs.bounded, fun e hmem => ?_, ?_, fun before e after hsplit ancestor hanc => ?_,
      fun e hmem target htarget => ?_, fun e hmem hole hhole => ?_,
      fun before e after hsplit path hpath => ?_, h.rootHoles, h.rootHardlink⟩
    · exact pathOf_entry e ▸ hs.paths e hmem
    · refine hs.sorted.imp fun hlt => ?_
      rwa [pathOf_entry, pathOf_entry, compare_eq_lt_iff] at hlt
    · rw [← pathOf_entry] at hanc
      obtain ⟨d, hd, hpath, hkind⟩ := hs.ancestors before e after hsplit ancestor hanc
      exact ⟨d, hd, pathOf_entry d ▸ hpath, record_kind_eq_directory.mp hkind⟩
    · have hkind := validateKind_entry_eq_ok.mp (hs.kinds e hmem) target htarget
      exact (validateSymlinkTarget_eq_ok.mp hkind).2
    · exact checkHole_eq_ok.mp (h.holes e hmem hole hhole)
    · obtain ⟨mode, bytes, original, he, hat, horiginal, hnone, hshared⟩ :=
        checkHardlink_eq_ok.mp (h.hardlinks before e after hsplit) path hpath
      obtain ⟨hmem, hkey⟩ := mem_of_entryAt hat
      exact ⟨original, hmem, pathOf_entry original ▸ hkey, hnone, ⟨mode, bytes, he, horiginal⟩,
        sharedMetadataEqual_iff.mp hshared⟩
  · intro h
    have hsorted : Search.Sorted pathOf s.entries := by
      refine h.increasing.imp fun hlt => ?_
      rwa [pathOf_entry, pathOf_entry, compare_eq_lt_iff]
    have hs : Structured s.entries := by
      refine ⟨h.bounded, fun e hmem => ?_, fun e _ => record_mode_valid e, fun e hmem => ?_,
        hsorted, fun before e after hsplit ancestor hanc => ?_⟩
      · exact (pathOf_entry e).symm ▸ h.paths e hmem
      · refine validateKind_entry_eq_ok.mpr fun target htarget => ?_
        exact validateSymlinkTarget_eq_ok.mpr ⟨h.paths e hmem, h.links e hmem target htarget⟩
      · rw [pathOf_entry] at hanc
        obtain ⟨d, hd, hpath, hdir⟩ := h.ancestors before e after hsplit ancestor hanc
        exact ⟨d, hd, (pathOf_entry d).trans hpath, record_kind_eq_directory.mpr hdir⟩
    refine ⟨validate_iff_structured.mpr hs,
      fun e hmem hole hhole => checkHole_eq_ok.mpr (h.holes e hmem hole hhole),
      fun before e after hsplit => checkHardlink_eq_ok.mpr fun path hpath => ?_,
      h.rootHoles, h.rootHardlink⟩
    obtain ⟨original, hmem, hkey, hnone, ⟨mode, bytes, he, horiginal⟩, hshared⟩ :=
      h.hardlinks before e after hsplit path hpath
    have hbefore : Search.Sorted pathOf before := by
      rw [hsplit] at hsorted
      exact (List.pairwise_append.mp hsorted).1
    refine ⟨mode, bytes, original, he, ?_, horiginal, hnone, sharedMetadataEqual_iff.mpr hshared⟩
    exact (entryAt_eq_some_iff hbefore).mpr ⟨hmem, (pathOf_entry original).trans hkey⟩

/-- One link, to a target with an empty part. -/
def doubledSeparator : Snapshot :=
  ⟨[⟨utf8 "l", .symlink ⟨utf8 "x//file", by decide +kernel⟩, CanonicalMetadata.default⟩],
    CanonicalMetadata.default⟩

lemma contained_doubledSeparator : Contained (utf8 "l") (utf8 "x//file") where
  nonempty := by decide +kernel
  text := validateText_eq_ok.mp (by decide +kernel)
  inside := by decide +kernel

theorem doubledSeparator_refused :
    CanonicalSnapshot.new doubledSeparator = .error .invalidComponent ∧
      doubledSeparator.Contract Contained := by
  have hroot : ∀ before e after, doubledSeparator.entries = before ++ e :: after →
      e.path = utf8 "l" ∧ e.metadata = CanonicalMetadata.default := by
    intro before e after h
    have hmem : e ∈ doubledSeparator.entries := by simp [h]
    obtain rfl := List.mem_singleton.mp hmem
    exact ⟨rfl, rfl⟩
  refine ⟨by decide +kernel, by decide, fun e hmem => ?_, List.pairwise_singleton _ _,
    fun before e after hsplit ancestor hanc => ?_, fun e hmem target htarget => ?_,
    fun e hmem hole hhole => ?_, fun before e after hsplit path hpath => ?_, rfl, rfl⟩
  · obtain rfl := List.mem_singleton.mp hmem
    exact validatePath_eq_ok.mp (by decide +kernel)
  · obtain ⟨parent, hparent, -⟩ := isAncestor_iff.mp hanc
    have hnone : parentPath (utf8 "l") = none := by decide +kernel
    rw [(hroot before e after hsplit).1, hnone] at hparent
    exact absurd hparent (by simp)
  · obtain rfl := List.mem_singleton.mp hmem
    obtain rfl := Content.symlink.inj htarget
    exact contained_doubledSeparator
  · obtain rfl := List.mem_singleton.mp hmem
    exact absurd hhole (List.not_mem_nil)
  · rw [(hroot before e after hsplit).2] at hpath
    exact absurd hpath (by simp [CanonicalMetadata.default, Metadata.default])

end Directory

end Difz
