import Difz.Directory.Structure
import Difz.Path.Resolve

/-!
# Containment of symbolic links

An accepted tree, read as a tree of directories and links, and what the check of link targets is
worth when links are resolved one through another. The check counts a name in a target as one
level down. A name that is itself a link can lead back up to the root, and then an `..` behind it
leaves the tree: `contained_iff` says that this is the only way out.

The native validator (`src/directory.zig`) has the same checks in another arrangement.
-/

namespace Difz

open Wire Resolve

namespace Directory

variable {T : Type} [View T]

/-! ### The native validator -/

namespace Native

/-- The link path has been checked by the caller. -/
def validateSymlinkTarget (linkPath target : List UInt8) : Except Error Unit :=
  if target.isEmpty then .error .invalidEntryData
  else do
    validateText target
    let _ ← walkDepth (linkPath.count 0x2f) (components target)
    .ok ()

/-- The checks that depend on the kind, as a list of conditions. -/
def validateKind (record : Record) : Except Error Unit := do
  ensure (¬(record.kind = .directory ∧ record.data.length ≠ 0)) .invalidEntryData
  ensure (¬(record.kind = .symlink ∧ record.mode ≠ 0o777)) .invalidMode
  if record.kind = .symlink then validateSymlinkTarget record.path record.data else .ok ()

def validateEntry (before : List T) (entry : T) : Except Error Unit := do
  let record := View.record entry
  validatePath record.path
  ensure (record.mode &&& ~~~0o777 = 0) .invalidMode
  validateKind record
  validateOrder before.getLast? record.path
  validateParent before record.path

def validateSnapshot (entries : List T) : Except Error Unit :=
  if entries.length > maxEntries then .error .tooManyEntries
  else forBefore validateEntry [] entries

lemma validateKind_eq {record : Record} (h : validatePath record.path = .ok ()) :
    validateKind record = Directory.validateKind record := by
  obtain ⟨path, mode, kind, data⟩ := record
  rw [validateKind, Directory.validateKind]
  cases kind with
  | directory => cases data <;> simp [ensure, bind, Except.bind]
  | file => simp [ensure, bind, Except.bind]
  | symlink =>
    by_cases hmode : mode = 0o777
    · simp only at h
      simp [ensure, hmode, bind, Except.bind, validateSymlinkTarget,
        Directory.validateSymlinkTarget, h]
    · simp [ensure, hmode, bind, Except.bind]

lemma validateEntry_eq (before : List T) (entry : T) :
    validateEntry before entry = Directory.validateEntry before entry := by
  rw [validateEntry, Directory.validateEntry]
  cases hpath : validatePath (View.record entry).path with
  | error e => simp [bind, Except.bind]
  | ok u =>
    rw [validateKind_eq hpath]
    by_cases hmode : (View.record entry).mode &&& ~~~0o777 = 0
    · simp [ensure, Mode.fromBits, hmode, bind, Except.bind]
    · simp [ensure, Mode.fromBits, hmode, bind, Except.bind]

/-- The two implementations accept the same trees and refuse with the same errors. -/
theorem validateSnapshot_eq_validate (entries : List T) :
    validateSnapshot entries = validate entries := by
  have hentry : validateEntry (T := T) = Directory.validateEntry :=
    funext fun before => funext fun entry => validateEntry_eq before entry
  rw [validateSnapshot, validate, hentry]

end Native

/-! ### An accepted tree -/

def component (part : List UInt8) : Component (List UInt8) :=
  if part = utf8 "." then .here else if part = utf8 ".." then .up else .name part

/-- The components of a link target. -/
def targetParts (target : List UInt8) : List (Component (List UInt8)) :=
  (components target).map component

def nodeOf (entry : T) : Option (Node (List UInt8)) :=
  match (View.record entry).kind with
  | .directory => some .directory
  | .file => none
  | .symlink => some (.link (targetParts (View.record entry).data))

def treeOf (entries : List T) : Layout (List UInt8) := fun path =>
  (entries.find? fun e => components (pathOf e) = path).bind nodeOf

def IsLink (entry : T) : Prop := (View.record entry).kind = .symlink

/-- Resolution of any symlink entry, from its parent directory, never takes a `..` step at the
root. -/
def LinksContained (entries : List T) : Prop :=
  ∀ link ∈ entries, IsLink link → StaysInside (treeOf entries) (components (pathOf link))
    (targetParts (View.record link).data)

/-- No `..` of a link target comes right after a prefix of that target which passes through another
link and ends at the root. -/
def LinksGuarded (entries : List T) : Prop :=
  ∀ link ∈ entries, IsLink link → UpGuarded (treeOf entries) (components (pathOf link))
    (targetParts (View.record link).data)

lemma length_components (path : List UInt8) :
    (components path).length = path.count 0x2f + 1 := by
  rw [components]
  induction path with
  | nil => simp
  | cons b path ih =>
    rw [List.splitOn_cons_eq_if_modifyHead, List.count_cons]
    split_ifs with hb
    · rw [List.length_cons, ih]
    · rw [List.length_modifyHead, ih]

lemma components_injective : Function.Injective components := by
  intro p q h
  have := congrArg [0x2f].intercalate h
  rwa [components, components, List.intercalate_splitOn, List.intercalate_splitOn] at this

lemma separator_of_mem_components {path part : List UInt8} (h : part ∈ components path) :
    0x2f ∉ part := by
  induction path generalizing part with
  | nil =>
    obtain rfl := List.mem_singleton.mp h
    exact List.not_mem_nil
  | cons b path ih =>
    rw [components, List.splitOn_cons_eq_if_modifyHead] at h
    split_ifs at h with hb
    · rcases List.mem_cons.mp h with rfl | h
      · exact List.not_mem_nil
      · exact ih h
    · obtain ⟨first, rest, hsplit⟩ := List.exists_cons_of_ne_nil (List.splitOn_ne_nil 0x2f path)
      rw [hsplit, List.modifyHead_cons] at h
      rcases List.mem_cons.mp h with rfl | h
      · have hfirst : 0x2f ∉ first := ih (by rw [components, hsplit]; exact List.mem_cons_self)
        simpa [hfirst] using fun hc : (0x2f : UInt8) = b => hb (by simp [hc])
      · exact ih (by rw [components, hsplit]; exact List.mem_cons_of_mem _ h)

lemma treeOf_eq_link_iff {entries : List T} (hs : Search.Sorted pathOf entries)
    {path : List (List UInt8)} {target : List (Component (List UInt8))} :
    treeOf entries path = some (.link target) ↔
      ∃ link ∈ entries, IsLink link ∧ components (pathOf link) = path ∧
        targetParts (View.record link).data = target := by
  rw [treeOf, Option.bind_eq_some_iff]
  constructor
  · intro h
    obtain ⟨link, hfind, hnode⟩ := h
    have hpath : components (pathOf link) = path := by simpa using List.find?_some hfind
    rw [nodeOf] at hnode
    split at hnode
    · simp at hnode
    · simp at hnode
    · next hkind =>
      exact ⟨link, List.mem_of_find?_eq_some hfind, hkind, hpath, by simpa using hnode⟩
  · intro h
    obtain ⟨link, hmem, hlink, rfl, rfl⟩ := h
    -- paths are distinct, so the first entry with this path is the link
    have hfind : (entries.find? fun e => components (pathOf e) = components (pathOf link)).isSome :=
      List.find?_isSome.mpr ⟨link, hmem, by simp⟩
    obtain ⟨e, he⟩ := Option.isSome_iff_exists.mp hfind
    have hpath : pathOf e = pathOf link :=
      components_injective (by simpa using List.find?_some he)
    obtain rfl : e = link := hs.eq_of_key (List.mem_of_find?_eq_some he) hmem hpath
    refine ⟨e, he, ?_⟩
    rw [nodeOf, hlink]

/-- The check of a target refuses empty parts and counts the depth of the others. -/
lemma walkDepth_eq_ok {parts : List (List UInt8)} {depth n : Nat} :
    walkDepth depth parts = .ok n ↔
      [] ∉ parts ∧ lexicalDepth depth (parts.map component) = some n := by
  induction parts generalizing depth with
  | nil => simp [walkDepth, lexicalDepth]
  | cons part parts ih =>
    rw [walkDepth, ite_error_eq_ok, List.mem_cons, not_or, List.map_cons, component, and_assoc,
      eq_comm (a := [])]
    refine and_congr_right fun _ => ?_
    by_cases hdot : part = utf8 "."
    · rw [if_pos hdot, if_pos hdot]
      exact ih
    rw [if_neg hdot, if_neg hdot]
    by_cases hup : part = utf8 ".."
    · rw [if_pos hup, if_pos hup, ite_error_eq_ok]
      cases depth with
      | zero => simp [lexicalDepth]
      | succ depth =>
        rw [Nat.add_sub_cancel, ih, lexicalDepth]
        simp
    · rw [if_neg hup, if_neg hup]
      exact ih

lemma lexicalDepth_of_validate {entries : List T} (h : validate entries = .ok ()) {link : T}
    (hmem : link ∈ entries) (hlink : IsLink link) :
    lexicalDepth (components (pathOf link)).dropLast.length (targetParts (View.record link).data)
      ≠ none := by
  obtain ⟨before, after, hsplit⟩ := List.append_of_mem hmem
  have hkind := (entryOk_of_validate h hsplit).kind
  rw [validateKind, hlink] at hkind
  simp only [ite_error_eq_ok, validateSymlinkTarget, seq_eq_ok] at hkind
  obtain ⟨-, -, -, -, hwalk⟩ := hkind
  obtain ⟨depth, hdepth, -⟩ := Wire.bind_eq_ok.mp hwalk
  rw [List.length_dropLast, length_components, Nat.add_sub_cancel, targetParts, pathOf,
    (walkDepth_eq_ok.mp hdepth).2]
  exact Option.some_ne_none depth

/-! ### Containment -/

/-- What holds of the symlink entries of a list holds of the links of its tree. -/
lemma forall_link_iff {entries : List T} (hs : Search.Sorted pathOf entries)
    (p : List (List UInt8) → List (Component (List UInt8)) → Prop) :
    (∀ link ∈ entries, IsLink link →
      p (components (pathOf link)) (targetParts (View.record link).data)) ↔
    ∀ path target, treeOf entries path = some (.link target) → p path target := by
  constructor
  · intro h path target hpath
    obtain ⟨link, hmem, hlink, rfl, rfl⟩ := (treeOf_eq_link_iff hs).mp hpath
    exact h link hmem hlink
  · intro h link hmem hlink
    exact h _ _ ((treeOf_eq_link_iff hs).mpr ⟨link, hmem, hlink, rfl, rfl⟩)

/-- The links of an accepted tree stay inside it exactly when no `..` follows a way to the root
that leads through another link. -/
theorem linksContained_iff_linksGuarded {entries : List T}
    (h : validate entries = .ok () ∨ Native.validateSnapshot entries = .ok ()) :
    LinksContained entries ↔ LinksGuarded entries := by
  rw [Native.validateSnapshot_eq_validate, or_self] at h
  have hs := sorted_of_validate h
  have hlexical : ∀ path target, treeOf entries path = some (.link target) →
      lexicalDepth path.dropLast.length target ≠ none :=
    (forall_link_iff hs _).mp fun _ hmem hlink => lexicalDepth_of_validate h hmem hlink
  calc LinksContained entries
      ↔ Contained (treeOf entries) := forall_link_iff hs (StaysInside (treeOf entries))
    _ ↔ Guarded (treeOf entries) := contained_iff hlexical
    _ ↔ LinksGuarded entries := (forall_link_iff hs (UpGuarded (treeOf entries))).symm

/-- Targets that go up only before their first name need no guard. -/
lemma linksGuarded_of_up_first {entries : List T}
    (h : ∀ link ∈ entries, IsLink link → ∀ pre post,
      targetParts (View.record link).data = pre ++ .up :: post → ∀ n, Component.name n ∉ pre) :
    LinksGuarded entries := by
  intro link hmem hlink pre post hsplit hthrough
  obtain ⟨n, hn⟩ := hthrough.exists_name
  exact h link hmem hlink pre post hsplit n hn

/-- A directory and, in it, a link that names it from its parent. -/
def selfLinked : List Record :=
  [⟨utf8 "d", 0o755, .directory, []⟩, ⟨utf8 "d/l", 0o777, .symlink, utf8 "../d"⟩]

theorem linksContained_selfLinked :
    validate selfLinked = .ok () ∧ LinksGuarded selfLinked ∧ LinksContained selfLinked := by
  have hok : validate selfLinked = .ok () := by decide +kernel
  have hguarded : LinksGuarded selfLinked := by
    apply linksGuarded_of_up_first
    intro link hmem hlink pre post hsplit n hn
    obtain rfl : link = ⟨utf8 "d/l", 0o777, .symlink, utf8 "../d"⟩ := by
      simp only [selfLinked, List.mem_cons, List.not_mem_nil, or_false] at hmem
      rcases hmem with rfl | rfl
      · exact absurd hlink (by simp [IsLink])
      · rfl
    have hparts : targetParts (utf8 "../d") = [.up, .name (utf8 "d")] := by decide +kernel
    rw [record_record, hparts] at hsplit
    cases pre with
    | nil => simp at hn
    | cons c pre =>
      obtain ⟨-, hrest⟩ := List.cons.inj hsplit
      cases pre <;> simp at hrest
  exact ⟨hok, hguarded, (linksContained_iff_linksGuarded (.inl hok)).mpr hguarded⟩

/-- A link to the root and a link to the parent of that link's target. -/
def rootLinked : List Record :=
  [⟨utf8 "l", 0o777, .symlink, utf8 "."⟩, ⟨utf8 "m", 0o777, .symlink, utf8 "l/.."⟩]

theorem rootLinked_escapes :
    validate rootLinked = .ok () ∧ Native.validateSnapshot rootLinked = .ok () ∧
      ¬LinksContained rootLinked := by
  refine ⟨by decide +kernel, by decide +kernel, fun h => ?_⟩
  have hparts : targetParts (utf8 "l/..") = [.name (utf8 "l"), .up] := by decide +kernel
  have hl : treeOf rootLinked ([] ++ [utf8 "l"]) = some (.link [.here]) := by decide +kernel
  have hrun : Reaches (treeOf rootLinked) ⟨[], [.name (utf8 "l"), .up]⟩ ⟨[], [.up]⟩ :=
    .tail (.single (.inr (.link hl))) (.inl .here)
  refine h ⟨utf8 "m", 0o777, .symlink, utf8 "l/.."⟩ (by simp [rootLinked]) rfl ⟨[], [.up]⟩ ?_
    ⟨rfl, rfl⟩
  rw [record_record, hparts]
  exact hrun

end Directory

end Difz
