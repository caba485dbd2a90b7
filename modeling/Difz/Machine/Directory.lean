import Difz.Directory.Canonical
import Difz.Machine.Metadata

/-!
# Tree structure on the machine

Path and link grammar, the check of an ordered list of entries and `CanonicalSnapshot::new`
(`rust/src/directory.rs`, `rust/src/directory_structure.rs`, `rust/src/directory_canonical.rs`),
with the index, slice and integer operations of the source left in. They compute what the total
functions compute. The depth of a link target stays a machine integer because every component that
deepens it takes two bytes of the target with its separator.
-/

namespace Difz

open Wire

namespace Machine

namespace Directory

open Difz.Directory (CanonicalSnapshot Content Entry Error Mode Record Snapshot View components
  entryAt findPath forBefore maxEntries maxPathBytes parentPath pathOf)

/-! ### Paths and link targets -/

def validateText (bytes : List UInt8) : Checked Error Unit :=
  if !isUtf8 bytes then Checked.fail .invalidUtf8
  else if (utf8 "/").isPrefixOf bytes then Checked.fail .absolutePath
  else if bytes.contains 0x5c then Checked.fail .backslashSeparator
  else if bytes.contains 0 then Checked.fail .nulByte
  else do
    let drive ← drivePrefix bytes
    if drive then Checked.fail .drivePrefix else .ok ()

def validatePath (path : List UInt8) : Checked Error Unit :=
  if path.isEmpty then Checked.fail .emptyPath
  else if path.length > maxPathBytes then Checked.fail .pathTooLong
  else do
    validateText path
    if (components path).any (fun part =>
        part.isEmpty || part == utf8 "." || part == utf8 "..") then
      Checked.fail .invalidComponent
    else .ok ()

def walkDepth : Nat → List (List UInt8) → Checked Error Nat
  | depth, [] => .ok depth
  | depth, part :: parts =>
    if part = [] then Checked.fail .invalidComponent
    else if part = utf8 "." then walkDepth depth parts
    else if part = utf8 ".." then
      if depth = 0 then Checked.fail .symlinkEscapesRoot
      else do
        let depth ← Checked.sub depth 1
        walkDepth depth parts
    else do
      let depth ← Checked.add 64 depth 1
      walkDepth depth parts

def validateSymlinkTarget (linkPath target : List UInt8) : Checked Error Unit := do
  validatePath linkPath
  if target.isEmpty then Checked.fail .invalidEntryData
  else do
    validateText target
    let _ ← walkDepth (linkPath.count 0x2f) (components target)
    .ok ()

lemma validateText_eq (bytes : List UInt8) :
    validateText bytes = Checked.ofExcept (Difz.Directory.validateText bytes) := by
  rw [validateText, Difz.Directory.validateText, drivePrefix_eq, ok_bind]
  simp only [Checked.ofExcept_ite]
  rfl

lemma validatePath_eq (path : List UInt8) :
    validatePath path = Checked.ofExcept (Difz.Directory.validatePath path) := by
  rw [validatePath, Difz.Directory.validatePath, validateText_eq]
  simp only [Checked.ofExcept_ite, Checked.ofExcept_bind]
  rfl

/-- The bytes of a target with one more for each component. -/
lemma sum_components (path : List UInt8) :
    ((components path).map fun part => part.length + 1).sum = path.length + 1 := by
  induction path with
  | nil => rfl
  | cons b path ih =>
    rw [components, List.splitOn_cons_eq_if_modifyHead]
    have hne : List.splitOn 0x2f path ≠ [] := List.splitOn_ne_nil _ _
    obtain ⟨part, parts, hparts⟩ := List.exists_cons_of_ne_nil hne
    rw [components, hparts] at ih
    split_ifs with h
    · simpa [hparts, Nat.add_comm] using ih
    · simp only [hparts, List.modifyHead_cons, List.map_cons, List.sum_cons, List.length_cons] at ih ⊢
      omega

lemma walkDepth_eq {depth : Nat} {parts : List (List UInt8)}
    (h : 2 * depth + (parts.map fun part => part.length + 1).sum < 2 ^ 65) :
    walkDepth depth parts = Checked.ofExcept (Difz.Directory.walkDepth depth parts) := by
  induction parts generalizing depth with
  | nil => rfl
  | cons part parts ih =>
    rw [List.map_cons, List.sum_cons] at h
    rw [walkDepth, Difz.Directory.walkDepth]
    simp only [Checked.ofExcept_ite]
    by_cases hempty : part = []
    · rw [if_pos hempty, if_pos hempty]
      rfl
    have hpart : 0 < part.length := List.length_pos_iff.mpr hempty
    rw [if_neg hempty, if_neg hempty, ih (by omega)]
    by_cases hzero : depth = 0
    · rw [if_pos hzero, if_pos hzero, Checked.add_of_lt (by omega), ok_bind, ih (by omega)]
      rfl
    · rw [if_neg hzero, if_neg hzero, Checked.add_of_lt (by omega), ok_bind, ih (by omega),
        Checked.sub_of_le (by omega), ok_bind, ih (by omega)]

lemma validateSymlinkTarget_eq {linkPath target : List UInt8} (htarget : target.length < 2 ^ 64) :
    validateSymlinkTarget linkPath target
      = Checked.ofExcept (Difz.Directory.validateSymlinkTarget linkPath target) := by
  rw [validateSymlinkTarget, Difz.Directory.validateSymlinkTarget, validatePath_eq,
    Checked.ofExcept_bind]
  cases hpath : Difz.Directory.validatePath linkPath with
  | error e => rfl
  | ok u =>
    have hlong : linkPath.length ≤ 4096 := by
      simp only [Difz.Directory.validatePath, ite_error_eq_ok] at hpath
      exact Nat.le_of_not_lt hpath.2.1
    have hslashes : linkPath.count 0x2f ≤ linkPath.length := List.count_le_length
    rw [Checked.ofExcept_ok, ok_bind, Checked.ofExcept_ite, validateText_eq,
      walkDepth_eq (by rw [sum_components]; omega)]
    simp only [Checked.ofExcept_bind]
    rfl

/-! ### Entries -/

/-- `xs.iter().rposition(p)`. -/
def rposition {α : Type} (p : α → Bool) (xs : List α) : Option Nat :=
  (xs.reverse.findIdx? p).map fun i => xs.length - 1 - i

/-- The slice before the last separator is the parent. -/
lemma rposition_eq (path : List UInt8) : match rposition (· == 0x2f) path with
    | none => parentPath path = none
    | some slash => slash < path.length ∧ parentPath path = some (path.take slash) := by
  cases hparent : parentPath path with
  | none =>
    have hnone : path.reverse.findIdx? (· == 0x2f) = none := by
      rw [List.findIdx?_eq_none_iff]
      intro b hb
      have hslash := Difz.Directory.parentPath_eq_none_iff.mp hparent
      simp only [beq_eq_false_iff_ne, ne_eq]
      rintro rfl
      exact hslash (List.mem_reverse.mp hb)
    rw [rposition, hnone]
    rfl
  | some parent =>
    obtain ⟨name, hname, rfl⟩ := Difz.Directory.parentPath_eq_some_iff.mp hparent
    have hfind : (parent ++ 0x2f :: name).reverse.findIdx? (· == 0x2f) = some name.length := by
      rw [List.reverse_append, List.reverse_cons, List.append_assoc, List.singleton_append,
        List.findIdx?_append]
      have hnone : name.reverse.findIdx? (· == 0x2f) = none := by
        rw [List.findIdx?_eq_none_iff]
        intro b hb
        simp only [beq_eq_false_iff_ne, ne_eq]
        rintro rfl
        exact hname (List.mem_reverse.mp hb)
      simp [hnone, List.findIdx?_cons]
    rw [rposition, hfind]
    have hslash : (parent ++ 0x2f :: name).length - 1 - name.length = parent.length := by
      simp only [List.length_append, List.length_cons]
      omega
    simp only [Option.map_some, hslash]
    exact ⟨by simp, by rw [List.take_left]⟩

variable {T : Type} [View T]

def validateKind (record : Record) : Checked Error Unit :=
  match record.kind with
  | .directory => if !record.data.isEmpty then Checked.fail .invalidEntryData else .ok ()
  | .file => .ok ()
  | .symlink =>
    if record.mode ≠ 0o777 then Checked.fail .invalidMode
    else validateSymlinkTarget record.path record.data

/-- The entry of the index that `find_path` returns for a part of the entries. -/
def findAmong (entries before : List T) (path : List UInt8) : Checked Error (Option T) :=
  match findPath before path with
  | none => .ok none
  | some i => do
    let entry ← Checked.index entries i
    .ok (some entry)

def validateOrder (entries : List T) (index : Nat) (path : List UInt8) : Checked Error Unit :=
  if index > 0 then do
    let i ← Checked.sub index 1
    let previous ← Checked.index entries i
    Checked.ofExcept (Difz.Directory.validateOrder (some previous) path)
  else .ok ()

def validateParent (entries : List T) (index : Nat) (path : List UInt8) : Checked Error Unit :=
  match rposition (· == 0x2f) path with
  | none => .ok ()
  | some slash => do
    let before ← Checked.slice entries 0 index
    let parent ← Checked.slice path 0 slash
    match ← findAmong entries before parent with
    | none => Checked.fail .missingParent
    | some entry =>
      match (View.record entry).kind with
      | .directory => .ok ()
      | .file | .symlink => Checked.fail .parentNotDirectory

def validateEntry (entries : List T) (index : Nat) (entry : T) : Checked Error Unit := do
  let record := View.record entry
  validatePath record.path
  let _ ← Checked.ofExcept (Mode.fromBits record.mode)
  validateKind record
  validateOrder entries index record.path
  validateParent entries index record.path

/-- `structure::validate`. -/
def validate (entries : List T) : Checked Error Unit :=
  if entries.length > maxEntries then Checked.fail .tooManyEntries
  else enumerate (validateEntry entries) 0 entries

lemma validateKind_eq {record : Record} (h : record.data.length < 2 ^ 64) :
    validateKind record = Checked.ofExcept (Difz.Directory.validateKind record) := by
  unfold validateKind Difz.Directory.validateKind
  cases record.kind with
  | directory =>
    dsimp only
    rw [Checked.ofExcept_ite]
    rfl
  | file => rfl
  | symlink =>
    dsimp only
    rw [Checked.ofExcept_ite, validateSymlinkTarget_eq h]
    rfl

/-- The search among the entries before finds an index of the whole list. -/
lemma findAmong_eq {entries before after : List T} (h : entries = before ++ after)
    (path : List UInt8) : findAmong entries before path = .ok (entryAt before path) := by
  rw [findAmong, entryAt]
  cases hfind : findPath before path with
  | none => rfl
  | some i =>
    obtain ⟨x, hx, -⟩ := Search.window_sound hfind
    have hentry : entries[i]? = some x := by
      rw [h, List.getElem?_append_left (List.getElem?_eq_some_iff.mp hx).1, hx]
    simp [Checked.index, hentry, hx, ok_bind]

section Position

variable {entries before after : List T} {entry : T}

lemma validateOrder_eq (h : entries = before ++ entry :: after) (path : List UInt8) :
    validateOrder entries before.length path
      = Checked.ofExcept (Difz.Directory.validateOrder before.getLast? path) := by
  rcases List.eq_nil_or_concat' before with rfl | ⟨init, last, rfl⟩
  · rfl
  · have hlast : entries[init.length]? = some last := by simp [h]
    rw [validateOrder, if_pos (by simp), List.length_append, List.length_singleton,
      Checked.sub_of_le (by omega), ok_bind, Nat.add_sub_cancel, Checked.index, hlast]
    simp [ok_bind]

lemma validateParent_eq (h : entries = before ++ entry :: after) (path : List UInt8) :
    validateParent entries before.length path
      = Checked.ofExcept (Difz.Directory.validateParent before path) := by
  have hslash := rposition_eq path
  rw [validateParent, Difz.Directory.validateParent]
  cases hr : rposition (· == 0x2f) path with
  | none =>
    rw [hr] at hslash
    rw [hslash]
    rfl
  | some slash =>
    rw [hr] at hslash
    obtain ⟨hlt, hparent⟩ := hslash
    have hbefore : entries.take before.length = before := by rw [h, List.take_left]
    rw [hparent]
    dsimp only
    rw [Checked.slice_take (by simp [h]), ok_bind, Checked.slice_take (by omega), ok_bind, hbefore,
      findAmong_eq h, ok_bind]
    cases entryAt before (path.take slash) with
    | none => rfl
    | some parent =>
      dsimp only
      cases (View.record parent).kind <;> rfl

lemma validateEntry_eq (h : entries = before ++ entry :: after)
    (hdata : (View.record entry).data.length < 2 ^ 64) :
    validateEntry entries before.length entry
      = Checked.ofExcept (Difz.Directory.validateEntry before entry) := by
  rw [validateEntry, Difz.Directory.validateEntry]
  simp only [validatePath_eq, validateKind_eq hdata, validateOrder_eq h, validateParent_eq h,
    Checked.ofExcept_bind]

end Position

/-- An index loop that looks at the entries before has them at hand. -/
lemma enumerate_eq_forBefore {ε α : Type} {body : Nat → α → Checked ε Unit}
    {check : List α → α → Except ε Unit} {xs : List α}
    (h : ∀ before x after, xs = before ++ x :: after →
      body before.length x = Checked.ofExcept (check before x)) :
    enumerate body 0 xs = Checked.ofExcept (forBefore check [] xs) := by
  have hfrom : ∀ before rest, xs = before ++ rest →
      enumerate body before.length rest = Checked.ofExcept (forBefore check before rest) := by
    intro before rest
    induction rest generalizing before with
    | nil => exact fun _ => rfl
    | cons x rest ih =>
      intro hxs
      have hrest := ih (before ++ [x]) (by simp [hxs])
      rw [List.length_append, List.length_singleton] at hrest
      rw [enumerate, forBefore, Checked.ofExcept_bind, h before x rest hxs, hrest]
  exact hfrom [] xs rfl

lemma validate_eq {entries : List T}
    (hdata : ∀ e ∈ entries, (View.record e).data.length < 2 ^ 64) :
    validate entries = Checked.ofExcept (Difz.Directory.validate entries) := by
  rw [validate, Difz.Directory.validate, Checked.ofExcept_ite]
  have hloop : enumerate (validateEntry entries) 0 entries
      = Checked.ofExcept (forBefore Difz.Directory.validateEntry [] entries) :=
    enumerate_eq_forBefore fun before e after hsplit =>
      validateEntry_eq hsplit (hdata e (by simp [hsplit]))
  rw [hloop]
  rfl

/-! ### Canonical snapshots -/

/-- A hole of a regular file, in the integers of the file. -/
def checkHole (content : Content) (hole : Difz.Metadata.Hole) : Checked Error Unit :=
  match content with
  | .file _ bytes => do
    let length := bytes.bytes.length
    let outside ← Checked.or (hole.offset.toNat > length) do
      let rest ← Checked.sub length hole.offset.toNat
      pure (decide (hole.length.toNat > rest))
    if outside then Checked.fail .invalidSparseExtent
    else do
      let begin_ := hole.offset.toNat
      let end_ ← Checked.add 64 begin_ hole.length.toNat
      let covered ← Checked.slice bytes.bytes begin_ end_
      if covered.any (· != 0) then Checked.fail .invalidSparseExtent else .ok ()
  | .directory _ | .symlink _ => Checked.fail .invalidSparseExtent

def checkHardlink (entries : List Entry) (index : Nat) (e : Entry) : Checked Error Unit :=
  match e.metadata.metadata.hardlinkTo with
  | none => .ok ()
  | some path =>
    match e.content with
    | .file mode bytes => do
      let before ← Checked.slice entries 0 index
      match ← findAmong entries before path with
      | none => Checked.fail .invalidHardlinkRelation
      | some target =>
        match target.content with
        | .file targetMode targetBytes =>
          if target.metadata.metadata.hardlinkTo.isSome || mode != targetMode
              || bytes != targetBytes
              || !Difz.Directory.sharedMetadataEqual e.metadata.metadata
                target.metadata.metadata then
            Checked.fail .invalidHardlinkRelation
          else .ok ()
        | .directory _ | .symlink _ => Checked.fail .invalidHardlinkRelation
    | .directory _ | .symlink _ => Checked.fail .invalidHardlinkRelation

def checkEntry (entries : List Entry) (index : Nat) (e : Entry) : Checked Error Unit := do
  e.metadata.metadata.holes.forM (checkHole e.content)
  checkHardlink entries index e

def check (s : Snapshot) : Checked Error Unit := do
  validate s.entries
  enumerate (checkEntry s.entries) 0 s.entries
  if !s.root.metadata.holes.isEmpty then Checked.fail .invalidSparseExtent
  else if s.root.metadata.hardlinkTo.isSome then Checked.fail .invalidHardlinkRelation
  else .ok ()

lemma checkHole_eq (content : Content) (hole : Difz.Metadata.Hole) :
    checkHole content hole = Checked.ofExcept (Difz.Directory.checkHole content hole) := by
  cases content with
  | directory mode => rfl
  | symlink target => rfl
  | file mode bytes =>
    have hfits := bytes.fits
    rw [checkHole, Difz.Directory.checkHole]
    dsimp only
    by_cases hbegin : hole.offset.toNat > bytes.bytes.length
    · rw [if_pos (.inl hbegin), Checked.or, if_pos (by simpa using hbegin)]
      rfl
    rw [Checked.sub_of_le (Nat.le_of_not_lt hbegin), ok_bind]
    by_cases hend : hole.length.toNat > bytes.bytes.length - hole.offset.toNat
    · rw [if_pos (.inr hend)]
      simp [Checked.or, hbegin, hend, ok_bind, pure, Except.pure]
    · rw [if_neg (by tauto), Checked.add_of_lt (by omega), Checked.ofExcept_ite]
      simp only [Checked.or, hbegin, hend, decide_false, ok_bind, pure, Except.pure,
        Bool.false_eq_true, if_false]
      rw [Checked.slice_of_le (by omega) (by omega), ok_bind]
      rfl

lemma checkHardlink_eq {entries before after : List Entry} {e : Entry}
    (h : entries = before ++ e :: after) : checkHardlink entries before.length e
      = Checked.ofExcept (Difz.Directory.checkHardlink before e) := by
  have hbefore : entries.take before.length = before := by rw [h, List.take_left]
  rw [checkHardlink, Difz.Directory.checkHardlink]
  cases e.metadata.metadata.hardlinkTo with
  | none => rfl
  | some path =>
    dsimp only
    cases e.content with
    | directory mode => rfl
    | symlink target => rfl
    | file mode bytes =>
      dsimp only
      rw [Checked.slice_take (by simp [h]), ok_bind, hbefore, findAmong_eq h, ok_bind]
      cases entryAt before path with
      | none => rfl
      | some target =>
        dsimp only
        cases target.content with
        | directory mode => rfl
        | symlink target => rfl
        | file targetMode targetBytes =>
          dsimp only
          rw [Checked.ofExcept_ite]
          rfl

lemma check_eq (s : Snapshot) : check s = Checked.ofExcept s.check := by
  have hdata : ∀ e ∈ s.entries, (View.record e).data.length < 2 ^ 64 := by
    intro e _
    change e.structure.data.length < 2 ^ 64
    rw [Entry.structure]
    cases e.content with
    | directory mode => simp
    | file mode bytes => exact bytes.fits
    | symlink target => exact target.fits
  have hloop : enumerate (checkEntry s.entries) 0 s.entries
      = Checked.ofExcept (forBefore Difz.Directory.checkEntry [] s.entries) := by
    refine enumerate_eq_forBefore fun before e after hsplit => ?_
    rw [checkEntry, Difz.Directory.checkEntry, Checked.ofExcept_bind, checkHardlink_eq hsplit,
      Checked.forM_eq_ofExcept fun hole _ => checkHole_eq e.content hole]
  rw [check, Snapshot.check, validate_eq hdata, hloop]
  simp only [Checked.ofExcept_bind, Checked.ofExcept_ite]
  rfl

/-- `CanonicalSnapshot::new`. -/
def new (s : Snapshot) : Checked Error CanonicalSnapshot :=
  Checked.certify (check s) fun h => ⟨s, Checked.ofExcept_eq_ok.mp ((check_eq s).symm.trans h)⟩

lemma new_eq (s : Snapshot) : new s = Checked.ofExcept (CanonicalSnapshot.new s) := by
  refine Checked.certify_eq (check_eq s) (fun _ => CanonicalSnapshot.new_eq_ok.mpr rfl) ?_
  intro e he
  unfold CanonicalSnapshot.new
  split
  · next e' h => exact congrArg _ (Except.error.inj (h.symm.trans he))
  · next h => exact absurd (he.symm.trans h) (by simp)

end Directory

end Machine

end Difz
