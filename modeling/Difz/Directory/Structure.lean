import Difz.Metadata.Canonical
import Difz.Wire.Search
import Mathlib.Data.List.TakeWhile

/-!
# Tree structure

The path and link grammar (`rust/src/directory.rs`) and the check of an ordered list of entries
(`rust/src/directory_structure.rs`): sorted distinct paths, parents before their children, and
entry shape. The check runs entry by entry against the entries before it; `validate_eq_ok` states
it for a whole list, and the results about accepted lists follow from there.
-/

namespace Difz

open Wire

namespace Directory

def maxEntries : Nat := 1000000

def maxPathBytes : Nat := 4096

inductive Error
  | emptyPath
  | invalidUtf8
  | absolutePath
  | backslashSeparator
  | nulByte
  | invalidComponent
  | drivePrefix
  | pathsNotSorted
  | duplicatePath
  | missingParent
  | parentNotDirectory
  | invalidMode
  | invalidEntryData
  | symlinkEscapesRoot
  | tooManyEntries
  | pathTooLong
  | invalidHardlinkRelation
  | invalidSparseExtent
  deriving DecidableEq, Repr

/-! ### Paths and link targets -/

/-- `path.split(|byte| *byte == b'/')`. -/
def components (path : List UInt8) : List (List UInt8) := path.splitOn 0x2f

def validateText (bytes : List UInt8) : Except Error Unit :=
  if !isUtf8 bytes then .error .invalidUtf8
  else if (utf8 "/").isPrefixOf bytes then .error .absolutePath
  else if bytes.contains 0x5c then .error .backslashSeparator
  else if bytes.contains 0 then .error .nulByte
  else if bytes.length ≥ 2 && bytes.head?.any isAsciiAlphabetic && bytes[1]? == some 0x3a then
    .error .drivePrefix
  else .ok ()

def validatePath (path : List UInt8) : Except Error Unit :=
  if path.isEmpty then .error .emptyPath
  else if path.length > maxPathBytes then .error .pathTooLong
  else do
    validateText path
    if (components path).any (fun part =>
        part.isEmpty || part == utf8 "." || part == utf8 "..") then
      .error .invalidComponent
    else .ok ()

/-- The lexical depth reached by walking `parts` from `depth`. -/
def walkDepth : Nat → List (List UInt8) → Except Error Nat
  | depth, [] => .ok depth
  | depth, part :: parts =>
    if part = [] then .error .invalidComponent
    else if part = utf8 "." then walkDepth depth parts
    else if part = utf8 ".." then
      if depth = 0 then .error .symlinkEscapesRoot else walkDepth (depth - 1) parts
    else walkDepth (depth + 1) parts

def validateSymlinkTarget (linkPath target : List UInt8) : Except Error Unit := do
  validatePath linkPath
  if target.isEmpty then .error .invalidEntryData
  else do
    validateText target
    let _ ← walkDepth (linkPath.count 0x2f) (components target)
    .ok ()

/-- The path up to the last separator, if there is one. -/
def parentPath (path : List UInt8) : Option (List UInt8) :=
  if path.contains 0x2f then some (path.reverse.dropWhile (· != 0x2f)).tail.reverse else none

/-! ### Entries -/

/-- Portable permission bits. -/
structure Mode where
  bits : UInt16
  valid : bits &&& ~~~0o777 = 0
  deriving DecidableEq, Repr

def Mode.fromBits (bits : UInt16) : Except Error Mode :=
  if h : bits &&& ~~~0o777 = 0 then .ok ⟨bits, h⟩ else .error .invalidMode

lemma Mode.fromBits_eq_ok {bits : UInt16} {mode : Mode} :
    Mode.fromBits bits = .ok mode ↔ bits = mode.bits := by
  rw [Mode.fromBits]
  split_ifs with h
  · cases mode
    simp
  · constructor
    · intro hc
      exact absurd hc (by simp)
    · rintro rfl
      exact absurd mode.valid h

lemma Mode.ext_bits {a b : Mode} (h : a.bits = b.bits) : a = b := by
  cases a
  cases b
  simp_all

/-- The mode every symbolic link has. -/
def Mode.link : Mode := ⟨0o777, by decide⟩

inductive Kind
  | directory | file | symlink
  deriving DecidableEq, Repr

/-- What structure validation sees of an entry. -/
structure Record where
  path : List UInt8
  mode : UInt16
  kind : Kind
  data : List UInt8
  deriving DecidableEq, Repr

/-- Types whose values can be seen as records: `View` of the source. -/
class View (T : Type) where
  record : T → Record

instance : View Record := ⟨id⟩

@[simp]
lemma record_record (record : Record) : View.record record = record := rfl

variable {T : Type} [View T]

def pathOf (entry : T) : List UInt8 := (View.record entry).path

/-- `find_path`: binary search by path. -/
def findPath (entries : List T) (path : List UInt8) : Option Nat :=
  Search.find pathOf entries path

/-- The entry at the position `findPath` returns. -/
def entryAt (entries : List T) (path : List UInt8) : Option T :=
  (findPath entries path).bind (entries[·]?)

/-- The kind-specific part of the check. -/
def validateKind (record : Record) : Except Error Unit :=
  match record.kind with
  | .directory => if !record.data.isEmpty then .error .invalidEntryData else .ok ()
  | .file => .ok ()
  | .symlink =>
    if record.mode ≠ 0o777 then .error .invalidMode
    else validateSymlinkTarget record.path record.data

/-- The order check against the entry just before. -/
def validateOrder (previous : Option T) (path : List UInt8) : Except Error Unit :=
  match previous with
  | none => .ok ()
  | some p =>
    match compare (pathOf p) path with
    | .eq => .error .duplicatePath
    | .gt => .error .pathsNotSorted
    | .lt => .ok ()

/-- The parent of a path below the root must be a directory among the entries before. -/
def validateParent (before : List T) (path : List UInt8) : Except Error Unit :=
  match parentPath path with
  | none => .ok ()
  | some parent =>
    match entryAt before parent with
    | none => .error .missingParent
    | some entry =>
      match (View.record entry).kind with
      | .directory => .ok ()
      | .file | .symlink => .error .parentNotDirectory

/-- The body of the loop for the entry behind `before`. -/
def validateEntry (before : List T) (entry : T) : Except Error Unit := do
  let record := View.record entry
  validatePath record.path
  let _ ← Mode.fromBits record.mode
  validateKind record
  validateOrder before.getLast? record.path
  validateParent before record.path

/-- Run a check on every entry, given the entries before it. -/
def forBefore {ε α : Type} (check : List α → α → Except ε Unit) :
    List α → List α → Except ε Unit
  | _, [] => .ok ()
  | before, x :: xs => do
    check before x
    forBefore check (before ++ [x]) xs

def validate (entries : List T) : Except Error Unit :=
  if entries.length > maxEntries then .error .tooManyEntries
  else forBefore validateEntry [] entries

/-! ### Parents -/

lemma parentPath_eq_none_iff {path : List UInt8} : parentPath path = none ↔ 0x2f ∉ path := by
  rw [parentPath]
  split_ifs with h
  · simpa using h
  · simpa using h

/-- The parent path and the last component, joined by a separator, are the path. -/
lemma parentPath_eq_some_iff {path parent : List UInt8} :
    parentPath path = some parent ↔ ∃ name, 0x2f ∉ name ∧ path = parent ++ 0x2f :: name := by
  constructor
  · intro h
    rw [parentPath] at h
    split_ifs at h with hmem
    have hne : path.reverse.dropWhile (· != 0x2f) ≠ [] := by
      intro hc
      have := List.dropWhile_eq_nil_iff.mp hc 0x2f (by simpa using hmem)
      simp at this
    have hhead := List.head_dropWhile_not (· != 0x2f) hne
    have hsplit := List.takeWhile_append_dropWhile (p := (· != 0x2f)) (l := path.reverse)
    -- the part of the reversed path before its first separator is the last component
    refine ⟨(path.reverse.takeWhile (· != 0x2f)).reverse, ?_, ?_⟩
    · intro hc
      have := List.mem_takeWhile_imp (List.mem_reverse.mp hc)
      simp at this
    · obtain ⟨b, tl, htl⟩ := List.exists_cons_of_ne_nil hne
      have hb : b = 0x2f := by
        simp only [htl, List.head_cons] at hhead
        simpa using hhead
      rw [htl, List.tail_cons] at h
      rw [htl, hb] at hsplit
      rw [← Option.some.inj h]
      have := congrArg List.reverse hsplit
      rw [List.reverse_append, List.reverse_cons, List.reverse_reverse] at this
      simpa using this.symm
  · intro h'
    obtain ⟨name, hname, rfl⟩ := h'
    have hdrop : (name.reverse ++ 0x2f :: parent.reverse).dropWhile (· != 0x2f)
        = 0x2f :: parent.reverse := by
      rw [List.dropWhile_append_of_pos]
      · simp
      · intro x hx
        rw [bne_iff_ne]
        rintro rfl
        exact hname (List.mem_reverse.mp hx)
    have hrev : (parent ++ 0x2f :: name).reverse = name.reverse ++ 0x2f :: parent.reverse := by
      simp
    rw [parentPath, if_pos (by simp), hrev, hdrop, List.tail_cons, List.reverse_reverse]

/-! ### Validated lists -/

lemma forBefore_eq_ok {ε α : Type} {check : List α → α → Except ε Unit} {before xs : List α} :
    forBefore check before xs = .ok () ↔
      ∀ pre x post, xs = pre ++ x :: post → check (before ++ pre) x = .ok () := by
  induction xs generalizing before with
  | nil => simp [forBefore]
  | cons y ys ih =>
    rw [forBefore, seq_eq_ok, ih]
    constructor
    · intro hx pre x post h
      obtain ⟨hy, hys⟩ := hx
      cases pre with
      | nil =>
        obtain ⟨rfl, -⟩ := List.cons.inj h
        simpa using hy
      | cons z pre =>
        obtain ⟨rfl, rfl⟩ := List.cons.inj h
        simpa using hys pre x post rfl
    · intro h
      refine ⟨by simpa using h [] y ys rfl, fun pre x post hys => ?_⟩
      simpa using h (y :: pre) x post (by simp [hys])

/-- A check that sees its arguments only through `f`, wherever the run calls it. -/
lemma forBefore_map {ε α β : Type} (f : α → β) {check : List α → α → Except ε Unit}
    {check' : List β → β → Except ε Unit} {before xs : List α}
    (h : ∀ pre x post, before ++ xs = pre ++ x :: post →
      check' (pre.map f) (f x) = check pre x) :
    forBefore check' (before.map f) (xs.map f) = forBefore check before xs := by
  induction xs generalizing before with
  | nil => rfl
  | cons y ys ih =>
    have hys : before ++ y :: ys = before ++ [y] ++ ys := by simp
    have hrest := ih (hys ▸ h)
    rw [List.map_append, List.map_cons, List.map_nil] at hrest
    rw [List.map_cons, forBefore, forBefore, h before y ys rfl, hrest]

/-- A map that keeps paths commutes with the search. -/
lemma entryAt_map {S : Type} [View S] (f : S → T) (hf : ∀ x, pathOf (f x) = pathOf x)
    (entries : List S) (path : List UInt8) :
    entryAt (entries.map f) path = (entryAt entries path).map f := by
  have hfind : findPath (entries.map f) path = findPath entries path := by
    rw [findPath, Search.find_map, findPath]
    exact Search.find_congr _ _ _ _ _ (List.map_congr_left fun x _ => hf x)
  rw [entryAt, entryAt, hfind]
  cases findPath entries path <;> simp

/-- What the search finds is there. -/
lemma mem_of_entryAt {entries : List T} {path : List UInt8} {e : T}
    (h : entryAt entries path = some e) : e ∈ entries ∧ pathOf e = path := by
  rw [entryAt, Option.bind_eq_some_iff] at h
  obtain ⟨i, hi, he⟩ := h
  obtain ⟨x, hx, hk⟩ := Search.window_sound hi
  obtain rfl := Option.some.inj (hx.symm.trans he)
  exact ⟨List.mem_of_getElem? he, hk⟩

/-- The part of a record the check depends on: file data may be anything. -/
def Record.shape (record : Record) : Record :=
  match record.kind with
  | .file => { record with data := [] }
  | .directory | .symlink => record

lemma Record.shape_path (record : Record) : record.shape.path = record.path := by
  rw [shape]
  split <;> rfl

lemma Record.shape_mode (record : Record) : record.shape.mode = record.mode := by
  rw [shape]
  split <;> rfl

lemma Record.shape_kind (record : Record) : record.shape.kind = record.kind := by
  rw [shape]
  split <;> rfl

lemma validateKind_shape (record : Record) : validateKind record.shape = validateKind record := by
  obtain ⟨path, mode, kind, data⟩ := record
  cases kind <;> rfl

/-- The shape of an entry. -/
def shapeOf (entry : T) : Record := (View.record entry).shape

lemma pathOf_shapeOf (entry : T) : pathOf (shapeOf entry) = pathOf entry := Record.shape_path _

lemma validateEntry_map_shapeOf (before : List T) (entry : T) :
    validateEntry (before.map shapeOf) (shapeOf entry) = validateEntry before entry := by
  have horder : validateOrder (before.map shapeOf).getLast? (View.record entry).path
      = validateOrder before.getLast? (View.record entry).path := by
    rw [List.getLast?_map]
    cases before.getLast? with
    | none => rfl
    | some p => simp only [Option.map_some, validateOrder, pathOf_shapeOf]
  have hparent : validateParent (before.map shapeOf) (View.record entry).path
      = validateParent before (View.record entry).path := by
    rw [validateParent, validateParent]
    split
    · rfl
    · next parent _ =>
      rw [entryAt_map shapeOf pathOf_shapeOf]
      cases entryAt before parent with
      | none => rfl
      | some e =>
        change (match (shapeOf e).kind with
          | .directory => _ | .file | .symlink => _) = _
        rw [shapeOf, Record.shape_kind]
  simp only [validateEntry, record_record, shapeOf, Record.shape_path, Record.shape_mode,
    validateKind_shape] at horder hparent ⊢
  rw [horder, hparent]

/-- Validation looks at shapes only. -/
theorem validate_map_shapeOf (entries : List T) :
    validate (entries.map shapeOf) = validate entries := by
  have hrun : forBefore validateEntry (([] : List T).map shapeOf) (entries.map shapeOf)
      = forBefore validateEntry [] entries :=
    forBefore_map shapeOf fun pre x _ _ => validateEntry_map_shapeOf pre x
  simp only [validate, List.length_map]
  rw [← hrun, List.map_nil]

lemma validate_congr {S : Type} [View S] {xs : List S} {ys : List T}
    (h : xs.map shapeOf = ys.map shapeOf) : validate xs = validate ys := by
  rw [← validate_map_shapeOf xs, h, validate_map_shapeOf]

/-- Acceptance, entry by entry. -/
lemma validate_eq_ok {entries : List T} : validate entries = .ok () ↔
    entries.length ≤ maxEntries ∧
      ∀ before e after, entries = before ++ e :: after → validateEntry before e = .ok () := by
  rw [validate, ite_error_eq_ok, forBefore_eq_ok, gt_iff_lt, not_lt]
  simp

/-- The parts of the check of one entry. -/
structure EntryOk (before : List T) (e : T) : Prop where
  path : validatePath (pathOf e) = .ok ()
  mode : (View.record e).mode &&& ~~~0o777 = 0
  kind : validateKind (View.record e) = .ok ()
  order : validateOrder before.getLast? (pathOf e) = .ok ()
  parent : validateParent before (pathOf e) = .ok ()

lemma validateEntry_eq_ok {before : List T} {e : T} :
    validateEntry before e = .ok () ↔ EntryOk before e := by
  have hmode : (∃ m, Mode.fromBits (View.record e).mode = .ok m) ↔
      (View.record e).mode &&& ~~~0o777 = 0 := by
    simp only [Mode.fromBits_eq_ok]
    constructor
    · intro hx
      obtain ⟨m, hm⟩ := hx
      rw [hm]
      exact m.valid
    · intro h
      exact ⟨⟨_, h⟩, rfl⟩
  rw [validateEntry, seq_eq_ok, Wire.bind_eq_ok]
  simp only [seq_eq_ok]
  constructor
  · intro hx
    obtain ⟨h₁, m, hm, h₃, h₄, h₅⟩ := hx
    exact ⟨h₁, hmode.mp ⟨m, hm⟩, h₃, h₄, h₅⟩
  · intro hx
    obtain ⟨h₁, h₂, h₃, h₄, h₅⟩ := hx
    obtain ⟨m, hm⟩ := hmode.mpr h₂
    exact ⟨h₁, m, hm, h₃, h₄, h₅⟩

lemma entryOk_of_validate {entries before after : List T} {e : T}
    (h : validate entries = .ok ()) (hsplit : entries = before ++ e :: after) :
    EntryOk before e :=
  validateEntry_eq_ok.mp ((validate_eq_ok.mp h).2 before e after hsplit)

lemma validateOrder_some_eq_ok {p : T} {path : List UInt8} :
    validateOrder (some p) path = .ok () ↔ compare (pathOf p) path = .lt := by
  rw [validateOrder]
  cases compare (pathOf p) path <;> simp

/-- Accepted paths strictly increase. -/
theorem sorted_of_validate {entries : List T} (h : validate entries = .ok ()) :
    Search.Sorted pathOf entries := by
  suffices hall : ∀ n, Search.Sorted pathOf (entries.take n) by
    simpa using hall entries.length
  intro n
  -- a prefix grows by one entry, which lies above the last one and hence above all
  induction n with
  | zero => simp [Search.Sorted]
  | succ n ih =>
    by_cases hn : n < entries.length
    · rw [List.take_succ_eq_append_getElem hn]
      refine List.pairwise_append.mpr ⟨ih, List.pairwise_singleton _ _, fun a ha b hb => ?_⟩
      obtain rfl := List.mem_singleton.mp hb
      have hsplit : entries = entries.take n ++ entries[n] :: entries.drop (n + 1) := by simp
      have hok := entryOk_of_validate h hsplit
      have horder := hok.order
      obtain ⟨init, l, hl⟩ : ∃ init l, entries.take n = init ++ [l] := by
        rcases List.eq_nil_or_concat (entries.take n) with hnil | ⟨init, l, hl⟩
        · simp [hnil] at ha
        · exact ⟨init, l, by simpa using hl⟩
      rw [hl, List.getLast?_concat, validateOrder_some_eq_ok] at horder
      rw [hl] at ha ih
      rcases List.mem_append.mp ha with ha | ha
      · have := (List.pairwise_append.mp ih).2.2 a ha l (by simp)
        exact Std.TransCmp.lt_trans this horder
      · obtain rfl := List.mem_singleton.mp ha
        exact horder
    · rw [List.take_of_length_le (by omega)]
      rwa [List.take_of_length_le (by omega)] at ih

/-- Among sorted entries a path has at most one entry, and the search finds it. -/
lemma entryAt_eq_some_iff {entries : List T} (hs : Search.Sorted pathOf entries)
    {path : List UInt8} {e : T} :
    entryAt entries path = some e ↔ e ∈ entries ∧ pathOf e = path := by
  rw [entryAt, Option.bind_eq_some_iff]
  constructor
  · intro h
    obtain ⟨i, hi, he⟩ := h
    obtain ⟨x, hx, hk⟩ := (Search.find_eq_some_iff hs).mp hi
    obtain rfl := Option.some.inj (hx.symm.trans he)
    exact ⟨List.mem_of_getElem? he, hk⟩
  · intro h
    obtain ⟨he, hk⟩ := h
    obtain ⟨i, hi⟩ := List.mem_iff_getElem?.mp he
    exact ⟨i, (Search.find_eq_some_iff hs).mpr ⟨e, hi, hk⟩, hi⟩

end Directory

end Difz
