import Difz.Tree.Omission
import Difz.Zig.Create
import Mathlib.Data.List.DropRight

/-!
# Omission lists

The option of the command line that names the families to leave out, as both programs parse it
(`parseOmit` of `src/metadata.zig` and `Omit::parse` of `rust/src/metadata.rs`). A list is accepted
when its elements are the names of different families, with spaces around them at most.
-/

namespace Difz

open Wire

namespace Metadata

def Family.name : Family → List UInt8
  | .xattr => utf8 "xattr"
  | .acl => utf8 "acl"
  | .timestamps => utf8 "timestamps"
  | .finder => utf8 "finder"
  | .sparse => utf8 "sparse"
  | .hardlink => utf8 "hardlink"

/-! ### The Rust crate -/

/-- `omit.0 |= family.bit()` -/
def Omit.insert (mask : Omit) (family : Family) : Omit where
  bits := mask.bits ||| family.bit
  valid := by
    have hbit : family.bit &&& ~~~Family.mask = 0 := by cases family <;> decide
    rw [or_and_mask, mask.valid, hbit, UInt32.or_zero]

/-- The loop over `strip_prefix`. -/
def stripPrefixes : List UInt8 → List UInt8
  | 0x20 :: tail => stripPrefixes tail
  | name => name

/-- The loop over `strip_suffix`. -/
def stripSuffixes (name : List UInt8) : List UInt8 := (stripPrefixes name.reverse).reverse

/-- One element of the list. -/
def Omit.parsePart (omit_ : Omit) (part : List UInt8) : Except Error Omit :=
  let name := stripSuffixes (stripPrefixes part)
  if name.isEmpty then .error .emptyFamily
  else
    match Family.all.find? fun family => family.name == name with
    | none => .error .unknownFamily
    | some family =>
      if omit_.contains family then .error .duplicateFamily else .ok (omit_.insert family)

def Omit.parse (text : List UInt8) : Except Error Omit :=
  if text.isEmpty then .ok Omit.default
  else (text.splitOn 0x2c).foldlM Omit.parsePart Omit.default

end Metadata

namespace Zig

open Metadata (Family)

/-! ### The native program -/

/-- `std.mem.trim` of spaces. -/
def trim (slice : List UInt8) : List UInt8 := (slice.dropWhile (· == 0x20)).rdropWhile (· == 0x20)

def familyByName (name : List UInt8) : Option Family :=
  if name = utf8 "xattr" then some .xattr
  else if name = utf8 "acl" then some .acl
  else if name = utf8 "timestamps" then some .timestamps
  else if name = utf8 "finder" then some .finder
  else if name = utf8 "sparse" then some .sparse
  else if name = utf8 "hardlink" then some .hardlink
  else none

/-- One turn of the loop over the parts. -/
def parseFamily (omit_ : Omit) (raw : List UInt8) : Except Metadata.Error Omit :=
  let name := trim raw
  if name.length = 0 then .error .emptyFamily
  else
    match familyByName name with
    | none => .error .unknownFamily
    | some .xattr =>
      if omit_.xattr then .error .duplicateFamily else .ok { omit_ with xattr := true }
    | some .acl => if omit_.acl then .error .duplicateFamily else .ok { omit_ with acl := true }
    | some .timestamps =>
      if omit_.timestamps then .error .duplicateFamily else .ok { omit_ with timestamps := true }
    | some .finder =>
      if omit_.finder then .error .duplicateFamily else .ok { omit_ with finder := true }
    | some .sparse =>
      if omit_.sparse then .error .duplicateFamily else .ok { omit_ with sparse := true }
    | some .hardlink =>
      if omit_.hardlink then .error .duplicateFamily else .ok { omit_ with hardlink := true }

def parseOmit (text : List UInt8) : Except Metadata.Error Omit :=
  let omit_ : Omit := ⟨false, false, false, false, false, false⟩
  if text.length = 0 then .ok omit_ else (text.splitOn 0x2c).foldlM parseFamily omit_

end Zig

namespace Metadata

/-! ### Elements -/

lemma stripPrefixes_eq (name : List UInt8) : stripPrefixes name = name.dropWhile (· == 0x20) := by
  fun_induction stripPrefixes name with
  | case1 tail ih => rw [ih, List.dropWhile_cons_of_pos (by decide)]
  | case2 name h =>
    cases name with
    | nil => rfl
    | cons b tail =>
      have hb : b ≠ 0x20 := fun heq => h tail (by rw [heq])
      rw [List.dropWhile_cons_of_neg (by simpa using hb)]

lemma strip_eq_trim (part : List UInt8) :
    stripSuffixes (stripPrefixes part) = Zig.trim part := by
  rw [stripSuffixes, stripPrefixes_eq, stripPrefixes_eq, Zig.trim, List.rdropWhile]

/-- A name with spaces on both sides of it. -/
def Spelled (part : List UInt8) (family : Family) : Prop :=
  ∃ before after, part
    = List.replicate before 0x20 ++ (family.name ++ List.replicate after 0x20)

lemma Family.name_ends (family : Family) : ∃ first middle last,
    family.name = first :: (middle ++ [last]) ∧ first ≠ 0x20 ∧ last ≠ 0x20 := by
  cases family
  · exact ⟨0x78, utf8 "att", 0x72, by decide, by decide, by decide⟩
  · exact ⟨0x61, utf8 "c", 0x6c, by decide, by decide, by decide⟩
  · exact ⟨0x74, utf8 "imestamp", 0x73, by decide, by decide, by decide⟩
  · exact ⟨0x66, utf8 "inde", 0x72, by decide, by decide, by decide⟩
  · exact ⟨0x73, utf8 "pars", 0x65, by decide, by decide, by decide⟩
  · exact ⟨0x68, utf8 "ardlin", 0x6b, by decide, by decide, by decide⟩

lemma dropWhile_spaces (n : Nat) (tail : List UInt8) :
    (List.replicate n 0x20 ++ tail).dropWhile (· == 0x20) = tail.dropWhile (· == 0x20) := by
  induction n with
  | zero => rfl
  | succ n ih =>
    rw [List.replicate_succ, List.cons_append, List.dropWhile_cons_of_pos (by decide), ih]

lemma exists_spaces (name : List UInt8) : ∃ n,
    name = List.replicate n 0x20 ++ name.dropWhile (· == 0x20) := by
  induction name with
  | nil => exact ⟨0, rfl⟩
  | cons b name ih =>
    by_cases hb : b = 0x20
    · obtain ⟨n, hn⟩ := ih
      refine ⟨n + 1, ?_⟩
      rw [List.replicate_succ, List.cons_append, List.dropWhile_cons_of_pos (by simpa using hb),
        ← hn, hb]
    · exact ⟨0, by rw [List.dropWhile_cons_of_neg (by simpa using hb)]; rfl⟩

/-- Trimming leaves the name of a family exactly where nothing but spaces is around it. -/
lemma trim_eq_name {part : List UInt8} {family : Family} :
    Zig.trim part = family.name ↔ Spelled part family := by
  rw [Zig.trim, List.rdropWhile]
  constructor
  · intro h
    obtain ⟨before, hbefore⟩ := exists_spaces part
    obtain ⟨after, hafter⟩ := exists_spaces (part.dropWhile (· == 0x20)).reverse
    have hrest : part.dropWhile (· == 0x20) = family.name ++ List.replicate after 0x20 := by
      rw [← h, ← List.reverse_inj, List.reverse_append, List.reverse_reverse,
        List.reverse_replicate]
      exact hafter
    refine ⟨before, after, ?_⟩
    rw [← hrest]
    exact hbefore
  · rintro ⟨before, after, rfl⟩
    obtain ⟨first, middle, last, hname, hfirst, hlast⟩ := family.name_ends
    have hfront : (family.name ++ List.replicate after 0x20).dropWhile (· == 0x20)
        = family.name ++ List.replicate after 0x20 := by
      rw [hname, List.cons_append, List.dropWhile_cons_of_neg (by simpa using hfirst)]
    have hback : family.name.reverse.dropWhile (· == 0x20) = family.name.reverse := by
      rw [hname, ← List.cons_append, List.reverse_append, List.reverse_singleton,
        List.singleton_append, List.dropWhile_cons_of_neg (by simpa using hlast)]
    rw [dropWhile_spaces, hfront, List.reverse_append, List.reverse_replicate, dropWhile_spaces,
      hback, List.reverse_reverse]

lemma name_ne_nil (family : Family) : family.name ≠ [] := by
  cases family <;> decide

/-- The family that a search over all of them finds by its name. -/
lemma find_eq_some {name : List UInt8} {family : Family} :
    Family.all.find? (fun family => family.name == name) = some family ↔ name = family.name := by
  constructor
  · intro h
    exact (beq_iff_eq.mp (List.find?_some (p := fun family : Family => family.name == name) h)).symm
  · rintro rfl
    cases family <;> decide

lemma familyByName_eq_some {name : List UInt8} {family : Family} :
    Zig.familyByName name = some family ↔ name = family.name := by
  constructor
  · intro h
    unfold Zig.familyByName at h
    split_ifs at h with hname
    all_goals obtain rfl := Option.some.inj h
    all_goals assumption
  · rintro rfl
    cases family <;> decide

lemma find_eq_byName (name : List UInt8) :
    Family.all.find? (fun family => family.name == name) = Zig.familyByName name := by
  refine Option.ext fun family => ?_
  rw [find_eq_some, familyByName_eq_some]

/-! ### Lists -/

lemma Omit.contains_insert (mask : Omit) (family other : Family) :
    (mask.insert family).contains other = (mask.contains other || other == family) := by
  have hbit : ∀ a b : Family, (a.bit &&& b.bit != 0) = (b == a) := by
    intro a b
    cases a <;> cases b <;> decide
  rw [Bool.eq_iff_iff, Bool.or_eq_true, ← hbit family other]
  simp only [Omit.contains, Omit.insert, or_and_mask, bne_iff_ne, ne_eq, UInt32.or_eq_zero_iff,
    not_and_or]

/-- A mask is given by the families in it. -/
lemma Omit.ext_contains {a b : Omit} (h : ∀ family, a.contains family = b.contains family) :
    a = b := by
  have hof : Zig.Omit.of a = Zig.Omit.of b := by
    rw [Zig.Omit.of, Zig.Omit.of]
    simp only [h]
  have hbits := (Zig.Omit.bits_of a).symm.trans ((congrArg Zig.Omit.bits hof).trans
    (Zig.Omit.bits_of b))
  cases a
  cases b
  simpa using hbits

/-- One element is one more family. -/
lemma Omit.parsePart_eq_ok {mask next : Omit} {part : List UInt8} :
    mask.parsePart part = .ok next ↔
      ∃ family, Spelled part family ∧ mask.contains family = false ∧
        next = mask.insert family := by
  rw [Omit.parsePart, strip_eq_trim]
  constructor
  · intro h
    rw [ite_error_eq_ok] at h
    split at h
    · exact absurd h.2 (by simp)
    · next family hfamily =>
      rw [ite_error_eq_ok] at h
      exact ⟨family, trim_eq_name.mp (find_eq_some.mp hfamily), by simpa using h.2.1,
        (Except.ok.inj h.2.2).symm⟩
  · rintro ⟨family, hspelled, hnew, rfl⟩
    have hname := trim_eq_name.mpr hspelled
    have hne : ¬(Zig.trim part).isEmpty = true := by
      rw [hname, List.isEmpty_iff]
      exact name_ne_nil family
    rw [if_neg hne, find_eq_some.mpr hname]
    dsimp only
    rw [hnew, if_neg Bool.false_ne_true]

lemma foldlM_parsePart {mask result : Omit} {parts : List (List UInt8)} :
    parts.foldlM Omit.parsePart mask = .ok result ↔
      ∃ families, List.Forall₂ Spelled parts families ∧ families.Nodup ∧
        (∀ family ∈ families, mask.contains family = false) ∧
        ∀ family, result.contains family = (mask.contains family || families.contains family) := by
  induction parts generalizing mask with
  | nil =>
    constructor
    · intro h
      obtain rfl := Except.ok.inj h
      exact ⟨[], .nil, List.nodup_nil, by simp, by simp⟩
    · rintro ⟨families, hspelled, -, -, hresult⟩
      obtain rfl := List.forall₂_nil_left_iff.mp hspelled
      exact congrArg Except.ok (Omit.ext_contains fun family => by simp [hresult])
  | cons part parts ih =>
    rw [List.foldlM_cons, Wire.bind_eq_ok]
    constructor
    · rintro ⟨next, hnext, hrest⟩
      obtain ⟨family, hfamily, hnew, rfl⟩ := Omit.parsePart_eq_ok.mp hnext
      obtain ⟨families, hspelled, hnodup, hfresh, hresult⟩ := ih.mp hrest
      have hapart : ∀ other ∈ families, mask.contains other = false ∧ other ≠ family := by
        intro other hother
        simpa [Omit.contains_insert] using hfresh other hother
      refine ⟨family :: families, .cons hfamily hspelled, List.nodup_cons.mpr ⟨?_, hnodup⟩, ?_, ?_⟩
      · exact fun hmem => (hapart family hmem).2 rfl
      · exact List.forall_mem_cons.mpr ⟨hnew, fun other hother => (hapart other hother).1⟩
      · intro other
        rw [hresult, Omit.contains_insert, List.contains_cons, Bool.or_assoc]
    · rintro ⟨families, hspelled, hnodup, hfresh, hresult⟩
      obtain ⟨family, families, hfamily, hrest, rfl⟩ := List.forall₂_cons_left_iff.mp hspelled
      obtain ⟨hmem, hnodup⟩ := List.nodup_cons.mp hnodup
      obtain ⟨hnew, hfresh⟩ := List.forall_mem_cons.mp hfresh
      refine ⟨mask.insert family, Omit.parsePart_eq_ok.mpr ⟨family, hfamily, hnew, rfl⟩,
        ih.mpr ⟨families, hrest, hnodup, fun other hother => ?_, fun other => ?_⟩⟩
      · rw [Omit.contains_insert, hfresh other hother, Bool.false_or, beq_eq_false_iff_ne]
        rintro rfl
        exact hmem hother
      · rw [hresult, Omit.contains_insert, List.contains_cons, Bool.or_assoc]

/-- What a text is accepted as. -/
lemma Omit.parse_eq_ok {text : List UInt8} {mask : Omit} : Omit.parse text = .ok mask ↔
    text = [] ∧ mask = Omit.default ∨
    ∃ families, List.Forall₂ Spelled (text.splitOn 0x2c) families ∧ families.Nodup ∧
      ∀ family, mask.contains family = families.contains family := by
  rw [Omit.parse]
  by_cases hempty : text = []
  · have hnone : ¬∃ families, List.Forall₂ Spelled (text.splitOn 0x2c) families := by
      rintro ⟨families, hspelled⟩
      rw [hempty, List.splitOn_nil] at hspelled
      obtain ⟨family, _, hfamily, -⟩ := List.forall₂_cons_left_iff.mp hspelled
      exact name_ne_nil family (trim_eq_name.mpr hfamily).symm
    rw [if_pos (by simpa using hempty), Except.ok.injEq, eq_comm]
    constructor
    · exact fun h => .inl ⟨hempty, h⟩
    · rintro (h | ⟨families, hspelled, -⟩)
      · exact h.2
      · exact absurd ⟨families, hspelled⟩ hnone
  · rw [if_neg (by simpa using hempty), foldlM_parsePart]
    simp [hempty]

/-- The names of the families in a mask, with commas between them. -/
def Omit.text (mask : Omit) : List UInt8 :=
  [0x2c].intercalate ((Family.all.filter mask.contains).map Family.name)

lemma Omit.parse_text (mask : Omit) : Omit.parse mask.text = .ok mask := by
  rw [Omit.parse_eq_ok]
  by_cases hnone : Family.all.filter mask.contains = []
  · refine .inl ⟨by rw [Omit.text, hnone]; rfl, Omit.ext_contains fun family => ?_⟩
    have hfamily := List.filter_eq_nil_iff.mp hnone family family.mem_all
    rw [Omit.contains_default]
    simpa using hfamily
  · refine .inr ⟨Family.all.filter mask.contains, ?_, ?_, fun family => ?_⟩
    · have hcomma : ∀ name ∈ (Family.all.filter mask.contains).map Family.name,
          (0x2c : UInt8) ∉ name := by
        intro name hname
        obtain ⟨family, -, rfl⟩ := List.mem_map.mp hname
        cases family <;> decide
      rw [Omit.text, List.splitOn_intercalate 0x2c hcomma (by simpa using hnone),
        List.forall₂_map_left_iff, List.forall₂_same]
      exact fun family _ => ⟨0, 0, by simp⟩
    · exact List.Nodup.filter _ (by decide)
    · rw [Bool.eq_iff_iff, List.contains_iff_mem, List.mem_filter]
      exact ⟨fun h => ⟨family.mem_all, h⟩, fun h => h.2⟩

end Metadata

namespace Zig

open Metadata (Family)

/-! ### Both programs -/

lemma parseFamily_eq (mask : Metadata.Omit) (raw : List UInt8) :
    parseFamily (Omit.of mask) raw = (mask.parsePart raw).map Omit.of := by
  rw [parseFamily, Metadata.Omit.parsePart, Metadata.strip_eq_trim, Metadata.find_eq_byName]
  simp only [List.length_eq_zero_iff, List.isEmpty_iff]
  by_cases hempty : trim raw = []
  · rw [if_pos hempty, if_pos hempty]
    rfl
  rw [if_neg hempty, if_neg hempty]
  cases hfamily : familyByName (trim raw) with
  | none => rfl
  | some family =>
    have hsame : ∀ next : Omit, Omit.of (mask.insert family) = next →
        (if mask.contains family then .error .duplicateFamily
            else .ok next : Except Metadata.Error Omit)
          = (if mask.contains family then .error .duplicateFamily
            else .ok (mask.insert family) : Except Metadata.Error Metadata.Omit).map Omit.of := by
      rintro next rfl
      split_ifs <;> rfl
    cases family with
    | xattr | acl | timestamps | finder | sparse | hardlink =>
      refine hsame _ ?_
      simp [Omit.of, Metadata.Omit.contains_insert]

lemma of_default : Omit.of Metadata.Omit.default = ⟨false, false, false, false, false, false⟩ := by
  simp [Omit.of]

lemma foldlM_parseFamily (mask : Metadata.Omit) (parts : List (List UInt8)) :
    parts.foldlM parseFamily (Omit.of mask)
      = (parts.foldlM Metadata.Omit.parsePart mask).map Omit.of := by
  induction parts generalizing mask with
  | nil => rfl
  | cons part parts ih =>
    rw [List.foldlM_cons, List.foldlM_cons, parseFamily_eq]
    cases mask.parsePart part with
    | error e => rfl
    | ok next => exact ih next

lemma parseOmit_eq (text : List UInt8) :
    parseOmit text = (Metadata.Omit.parse text).map Omit.of := by
  rw [parseOmit, Metadata.Omit.parse, ← of_default, foldlM_parseFamily]
  simp only [List.length_eq_zero_iff, List.isEmpty_iff]
  split_ifs <;> rfl

/-- Omission lists mean the same to both programs, errors included. A text is accepted when it is
empty or a list of the names of different families, in any order and with spaces around each, and
gives the mask of these families; every mask has such a text. -/
theorem parseOmit_spec (text : List UInt8) :
    parseOmit text = (Metadata.Omit.parse text).map Omit.of ∧
    (∀ mask, Metadata.Omit.parse text = .ok mask ↔
      text = [] ∧ mask = Metadata.Omit.default ∨
      ∃ families, List.Forall₂ Metadata.Spelled (text.splitOn 0x2c) families ∧ families.Nodup ∧
        ∀ family, mask.contains family = families.contains family) ∧
    ∀ mask : Metadata.Omit, parseOmit mask.text = .ok (Omit.of mask) := by
  refine ⟨parseOmit_eq text, fun mask => Metadata.Omit.parse_eq_ok, fun mask => ?_⟩
  rw [parseOmit_eq, Metadata.Omit.parse_text]
  rfl

example : (parseOmit (utf8 " finder ,acl")).map Omit.bits = .ok 10 := by decide

example : (parseOmit (utf8 "acl,,finder")).map Omit.bits = .error .emptyFamily := by decide

end Zig

end Difz
