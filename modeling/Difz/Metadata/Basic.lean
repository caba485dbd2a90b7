import Difz.Wire.Reader
import Difz.Wire.Text

/-!
# Metadata primitives

Omission masks, wire enumerations, attribute and principal names, and timestamps
(`rust/src/metadata.rs`). Each check returns the error the source returns, in the source's order.
-/

namespace Difz

open Wire

/-- A byte slice of the source: its length is a `usize`. -/
@[ext]
structure Slice where
  bytes : List UInt8
  fits : bytes.length < 2 ^ 64
  deriving DecidableEq

/-- `as_bytes` of a string. -/
def utf8 (s : String) : List UInt8 := s.toUTF8.data.toList

/-- `core::str::from_utf8(bytes).is_ok()`. -/
def isUtf8 (bytes : List UInt8) : Bool := (ByteArray.mk bytes.toArray).validateUTF8

/-- `core::str::from_utf8(bytes)`. -/
def fromUtf8 (bytes : List UInt8) : Option String := String.fromUTF8? ⟨bytes.toArray⟩

lemma fromUtf8_eq_some_iff {bytes : List UInt8} {s : String} :
    fromUtf8 bytes = some s ↔ bytes = utf8 s := by
  rw [fromUtf8, String.fromUTF8?, utf8, String.toUTF8_eq_toByteArray]
  split_ifs with h
  · rw [Option.some.injEq, String.fromUTF8, ← String.toByteArray_inj]
    constructor
    · intro hs
      rw [← hs]
    · rintro rfl
      rfl
  · constructor
    · intro hc
      exact absurd hc (by simp)
    · rintro rfl
      exact absurd s.isValidUTF8 h

lemma utf8_injective : Function.Injective utf8 := by
  intro s t h
  have hs := fromUtf8_eq_some_iff.mpr (rfl : utf8 s = utf8 s)
  have ht := fromUtf8_eq_some_iff.mpr h
  exact Option.some.inj (hs.symm.trans ht)

lemma isUtf8_iff {bytes : List UInt8} : isUtf8 bytes = true ↔ ∃ s, bytes = utf8 s := by
  have hsome : isUtf8 bytes = true ↔ (fromUtf8 bytes).isSome = true := by
    rw [fromUtf8, String.fromUTF8?, isUtf8]
    split_ifs with h
    · simpa using h
    · simpa using h
  rw [hsome, Option.isSome_iff_exists]
  simp only [fromUtf8_eq_some_iff]

lemma utf8_eq_encodeChars (s : String) : utf8 s = encodeChars s.toList := by
  rw [utf8, String.toUTF8_eq_toByteArray, ← String.utf8Encode_toList, List.utf8Encode]
  simp [encodeChars]

lemma length_toList_le (s : String) : s.toList.length ≤ (utf8 s).length := by
  rw [utf8_eq_encodeChars]
  exact length_le_length_encodeChars _

/-- `strip_prefix` on byte slices. -/
def stripPrefix (pre bytes : List UInt8) : Option (List UInt8) :=
  if pre.isPrefixOf bytes then some (bytes.drop pre.length) else none

lemma stripPrefix_eq_some_iff {pre bytes rest : List UInt8} :
    stripPrefix pre bytes = some rest ↔ bytes = pre ++ rest := by
  rw [stripPrefix]
  split_ifs with h
  · obtain ⟨t, rfl⟩ := List.isPrefixOf_iff_prefix.mp h
    simp
  · constructor
    · intro hc
      exact absurd hc (by simp)
    · rintro rfl
      exact absurd (List.isPrefixOf_iff_prefix.mpr (List.prefix_append _ _)) h

def toAsciiLowercase (b : UInt8) : UInt8 := if 65 ≤ b ∧ b ≤ 90 then b + 32 else b

def eqIgnoreAsciiCase (a b : List UInt8) : Bool :=
  a.map toAsciiLowercase == b.map toAsciiLowercase

def isAsciiAlphabetic (b : UInt8) : Bool := (65 ≤ b && b ≤ 90) || (97 ≤ b && b ≤ 122)

namespace Metadata

inductive Error
  | invalidOmitMask
  | emptyFamily
  | unknownFamily
  | duplicateFamily
  | invalidNsec
  | badMetadata
  | emptyName
  | invalidLogicalName
  | reservedTransportName
  | invalidRawName
  | invalidHardlink
  | invalidAceName
  | outOfMemory
  | duplicateXattr
  | duplicateAce
  | emptyNativeAcl
  | zeroLengthHole
  | holeOverflow
  | truncatedMetadata
  | trailingMetadata
  deriving DecidableEq, Repr

/-! ### Families and omission masks -/

/-- The families of metadata a patch may omit. -/
inductive Family
  | xattr | acl | timestamps | finder | sparse | hardlink
  deriving DecidableEq, Repr

def Family.all : List Family := [.xattr, .acl, .timestamps, .finder, .sparse, .hardlink]

lemma Family.mem_all (f : Family) : f ∈ Family.all := by cases f <;> decide

def Family.tag : Family → UInt32
  | .xattr => 1
  | .acl => 2
  | .timestamps => 3
  | .finder => 4
  | .sparse => 5
  | .hardlink => 6

def Family.bit (f : Family) : UInt32 := 1 <<< (f.tag - 1)

def Family.mask : UInt32 := Family.all.foldl (fun bits f => bits ||| f.bit) 0

/-- A set of families, as the bits of a mask without unknown bits. -/
structure Omit where
  bits : UInt32
  valid : bits &&& ~~~Family.mask = 0
  deriving DecidableEq, Repr

namespace Omit

/-- The empty mask. -/
def default : Omit := ⟨0, by decide⟩

def fromBits (bits : UInt32) : Except Error Omit :=
  if h : bits &&& ~~~Family.mask = 0 then .ok ⟨bits, h⟩ else .error .invalidOmitMask

def contains (mask : Omit) (family : Family) : Bool := mask.bits &&& family.bit != 0

lemma fromBits_eq_ok {bits : UInt32} {mask : Omit} :
    fromBits bits = .ok mask ↔ bits = mask.bits := by
  rw [fromBits]
  split_ifs with h
  · cases mask
    simp
  · constructor
    · intro hc
      exact absurd hc (by simp)
    · rintro rfl
      exact absurd mask.valid h

lemma eq_default_iff (mask : Omit) : mask.bits = 0 ↔ mask = default := by
  cases mask
  simp [default]

@[simp] lemma contains_default (family : Family) : default.contains family = false := by
  cases family <;> decide

end Omit

/-! ### Wire enumerations -/

inductive Os
  | linux | macos | mswin
  deriving DecidableEq, Repr

inductive XattrClass
  | logical | raw
  deriving DecidableEq, Repr

inductive AceTag
  | owner | group | everyone | namedUser | namedGroup | mask
  deriving DecidableEq, Repr

def Os.tag : Os → UInt8
  | .linux => 1
  | .macos => 2
  | .mswin => 3

def XattrClass.tag : XattrClass → UInt8
  | .logical => 1
  | .raw => 2

def AceTag.tag : AceTag → UInt8
  | .owner => 1
  | .group => 2
  | .everyone => 3
  | .namedUser => 4
  | .namedGroup => 5
  | .mask => 6

/-- `TryFrom<u8>` of the three enumerations: the member of `all` with the given tag. -/
def enumTryFrom {α : Type} (all : List α) (tag : α → UInt8) (byte : UInt8) : Except Error α :=
  match all.find? (fun x => tag x == byte) with
  | some x => .ok x
  | none => .error .badMetadata

def Os.tryFrom : UInt8 → Except Error Os := enumTryFrom [.linux, .macos, .mswin] Os.tag

def XattrClass.tryFrom : UInt8 → Except Error XattrClass :=
  enumTryFrom [.logical, .raw] XattrClass.tag

def AceTag.tryFrom : UInt8 → Except Error AceTag :=
  enumTryFrom [.owner, .group, .everyone, .namedUser, .namedGroup, .mask] AceTag.tag

lemma enumTryFrom_eq_ok {α : Type} {all : List α} {tag : α → UInt8}
    (hall : ∀ x, x ∈ all) (hinj : Function.Injective tag) {byte : UInt8} {x : α} :
    enumTryFrom all tag byte = .ok x ↔ byte = tag x := by
  rw [enumTryFrom]
  cases hf : all.find? (fun x => tag x == byte) with
  | none =>
    have hx := List.find?_eq_none.mp hf x (hall x)
    simp only [reduceCtorEq, false_iff]
    rintro rfl
    simp at hx
  | some y =>
    have hy : tag y = byte := by simpa using List.find?_some hf
    simp only [Except.ok.injEq, ← hy, hinj.eq_iff]

lemma Os.tag_injective : Function.Injective Os.tag := by
  intro a b h
  cases a <;> cases b <;> first | rfl | exact absurd h (by decide)

lemma XattrClass.tag_injective : Function.Injective XattrClass.tag := by
  intro a b h
  cases a <;> cases b <;> first | rfl | exact absurd h (by decide)

lemma AceTag.tag_injective : Function.Injective AceTag.tag := by
  intro a b h
  cases a <;> cases b <;> first | rfl | exact absurd h (by decide)

lemma Os.tryFrom_eq_ok {byte : UInt8} {os : Os} : Os.tryFrom byte = .ok os ↔ byte = os.tag :=
  enumTryFrom_eq_ok (by intro x; cases x <;> simp) Os.tag_injective

lemma XattrClass.tryFrom_eq_ok {byte : UInt8} {c : XattrClass} :
    XattrClass.tryFrom byte = .ok c ↔ byte = c.tag :=
  enumTryFrom_eq_ok (by intro x; cases x <;> simp) XattrClass.tag_injective

lemma AceTag.tryFrom_eq_ok {byte : UInt8} {t : AceTag} :
    AceTag.tryFrom byte = .ok t ↔ byte = t.tag :=
  enumTryFrom_eq_ok (by intro x; cases x <;> simp) AceTag.tag_injective

lemma Os.tag_ne_zero (os : Os) : os.tag ≠ 0 := by cases os <;> decide

/-! ### Names -/

def transportNames : List (List UInt8) :=
  [ utf8 "difz.btime"
  , utf8 "difz.mtime"
  , utf8 "difz.finder-info"
  , utf8 "difz.bsd-flags"
  , utf8 "difz.native-acl"
  , utf8 "difz.portable-acl"
  , utf8 "difz.sparse-holes"
  , utf8 "difz.hardlink-to"
  , utf8 "difz.raw-xattrs"
  , utf8 "difz.symlinks" ]

def isTransportName (name : List UInt8) : Bool :=
  let bare := (stripPrefix (utf8 "user.") name).getD name
  transportNames.contains bare

def forbidden : List UInt8 := utf8 "/\\:*?\"<>|"

/-- The portable grammar of logical names. Native transport access shares it, so reserved names
pass here. -/
def validateLogicalName (name : List UInt8) : Except Error Unit :=
  if name.isEmpty then .error .emptyName
  else if name.length > 127
      || name.any (fun byte => byte < 0x20 || byte == 0x7f || forbidden.contains byte)
      || !isUtf8 name
      || name.head? == some 0x20
      || name.getLast? == some 0x20
      || name.getLast? == some 0x2e
      || [utf8 "user.", utf8 "com.apple.", utf8 "$"].any (fun pre =>
          pre.length ≤ name.length && eqIgnoreAsciiCase (name.take pre.length) pre)
      || eqIgnoreAsciiCase name (utf8 "zone.identifier") then
    .error .invalidLogicalName
  else .ok ()

def validateXattrName (class_ : XattrClass) (name : List UInt8) : Except Error Unit :=
  if isTransportName name then .error .reservedTransportName
  else if name.isEmpty then .error .emptyName
  else match class_ with
    | .logical => validateLogicalName name
    | .raw =>
      if name.length > 255 || name.any (fun byte => byte == 0 || byte == 0x2f || byte == 0x5c) then
        .error .invalidRawName
      else .ok ()

def validateHardlink (path : List UInt8) : Except Error Unit :=
  if path.isEmpty
      || path.length > 4096
      || !isUtf8 path
      || (utf8 "/").isPrefixOf path
      || path.contains 0x5c
      || path.contains 0
      || (path.length ≥ 2 && path.head?.any isAsciiAlphabetic && path[1]? == some 0x3a)
      || (path.splitOn 0x2f).any (fun part =>
          part.isEmpty || part == utf8 "." || part == utf8 "..") then
    .error .invalidHardlink
  else .ok ()

def validateAceName (tag : AceTag) (name : List UInt8) : Except Error Unit :=
  let valid := match tag with
    | .namedUser | .namedGroup =>
      !name.isEmpty && isUtf8 name && !name.contains 0x2f && !name.contains 0
    | .owner | .group | .everyone | .mask => name.isEmpty
  if !valid then .error .invalidAceName else .ok ()

/-- Platform eligibility of a raw name. -/
def rawAccepted (os : Os) (name : List UInt8) : Bool :=
  match os with
  | .linux =>
    [utf8 "user.", utf8 "system.", utf8 "security.", utf8 "trusted."].any fun pre =>
      pre.isPrefixOf name && name.length > pre.length
  | .macos => !name.isEmpty && name.length ≤ 127 && !name.contains 0x2f
  | .mswin =>
    !name.isEmpty && name.length ≤ 255 && !name.any (fun byte => forbidden.contains byte)

lemma length_le_of_validateLogicalName {name : List UInt8}
    (h : validateLogicalName name = .ok ()) : name.length ≤ 127 := by
  simp only [validateLogicalName, ite_error_eq_ok] at h
  obtain ⟨-, h, -⟩ := h
  simp only [Bool.or_eq_true, decide_eq_true_eq, not_or, not_lt] at h
  exact h.1.1.1.1.1.1.1

lemma length_le_of_validateXattrName {class_ : XattrClass} {name : List UInt8}
    (h : validateXattrName class_ name = .ok ()) : name.length ≤ 255 := by
  simp only [validateXattrName, ite_error_eq_ok] at h
  obtain ⟨-, -, h⟩ := h
  cases class_ with
  | logical =>
    have := length_le_of_validateLogicalName h
    omega
  | raw =>
    simp only [ite_error_eq_ok, Bool.or_eq_true, decide_eq_true_eq, not_or, not_lt] at h
    exact h.1.1

lemma length_le_of_validateHardlink {path : List UInt8}
    (h : validateHardlink path = .ok ()) : path.length ≤ 4096 := by
  simp only [validateHardlink, ite_error_eq_ok, Bool.or_eq_true, decide_eq_true_eq, not_or,
    not_lt] at h
  exact h.1.1.1.1.1.1.1.2

/-! ### Timestamps -/

structure Time where
  sec : Int64
  nsec : UInt32
  deriving DecidableEq, Repr

namespace Time

def encode (t : Time) : Except Error (List UInt8) :=
  if t.nsec ≥ 1000000000 then .error .invalidNsec
  else .ok (toLeBytes t.sec ++ toLeBytes t.nsec)

def decode (bytes : List UInt8) : Except Error Time :=
  if bytes.length ≠ 12 then .error .badMetadata
  else
    let sec := fromLeBytes (bytes.take 8)
    let nsec := fromLeBytes (bytes.drop 8)
    if nsec ≥ 1000000000 then .error .invalidNsec else .ok ⟨sec, nsec⟩

lemma decode_eq_ok {bytes : List UInt8} {t : Time} :
    decode bytes = .ok t ↔
      t.nsec < 1000000000 ∧ bytes = toLeBytes t.sec ++ toLeBytes t.nsec := by
  simp only [decode, ite_error_eq_ok, Except.ok.injEq, not_not, ge_iff_le,
    UInt32.not_le]
  constructor
  · intro h
    obtain ⟨hlen, hn, rfl⟩ := h
    refine ⟨hn, ?_⟩
    rw [toLeBytes_fromLeBytes (by simp [hlen]), toLeBytes_fromLeBytes (by simp [hlen]),
      List.take_append_drop]
  · intro h
    obtain ⟨hn, rfl⟩ := h
    have h₁ : (toLeBytes t.sec).length = 8 := by simp
    simp [List.take_left' h₁, List.drop_left' h₁, hn]

end Time

end Metadata

end Difz
