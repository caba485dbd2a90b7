import Difz.Metadata.Basic

/-!
# Canonical metadata records

The raw record, the checks that make it canonical, its wire encoding and its digest
(`rust/src/metadata_record.rs`, `rust/src/metadata_canonical.rs`), and the copy that leaves out
omitted families (`rust/src/metadata_borrow.rs`). Reservations of memory are taken to succeed.
-/

namespace Difz

open Wire

/-- `[u8; 32]`. -/
abbrev Digest := List.Vector UInt8 32

namespace Metadata

/-! ### Records -/

structure Permissions where
  bits : UInt8
  valid : bits &&& ~~~7 = 0
  deriving DecidableEq, Repr

def Permissions.fromBits (bits : UInt8) : Except Error Permissions :=
  if h : bits &&& ~~~7 = 0 then .ok ⟨bits, h⟩ else .error .badMetadata

lemma Permissions.fromBits_eq_ok {bits : UInt8} {p : Permissions} :
    Permissions.fromBits bits = .ok p ↔ bits = p.bits := by
  rw [Permissions.fromBits]
  split_ifs with h
  · cases p
    simp
  · constructor
    · intro hc
      exact absurd hc (by simp)
    · rintro rfl
      exact absurd p.valid h

structure Xattr where
  class_ : XattrClass
  name : List UInt8
  value : List UInt8
  deriving DecidableEq, Repr

structure Ace where
  tag : AceTag
  permissions : Permissions
  name : List UInt8
  deriving DecidableEq, Repr

structure NativeAcl where
  origin : Os
  bytes : List UInt8
  deriving DecidableEq, Repr

structure Times where
  mtime : Option Time
  atime : Option Time
  btime : Option Time
  deriving DecidableEq, Repr

/-- No timestamp at all. -/
def Times.default : Times := ⟨none, none, none⟩

structure Hole where
  offset : UInt64
  length : UInt64
  deriving DecidableEq, Repr

end Metadata

open Metadata

/-- An unvalidated record. -/
structure Metadata where
  xattrs : List Xattr
  aces : List Ace
  nativeAcl : Option NativeAcl
  times : Times
  finderFlags : UInt32
  finderInfo : Option (List.Vector UInt8 32)
  holes : List Hole
  hardlinkTo : Option (List UInt8)
  deriving DecidableEq

namespace Metadata

/-- The record without any family. -/
def default : Metadata := ⟨[], [], none, Times.default, 0, none, [], none⟩

def isEmpty (m : Metadata) : Bool :=
  m.xattrs.isEmpty && m.aces.isEmpty && m.nativeAcl.isNone && m.times == Times.default
    && m.finderFlags == 0 && m.finderInfo.isNone && m.holes.isEmpty && m.hardlinkTo.isNone

lemma isEmpty_iff (m : Metadata) : m.isEmpty = true ↔ m = default := by
  cases m
  simp [isEmpty, default, and_assoc]

/-! ### Validation -/

/-- `u32::try_from(length)`. -/
def wireLength (length : Nat) : Except Error Unit :=
  if length < 2 ^ 32 then .ok () else .error .badMetadata

lemma wireLength_eq_ok {n : Nat} : wireLength n = .ok () ↔ n < 2 ^ 32 := by
  rw [wireLength]
  split_ifs with h
  · exact iff_of_true rfl h
  · exact iff_of_false (by simp) h

/-- Check every item against its predecessor. -/
def forPrevious {ε α : Type} (check : Option α → α → Except ε Unit) :
    Option α → List α → Except ε Unit
  | _, [] => .ok ()
  | previous, x :: xs => do
    check previous x
    forPrevious check (some x) xs

lemma forPrevious_cons_eq_ok {ε α : Type} {check : Option α → α → Except ε Unit} {p : Option α}
    {x : α} {xs : List α} : forPrevious check p (x :: xs) = .ok () ↔
      check p x = .ok () ∧ forPrevious check (some x) xs = .ok () := by
  rw [forPrevious, seq_eq_ok]

/-- Each item passed its check behind some predecessor. -/
lemma exists_check_of_forPrevious {ε α : Type} {check : Option α → α → Except ε Unit}
    {p : Option α} {xs : List α} (h : forPrevious check p xs = .ok ()) {x : α} (hx : x ∈ xs) :
    ∃ q, check q x = .ok () := by
  induction xs generalizing p with
  | nil => simp at hx
  | cons y ys ih =>
    obtain ⟨hy, hys⟩ := forPrevious_cons_eq_ok.mp h
    rcases List.mem_cons.mp hx with rfl | hx
    · exact ⟨p, hy⟩
    · exact ih hys hx

/-- Sort keys: a `(tag, name)` pair compares like the byte string of the tag and the name. -/
def Xattr.key (x : Xattr) : List UInt8 := x.class_.tag :: x.name

def Ace.key (a : Ace) : List UInt8 := a.tag.tag :: a.name

/-- The order check shared by attributes and entries of an access list. -/
def checkOrder {α : Type} (key : α → List UInt8) (duplicate : Error) (previous : Option α) (x : α) :
    Except Error Unit :=
  match previous with
  | none => .ok ()
  | some p =>
    if key p = key x then .error duplicate
    else if compare (key p) (key x) ≠ .lt then .error .badMetadata
    else .ok ()

def checkXattr (previous : Option Xattr) (x : Xattr) : Except Error Unit := do
  validateXattrName x.class_ x.name
  wireLength x.value.length
  checkOrder Xattr.key .duplicateXattr previous x

def checkAce (previous : Option Ace) (a : Ace) : Except Error Unit := do
  validateAceName a.tag a.name
  wireLength a.name.length
  checkOrder Ace.key .duplicateAce previous a

def checkNativeAcl : Option NativeAcl → Except Error Unit
  | none => .ok ()
  | some acl =>
    if acl.bytes.isEmpty then .error .emptyNativeAcl else wireLength acl.bytes.length

/-- The timestamps that are present, in wire order. -/
def Times.present (t : Times) : List Time := [t.mtime, t.atime, t.btime].flatMap Option.toList

def checkTimes (t : Times) : Except Error Unit :=
  if t.present.any (fun value => value.nsec ≥ 1000000000) then .error .invalidNsec else .ok ()

def checkHole (previous : Option Hole) (h : Hole) : Except Error Unit :=
  if h.length = 0 then .error .zeroLengthHole
  else if h.offset.toNat + h.length.toNat ≥ 2 ^ 64 then .error .holeOverflow
  else match previous with
    | none => .ok ()
    | some p =>
      if h.offset.toNat ≤ p.offset.toNat + p.length.toNat then .error .badMetadata else .ok ()

def checkHardlink : Option (List UInt8) → Except Error Unit
  | none => .ok ()
  | some path => validateHardlink path

def validate (m : Metadata) : Except Error Unit := do
  wireLength m.xattrs.length
  forPrevious checkXattr none m.xattrs
  wireLength m.aces.length
  forPrevious checkAce none m.aces
  checkNativeAcl m.nativeAcl
  checkTimes m.times
  wireLength m.holes.length
  forPrevious checkHole none m.holes
  checkHardlink m.hardlinkTo

/-- What validation asks of a record, family by family. -/
structure Valid (m : Metadata) : Prop where
  xattrCount : m.xattrs.length < 2 ^ 32
  xattrs : forPrevious checkXattr none m.xattrs = .ok ()
  aceCount : m.aces.length < 2 ^ 32
  aces : forPrevious checkAce none m.aces = .ok ()
  nativeAcl : checkNativeAcl m.nativeAcl = .ok ()
  times : checkTimes m.times = .ok ()
  holeCount : m.holes.length < 2 ^ 32
  holes : forPrevious checkHole none m.holes = .ok ()
  hardlinkTo : checkHardlink m.hardlinkTo = .ok ()

lemma validate_eq_ok {m : Metadata} : validate m = .ok () ↔ m.Valid := by
  simp only [validate, seq_eq_ok, wireLength_eq_ok]
  constructor
  · intro h
    obtain ⟨h₁, h₂, h₃, h₄, h₅, h₆, h₇, h₈, h₉⟩ := h
    exact ⟨h₁, h₂, h₃, h₄, h₅, h₆, h₇, h₈, h₉⟩
  · intro h
    obtain ⟨h₁, h₂, h₃, h₄, h₅, h₆, h₇, h₈, h₉⟩ := h
    exact ⟨h₁, h₂, h₃, h₄, h₅, h₆, h₇, h₈, h₉⟩

end Metadata

/-- A record that passed validation. -/
structure CanonicalMetadata where
  metadata : Metadata
  valid : metadata.validate = .ok ()
  deriving DecidableEq

namespace CanonicalMetadata

def new (m : Metadata) : Except Error CanonicalMetadata :=
  match h : m.validate with
  | .error e => .error e
  | .ok () => .ok ⟨m, h⟩

lemma new_eq_ok {m : Metadata} {c : CanonicalMetadata} : new m = .ok c ↔ c.metadata = m := by
  obtain ⟨m', hm'⟩ := c
  unfold new
  split
  · next e h =>
    simp only [reduceCtorEq, false_iff]
    rintro rfl
    rw [hm'] at h
    exact absurd h (by simp)
  · simp [eq_comm]

def default : CanonicalMetadata := ⟨Metadata.default, rfl⟩

lemma ext_metadata {a b : CanonicalMetadata} (h : a.metadata = b.metadata) : a = b := by
  cases a
  cases b
  simp_all

lemma isValid (c : CanonicalMetadata) : c.metadata.Valid := validate_eq_ok.mp c.valid

end CanonicalMetadata

namespace Metadata

/-! ### The wire encoding -/

/-- The presence byte of the three timestamps. -/
def Times.flags (t : Times) : UInt8 :=
  [t.mtime, t.atime, t.btime].zipIdx.foldl
    (fun bits p => bits ||| ((if p.1.isSome then 1 else 0) <<< UInt8.ofNat p.2)) 0

def Xattr.pieces (x : Xattr) : List (List UInt8) :=
  [ [x.class_.tag]
  , toLeBytes (UInt32.ofNat x.name.length)
  , x.name
  , toLeBytes (UInt32.ofNat x.value.length)
  , x.value ]

def Ace.pieces (a : Ace) : List (List UInt8) :=
  [ [a.tag.tag, a.permissions.bits]
  , toLeBytes (UInt32.ofNat a.name.length)
  , a.name ]

def NativeAcl.pieces : Option NativeAcl → List (List UInt8)
  | none => [[0]]
  | some acl => [[acl.origin.tag], toLeBytes (UInt32.ofNat acl.bytes.length), acl.bytes]

def Time.pieces (t : Time) : List (List UInt8) := [toLeBytes t.sec, toLeBytes t.nsec]

def Times.pieces (t : Times) : List (List UInt8) := [t.flags] :: t.present.flatMap Time.pieces

def finderInfoPieces : Option (List.Vector UInt8 32) → List (List UInt8)
  | none => [[0]]
  | some bytes => [[1], bytes.toList]

def Hole.pieces (h : Hole) : List (List UInt8) := [toLeBytes h.offset, toLeBytes h.length]

def hardlinkPieces : Option (List UInt8) → List (List UInt8)
  | none => [[0]]
  | some path => [[1], toLeBytes (UInt32.ofNat path.length), path]

/-- The arguments of the successive `put` calls of `write`. -/
def pieces (m : Metadata) : List (List UInt8) :=
  [toLeBytes (UInt32.ofNat m.xattrs.length)] ++ m.xattrs.flatMap Xattr.pieces
    ++ [toLeBytes (UInt32.ofNat m.aces.length)] ++ m.aces.flatMap Ace.pieces
    ++ NativeAcl.pieces m.nativeAcl
    ++ m.times.pieces
    ++ [toLeBytes m.finderFlags] ++ finderInfoPieces m.finderInfo
    ++ [toLeBytes (UInt32.ofNat m.holes.length)] ++ m.holes.flatMap Hole.pieces
    ++ hardlinkPieces m.hardlinkTo

/-- The bytes of a record on the wire. -/
def wire (m : Metadata) : List UInt8 := m.pieces.flatten

/-- Counts, flags and presence bytes alone take twenty bytes. -/
lemma length_wire_ge (m : Metadata) : 20 ≤ m.wire.length := by
  have hacl : 1 ≤ (NativeAcl.pieces m.nativeAcl).flatten.length := by
    cases m.nativeAcl <;> simp [NativeAcl.pieces]
  have htimes : 1 ≤ m.times.pieces.flatten.length := by simp [Times.pieces]
  have hinfo : 1 ≤ (finderInfoPieces m.finderInfo).flatten.length := by
    cases m.finderInfo <;> simp [finderInfoPieces]
  have hlink : 1 ≤ (hardlinkPieces m.hardlinkTo).flatten.length := by
    cases m.hardlinkTo <;> simp [hardlinkPieces]
  simp only [wire, pieces, List.flatten_append, List.length_append, List.flatten_cons,
    List.flatten_nil, List.append_nil, length_toLeBytes, width_uint32]
  omega

end Metadata

namespace CanonicalMetadata

/-- Feed every piece to `put`, which threads a state and may fail. -/
def write {ε σ : Type} (c : CanonicalMetadata) (put : σ → List UInt8 → Except ε σ) (s : σ) :
    Except ε σ :=
  c.metadata.pieces.foldlM put s

/-- `checked_add` on `usize`. -/
def checkedAdd (a b : Nat) : Option Nat := if a + b < 2 ^ 64 then some (a + b) else none

/-- The counting `put` of `encoded_len`. -/
def addLength (length : Nat) (bytes : List UInt8) : Except Error Nat :=
  match checkedAdd length bytes.length with
  | some sum => .ok sum
  | none => .error .badMetadata

def encodedLen (c : CanonicalMetadata) : Except Error Nat := c.write addLength 0

def encode (c : CanonicalMetadata) : Except Error (List UInt8) := do
  let _ ← c.encodedLen
  c.write (fun output bytes => .ok (output ++ bytes)) []

/-- The digest of a record under its own domain. -/
def hash (blake3 : List UInt8 → Digest) (c : CanonicalMetadata) : Digest :=
  match c.write (fun input bytes => (.ok (input ++ bytes) : Except Empty (List UInt8)))
    (utf8 "DIFZMETA\x01") with
  | .ok input => blake3 input

private lemma foldlM_append {ε : Type} (ws : List (List UInt8)) (acc : List UInt8) :
    ws.foldlM (fun output bytes => (.ok (output ++ bytes) : Except ε (List UInt8))) acc
      = .ok (acc ++ ws.flatten) := by
  induction ws generalizing acc with
  | nil => simp; rfl
  | cons w ws ih =>
    rw [List.foldlM_cons, ok_bind, ih, List.flatten_cons, List.append_assoc]

private lemma foldlM_length (ws : List (List UInt8)) (n : Nat) (hn : n < 2 ^ 64) :
    ws.foldlM addLength n
      = if n + ws.flatten.length < 2 ^ 64 then .ok (n + ws.flatten.length)
        else .error .badMetadata := by
  induction ws generalizing n with
  | nil => exact (if_pos hn).symm
  | cons w ws ih =>
    rw [List.foldlM_cons, addLength, checkedAdd]
    by_cases hw : n + w.length < 2 ^ 64
    · simp only [hw, if_true, ok_bind, ih _ hw, List.flatten_cons, List.length_append,
        Nat.add_assoc]
    · have : ¬n + (w :: ws).flatten.length < 2 ^ 64 := by
        simp only [List.flatten_cons, List.length_append]
        omega
      simp only [hw, if_false, error_bind, this]

/-- The length pass counts the encoding, and fails only past the address space. -/
lemma encodedLen_eq (c : CanonicalMetadata) :
    c.encodedLen = if c.metadata.wire.length < 2 ^ 64 then .ok c.metadata.wire.length
      else .error .badMetadata := by
  have h := foldlM_length c.metadata.pieces 0 (by norm_num)
  rw [Nat.zero_add] at h
  exact h

lemma encode_eq (c : CanonicalMetadata) :
    c.encode = if c.metadata.wire.length < 2 ^ 64 then .ok c.metadata.wire
      else .error .badMetadata := by
  rw [encode, encodedLen_eq]
  split_ifs
  · simp [ok_bind, write, foldlM_append, Metadata.wire]
  · rfl

lemma hash_eq (blake3 : List UInt8 → Digest) (c : CanonicalMetadata) :
    c.hash blake3 = blake3 (utf8 "DIFZMETA\x01" ++ c.metadata.wire) := by
  simp [hash, write, foldlM_append, Metadata.wire]

end CanonicalMetadata

namespace Metadata

/-! ### Leaving out families -/

/-- Copy the fields of one family. -/
def copyFamily (m value : Metadata) : Family → Metadata
  | .xattr => { value with xattrs := m.xattrs }
  | .acl => { value with aces := m.aces, nativeAcl := m.nativeAcl }
  | .timestamps => { value with times := m.times }
  | .finder => { value with finderFlags := m.finderFlags, finderInfo := m.finderInfo }
  | .sparse => { value with holes := m.holes }
  | .hardlink => { value with hardlinkTo := m.hardlinkTo }

/-- The record with only the families outside `mask`. -/
def retain (m : Metadata) (mask : Omit) : Metadata :=
  Family.all.foldl
    (fun value family => if mask.contains family then value else m.copyFamily value family) default

/-- One round, field by field. -/
lemma copyFamily_unless (omitted : Bool) (m value : Metadata) (family : Family) :
    (if omitted then value else m.copyFamily value family) =
      { xattrs := if omitted ∨ family ≠ .xattr then value.xattrs else m.xattrs
        aces := if omitted ∨ family ≠ .acl then value.aces else m.aces
        nativeAcl := if omitted ∨ family ≠ .acl then value.nativeAcl else m.nativeAcl
        times := if omitted ∨ family ≠ .timestamps then value.times else m.times
        finderFlags := if omitted ∨ family ≠ .finder then value.finderFlags else m.finderFlags
        finderInfo := if omitted ∨ family ≠ .finder then value.finderInfo else m.finderInfo
        holes := if omitted ∨ family ≠ .sparse then value.holes else m.holes
        hardlinkTo := if omitted ∨ family ≠ .hardlink then value.hardlinkTo else m.hardlinkTo } := by
  cases omitted <;> cases family <;> rfl

lemma retain_eq (m : Metadata) (mask : Omit) : m.retain mask =
    { xattrs := if mask.contains .xattr then [] else m.xattrs
      aces := if mask.contains .acl then [] else m.aces
      nativeAcl := if mask.contains .acl then none else m.nativeAcl
      times := if mask.contains .timestamps then Times.default else m.times
      finderFlags := if mask.contains .finder then 0 else m.finderFlags
      finderInfo := if mask.contains .finder then none else m.finderInfo
      holes := if mask.contains .sparse then [] else m.holes
      hardlinkTo := if mask.contains .hardlink then none else m.hardlinkTo } := by
  rw [retain]
  simp only [copyFamily_unless, Family.all, List.foldl, ne_eq, reduceCtorEq, not_true_eq_false,
    not_false_eq_true, or_false, or_true, if_true]
  rfl

/-- Leaving out families keeps a record valid. -/
lemma Valid.retain {m : Metadata} (h : m.Valid) (mask : Omit) : (m.retain mask).Valid := by
  rw [retain_eq]
  exact
    { xattrCount := by dsimp only; split_ifs; exacts [by simp, h.xattrCount]
      xattrs := by dsimp only; split_ifs; exacts [rfl, h.xattrs]
      aceCount := by dsimp only; split_ifs; exacts [by simp, h.aceCount]
      aces := by dsimp only; split_ifs; exacts [rfl, h.aces]
      nativeAcl := by dsimp only; split_ifs; exacts [rfl, h.nativeAcl]
      times := by dsimp only; split_ifs; exacts [rfl, h.times]
      holeCount := by dsimp only; split_ifs; exacts [by simp, h.holeCount]
      holes := by dsimp only; split_ifs; exacts [rfl, h.holes]
      hardlinkTo := by dsimp only; split_ifs; exacts [rfl, h.hardlinkTo] }

lemma retain_default (m : Metadata) : m.retain Omit.default = m := by
  simp [retain_eq]

end Metadata

namespace CanonicalMetadata

/-- `borrowing_omitting`. -/
def borrowingOmitting (c : CanonicalMetadata) (mask : Omit) : Except Error CanonicalMetadata :=
  new (c.metadata.retain mask)

/-- The copy `borrowingOmitting` always produces. -/
def retain (c : CanonicalMetadata) (mask : Omit) : CanonicalMetadata :=
  ⟨c.metadata.retain mask, validate_eq_ok.mpr (c.isValid.retain mask)⟩

lemma borrowingOmitting_eq (c : CanonicalMetadata) (mask : Omit) :
    c.borrowingOmitting mask = .ok (c.retain mask) :=
  new_eq_ok.mpr rfl

lemma retain_default (c : CanonicalMetadata) : c.retain Omit.default = c :=
  ext_metadata c.metadata.retain_default

end CanonicalMetadata

end Difz
