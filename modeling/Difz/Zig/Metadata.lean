import Difz.Metadata.Canonical

/-!
# Metadata of the native program

The field layout of a record and its digest as `src/metadata.zig` writes them. The native program
keeps the three permissions of an access entry apart and puts every integer by itself; the bytes
are those of `Metadata.wire`.
-/

namespace Difz

open Wire Metadata

namespace Zig

/-! ### Permissions -/

/-- The permission byte, built bit by bit. -/
def permissionBits (read write execute : Bool) : UInt8 :=
  (if read then 1 else 0) ||| (if write then 2 else 0) ||| (if execute then 4 else 0)

lemma permissionBits_valid (read write execute : Bool) :
    permissionBits read write execute &&& ~~~7 = 0 := by
  revert read write execute
  decide

/-- The three flags of an access entry. -/
def permissions (read write execute : Bool) : Permissions :=
  ⟨permissionBits read write execute, permissionBits_valid read write execute⟩

def canRead (p : Permissions) : Bool := p.bits &&& 1 != 0

def canWrite (p : Permissions) : Bool := p.bits &&& 2 != 0

def canExecute (p : Permissions) : Bool := p.bits &&& 4 != 0

/-- The flags say the same as the byte. -/
lemma permissionBits_of_valid (b : UInt8) (h : b &&& ~~~7 = 0) :
    permissionBits (b &&& 1 != 0) (b &&& 2 != 0) (b &&& 4 != 0) = b := by
  obtain ⟨v⟩ := b
  revert v
  decide +kernel

/-! ### The field layout -/

def putU32 (length : Nat) : List UInt8 := toLeBytes (UInt32.ofNat length)

def writeXattr (x : Xattr) : List (List UInt8) :=
  [[x.class_.tag], putU32 x.name.length, x.name, putU32 x.value.length, x.value]

def writeAce (a : Ace) : List (List UInt8) :=
  let bits := permissionBits (canRead a.permissions) (canWrite a.permissions)
    (canExecute a.permissions)
  [[a.tag.tag], [bits], putU32 a.name.length, a.name]

def writeNativeAcl : Option NativeAcl → List (List UInt8)
  | some acl => [[acl.origin.tag], putU32 acl.bytes.length, acl.bytes]
  | none => [[0]]

def timeFlags (t : Times) : UInt8 :=
  (if t.mtime.isSome then 1 else 0) ||| (if t.atime.isSome then 2 else 0)
    ||| (if t.btime.isSome then 4 else 0)

def writeTime : Option Time → List (List UInt8)
  | some time => [toLeBytes time.sec, toLeBytes time.nsec]
  | none => []

def writeHole (h : Hole) : List (List UInt8) := [toLeBytes h.offset, toLeBytes h.length]

/-- The arguments of the successive `put` calls. -/
def writeCanonical (m : Metadata) : List (List UInt8) :=
  [putU32 m.xattrs.length] ++ m.xattrs.flatMap writeXattr
    ++ [putU32 m.aces.length] ++ m.aces.flatMap writeAce
    ++ writeNativeAcl m.nativeAcl
    ++ [[timeFlags m.times]]
    ++ writeTime m.times.mtime ++ writeTime m.times.atime ++ writeTime m.times.btime
    ++ [toLeBytes m.finderFlags]
    ++ (match m.finderInfo with
        | some info => [[1], info.toList]
        | none => [[0]])
    ++ [putU32 m.holes.length] ++ m.holes.flatMap writeHole
    ++ (match m.hardlinkTo with
        | some path => [[1], putU32 path.length, path]
        | none => [[0]])

def encodeCanonical (m : Metadata) : List UInt8 :=
  (writeCanonical m).foldl (fun list bytes => list ++ bytes) []

def canonicalHash (blake3 : List UInt8 → Digest) (m : Metadata) : Digest :=
  blake3 ((writeCanonical m).foldl (fun input bytes => input ++ bytes) (utf8 "DIFZMETA\x01"))

lemma foldl_append_eq (ws : List (List UInt8)) (acc : List UInt8) :
    ws.foldl (fun output bytes => output ++ bytes) acc = acc ++ ws.flatten := by
  induction ws generalizing acc with
  | nil => simp
  | cons w ws ih => simp [ih]

lemma flatten_flatMap_congr {α : Type} {xs : List α} {f g : α → List (List UInt8)}
    (h : ∀ x, (f x).flatten = (g x).flatten) : (xs.flatMap f).flatten = (xs.flatMap g).flatten := by
  induction xs with
  | nil => rfl
  | cons x xs ih => simp [ih, h]

lemma timeFlags_eq (t : Times) : timeFlags t = t.flags := by
  obtain ⟨m, a, b⟩ := t
  simp only [timeFlags, Times.flags, List.zipIdx, List.foldl]
  generalize m.isSome = m', a.isSome = a', b.isSome = b'
  revert m' a' b'
  decide

/-- Both programs write the same bytes. -/
theorem flatten_writeCanonical (m : Metadata) : (writeCanonical m).flatten = m.wire := by
  have haces : (m.aces.flatMap writeAce).flatten = (m.aces.flatMap Ace.pieces).flatten := by
    refine flatten_flatMap_congr fun a => ?_
    have hbits := permissionBits_of_valid a.permissions.bits a.permissions.valid
    simp [writeAce, Ace.pieces, canRead, canWrite, canExecute, hbits, putU32]
  have hacl : writeNativeAcl m.nativeAcl = NativeAcl.pieces m.nativeAcl := by
    cases m.nativeAcl <;> rfl
  have htimes : m.times.present.flatMap Time.pieces
      = writeTime m.times.mtime ++ (writeTime m.times.atime ++ writeTime m.times.btime) := by
    obtain ⟨mtime, atime, btime⟩ := m.times
    cases mtime <;> cases atime <;> cases btime <;> rfl
  have hinfo : (match m.finderInfo with
      | some info => [[1], info.toList]
      | none => [[0]]) = finderInfoPieces m.finderInfo := by
    cases m.finderInfo <;> rfl
  have hlink : (match m.hardlinkTo with
      | some path => [[1], putU32 path.length, path]
      | none => [[0]]) = hardlinkPieces m.hardlinkTo := by
    cases m.hardlinkTo <;> rfl
  have hxattrs : writeXattr = Xattr.pieces := rfl
  have hholes : writeHole = Hole.pieces := rfl
  rw [writeCanonical, hacl, hinfo, hlink, hxattrs, hholes, timeFlags_eq, wire, pieces,
    Times.pieces, htimes]
  simp [haces, putU32]

lemma encodeCanonical_eq (m : Metadata) : encodeCanonical m = m.wire := by
  rw [encodeCanonical, foldl_append_eq, flatten_writeCanonical, List.nil_append]

lemma canonicalHash_eq (blake3 : List UInt8 → Digest) (c : CanonicalMetadata) :
    canonicalHash blake3 c.metadata = c.hash blake3 := by
  rw [canonicalHash, foldl_append_eq, flatten_writeCanonical, CanonicalMetadata.hash_eq]

end Zig

end Difz
