import Difz.Directory.Structure
import Difz.Metadata.Decode

/-!
# Canonical snapshots

Snapshot records (`rust/src/directory_record.rs`), the checks that make a snapshot canonical and
its digest (`rust/src/directory_canonical.rs`). A canonical snapshot carries the result of its
check, so no other kind can be built.
-/

namespace Difz

open Wire

namespace Directory

/-! ### Records -/

inductive Content
  | directory (mode : Mode)
  | file (mode : Mode) (bytes : Slice)
  | symlink (target : Slice)
  deriving DecidableEq

namespace Content

def kindTag : Content → UInt8
  | directory _ => 1
  | file _ _ => 2
  | symlink _ => 3

def mode : Content → Mode
  | directory mode => mode
  | file mode _ => mode
  | symlink _ => Mode.link

def bytes : Content → List UInt8
  | directory _ => []
  | file _ bytes => bytes.bytes
  | symlink target => target.bytes

/-- The kind, the mode and the bytes determine a content. -/
lemma ext_bytes {a b : Content} (hk : a.kindTag = b.kindTag) (hm : a.mode = b.mode)
    (hb : a.bytes = b.bytes) : a = b := by
  cases a <;> cases b <;> simp_all [kindTag, mode, bytes, Slice.ext_iff]

lemma length_bytes (c : Content) : c.bytes.length < 2 ^ 64 := by
  cases c with
  | directory m => simp [bytes]
  | file m b => exact b.fits
  | symlink t => exact t.fits

end Content

structure Entry where
  path : List UInt8
  content : Content
  metadata : CanonicalMetadata
  deriving DecidableEq

structure Snapshot where
  entries : List Entry
  root : CanonicalMetadata
  deriving DecidableEq

/-- `View for Entry`. -/
def Entry.structure (e : Entry) : Record :=
  match e.content with
  | .directory mode => ⟨e.path, mode.bits, .directory, []⟩
  | .file mode bytes => ⟨e.path, mode.bits, .file, bytes.bytes⟩
  | .symlink target => ⟨e.path, 0o777, .symlink, target.bytes⟩

instance : View Entry := ⟨Entry.structure⟩

@[simp] lemma pathOf_entry (e : Entry) : pathOf e = e.path := by
  cases e with
  | mk path content metadata => cases content <;> rfl

/-! ### The canonical check -/

/-- A hole lies inside the bytes of a regular file and covers only zeros. -/
def checkHole (content : Content) (hole : Metadata.Hole) : Except Error Unit :=
  match content with
  | .file _ bytes =>
    let length := bytes.bytes.length
    if hole.offset.toNat > length ∨ hole.length.toNat > length - hole.offset.toNat then
      .error .invalidSparseExtent
    else
      let begin_ := hole.offset.toNat
      let end_ := begin_ + hole.length.toNat
      if (field bytes.bytes begin_ end_).any (· != 0) then .error .invalidSparseExtent
      else .ok ()
  | .directory _ | .symlink _ => .error .invalidSparseExtent

/-- All fields but the reference agree. -/
def sharedMetadataEqual (left right : Metadata) : Bool :=
  left.xattrs == right.xattrs && left.aces == right.aces && left.nativeAcl == right.nativeAcl
    && left.times == right.times && left.finderFlags == right.finderFlags
    && left.finderInfo == right.finderInfo && left.holes == right.holes

/-- A reference names an earlier regular file that has none itself and agrees in everything. -/
def checkHardlink (before : List Entry) (e : Entry) : Except Error Unit :=
  match e.metadata.metadata.hardlinkTo with
  | none => .ok ()
  | some path =>
    match e.content with
    | .file mode bytes =>
      match entryAt before path with
      | none => .error .invalidHardlinkRelation
      | some target =>
        match target.content with
        | .file targetMode targetBytes =>
          if target.metadata.metadata.hardlinkTo.isSome || mode != targetMode
              || bytes != targetBytes
              || !sharedMetadataEqual e.metadata.metadata target.metadata.metadata then
            .error .invalidHardlinkRelation
          else .ok ()
        | .directory _ | .symlink _ => .error .invalidHardlinkRelation
    | .directory _ | .symlink _ => .error .invalidHardlinkRelation

def checkEntry (before : List Entry) (e : Entry) : Except Error Unit := do
  e.metadata.metadata.holes.forM (checkHole e.content)
  checkHardlink before e

def Snapshot.check (s : Snapshot) : Except Error Unit := do
  validate s.entries
  forBefore checkEntry [] s.entries
  if !s.root.metadata.holes.isEmpty then .error .invalidSparseExtent
  else if s.root.metadata.hardlinkTo.isSome then .error .invalidHardlinkRelation
  else .ok ()

/-- A snapshot that passed the check. -/
structure CanonicalSnapshot where
  snapshot : Snapshot
  valid : snapshot.check = .ok ()
  deriving DecidableEq

namespace CanonicalSnapshot

def new (s : Snapshot) : Except Error CanonicalSnapshot :=
  match h : s.check with
  | .error e => .error e
  | .ok () => .ok ⟨s, h⟩

lemma new_eq_ok {s : Snapshot} {c : CanonicalSnapshot} : new s = .ok c ↔ c.snapshot = s := by
  obtain ⟨s', hs'⟩ := c
  unfold new
  split
  · next e h =>
    simp only [reduceCtorEq, false_iff]
    rintro rfl
    rw [hs'] at h
    exact absurd h (by simp)
  · simp [eq_comm]

/-- The snapshot of an empty tree. -/
def default : CanonicalSnapshot := ⟨⟨[], CanonicalMetadata.default⟩, rfl⟩

lemma ext_snapshot {a b : CanonicalSnapshot} (h : a.snapshot = b.snapshot) : a = b := by
  cases a
  cases b
  simp_all

/-! ### The digest -/

/-- What `hash` feeds to the hasher for one entry, given the digest of its metadata. -/
def entryInput (digest : CanonicalMetadata → Digest) (e : Entry) : List UInt8 :=
  [e.content.kindTag] ++ (toLeBytes e.content.mode.bits
    ++ (toLeBytes (UInt32.ofNat e.path.length) ++ (e.path
    ++ (toLeBytes (UInt64.ofNat e.content.bytes.length) ++ (e.content.bytes
    ++ (digest e.metadata).toList)))))

/-- The trailer for root metadata, present only when there is any. -/
def rootInput (digest : CanonicalMetadata → Digest) (root : CanonicalMetadata) : List UInt8 :=
  if !root.metadata.isEmpty then utf8 "DIFZTREE-ROOT\x01" ++ (digest root).toList else []

/-- The byte stream fed to the hasher. -/
def hashInput (digest : CanonicalMetadata → Digest) (c : CanonicalSnapshot) : List UInt8 :=
  utf8 "DIFZTREE-ID\x02" ++ (toLeBytes (UInt32.ofNat c.snapshot.entries.length)
    ++ (c.snapshot.entries.flatMap (entryInput digest) ++ rootInput digest c.snapshot.root))

def hash (blake3 : List UInt8 → Digest) (c : CanonicalSnapshot) : Digest :=
  blake3 (c.hashInput (CanonicalMetadata.hash blake3))

end CanonicalSnapshot

/-! ### What the check establishes -/

/-- The parts of the check. -/
structure Snapshot.Valid (s : Snapshot) : Prop where
  structure_ : validate s.entries = .ok ()
  holes : ∀ e ∈ s.entries, ∀ h ∈ e.metadata.metadata.holes, checkHole e.content h = .ok ()
  hardlinks : ∀ before e after, s.entries = before ++ e :: after →
    checkHardlink before e = .ok ()
  rootHoles : s.root.metadata.holes = []
  rootHardlink : s.root.metadata.hardlinkTo = none

lemma Snapshot.check_eq_ok {s : Snapshot} : s.check = .ok () ↔ s.Valid := by
  simp only [Snapshot.check, seq_eq_ok, ite_error_eq_ok, forBefore_eq_ok, checkEntry, forM_eq_ok,
    List.nil_append, Bool.not_eq_true, Bool.not_eq_false', List.isEmpty_iff,
    Option.isSome_eq_false_iff, Option.isNone_iff_eq_none, and_true]
  constructor
  · intro hx
    obtain ⟨hs, he, hh, hl⟩ := hx
    refine ⟨hs, fun e hmem => ?_, fun before e after h => (he before e after h).2, hh, hl⟩
    obtain ⟨before, after, h⟩ := List.append_of_mem hmem
    exact (he before e after h).1
  · intro hx
    obtain ⟨hs, hholes, hlinks, hh, hl⟩ := hx
    refine ⟨hs, fun before e after h => ⟨hholes e (by simp [h]), hlinks before e after h⟩, hh, hl⟩

lemma CanonicalSnapshot.isValid (c : CanonicalSnapshot) : c.snapshot.Valid :=
  Snapshot.check_eq_ok.mp c.valid

lemma sharedMetadataEqual_iff {left right : Metadata} :
    sharedMetadataEqual left right = true ↔
      { left with hardlinkTo := none } = { right with hardlinkTo := none } := by
  cases left
  cases right
  simp [sharedMetadataEqual, and_assoc]

/-- What a reference of an entry says. -/
lemma checkHardlink_eq_ok {before : List Entry} {e : Entry} :
    checkHardlink before e = .ok () ↔ ∀ path, e.metadata.metadata.hardlinkTo = some path →
      ∃ mode bytes target, e.content = .file mode bytes ∧ entryAt before path = some target ∧
        target.content = .file mode bytes ∧ target.metadata.metadata.hardlinkTo = none ∧
        sharedMetadataEqual e.metadata.metadata target.metadata.metadata = true := by
  rw [checkHardlink]
  cases hlink : e.metadata.metadata.hardlinkTo with
  | none => simp
  | some path =>
    simp only [Option.some.injEq, forall_eq']
    cases hcontent : e.content with
    | directory m => simp
    | symlink t => simp
    | file mode bytes =>
      cases hat : entryAt before path with
      | none => simp
      | some target =>
        cases htarget : target.content with
        | directory m => simp [htarget]
        | symlink t => simp [htarget]
        | file mode' bytes' =>
          simp only [htarget, ite_error_eq_ok, Bool.or_eq_true, bne_iff_ne, ne_eq,
            Bool.not_eq_true', not_or, Option.not_isSome_iff_eq_none, not_not, and_true, Option.some.injEq,
            Content.file.injEq, Bool.not_eq_false]
          constructor
          · intro h
            obtain ⟨⟨⟨hn, rfl⟩, rfl⟩, hs⟩ := h
            exact ⟨mode, bytes, target, ⟨rfl, rfl⟩, rfl, htarget, hn, hs⟩
          · intro h
            obtain ⟨m, b, t, ⟨rfl, rfl⟩, rfl, hc, hn, hs⟩ := h
            obtain ⟨rfl, rfl⟩ := Content.file.inj (htarget.symm.trans hc)
            exact ⟨⟨⟨hn, rfl⟩, rfl⟩, hs⟩

end Directory

end Difz
