import Difz.Directory.Canonical
import Difz.Directory.Containment
import Difz.Zig.Metadata

/-!
# Snapshots of the native program

Entries and the relations between their metadata (`src/directory.zig`). An entry is a flat record
whose metadata is canonical by contract only, and shared metadata is compared by digest.
-/

namespace Difz

open Wire

namespace Zig

open Directory (Kind View entryAt pathOf forBefore)

structure Entry where
  path : List UInt8
  kind : Kind
  mode : UInt16
  data : List UInt8
  meta_ : Metadata
  deriving DecidableEq

instance : View Entry := ⟨fun e => ⟨e.path, e.mode, e.kind, e.data⟩⟩

@[simp] lemma pathOf_entry (e : Entry) : pathOf e = e.path := rfl

def validateSnapshot (entries : List Entry) : Except Directory.Error Unit :=
  Directory.Native.validateSnapshot entries

lemma validateSnapshot_eq (entries : List Entry) :
    validateSnapshot entries = Directory.validate entries :=
  Directory.Native.validateSnapshot_eq_validate entries

/-! ### Relations between entries -/

/-- One extent: a nonempty range of zeros inside a regular file. -/
def checkHole (e : Entry) (hole : Metadata.Hole) : Except Directory.Error Unit :=
  if e.kind ≠ .file ∨ hole.length = 0 ∨ hole.offset.toNat > e.data.length
      ∨ hole.length.toNat > e.data.length - hole.offset.toNat then
    .error .invalidSparseExtent
  else
    let begin_ := hole.offset.toNat
    let end_ := begin_ + hole.length.toNat
    if (field e.data begin_ end_).any (· != 0) then .error .invalidSparseExtent else .ok ()

variable (blake3 : List UInt8 → Digest)

/-- A reference names an earlier regular file that has none itself and agrees in everything. -/
def checkHardlink (before : List Entry) (e : Entry) : Except Directory.Error Unit :=
  match e.meta_.hardlinkTo with
  | none => .ok ()
  | some path =>
    if e.kind ≠ .file then .error .invalidHardlinkRelation
    else
      match entryAt before path with
      | none => .error .invalidHardlinkRelation
      | some target =>
        if target.kind ≠ .file ∨ target.meta_.hardlinkTo ≠ none ∨ target.mode ≠ e.mode
            ∨ target.data ≠ e.data then
          .error .invalidHardlinkRelation
        else
          let sharedMeta := { e.meta_ with hardlinkTo := none }
          if canonicalHash blake3 sharedMeta ≠ canonicalHash blake3 target.meta_ then
            .error .invalidHardlinkRelation
          else .ok ()

def checkRelations (before : List Entry) (e : Entry) : Except Directory.Error Unit := do
  e.meta_.holes.forM (checkHole e)
  checkHardlink blake3 before e

def validateMetadataRelations (entries : List Entry) : Except Directory.Error Unit :=
  forBefore (checkRelations blake3) [] entries

def validateRootMetadata (root : Metadata) : Except Directory.Error Unit :=
  if root.holes ≠ [] then .error .invalidSparseExtent
  else if root.hardlinkTo ≠ none then .error .invalidHardlinkRelation
  else .ok ()

variable {blake3}

/-- What the reference of an entry says, given its target. -/
structure Links (blake3 : List UInt8 → Digest) (e target : Entry) : Prop where
  kind : e.kind = .file
  targetKind : target.kind = .file
  targetLink : target.meta_.hardlinkTo = none
  mode : target.mode = e.mode
  data : target.data = e.data
  hash : canonicalHash blake3 { e.meta_ with hardlinkTo := none }
    = canonicalHash blake3 target.meta_

lemma checkHardlink_eq_ok {before : List Entry} {e : Entry} :
    checkHardlink blake3 before e = .ok () ↔ ∀ path, e.meta_.hardlinkTo = some path →
      ∃ target, entryAt before path = some target ∧ Links blake3 e target := by
  rw [checkHardlink]
  cases hlink : e.meta_.hardlinkTo with
  | none => simp
  | some path =>
    simp only [Option.some.injEq, forall_eq', ite_error_eq_ok, not_not]
    cases hat : entryAt before path with
    | none => simp
    | some target =>
      simp only [ite_error_eq_ok, not_or, not_not, and_true, Option.some.injEq]
      constructor
      · intro h
        obtain ⟨hk, ⟨htk, htl, hm, hd⟩, hh⟩ := h
        exact ⟨target, rfl, hk, htk, htl, hm, hd, hh⟩
      · intro h
        obtain ⟨t, rfl, hk, htk, htl, hm, hd, hh⟩ := h
        exact ⟨hk, ⟨htk, htl, hm, hd⟩, hh⟩

/-- The relations of a list: each extent by itself, and each reference among the entries before. -/
structure Related (blake3 : List UInt8 → Digest) (entries : List Entry) : Prop where
  holes : ∀ e ∈ entries, ∀ h ∈ e.meta_.holes, checkHole e h = .ok ()
  hardlinks : ∀ before e after, entries = before ++ e :: after → ∀ path,
    e.meta_.hardlinkTo = some path →
      ∃ target, entryAt before path = some target ∧ Links blake3 e target

lemma validateMetadataRelations_eq_ok {entries : List Entry} :
    validateMetadataRelations blake3 entries = .ok () ↔ Related blake3 entries := by
  simp only [validateMetadataRelations, Directory.forBefore_eq_ok, checkRelations, seq_eq_ok,
    forM_eq_ok, checkHardlink_eq_ok, List.nil_append]
  constructor
  · intro h
    refine ⟨fun e he => ?_, fun before e after hsplit => (h before e after hsplit).2⟩
    obtain ⟨before, after, hsplit⟩ := List.append_of_mem he
    exact (h before e after hsplit).1
  · intro h before e after hsplit
    exact ⟨h.holes e (by simp [hsplit]), h.hardlinks before e after hsplit⟩

end Zig

end Difz
