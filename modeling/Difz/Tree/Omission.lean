import Difz.Metadata.Normalize
import Difz.Tree.Encode

/-!
# Leaving out families, algebraically

Three tables say what a family is: the one of `normalize` clears it, the one of
`borrowing_omitting` copies it, and `has_omitted` looks for it. They agree, and leaving out
families twice leaves out their union, for records and for whole snapshots, whose relations survive.
-/

namespace Difz

open Wire Metadata Directory

namespace Metadata

/-! ### Records -/

lemma or_and_mask (a b mask : UInt32) :
    (a ||| b) &&& mask = (a &&& mask) ||| (b &&& mask) := by
  apply UInt32.toBitVec_inj.mp
  simp only [UInt32.toBitVec_and, UInt32.toBitVec_or]
  exact BitVec.and_or_distrib_right

/-- The families of either mask. -/
def Omit.union (a b : Omit) : Omit :=
  ⟨a.bits ||| b.bits, by rw [or_and_mask, a.valid, b.valid, UInt32.or_zero]⟩

lemma Omit.contains_union (a b : Omit) (family : Family) :
    (a.union b).contains family = (a.contains family || b.contains family) := by
  rw [Bool.eq_iff_iff, Bool.or_eq_true]
  simp only [Omit.contains, Omit.union, or_and_mask, bne_iff_ne, ne_eq, UInt32.or_eq_zero_iff,
    not_and_or]

lemma retain_retain (m : Metadata) (a b : Omit) :
    (m.retain a).retain b = m.retain (a.union b) := by
  rw [retain_eq m a, retain_eq _ b, retain_eq m (a.union b)]
  simp only [Omit.contains_union, Bool.or_eq_true, Metadata.mk.injEq]
  refine ⟨?_, ?_, ?_, ?_, ?_, ?_, ?_, ?_⟩
  all_goals split_ifs <;> simp_all

end Metadata

namespace CanonicalMetadata

lemma retain_retain (c : CanonicalMetadata) (a b : Omit) :
    (c.retain a).retain b = c.retain (a.union b) :=
  ext_metadata (c.metadata.retain_retain a b)

end CanonicalMetadata

namespace TreePatch

/-- A record that has nothing of the omitted families is what is left of it. -/
lemma retain_eq_self_iff {m : Metadata} {mask : Omit} :
    m.retain mask = m ↔ hasOmitted m mask = false := by
  constructor
  · intro h
    rw [← h]
    exact hasOmitted_retain m mask
  · intro h
    rw [hasOmitted_eq_false_iff] at h
    have hxattr := h .xattr
    have hacl := h .acl
    have htimes := h .timestamps
    have hfinder := h .finder
    have hsparse := h .sparse
    have hhardlink := h .hardlink
    rw [retain_eq]
    obtain ⟨xattrs, aces, nativeAcl, ⟨mtime, atime, btime⟩, flags, info, holes, hardlinkTo⟩ := m
    simp only [hasFamily, Bool.not_eq_false', List.isEmpty_iff, Bool.or_eq_false_iff,
      Option.isSome_eq_false_iff, Option.isNone_iff_eq_none, bne_eq_false_iff_eq] at *
    simp only [Metadata.mk.injEq, Times.default]
    refine ⟨?_, ?_, ?_, ?_, ?_, ?_, ?_, ?_⟩
    all_goals split_ifs <;> simp_all

/-! ### Snapshots -/

lemma entry_retain_retain (e : Entry) (a b : Omit) :
    (e.retain a).retain b = e.retain (a.union b) := by
  rw [Entry.retain, Entry.retain, Entry.retain, CanonicalMetadata.retain_retain]

lemma snapshot_retain_retain (s : CanonicalSnapshot) (a b : Omit) :
    (s.retain a).retain b = s.retain (a.union b) := by
  apply CanonicalSnapshot.ext_snapshot
  change Snapshot.mk ((s.snapshot.entries.map (Entry.retain a)).map (Entry.retain b))
    ((s.snapshot.root.retain a).retain b) = Snapshot.mk _ _
  rw [List.map_map, CanonicalMetadata.retain_retain]
  congr 1
  exact List.map_congr_left fun e _ => entry_retain_retain e a b

/-- The omission of families from records and from snapshots. -/
theorem omission_algebra (sorts : Sorts) (m : CanonicalMetadata) (s : CanonicalSnapshot)
    (a b : Omit) :
    (∃ c, m.borrowingOmitting a = .ok c ∧ CanonicalMetadata.normalize sorts m.metadata a = .ok c) ∧
    (hasOmitted m.metadata a = false ↔ m.borrowingOmitting a = .ok m) ∧
    (∃ p, project s a = .ok p ∧ project p b = project s (a.union b) ∧
      (∃ q, project s (a.union b) = .ok q) ∧
      (∀ e ∈ p.snapshot.entries, hasOmitted e.metadata.metadata a = false) ∧
      hasOmitted p.snapshot.root.metadata a = false) := by
  refine ⟨⟨m.retain a, m.borrowingOmitting_eq a, m.normalize_canonical sorts a⟩, ?_,
    s.retain a, project_eq s a, ?_, ⟨_, project_eq s _⟩, fun e he => ?_, hasOmitted_retain _ a⟩
  · rw [← retain_eq_self_iff, m.borrowingOmitting_eq a, Except.ok.injEq]
    exact ⟨fun h => CanonicalMetadata.ext_metadata h,
      fun h => congrArg CanonicalMetadata.metadata h⟩
  · rw [project_eq, project_eq, snapshot_retain_retain]
  · obtain ⟨e', -, rfl⟩ := List.mem_map.mp he
    exact hasOmitted_retain _ a

end TreePatch

end Difz
