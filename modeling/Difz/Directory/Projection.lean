import Difz.Directory.Canonical

/-!
# Leaving out families of a snapshot

A snapshot with the families of a mask taken out of every record. The result is again canonical:
paths, contents and hierarchy are untouched, and the relations between records survive because
both ends of a relation lose the same families.
-/

namespace Difz

open Wire Metadata

namespace Directory

def Entry.retain (mask : Omit) (e : Entry) : Entry :=
  { e with metadata := e.metadata.retain mask }

def Snapshot.retain (mask : Omit) (s : Snapshot) : Snapshot :=
  ⟨s.entries.map (Entry.retain mask), s.root.retain mask⟩

@[simp] lemma pathOf_retain (mask : Omit) (e : Entry) : pathOf (e.retain mask) = pathOf e := by
  rw [pathOf_entry, pathOf_entry]
  rfl

lemma shapeOf_retain (mask : Omit) (e : Entry) : shapeOf (e.retain mask) = shapeOf e := rfl

/-- Records that agree up to the reference still do after leaving out families. -/
lemma sharedMetadataEqual_retain {left right : Metadata} (mask : Omit)
    (h : sharedMetadataEqual left right = true) :
    sharedMetadataEqual (left.retain mask) (right.retain mask) = true := by
  rw [sharedMetadataEqual_iff] at h ⊢
  cases left
  cases right
  simp only [Metadata.mk.injEq, and_true] at h
  obtain ⟨rfl, rfl, rfl, rfl, rfl, rfl, rfl⟩ := h
  simp [retain_eq]

lemma mem_holes_retain {m : Metadata} {mask : Omit} {h : Hole}
    (hh : h ∈ (m.retain mask).holes) : h ∈ m.holes := by
  rw [retain_eq] at hh
  dsimp only at hh
  split_ifs at hh
  · simp at hh
  · exact hh

lemma hardlinkTo_of_retain {m : Metadata} {mask : Omit} {path : List UInt8}
    (h : (m.retain mask).hardlinkTo = some path) : m.hardlinkTo = some path := by
  rw [retain_eq] at h
  dsimp only at h
  split_ifs at h
  exact h

lemma hardlinkTo_retain_of_none {m : Metadata} {mask : Omit} (h : m.hardlinkTo = none) :
    (m.retain mask).hardlinkTo = none := by
  rw [retain_eq]
  dsimp only
  split_ifs
  · rfl
  · exact h

lemma checkHardlink_retain {before : List Entry} {e : Entry} (mask : Omit)
    (h : checkHardlink before e = .ok ()) :
    checkHardlink (before.map (Entry.retain mask)) (e.retain mask) = .ok () := by
  rw [checkHardlink_eq_ok] at h ⊢
  intro path hpath
  obtain ⟨mode, bytes, target, hc, hat, htc, htl, hs⟩ := h path (hardlinkTo_of_retain hpath)
  refine ⟨mode, bytes, target.retain mask, hc, ?_, htc, hardlinkTo_retain_of_none htl,
    sharedMetadataEqual_retain mask hs⟩
  rw [entryAt_map _ (pathOf_retain mask), hat, Option.map_some]

lemma Snapshot.Valid.retain {s : Snapshot} (h : s.Valid) (mask : Omit) : (s.retain mask).Valid where
  structure_ := by
    rw [← h.structure_]
    apply validate_congr
    rw [Snapshot.retain, List.map_map]
    exact List.map_congr_left fun e _ => shapeOf_retain mask e
  holes := by
    intro e he hole hh
    obtain ⟨e', he', rfl⟩ := List.mem_map.mp he
    exact h.holes e' he' hole (mem_holes_retain hh)
  hardlinks := by
    intro before e after hsplit
    obtain ⟨before', rest, hs, rfl, hrest⟩ := List.map_eq_append_iff.mp hsplit
    obtain ⟨e', after', rfl, rfl, rfl⟩ := List.map_eq_cons_iff.mp hrest
    exact checkHardlink_retain mask (h.hardlinks before' e' after' hs)
  rootHoles := List.eq_nil_iff_forall_not_mem.mpr fun hole hh => by
    have := mem_holes_retain hh
    simp [h.rootHoles] at this
  rootHardlink := hardlinkTo_retain_of_none h.rootHardlink

/-- The canonical snapshot without the families of a mask. -/
def CanonicalSnapshot.retain (c : CanonicalSnapshot) (mask : Omit) : CanonicalSnapshot :=
  ⟨c.snapshot.retain mask, Snapshot.check_eq_ok.mpr (c.isValid.retain mask)⟩

lemma CanonicalSnapshot.retain_default (c : CanonicalSnapshot) : c.retain Omit.default = c := by
  apply ext_snapshot
  have hentry : Entry.retain Omit.default = id := by
    funext e
    rw [Entry.retain, CanonicalMetadata.retain_default]
    rfl
  change Snapshot.mk (c.snapshot.entries.map (Entry.retain Omit.default))
    (c.snapshot.root.retain Omit.default) = c.snapshot
  rw [hentry, List.map_id, CanonicalMetadata.retain_default]

/-- The content at a path. -/
def contentAt (entries : List Entry) (path : List UInt8) : Option Content :=
  (entryAt entries path).map Entry.content

/-- Leaving out families changes no content. -/
lemma contentAt_retain (mask : Omit) (c : CanonicalSnapshot) (path : List UInt8) :
    contentAt (c.retain mask).snapshot.entries path = contentAt c.snapshot.entries path := by
  change contentAt (c.snapshot.entries.map (Entry.retain mask)) path = _
  rw [contentAt, contentAt, entryAt_map _ (pathOf_retain mask), Option.map_map]
  rfl

end Directory

end Difz
