import Difz.Directory.Canonical

/-!
# Tree identity

The byte stream behind the digest of a tree determines the tree, up to the digests of its
metadata records. The records of both trees are read back from the front of the stream: every
variable field stands behind its length, so content that imitates a trailer or another entry
cannot be taken for one.
-/

namespace Difz

open Wire

namespace Directory

variable {digest : CanonicalMetadata → Digest}

lemma length_path_le {s : CanonicalSnapshot} {e : Entry} (he : e ∈ s.snapshot.entries) :
    e.path.length ≤ maxPathBytes := by
  obtain ⟨before, after, h⟩ := List.append_of_mem he
  have hpath := (entryOk_of_validate s.isValid.structure_ h).path
  rw [pathOf_entry, validatePath, ite_error_eq_ok, ite_error_eq_ok] at hpath
  omega

lemma length_entries_le (s : CanonicalSnapshot) : s.snapshot.entries.length ≤ maxEntries :=
  (validate_eq_ok.mp s.isValid.structure_).1

namespace CanonicalSnapshot

/-- Every metadata record of a snapshot. -/
def records (s : CanonicalSnapshot) : List CanonicalMetadata :=
  s.snapshot.entries.map Entry.metadata ++ [s.snapshot.root]

lemma entryInput_cancel {a b : Entry} {s t : List UInt8} (ha : a.path.length ≤ maxPathBytes)
    (hb : b.path.length ≤ maxPathBytes)
    (hd : digest a.metadata = digest b.metadata → a.metadata = b.metadata)
    (h : entryInput digest a ++ s = entryInput digest b ++ t) : a = b ∧ s = t := by
  simp only [entryInput, List.append_assoc] at h
  obtain ⟨hkind, h⟩ := List.append_inj h rfl
  obtain ⟨hmode, h⟩ := toLeBytes_cancel h
  obtain ⟨hplen, h⟩ := toLeBytes_cancel h
  have hplen : a.path.length = b.path.length := by
    have := congrArg UInt32.toNat hplen
    rwa [UInt32.toNat_ofNat_of_lt' (ha.trans_lt (by decide)),
      UInt32.toNat_ofNat_of_lt' (hb.trans_lt (by decide))] at this
  obtain ⟨hpath, h⟩ := List.append_inj h hplen
  obtain ⟨hblen, h⟩ := toLeBytes_cancel h
  have hblen : a.content.bytes.length = b.content.bytes.length := by
    have := congrArg UInt64.toNat hblen
    rwa [UInt64.toNat_ofNat_of_lt' a.content.length_bytes,
      UInt64.toNat_ofNat_of_lt' b.content.length_bytes] at this
  obtain ⟨hbytes, h⟩ := List.append_inj h hblen
  obtain ⟨hdigest, h⟩ := vector_cancel h
  have hmode : a.content.mode = b.content.mode := by
    cases ha' : a.content.mode
    cases hb' : b.content.mode
    simp_all
  have hcontent : a.content = b.content :=
    Content.ext_bytes (by simpa using hkind) hmode hbytes
  refine ⟨?_, h⟩
  cases a
  cases b
  simp_all

lemma rootInput_injective {a b : CanonicalMetadata} (hd : digest a = digest b → a = b)
    (h : rootInput digest a = rootInput digest b) : a = b := by
  have hlen : ∀ m, (rootInput digest m).length = 0 ↔ m.metadata.isEmpty = true := by
    intro m
    by_cases hm : m.metadata.isEmpty <;> simp [rootInput, hm]
  by_cases ha : a.metadata.isEmpty
  · have hb := (hlen b).mp (h ▸ (hlen a).mpr ha)
    rw [Metadata.isEmpty_iff] at ha hb
    exact CanonicalMetadata.ext_metadata (ha.trans hb.symm)
  · have hb : ¬b.metadata.isEmpty := fun hb => ha ((hlen a).mp (h ▸ (hlen b).mpr hb))
    simp only [rootInput, ha, hb] at h
    have := List.append_cancel_left h
    exact hd (List.Vector.eq _ _ this)

/-- The hashed stream determines the snapshot when no two records of the two snapshots share a
digest. -/
lemma hashInput_injective {s t : CanonicalSnapshot}
    (hd : ∀ a ∈ s.records, ∀ b ∈ t.records, digest a = digest b → a = b)
    (h : s.hashInput digest = t.hashInput digest) : s = t := by
  have h := List.append_cancel_left h
  obtain ⟨hcount, h⟩ := toLeBytes_cancel h
  have hcount : s.snapshot.entries.length = t.snapshot.entries.length := by
    have := congrArg UInt32.toNat hcount
    rwa [UInt32.toNat_ofNat_of_lt' ((length_entries_le s).trans_lt (by decide)),
      UInt32.toNat_ofNat_of_lt' ((length_entries_le t).trans_lt (by decide))] at this
  obtain ⟨hentries, hroot⟩ := flatMap_cancel hcount
    (fun a ha b hb _ _ => entryInput_cancel (length_path_le ha) (length_path_le hb)
      (hd _ (List.mem_append_left _ (List.mem_map_of_mem ha))
        _ (List.mem_append_left _ (List.mem_map_of_mem hb)))) h
  have hroot := rootInput_injective (hd _ (by simp [records]) _ (by simp [records])) hroot
  apply ext_snapshot
  cases hs : s.snapshot
  cases ht : t.snapshot
  simp_all

/-- The inputs BLAKE3 is run on to compute the digest of a tree. -/
def inputs (blake3 : List UInt8 → Digest) (s : CanonicalSnapshot) : List (List UInt8) :=
  s.hashInput (CanonicalMetadata.hash blake3)
    :: s.records.map fun m => utf8 "DIFZMETA\x01" ++ m.metadata.wire

/-- Tree identity is unambiguous. When the metadata digest is injective on the encodings of the
records involved, equal streams come from equal snapshots. So two different trees with one digest
exhibit two different inputs, one hashed for each tree, with one BLAKE3 digest. -/
theorem tree_identity_unambiguous (s t : CanonicalSnapshot) :
    (∀ digest : List UInt8 → Digest,
      Set.InjOn digest {w | ∃ m ∈ s.records ++ t.records, w = m.metadata.wire} →
      s.hashInput (fun m => digest m.metadata.wire) = t.hashInput (fun m => digest m.metadata.wire) →
      s = t) ∧
    (∀ blake3 : List UInt8 → Digest, s.hash blake3 = t.hash blake3 → s ≠ t →
      ∃ x ∈ s.inputs blake3, ∃ y ∈ t.inputs blake3, x ≠ y ∧ blake3 x = blake3 y) := by
  constructor
  · intro digest hinj h
    refine hashInput_injective (fun a ha b hb hab => ?_) h
    have := hinj ⟨a, List.mem_append_left _ ha, rfl⟩ ⟨b, List.mem_append_right _ hb, rfl⟩ hab
    exact CanonicalMetadata.wire_injective this
  · intro blake3 h hne
    by_contra hno
    push Not at hno
    -- without a collision among the inputs, the outer and then every inner digest cancels
    have houter : s.hashInput (CanonicalMetadata.hash blake3)
        = t.hashInput (CanonicalMetadata.hash blake3) := by
      by_contra hc
      exact hno _ (by simp [inputs]) _ (by simp [inputs]) hc h
    refine hne (hashInput_injective (fun a ha b hb hab => ?_) houter)
    rw [CanonicalMetadata.hash_eq, CanonicalMetadata.hash_eq] at hab
    by_contra hc
    refine hno _ (List.mem_cons_of_mem _ (List.mem_map_of_mem ha))
      _ (List.mem_cons_of_mem _ (List.mem_map_of_mem hb)) (fun heq => hc ?_) hab
    exact CanonicalMetadata.wire_injective (List.append_cancel_left heq)

end CanonicalSnapshot

end Directory

end Difz
