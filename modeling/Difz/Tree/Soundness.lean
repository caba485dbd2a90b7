import Difz.Tree.RoundTrip

/-!
# Applying is sound on any input

Whatever bytes `apply` accepts, its result is bound by the patch: identities, budget, omitted
families, and the exact origin of every entry. And the result depends on the source only through
its projection, because copies and deltas read contents alone.
-/

namespace Difz

open Wire Metadata Directory

namespace TreePatch

variable {native : Native}

lemma mode_of_symlink {p : ParsedPatch} (h : validate p.entries = .ok ()) :
    ∀ d ∈ p.entries, d.operation = .symlink → d.mode = Mode.link.bits := by
  intro d hd hop
  obtain ⟨before, after, hsplit⟩ := List.append_of_mem hd
  have hkind := (entryOk_of_validate h hsplit).kind
  have hrecord : View.record d = ⟨d.path, d.mode, .symlink, d.payload⟩ := by
    change Record.mk _ _ d.operation.kind _ = _
    rw [hop]
    rfl
  rw [hrecord, validateKind, ite_error_eq_ok] at hkind
  exact not_not.mp hkind.1

/-- Everything `expand` has checked of its result. -/
lemma expand_eq_ok {source s : CanonicalSnapshot} {p : ParsedPatch} {budget : UInt64}
    (hv : validate p.entries = .ok ()) (h : expand native source p budget = .ok s) :
    (source.retain p.header.mask).hash native.blake3 = p.header.sourceHash ∧
      s.hash native.blake3 = p.header.targetHash ∧ s.snapshot.root = p.root ∧
      Rebuilds native source [] p.entries s.snapshot.entries ∧
      totalBytes s.snapshot.entries ≤ budget.toNat := by
  simp only [expand, masked_eq, ok_bind, Wire.bind_eq_ok, Prod.exists, ensure_eq_ok, exists_const,
    mapError_eq_ok, CanonicalSnapshot.new_eq_ok, Except.ok.injEq] at h
  obtain ⟨hsource, entries, left, hrun, c, hc, htarget, rfl⟩ := h
  obtain ⟨es, rfl, hes, hsum⟩ := rebuilds_of_foldlM (mode_of_symlink hv) hrun
  rw [hc]
  exact ⟨hsource, htarget, rfl, hes, (Nat.le_add_left _ _).trans hsum.le⟩

lemma Rebuilds.metadata_mem {source : CanonicalSnapshot} {before es : List Entry}
    {ds : List DecodedEntry} (h : Rebuilds native source before ds es) {e : Entry} (he : e ∈ es) :
    ∃ d ∈ ds, e.metadata = d.metadata := by
  obtain ⟨i, hi⟩ := List.mem_iff_getElem?.mp he
  have hlt : i < ds.length := by
    rw [← h.length_eq]
    exact (List.getElem?_eq_some_iff.mp hi).1
  have hd := List.getElem?_eq_getElem hlt
  exact ⟨ds[i], List.getElem_mem hlt, (h.get hd hi).2.1⟩

/-- `apply` is sound on arbitrary input. -/
theorem apply_sound (native : Native) (source : CanonicalSnapshot) (patch : List UInt8)
    (limits : ApplyLimits) (s : CanonicalSnapshot) (h : apply native source patch limits = .ok s) :
    ∃ p projected, ParsedPatch.decode native.blake3 patch limits.patch = .ok p ∧
      field patch checksumOffset headerLen
        = (Header.checksum native.blake3 (patch.take checksumOffset) (patch.drop headerLen)).toList ∧
      project source p.header.mask = .ok projected ∧
      projected.hash native.blake3 = p.header.sourceHash ∧
      s.hash native.blake3 = p.header.targetHash ∧
      s.snapshot.Valid ∧
      totalBytes s.snapshot.entries ≤ limits.maxOutputBytes.toNat ∧
      (∀ family, p.header.mask.contains family = true →
        (∀ e ∈ s.snapshot.entries, hasFamily e.metadata.metadata family = false) ∧
        hasFamily s.snapshot.root.metadata family = false) ∧
      s.snapshot.root = p.root ∧
      s.snapshot.entries.length = p.entries.length ∧
      ∀ (i : Nat) (d : DecodedEntry) (e : Entry), p.entries[i]? = some d →
        s.snapshot.entries[i]? = some e →
        e.path = d.path ∧ e.metadata = d.metadata ∧
          Rebuilt native source (s.snapshot.entries.take i) d e.content := by
  rw [apply, Wire.bind_eq_ok] at h
  obtain ⟨p, hp, h⟩ := h
  obtain ⟨hlayout, hwf⟩ := ParsedPatch.decode_eq_ok.mp hp
  obtain ⟨hsource, htarget, hroot, hes, hsum⟩ := expand_eq_ok hwf.structure_ h
  refine ⟨p, source.retain p.header.mask, hp, ?_, project_eq _ _, hsource, htarget, s.isValid, hsum,
    fun family hf => ⟨fun e he => ?_, ?_⟩, hroot, hes.length_eq, fun i d e hd he => ?_⟩
  · have hsize := Header.length_encode native.blake3 p.header p.body
    have hlead : (p.layout native.blake3).take checksumOffset = p.header.leading := by
      rw [ParsedPatch.layout, Header.encode, List.append_assoc]
      exact List.take_left' p.header.length_leading
    rw [hlayout, hlead, ParsedPatch.layout, List.drop_left' hsize, field, List.take_left' hsize,
      Header.encode, List.drop_left' p.header.length_leading]
  · obtain ⟨d, hd, hm⟩ := hes.metadata_mem he
    rw [hm]
    exact hasOmitted_eq_false_iff.mp (hwf.retained d hd) family hf
  · rw [hroot]
    exact hasOmitted_eq_false_iff.mp hwf.root.retained family hf
  · exact hes.get hd he

/-- The small tree of the round trip, accepted from its patch with both contents accounted for. -/
theorem apply_sound_linked :
    ∃ patch s p, apply (File.stored patchDigests) fileTree patch ApplyLimits.default = .ok s ∧
      ParsedPatch.decode (File.tabulated patchDigests) patch Limits.default = .ok p ∧
      s.hash (File.tabulated patchDigests) = p.header.targetHash ∧
      s.snapshot.entries.length = p.entries.length := by
  obtain ⟨patch, hpatch⟩ := exists_create
  have happly := (apply_create (File.stored_inverts _) hpatch).2 ApplyLimits.default.maxOutputBytes
  rw [if_pos (by decide)] at happly
  obtain ⟨p, -, hp, -, -, -, htarget, -, -, -, -, hlen, -⟩ := apply_sound _ _ _ _ _ happly
  exact ⟨patch, _, p, happly, hp, htarget, hlen⟩

/-! ### Omitted families -/

lemma expand_congr {s₁ s₂ : CanonicalSnapshot} {p : ParsedPatch}
    (h : s₁.retain p.header.mask = s₂.retain p.header.mask) (budget : UInt64) :
    expand native s₁ p budget = expand native s₂ p budget := by
  rw [expand, expand, masked_eq, masked_eq, h, ← rebuildEntry_retain s₁ p.header.mask, h,
    rebuildEntry_retain]

/-- Omitted families of the source cannot influence the result. A patch that does not decode fails
on every source with one error; for one that does, sources with equal projections under the mask
of its header give equal results, success or error. -/
theorem apply_noninterference (native : Native) (patch : List UInt8) (limits : ApplyLimits) :
    (∀ e, ParsedPatch.decode native.blake3 patch limits.patch = .error e →
      ∀ s, apply native s patch limits = .error e) ∧
    (∀ p, ParsedPatch.decode native.blake3 patch limits.patch = .ok p →
      ∀ s₁ s₂, project s₁ p.header.mask = project s₂ p.header.mask →
        apply native s₁ patch limits = apply native s₂ patch limits) := by
  constructor
  · intro e he s
    rw [apply, he]
    rfl
  · intro p hp s₁ s₂ h
    rw [project_eq, project_eq] at h
    rw [apply, apply, hp, ok_bind, ok_bind, expand_congr (Except.ok.inj h)]

end TreePatch

end Difz
