import Difz.Acl.Posix
import Difz.Metadata.Override

/-!
# Sidecar codecs

The container of the two access control lists of a file (`LinuxAcl::encode` of
`rust/src/linux_acl.rs`). It holds the lengths of both lists ahead of their bytes. Like the
timestamp overrides it is exact: what decodes is the encoding of the result.
-/

namespace Difz

open Wire

namespace LinuxAcl

/-- `u32::try_from` of a length. -/
def length32 (bytes : List UInt8) : Except Error UInt32 := do
  ensure (bytes.length < 2 ^ 32) .invalidAcl
  .ok (UInt32.ofNat bytes.length)

def encode (acl : LinuxAcl) : Except Error (List UInt8) := do
  let access ← length32 acl.access.bytes
  let default ← length32 acl.default.bytes
  ensure (acl.access.bytes.length + acl.default.bytes.length + 16 < 2 ^ 64) .invalidAcl
  .ok (magic ++ toLeBytes access ++ toLeBytes default ++ acl.access.bytes ++ acl.default.bytes)

/-- The bytes of a container. -/
def wire (acl : LinuxAcl) : List UInt8 :=
  magic ++ (toLeBytes (UInt32.ofNat acl.access.bytes.length)
    ++ (toLeBytes (UInt32.ofNat acl.default.bytes.length)
    ++ (acl.access.bytes ++ acl.default.bytes)))

/-- Both lengths fit their fields. -/
def Encodable (acl : LinuxAcl) : Prop :=
  acl.access.bytes.length < 2 ^ 32 ∧ acl.default.bytes.length < 2 ^ 32

lemma encode_eq_ok {acl : LinuxAcl} {bytes : List UInt8} :
    encode acl = .ok bytes ↔ acl.Encodable ∧ bytes = acl.wire := by
  simp only [encode, length32, bind_eq_ok, ensure_eq_ok, exists_const, Except.ok.injEq, wire,
    List.append_assoc]
  constructor
  · intro h
    obtain ⟨_, ⟨haccess, rfl⟩, _, ⟨hdefault, rfl⟩, -, rfl⟩ := h
    exact ⟨⟨haccess, hdefault⟩, rfl⟩
  · intro h
    obtain ⟨⟨haccess, hdefault⟩, rfl⟩ := h
    exact ⟨_, ⟨haccess, rfl⟩, _, ⟨hdefault, rfl⟩, by omega, rfl⟩

/-- A length that was read from its field is the one that is written. -/
lemma toLeBytes_length {bytes list : List UInt8} {i j : Nat} (hij : i + 4 = j)
    (hj : j ≤ bytes.length) (h : (fromLeBytes (field bytes i j) : UInt32).toNat = list.length) :
    toLeBytes (UInt32.ofNat list.length) = field bytes i j := by
  refine (toLeBytes_eq_field hij hj).mpr ?_
  rw [← h, UInt32.ofNat_toNat]

theorem decode_eq_ok {acl : LinuxAcl} {bytes : List UInt8} :
    decode bytes = .ok acl ↔ encode acl = .ok bytes := by
  obtain ⟨access, default⟩ := acl
  have hmagic : magic.length = 8 := rfl
  rw [encode_eq_ok]
  simp only [decode, ite_error_eq_ok, bind_eq_ok, PosixAcl.new_eq_ok, Except.ok.injEq,
    LinuxAcl.mk.injEq, Bool.or_eq_true, decide_eq_true_eq, not_or, not_lt, bne_iff_ne, not_not,
    Encodable]
  constructor
  · intro h
    obtain ⟨⟨hlen, hpre⟩, hsum, a, ha, d, hd, rfl, rfl⟩ := h
    have hlenA := congrArg List.length ha
    have hlenD := congrArg List.length hd
    rw [length_field (by omega), Nat.add_sub_cancel_left] at hlenA
    rw [List.length_drop] at hlenD
    have hdefault : (fromLeBytes (field bytes 12 16) : UInt32).toNat = d.bytes.length := by omega
    refine ⟨⟨?_, ?_⟩, ?_⟩
    · rw [hlenA]
      exact UInt32.toNat_lt _
    · rw [← hdefault]
      exact UInt32.toNat_lt _
    · -- the five fields tile the bytes
      have hrest : ∀ i, i ≤ bytes.length → field bytes i bytes.length = bytes.drop i := by
        intro i _
        rw [field, List.take_length]
      rw [wire, toLeBytes_length rfl (by omega) hlenA.symm, toLeBytes_length rfl hlen hdefault,
        ha, hd, ← hpre, ← field_zero, ← hrest _ (by omega), field_append_field (by omega) (by omega),
        field_append_field (by omega) (by omega), field_append_field (by omega) (by omega),
        field_append_field (by omega) (by omega), field_zero, List.take_length]
  · intro h
    obtain ⟨⟨hA, hD⟩, rfl⟩ := h
    have hlen : (wire ⟨access, default⟩).length
        = 16 + (access.bytes.length + default.bytes.length) := by
      simp [wire, hmagic]
      omega
    have htake : (wire ⟨access, default⟩).take 8 = magic := List.take_left' hmagic
    have hfield : field (wire ⟨access, default⟩) 8 12
        = toLeBytes (UInt32.ofNat access.bytes.length) := field_append _ _ _ hmagic (by simp)
    have hfield' : field (wire ⟨access, default⟩) 12 16
        = toLeBytes (UInt32.ofNat default.bytes.length) := by
      rw [wire, ← List.append_assoc]
      exact field_append _ _ _ (by simp [hmagic]) (by simp)
    have hsplit : wire ⟨access, default⟩ = (magic
        ++ (toLeBytes (UInt32.ofNat access.bytes.length)
        ++ toLeBytes (UInt32.ofNat default.bytes.length)))
        ++ (access.bytes ++ default.bytes) := by
      simp [wire]
    rw [hfield, hfield', fromLeBytes_toLeBytes, fromLeBytes_toLeBytes,
      UInt32.toNat_ofNat_of_lt' hA, UInt32.toNat_ofNat_of_lt' hD]
    refine ⟨⟨by omega, htake⟩, by omega, access, ?_, default, ?_, rfl, rfl⟩
    · rw [hsplit]
      exact (field_append _ _ _ (by simp [hmagic]) rfl).symm
    · rw [hsplit, ← List.append_assoc]
      exact (List.drop_left' (by simp [hmagic]; omega)).symm

end LinuxAcl

open Metadata (encodeTimeOverride decodeTimeOverride encodeModificationOverride
  decodeModificationOverride)

/-- Each decoder accepts just the bytes that its encoder writes, and returns the value they were
written for. Encoding fails for nanoseconds out of range, and for a list that is too long. -/
theorem sidecar_codecs_exact :
    (∀ value bytes, decodeTimeOverride bytes = .ok value ↔ encodeTimeOverride value = .ok bytes) ∧
    (∀ value, (∃ bytes, encodeTimeOverride value = .ok bytes) ↔
      ∀ t ∈ value, t.nsec < 1000000000) ∧
    (∀ value bytes, decodeModificationOverride bytes = .ok value ↔
      encodeModificationOverride value = .ok bytes) ∧
    (∀ value, (∃ bytes, encodeModificationOverride value = .ok bytes) ↔
      (∀ t ∈ value.original, t.nsec < 1000000000) ∧ value.observed.nsec < 1000000000) ∧
    (∀ acl bytes, LinuxAcl.decode bytes = .ok acl ↔ LinuxAcl.encode acl = .ok bytes) ∧
    (∀ acl, (∃ bytes, LinuxAcl.encode acl = .ok bytes) ↔
      acl.access.bytes.length < 2 ^ 32 ∧ acl.default.bytes.length < 2 ^ 32) := by
  refine ⟨fun value bytes => Metadata.decodeTimeOverride_eq_ok, fun value => ?_,
    fun value bytes => Metadata.decodeModificationOverride_eq_ok, fun value => ?_,
    fun acl bytes => LinuxAcl.decode_eq_ok, fun acl => ?_⟩
  · simp [Metadata.encodeTimeOverride_eq_ok]
  · simp only [encodeModificationOverride, bind_eq_ok, Except.ok.injEq,
      Metadata.encodeTimeOverride_eq_ok, Metadata.Time.encode_eq_ok]
    constructor
    · intro h
      obtain ⟨_, _, ⟨horiginal, -⟩, _, ⟨hobserved, -⟩, -⟩ := h
      exact ⟨horiginal, hobserved⟩
    · intro h
      exact ⟨_, _, ⟨h.1, rfl⟩, _, ⟨h.2, rfl⟩, rfl⟩
  · simp [LinuxAcl.encode_eq_ok, LinuxAcl.Encodable]

end Difz
