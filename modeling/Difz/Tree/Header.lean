import Difz.Filter
import Difz.File.RoundTrip
import Difz.Directory.Canonical

/-!
# The tree patch envelope

Errors, limits and the fixed 120-byte header of a tree patch (`rust/src/tree_patch.rs`). The
envelope parses exactly when it is the encoded header of the body behind it and passes the
limits, `decodePrefix_eq_ok`.
-/

namespace Difz

open Wire Metadata

namespace TreePatch

def headerLen : Nat := 120

def checksumOffset : Nat := 88

def version : UInt16 := 2

inductive Error
  | limitExceeded
  | unexpectedEndOfInput
  | invalidMagic
  | unsupportedVersion
  | patchHashMismatch
  | readerTooOld
  | unsupportedFlags
  | invalidRule
  | invalidOperation
  | invalidPath
  | invalidPayload
  | omittedMetadataPresent
  | trailingData
  | outOfMemory
  | metadata (error : Metadata.Error)
  | snapshot (error : Directory.Error)
  | filter (error : PathFilter.Error)
  | file (error : File.Error)
  | sourceHashMismatch
  | targetHashMismatch
  | missingSourceEntry
  | sourceKindMismatch
  deriving DecidableEq, Repr

structure EnvelopeLimits where
  maxPatchBytes : UInt64
  maxEntries : UInt32
  maxRules : UInt32

def EnvelopeLimits.default : EnvelopeLimits := ⟨UInt64.ofNat (16 * 2 ^ 30), 1000000, 4096⟩

structure Header where
  neededReader : UInt16
  rootMetadata : Bool
  mask : Omit
  ruleCount : UInt32
  entryCount : UInt32
  sourceHash : Digest
  targetHash : Digest
  deriving DecidableEq

namespace Header

variable (blake3 : List UInt8 → Digest)

/-- The digest of the leading header bytes and the body, under its own domain. -/
def checksum (leading body : List UInt8) : Digest :=
  blake3 (utf8 "DIFZTREE-PATCH\x02" ++ leading ++ body)

def flags (h : Header) : UInt32 := h.mask.bits <<< 1 ||| (if h.rootMetadata then 1 else 0)

/-- The header up to the checksum. -/
def leading (h : Header) : List UInt8 :=
  utf8 "DIFZTREE" ++ (toLeBytes version ++ (toLeBytes h.neededReader ++ (toLeBytes h.flags
    ++ (toLeBytes h.ruleCount ++ (toLeBytes h.entryCount
    ++ (h.sourceHash.toList ++ h.targetHash.toList))))))

/-- The header for this exact body. -/
def encode (h : Header) (body : List UInt8) : List UInt8 :=
  h.leading ++ (checksum blake3 h.leading body).toList

def word (encoded : List UInt8) (offset : Nat) : UInt32 :=
  fromLeBytes (field encoded offset (offset + 4))

/-- The envelope checks, in order, and the body unchanged. -/
def decodePrefix (bytes : List UInt8) (limits : EnvelopeLimits) :
    Except Error (Header × List UInt8) := do
  ensure (bytes.length ≤ limits.maxPatchBytes.toNat) .limitExceeded
  ensure (headerLen ≤ bytes.length) .unexpectedEndOfInput
  let encoded := bytes.take headerLen
  ensure (field encoded 0 8 = utf8 "DIFZTREE") .invalidMagic
  ensure (fromLeBytes (field encoded 8 10) = version) .unsupportedVersion
  let body := bytes.drop headerLen
  ensure ((checksum blake3 (field encoded 0 checksumOffset) body).toList
    = field encoded checksumOffset headerLen) .patchHashMismatch
  let neededReader : UInt16 := fromLeBytes (field encoded 10 12)
  ensure (neededReader ≤ version) .readerTooOld
  let flags := word encoded 12
  ensure (flags &&& ~~~0x7f = 0) .unsupportedFlags
  let mask ← (Omit.fromBits (flags >>> 1)).mapError fun _ => .unsupportedFlags
  let ruleCount := word encoded 16
  let entryCount := word encoded 20
  ensure (ruleCount ≤ limits.maxRules ∧ entryCount ≤ limits.maxEntries) .limitExceeded
  ensure (ruleCount.toNat ≤ body.length / 9
    ∧ entryCount.toNat ≤ (body.length - ruleCount.toNat * 9) / 41) .unexpectedEndOfInput
  let sourceHash ← tryInto .unexpectedEndOfInput 32 (field encoded 24 56)
  let targetHash ← tryInto .unexpectedEndOfInput 32 (field encoded 56 88)
  .ok (⟨neededReader, flags &&& 1 != 0, mask, ruleCount, entryCount, sourceHash, targetHash⟩, body)

/-! ### Flags -/

lemma toNat_lt_of_and_not {x : UInt32} (k : Nat) (h : x &&& ~~~(UInt32.ofNat (2 ^ k - 1)) = 0) :
    x.toNat < 2 ^ k := by
  apply Nat.lt_pow_two_of_testBit
  intro i hi
  by_cases h32 : i < 32
  · have hbit := congrArg (fun y : UInt32 => y.toBitVec.getLsbD i) h
    have hmask : (UInt32.ofNat (2 ^ k - 1)).toBitVec.getLsbD i = false := by
      rw [UInt32.toBitVec_ofNat', BitVec.getLsbD_ofNat, Nat.testBit_two_pow_sub_one]
      simp [Nat.not_lt.mpr hi]
    simp only [UInt32.toBitVec_and, UInt32.toBitVec_not, BitVec.getLsbD_and, BitVec.getLsbD_not,
      hmask, h32, decide_true, Bool.not_false, Bool.and_true] at hbit
    have : x.toBitVec.getLsbD i = false := by simpa using hbit
    exact this
  · refine Nat.testBit_lt_two_pow (x.toNat_lt.trans_le ?_)
    exact Nat.pow_le_pow_right (by norm_num) (by omega)

/-- The flag word holds the root bit and, above it, the mask. -/
lemma flags_eq_iff {bits : UInt32} {mask : Omit} {root : Bool} :
    bits = mask.bits <<< 1 ||| (if root then 1 else 0) ↔
      bits &&& ~~~0x7f = 0 ∧ bits >>> 1 = mask.bits ∧ root = (bits &&& 1 != 0) := by
  have hsplit : ∀ m : Fin 64, ∀ r : Bool,
      let f := UInt32.ofNat m <<< 1 ||| (if r then 1 else 0)
      f &&& ~~~0x7f = 0 ∧ f >>> 1 = UInt32.ofNat m ∧ r = (f &&& 1 != 0) := by decide +kernel
  have hjoin : ∀ n : Fin 128, UInt32.ofNat n
      = (UInt32.ofNat n >>> 1) <<< 1 ||| (if UInt32.ofNat n &&& 1 != 0 then 1 else 0) := by
    decide +kernel
  constructor
  · rintro rfl
    have hlt : mask.bits.toNat < 2 ^ 6 := toNat_lt_of_and_not 6 mask.valid
    simpa using hsplit ⟨mask.bits.toNat, hlt⟩ root
  · intro h
    obtain ⟨hlow, hmask, rfl⟩ := h
    have hlt : bits.toNat < 2 ^ 7 := toNat_lt_of_and_not 7 hlow
    rw [← hmask]
    simpa using hjoin ⟨bits.toNat, hlt⟩

/-! ### The envelope codec -/

@[simp] lemma length_leading (h : Header) : h.leading.length = checksumOffset := by
  simp [leading, checksumOffset, show (utf8 "DIFZTREE").length = 8 from rfl]

@[simp] lemma length_encode (h : Header) (body : List UInt8) :
    (h.encode blake3 body).length = headerLen := by
  simp [encode, checksumOffset, headerLen]

/-- What the header itself must meet under given limits. -/
structure Admissible (limits : EnvelopeLimits) (h : Header) (body : List UInt8) : Prop where
  length : headerLen + body.length ≤ limits.maxPatchBytes.toNat
  reader : h.neededReader ≤ version
  rules : h.ruleCount ≤ limits.maxRules
  entries : h.entryCount ≤ limits.maxEntries
  ruleBytes : h.ruleCount.toNat ≤ body.length / 9
  entryBytes : h.entryCount.toNat ≤ (body.length - h.ruleCount.toNat * 9) / 41

variable {blake3}

lemma leading_eq_field_iff {bytes : List UInt8} {h : Header} (hlen : headerLen ≤ bytes.length) :
    h.leading = field bytes 0 checksumOffset ↔
      utf8 "DIFZTREE" = field bytes 0 8 ∧ fromLeBytes (field bytes 8 10) = version ∧
      fromLeBytes (field bytes 10 12) = h.neededReader ∧ word bytes 12 = h.flags ∧
      word bytes 16 = h.ruleCount ∧ word bytes 20 = h.entryCount ∧
      h.sourceHash.toList = field bytes 24 56 ∧ h.targetHash.toList = field bytes 56 88 := by
  have hlen : 120 ≤ bytes.length := hlen
  -- the eight fields tile the first 88 bytes
  have htile : field bytes 0 checksumOffset = field bytes 0 8 ++ (field bytes 8 10
      ++ (field bytes 10 12 ++ (field bytes 12 16 ++ (field bytes 16 20 ++ (field bytes 20 24
      ++ (field bytes 24 56 ++ field bytes 56 88)))))) := by
    rw [field_append_field (by norm_num) (by norm_num),
      field_append_field (by norm_num) (by norm_num),
      field_append_field (by norm_num) (by norm_num),
      field_append_field (by norm_num) (by norm_num),
      field_append_field (by norm_num) (by norm_num),
      field_append_field (by norm_num) (by norm_num),
      field_append_field (by norm_num) (by norm_num)]
    rfl
  have hsize : ∀ {i j : Nat}, j ≤ 120 → (field bytes i j).length = j - i := fun hj =>
    length_field (hj.trans hlen)
  have hversion : toLeBytes version = field bytes 8 10 ↔ _ := toLeBytes_eq_field rfl (by omega)
  have hreader : toLeBytes h.neededReader = field bytes 10 12 ↔ _ :=
    toLeBytes_eq_field rfl (by omega)
  have hflags : toLeBytes h.flags = field bytes 12 16 ↔ _ := toLeBytes_eq_field rfl (by omega)
  have hrules : toLeBytes h.ruleCount = field bytes 16 20 ↔ _ := toLeBytes_eq_field rfl (by omega)
  have hentries : toLeBytes h.entryCount = field bytes 20 24 ↔ _ :=
    toLeBytes_eq_field rfl (by omega)
  rw [htile, leading, word, word, word, ← hversion, ← hreader, ← hflags, ← hrules, ← hentries]
  constructor
  · intro heq
    obtain ⟨h₁, heq⟩ := List.append_inj heq (by rw [hsize (by norm_num)]; rfl)
    obtain ⟨h₂, heq⟩ := List.append_inj heq (by rw [hsize (by norm_num)]; simp)
    obtain ⟨h₃, heq⟩ := List.append_inj heq (by rw [hsize (by norm_num)]; simp)
    obtain ⟨h₄, heq⟩ := List.append_inj heq (by rw [hsize (by norm_num)]; simp)
    obtain ⟨h₅, heq⟩ := List.append_inj heq (by rw [hsize (by norm_num)]; simp)
    obtain ⟨h₆, heq⟩ := List.append_inj heq (by rw [hsize (by norm_num)]; simp)
    obtain ⟨h₇, h₈⟩ := List.append_inj heq (by rw [hsize (by norm_num)]; simp)
    exact ⟨h₁, h₂, h₃, h₄, h₅, h₆, h₇, h₈⟩
  · intro hx
    obtain ⟨h₁, h₂, h₃, h₄, h₅, h₆, h₇, h₈⟩ := hx
    rw [h₁, h₂, h₃, h₄, h₅, h₆, h₇, h₈]

/-- The envelope parses exactly when it is the encoded header of its body, within the limits. -/
theorem decodePrefix_eq_ok {bytes body : List UInt8} {limits : EnvelopeLimits} {h : Header} :
    decodePrefix blake3 bytes limits = .ok (h, body) ↔
      bytes = h.encode blake3 body ++ body ∧ h.Admissible limits body := by
  simp only [decodePrefix, Wire.bind_eq_ok, ensure_eq_ok, exists_const, mapError_eq_ok,
    tryInto_eq_ok, Omit.fromBits_eq_ok, Except.ok.injEq, Prod.mk.injEq]
  constructor
  · rintro ⟨hlen, hmin, hmagic, hversion, hsum, hreader, hflags, mask, hmask, ⟨hrules, hentries⟩,
      ⟨hruleBytes, hentryBytes⟩, src, hsrc, dst, hdst, hh, rfl⟩
    have hsize : (bytes.take headerLen).length = headerLen := by simp [hmin]
    have hlead : h.leading = field (bytes.take headerLen) 0 checksumOffset := by
      rw [leading_eq_field_iff hsize.ge, ← hh]
      exact ⟨hmagic.symm, hversion, rfl, flags_eq_iff.mpr ⟨hflags, hmask, rfl⟩, rfl, rfl,
        hsrc.symm, hdst.symm⟩
    subst hh
    refine ⟨?_, ?_, hreader, hrules, hentries, hruleBytes, hentryBytes⟩
    · rw [encode, hlead, hsum, field_append_field (by decide) (by decide), field_zero,
        List.take_of_length_le hsize.le, List.take_append_drop]
    · rw [List.length_drop, Nat.add_sub_cancel' hmin]
      exact hlen
  · intro hx
    obtain ⟨rfl, hadm⟩ := hx
    have hsize := length_encode blake3 h body
    rw [List.take_left' hsize, List.drop_left' hsize]
    have hlead : h.leading = field (h.encode blake3 body) 0 checksumOffset :=
      (List.take_left' h.length_leading).symm
    have hsum : field (h.encode blake3 body) checksumOffset headerLen
        = (checksum blake3 h.leading body).toList := by
      rw [field, ← hsize, List.take_length, encode, List.drop_left' h.length_leading]
    obtain ⟨hmagic, hversion, hreader, hflags, hrules, hentries, hsrc, hdst⟩ :=
      (leading_eq_field_iff hsize.ge).mp hlead
    obtain ⟨hlow, hmask, hroot⟩ := flags_eq_iff.mp hflags
    rw [hreader, hrules, hentries]
    refine ⟨?_, ?_, hmagic.symm, hversion, ?_, hadm.reader, hlow, h.mask, hmask,
      ⟨hadm.rules, hadm.entries⟩, ⟨hadm.ruleBytes, hadm.entryBytes⟩, h.sourceHash, hsrc.symm,
      h.targetHash, hdst.symm, ?_, rfl⟩
    · rw [List.length_append, hsize]
      exact hadm.length
    · simp
    · rw [hsum, ← hlead]
    · rw [← hroot]

end Header

end TreePatch

end Difz
