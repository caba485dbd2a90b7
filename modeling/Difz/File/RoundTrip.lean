import Difz.File.Basic

/-!
# File patches bind their source and target

What `File.encode` writes, `File.apply` reads back, and whatever `File.apply` accepts is bound to
the lengths and digests of its header. Both follow from one description of `apply` on a parsed
header, `apply_of_decodePrefix`.
-/

namespace Difz

open Wire

namespace File

variable {native : Native}

lemma windowLog_of_le {source target : Nat} (hs : source ≤ Zstdz.maxInputLen)
    (ht : target ≤ Zstdz.maxInputLen) : ∃ log, windowLog source target = .ok log := by
  obtain ⟨log, h⟩ := Zstdz.windowLog_of_le hs ht
  exact ⟨log, mapError_eq_ok.mpr h⟩

lemma le_of_windowLog {source target log : Nat} (h : windowLog source target = .ok log) :
    source ≤ Zstdz.maxInputLen ∧ target ≤ Zstdz.maxInputLen :=
  Zstdz.le_of_windowLog (mapError_eq_ok.mp h)

/-- The header `encode` writes for a pair of files. -/
def headerOf (native : Native) (source target : List UInt8) : Header :=
  { sourceHash := native.blake3 source
    targetHash := native.blake3 target
    sourceLen := UInt64.ofNat source.length
    targetLen := UInt64.ofNat target.length }

/-- A file patch is the header of its two files and the frame of the native encoder. -/
lemma encode_eq_ok {source target patch : List UInt8} :
    encode native source target = .ok patch ↔
      source.length ≤ Zstdz.maxInputLen ∧ target.length ≤ Zstdz.maxInputLen ∧
      ∃ frame, native.compress source target = .ok frame ∧
        frame.length ≤ native.compressBound target.length ∧
        patch = (headerOf native source target).encode ++ frame := by
  simp only [encode, Zstdz.appendFrame, Wire.bind_eq_ok, mapError_eq_ok, ite_error_eq_ok,
    Except.ok.injEq, not_lt, gt_iff_lt]
  constructor
  · intro h
    obtain ⟨log, hlog, -, -, frame, hframe, hle, rfl⟩ := h
    obtain ⟨hs, ht⟩ := le_of_windowLog hlog
    exact ⟨hs, ht, frame, hframe, hle, rfl⟩
  · intro h
    obtain ⟨hs, ht, frame, hframe, hle, rfl⟩ := h
    obtain ⟨log, hlog⟩ := windowLog_of_le hs ht
    exact ⟨log, hlog, log, mapError_eq_ok.mp hlog, frame, hframe, hle, rfl⟩

/-- The checks of `apply` behind the parsed header, in order. -/
lemma apply_of_decodePrefix {source patch frame : List UInt8} {header : Header} (maximum : Nat)
    (h : Header.decodePrefix patch = .ok (header, frame)) :
    apply native source patch maximum =
      if header.sourceLen.toNat ≠ source.length then .error .sizeMismatch
      else if header.sourceHash ≠ native.blake3 source then .error .sourceHashMismatch
      else if maximum ≠ 0 ∧ header.targetLen.toNat > maximum then .error .resourceLimitExceeded
      else (do
        let _ ← windowLog source.length header.targetLen.toNat
        let output ← decodeFrame native source frame header.targetLen.toNat
        if header.targetHash ≠ native.blake3 output then .error .targetHashMismatch
        else .ok output) := by
  rw [apply, h]
  rfl

/-- What `encode` produced applies to its source, up to the caller's limit. -/
lemma apply_encode (hz : native.Inverts) {source target patch : List UInt8}
    (h : encode native source target = .ok patch) (maximum : Nat) :
    apply native source patch maximum =
      if maximum = 0 ∨ target.length ≤ maximum then .ok target
      else .error .resourceLimitExceeded := by
  obtain ⟨hs, ht, frame, hframe, -, rfl⟩ := encode_eq_ok.mp h
  have hsl : (headerOf native source target).sourceLen.toNat = source.length :=
    UInt64.toNat_ofNat_of_lt' (hs.trans_lt (by norm_num [Zstdz.maxInputLen, UInt64.size]))
  have htl : (headerOf native source target).targetLen.toNat = target.length :=
    UInt64.toNat_ofNat_of_lt' (ht.trans_lt (by norm_num [Zstdz.maxInputLen, UInt64.size]))
  have hdec : decodeFrame native source frame target.length = .ok target := by
    obtain ⟨log, hlog⟩ := Zstdz.windowLog_of_le hs ht
    rw [decodeFrame, mapError_eq_ok]
    simp [Zstdz.decode, hlog, ok_bind, hz source target frame hframe]
  obtain ⟨log, hlog⟩ := windowLog_of_le hs ht
  rw [apply_of_decodePrefix maximum (Header.decodePrefix_eq_ok.mpr rfl), hsl, htl, if_neg (by simp),
    if_neg (by simp [headerOf])]
  by_cases hm : maximum = 0 ∨ target.length ≤ maximum
  · rw [if_neg (by omega), if_pos hm, hlog, ok_bind, hdec]
    simp [ok_bind, headerOf]
  · rw [if_pos (by omega), if_neg hm]

/-- An accepted patch matches its source and its output in length and digest. -/
lemma apply_eq_ok {source patch out : List UInt8} {maximum : Nat}
    (h : apply native source patch maximum = .ok out) :
    ∃ header frame, Header.decodePrefix patch = .ok (header, frame) ∧
      header.sourceLen.toNat = source.length ∧ header.sourceHash = native.blake3 source ∧
      out.length = header.targetLen.toNat ∧ header.targetLen.toNat ≤ Zstdz.maxInputLen ∧
      (maximum ≠ 0 → header.targetLen.toNat ≤ maximum) ∧
      native.blake3 out = header.targetHash := by
  cases hp : Header.decodePrefix patch with
  | error e => simp [apply, hp, Except.mapError, error_bind] at h
  | ok p =>
    obtain ⟨header, frame⟩ := p
    rw [apply_of_decodePrefix maximum hp] at h
    simp only [ite_error_eq_ok, Wire.bind_eq_ok, mapError_eq_ok, decodeFrame, Zstdz.decode, not_not,
      Except.ok.injEq] at h
    obtain ⟨hlen, hhash, hmax, log, hlog, out', ⟨-, -, w, -, hw, rfl⟩, hout, rfl⟩ := h
    refine ⟨header, frame, rfl, hlen, hhash, hw, (le_of_windowLog hlog).2, fun h0 => ?_, hout.symm⟩
    omega

/-- File patches round-trip and bind their source and target: what `encode` returns applies to
its source with exactly the target as result, within the limit; `encode` returns a patch whenever
the native encoder does; an accepted patch records the length and digest of its source and of its
output, within the codec's and the caller's limits; and a source that does not match a parsed
header is refused for that reason, whatever the rest of the patch says. -/
theorem file_patch_binds (native : Native) (hz : native.Inverts) :
    (∀ source target patch : List UInt8, encode native source target = .ok patch →
      ∀ maximum, apply native source patch maximum =
        if maximum = 0 ∨ target.length ≤ maximum then .ok target
        else .error .resourceLimitExceeded) ∧
    (∀ source target frame : List UInt8, source.length ≤ 2 ^ 31 → target.length ≤ 2 ^ 31 →
      native.compress source target = .ok frame →
      frame.length ≤ native.compressBound target.length →
      ∃ patch, encode native source target = .ok patch) ∧
    (∀ (source patch out : List UInt8) (maximum : Nat),
      apply native source patch maximum = .ok out →
      ∃ header frame, Header.decodePrefix patch = .ok (header, frame) ∧
        header.sourceLen.toNat = source.length ∧ header.sourceHash = native.blake3 source ∧
        out.length = header.targetLen.toNat ∧ header.targetLen.toNat ≤ 2 ^ 31 ∧
        (maximum ≠ 0 → header.targetLen.toNat ≤ maximum) ∧
        native.blake3 out = header.targetHash) ∧
    (∀ (source patch frame : List UInt8) (maximum : Nat) (header : Header),
      Header.decodePrefix patch = .ok (header, frame) →
      (header.sourceLen.toNat ≠ source.length →
        apply native source patch maximum = .error .sizeMismatch) ∧
      (header.sourceLen.toNat = source.length → header.sourceHash ≠ native.blake3 source →
        apply native source patch maximum = .error .sourceHashMismatch)) := by
  refine ⟨fun source target patch h => apply_encode hz h, ?_, fun _ _ _ _ h => apply_eq_ok h, ?_⟩
  · intro source target frame hs ht hframe hle
    exact ⟨_, encode_eq_ok.mpr ⟨hs, ht, frame, hframe, hle, rfl⟩⟩
  · intro source patch frame maximum header h
    rw [apply_of_decodePrefix maximum h]
    refine ⟨fun hlen => if_pos hlen, fun hlen hhash => ?_⟩
    rw [if_neg (not_not.mpr hlen), if_pos hhash]

/-! ### A library instance -/

/-- One zstd frame with a single stored block, as the encoder emits for a few bytes it cannot
compress: the magic number, a single-segment descriptor, the content size and the block header. -/
def storedFrame (target : List UInt8) : List UInt8 :=
  [0x28, 0xb5, 0x2f, 0xfd, 0x20, UInt8.ofNat target.length]
    ++ toLE 3 (1 + 8 * target.length) ++ target

/-- BLAKE3 as a table of the inputs of interest. -/
def tabulated (table : List (List UInt8 × Digest)) (input : List UInt8) : Digest :=
  (table.lookup input).getD (List.Vector.replicate 32 0)

/-- A library that stores targets below 256 bytes and refuses longer ones. -/
def stored (table : List (List UInt8 × Digest)) : Native where
  blake3 := tabulated table
  compressBound n := n + 64
  compress _ target :=
    if target.length < 256 then .ok (storedFrame target) else .error .compressionFailed
  decompress _ frame capacity :=
    if frame = storedFrame (frame.drop 9) ∧ (frame.drop 9).length ≤ capacity then
      .ok (frame.drop 9)
    else .error .decompressionFailed

lemma stored_inverts (table : List (List UInt8 × Digest)) : (stored table).Inverts := by
  intro source target frame h
  simp only [stored] at h ⊢
  split_ifs at h with hlt
  obtain rfl := Except.ok.inj h
  have hdrop : (storedFrame target).drop 9 = target := by
    rw [storedFrame, List.drop_left' (by simp)]
  rw [hdrop, if_pos ⟨rfl, le_rfl⟩]

/-- The value of a lowercase hexadecimal digit. -/
def hexDigit (c : Char) : UInt8 := (c.toNat - if c.isDigit then 48 else 87).toUInt8

def ofHex : List Char → List UInt8
  | a :: b :: rest => (16 * hexDigit a + hexDigit b) :: ofHex rest
  | _ => []

/-- The BLAKE3 digests of the empty string and of the letter `a`. -/
def letterDigests : List (List UInt8 × Digest) :=
  [ ([], ⟨ofHex "af1349b9f5f9a1a6a0404dea36dcc9499bcb25c9adc112b7cc9a93cae41f3262".toList,
      by decide⟩)
  , (utf8 "a", ⟨ofHex "17762fddd969a453925d65717ac3eea21320b66b54342fde15128d6caf21215f".toList,
      by decide⟩) ]

/-- The patch from the empty file to the letter `a` exists and applies without a limit. -/
theorem file_patch_binds_letter :
    ∃ patch, encode (stored letterDigests) [] (utf8 "a") = .ok patch ∧
      apply (stored letterDigests) [] patch 0 = .ok (utf8 "a") := by
  obtain ⟨hround, htotal, -, -⟩ := file_patch_binds (stored letterDigests) (stored_inverts _)
  obtain ⟨patch, hpatch⟩ := htotal [] (utf8 "a") (storedFrame (utf8 "a")) (by simp) (by decide)
    rfl (by decide)
  exact ⟨patch, hpatch, by rw [hround _ _ _ hpatch 0]; rfl⟩

end File

end Difz
