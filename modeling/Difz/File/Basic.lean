import Difz.Metadata.Canonical

/-!
# File patches

The ZDIF envelope (`rust/src/lib.rs`), the zstd frame codec (`rust/zstdz/src/lib.rs`) and the
file operations `encode` and `apply` (`rust/src/file.rs`). BLAKE3 and the native zstd calls are
the parameters of `Native`; everything the repository does around them is spelled out.
-/

namespace Difz

open Wire

namespace Zstdz

inductive Error
  | outOfMemory
  | windowTooLarge
  | compressionFailed
  | decompressionFailed
  deriving DecidableEq, Repr

end Zstdz

/-- The functions of linked libraries. `compress source target` runs the configured compression
context on `target` with `source` as its prefix and returns the frame; `decompress source frame
capacity` returns the bytes the decompressor wrote into a buffer of that capacity. -/
structure Native where
  blake3 : List UInt8 → Digest
  compressBound : Nat → Nat
  compress : List UInt8 → List UInt8 → Except Zstdz.Error (List UInt8)
  decompress : List UInt8 → List UInt8 → Nat → Except Zstdz.Error (List UInt8)

/-- Decoding a frame with the prefix it was made with gives back what was encoded. -/
def Native.Inverts (native : Native) : Prop :=
  ∀ source target frame, native.compress source target = .ok frame →
    native.decompress source frame target.length = .ok target

namespace Zstdz

variable (native : Native)

def maxInputLen : Nat := 2 ^ 31

def windowLog (source target : Nat) : Except Error Nat :=
  if source > maxInputLen ∨ target > maxInputLen then .error .windowTooLarge
  else .ok (max 10 (min 31 (Nat.size (max source target))))

lemma windowLog_of_le {source target : Nat} (hs : source ≤ maxInputLen)
    (ht : target ≤ maxInputLen) : ∃ log, windowLog source target = .ok log :=
  ⟨_, if_neg (by omega)⟩

lemma le_of_windowLog {source target log : Nat} (h : windowLog source target = .ok log) :
    source ≤ maxInputLen ∧ target ≤ maxInputLen := by
  rw [windowLog, ite_error_eq_ok] at h
  omega

def appendFrame (source target output : List UInt8) : Except Error (List UInt8) := do
  let _ ← windowLog source.length target.length
  let frame ← native.compress source target
  if frame.length > native.compressBound target.length then .error .compressionFailed
  else .ok (output ++ frame)

def decode (source frame : List UInt8) (expected : Nat) : Except Error (List UInt8) := do
  let _ ← windowLog source.length expected
  let written ← native.decompress source frame expected
  if written.length ≠ expected then .error .decompressionFailed else .ok written

end Zstdz

namespace File

inductive Error
  | outOfMemory
  | invalidMagic
  | truncated
  | sizeMismatch
  | sourceHashMismatch
  | targetHashMismatch
  | windowTooLarge
  | compressionFailed
  | decompressionFailed
  | resourceLimitExceeded
  deriving DecidableEq, Repr

def Error.ofZstdz : Zstdz.Error → Error
  | .outOfMemory => .outOfMemory
  | .windowTooLarge => .windowTooLarge
  | .compressionFailed => .compressionFailed
  | .decompressionFailed => .decompressionFailed

/-! ### The envelope -/

def magic : List UInt8 := utf8 "ZDIF\x04"

def headerLen : Nat := 85

inductive HeaderError
  | invalidMagic
  | truncated
  deriving DecidableEq, Repr

def Error.ofHeader : HeaderError → Error
  | .invalidMagic => .invalidMagic
  | .truncated => .truncated

structure Header where
  sourceHash : Digest
  targetHash : Digest
  sourceLen : UInt64
  targetLen : UInt64
  deriving DecidableEq

namespace Header

def encode (h : Header) : List UInt8 :=
  magic ++ (h.sourceHash.toList ++ (h.targetHash.toList ++
    (toLeBytes h.sourceLen ++ toLeBytes h.targetLen)))

/-- The header fields of a patch and the frame behind them. -/
def decodePrefix (bytes : List UInt8) : Except HeaderError (Header × List UInt8) :=
  if bytes.take 5 ≠ magic then .error .invalidMagic
  else if bytes.length < headerLen then .error .truncated
  else do
    let sourceHash ← tryInto .truncated 32 (field bytes 5 37)
    let targetHash ← tryInto .truncated 32 (field bytes 37 69)
    let header :=
      { sourceHash, targetHash
        sourceLen := fromLeBytes (field bytes 69 77)
        targetLen := fromLeBytes (field bytes 77 85) }
    .ok (header, bytes.drop headerLen)

@[simp] lemma length_encode (h : Header) : h.encode.length = headerLen := by
  simp [encode, headerLen, show magic.length = 5 from rfl]

/-- The envelope parses exactly when it is an encoded header followed by the frame. -/
theorem decodePrefix_eq_ok {bytes frame : List UInt8} {h : Header} :
    decodePrefix bytes = .ok (h, frame) ↔ bytes = h.encode ++ frame := by
  simp only [decodePrefix, ite_error_eq_ok, Wire.bind_eq_ok, tryInto_eq_ok, not_not, not_lt,
    Except.ok.injEq, Prod.mk.injEq]
  constructor
  · intro hx
    obtain ⟨hmagic, hlen, src, hsrc, dst, hdst, rfl, rfl⟩ := hx
    have hlen' : 85 ≤ bytes.length := hlen
    have h₁ : toLeBytes (fromLeBytes (field bytes 69 77) : UInt64) = field bytes 69 77 :=
      (toLeBytes_eq_field (j := 77) rfl (by omega)).mpr rfl
    have h₂ : toLeBytes (fromLeBytes (field bytes 77 85) : UInt64) = field bytes 77 85 :=
      (toLeBytes_eq_field (j := 85) rfl (by omega)).mpr rfl
    -- the five fields tile the first 85 bytes
    rw [encode, h₁, h₂, ← hsrc, ← hdst, ← hmagic, ← field_zero,
      field_append_field (by norm_num) (by norm_num),
      field_append_field (by norm_num) (by norm_num),
      field_append_field (by norm_num) (by norm_num),
      field_append_field (by norm_num) (by norm_num), field_zero]
    exact (List.take_append_drop _ _).symm
  · rintro rfl
    have hm : magic.length = 5 := rfl
    refine ⟨?_, by simp, h.sourceHash, ?_, h.targetHash, ?_, ?_, ?_⟩
    · rw [encode, List.append_assoc, List.take_left' hm]
    · rw [encode, List.append_assoc, List.append_assoc]
      exact field_append _ _ _ hm (by simp)
    · rw [encode, List.append_assoc, List.append_assoc, List.append_assoc, ← List.append_assoc]
      exact field_append _ _ _ (by simp [hm]) (by simp)
    · have hs : field (h.encode ++ frame) 69 77 = toLeBytes h.sourceLen := by
        rw [encode, List.append_assoc, List.append_assoc, List.append_assoc, List.append_assoc,
          ← List.append_assoc, ← List.append_assoc]
        exact field_append _ _ _ (by simp [hm]) (by simp)
      have ht : field (h.encode ++ frame) 77 85 = toLeBytes h.targetLen := by
        rw [encode, List.append_assoc, List.append_assoc, List.append_assoc, List.append_assoc,
          ← List.append_assoc, ← List.append_assoc, ← List.append_assoc]
        exact field_append _ _ _ (by simp [hm]) (by simp)
      simp [hs, ht]
    · exact List.drop_left' (length_encode h)

end Header

/-! ### Operations -/

variable (native : Native)

def windowLog (source target : Nat) : Except Error Nat :=
  (Zstdz.windowLog source target).mapError Error.ofZstdz

def encode (source target : List UInt8) : Except Error (List UInt8) := do
  let _ ← windowLog source.length target.length
  let header : Header :=
    { sourceHash := native.blake3 source
      targetHash := native.blake3 target
      sourceLen := UInt64.ofNat source.length
      targetLen := UInt64.ofNat target.length }
  (Zstdz.appendFrame native source target header.encode).mapError Error.ofZstdz

def decodeFrame (source frame : List UInt8) (expected : Nat) : Except Error (List UInt8) :=
  (Zstdz.decode native source frame expected).mapError Error.ofZstdz

/-- A zero `maximum` means no limit beyond the codec's own. -/
def apply (source patch : List UInt8) (maximum : Nat) : Except Error (List UInt8) := do
  let (header, frame) ← (Header.decodePrefix patch).mapError Error.ofHeader
  if header.sourceLen.toNat ≠ source.length then .error .sizeMismatch
  else if header.sourceHash ≠ native.blake3 source then .error .sourceHashMismatch
  else if maximum ≠ 0 ∧ header.targetLen.toNat > maximum then .error .resourceLimitExceeded
  else do
    let _ ← windowLog source.length header.targetLen.toNat
    let output ← decodeFrame native source frame header.targetLen.toNat
    if header.targetHash ≠ native.blake3 output then .error .targetHashMismatch else .ok output

end File

end Difz
