import Difz.Zig.Create

/-!
# Compression contexts

What both programs ask of zstd for a frame: `append_frame` and `decode` of `rust/zstdz/src/lib.rs`,
`encode` and `applyLimited` of `src/zstd_patch.zig`. The library is a parameter. The parameters that
are set on a context, their order, the prefix and the largest window are the same in both programs,
so what they get from one library is the same, `linked_eq`.
-/

namespace Difz

open Wire

/-- `ZSTD_compressionParameters`. The library keeps each of them in its bounds, where a signed
integer holds it. -/
structure CParams where
  chainLog : Nat
  hashLog : Nat
  searchLog : Nat
  minMatch : Nat
  targetLength : Nat
  strategy : Nat
  chainLog_pos : 0 < chainLog

/-- `ZSTD_cParameter` -/
inductive Parameter
  | compressionLevel
  | nbWorkers
  | enableLongDistanceMatching
  | windowLog
  | chainLog
  | hashLog
  | searchLog
  | minMatch
  | targetLength
  | strategy
  deriving DecidableEq, Repr

/-- The library. A context is what is set on it in turn, with the prefix it refers to, if any. -/
structure Zstd where
  getCParams : Nat → Nat → Nat → CParams
  compressBound : Nat → Nat
  compress2 : List (Parameter × Nat) → Option (List UInt8) → List UInt8 →
    Except Zstdz.Error (List UInt8)
  decompressDCtx : Nat → Option (List UInt8) → List UInt8 → Nat → Except Zstdz.Error (List UInt8)

/-- `ZSTD_btlazy2` -/
def btlazy2 : Nat := 6

/-- An empty file is not set as a prefix. -/
def refPrefix (source : List UInt8) : Option (List UInt8) :=
  if source = [] then none else some source

variable (zstd : Zstd) (blake3 : List UInt8 → Digest)

namespace Zstdz

/-- The parameters of `append_frame`, in the order of its loop. -/
def parameters (window : Nat) (cparams : CParams) (source target : List UInt8) :
    Except Error (List (Parameter × Nat)) :=
  let rawLog := Nat.size (max source.length target.length)
  let dropped := if cparams.strategy ≥ btlazy2 then 1 else 0
  if cparams.chainLog < dropped then .error .compressionFailed
  else
    let cycleLog := cparams.chainLog - dropped
    .ok [(.compressionLevel, 9), (.nbWorkers, 0),
      (.enableLongDistanceMatching, if rawLog > cycleLog then 1 else 0), (.windowLog, window),
      (.chainLog, cparams.chainLog), (.hashLog, cparams.hashLog), (.searchLog, cparams.searchLog),
      (.minMatch, cparams.minMatch), (.targetLength, cparams.targetLength),
      (.strategy, cparams.strategy)]

/-- The Rust program with the library. -/
def linked : Native where
  blake3
  compressBound := zstd.compressBound
  compress source target := do
    let window ← windowLog source.length target.length
    let set ← parameters window (zstd.getCParams 9 target.length source.length) source target
    zstd.compress2 set (refPrefix source) target
  decompress source frame expected :=
    zstd.decompressDCtx maxInputLen (refPrefix source) frame expected

end Zstdz

namespace Zig

def level : Nat := 9

def cycleLog (chainLog strategy : Nat) : Nat :=
  let scale := if strategy ≥ btlazy2 then 1 else 0
  chainLog - scale

/-- The parameters that `encode` sets. -/
def parameters (windowLog : Nat) (cparams : CParams) (source target : List UInt8) :
    List (Parameter × Nat) :=
  let rawLog :=
    if max source.length target.length = 0 then 0
    else Nat.size (max source.length target.length)
  let longDistance := if rawLog > cycleLog cparams.chainLog cparams.strategy then 1 else 0
  [(.compressionLevel, level), (.nbWorkers, 0), (.enableLongDistanceMatching, longDistance),
    (.windowLog, windowLog), (.chainLog, cparams.chainLog), (.hashLog, cparams.hashLog),
    (.searchLog, cparams.searchLog), (.minMatch, cparams.minMatch),
    (.targetLength, cparams.targetLength), (.strategy, cparams.strategy)]

/-- The native program with the library. -/
def linked : Native where
  blake3
  compressBound := zstd.compressBound
  compress source target := do
    let windowLog ← (patchWindowLog source.length target.length).mapError fun _ => .windowTooLarge
    let cparams := zstd.getCParams level target.length source.length
    zstd.compress2 (parameters windowLog cparams source target) (refPrefix source) target
  decompress source frame expected :=
    zstd.decompressDCtx (1 <<< windowLogMax) (refPrefix source) frame expected

end Zig

lemma parameters_eq (window : Nat) (cparams : CParams) (source target : List UInt8) :
    Zstdz.parameters window cparams source target
      = .ok (Zig.parameters window cparams source target) := by
  have hpos := cparams.chainLog_pos
  have hraw : (if max source.length target.length = 0 then 0
        else Nat.size (max source.length target.length))
      = Nat.size (max source.length target.length) := by
    split_ifs with hzero
    · rw [hzero]
      rfl
    · rfl
  have hdropped : ¬ cparams.chainLog < if cparams.strategy ≥ btlazy2 then 1 else 0 := by
    split_ifs <;> omega
  simp only [Zstdz.parameters, Zig.parameters, Zig.cycleLog, Zig.level, hraw, if_neg hdropped]

/-- Both programs get the same frames from one library. -/
theorem linked_eq : Zig.linked zstd blake3 = Zstdz.linked zstd blake3 := by
  have hcompress : (Zig.linked zstd blake3).compress = (Zstdz.linked zstd blake3).compress := by
    funext source target
    simp only [Zig.linked, Zstdz.linked, Zig.patchWindowLog_eq, File.windowLog]
    cases hlog : Zstdz.windowLog source.length target.length with
    | error e =>
      have herror : e = .windowTooLarge := by
        rw [Zstdz.windowLog] at hlog
        split_ifs at hlog
        exact (Except.error.inj hlog).symm
      simp [herror, Except.mapError, error_bind]
    | ok window =>
      simp [Except.mapError, ok_bind, parameters_eq, Zig.level]
  simp only [Zig.linked, Zstdz.linked] at hcompress ⊢
  rw [hcompress]
  rfl

end Difz
