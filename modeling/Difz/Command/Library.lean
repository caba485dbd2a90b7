import Difz.Command.Omit
import Difz.Zig.Context

/-!
# File patches behind the C interfaces

The exported functions for file patches of the native library (`src/lib.zig`) and of the Rust
library (`rust/c-api/src/lib.rs`). A call returns a code and, when the code is zero, puts a buffer
into the slot of its caller. Linked with one zstd, both make the same bytes, and each applies what
the other one made; only the codes of failures differ.
-/

namespace Difz

open Wire

/-- What a call returns and what it leaves in the slot of the caller. -/
abbrev Return (α : Type) := Int × α

/-! ### The native library -/

namespace Zig

variable (native : Native)

/-- `difz_diff_limited` -/
def difzDiffLimited (a b : List UInt8) (maxOutputBytes : Nat) (out : List UInt8) :
    Return (List UInt8) :=
  match encodeFile native a b with
  | .error _ => (-1, out)
  | .ok encoded =>
    if maxOutputBytes ≠ 0 ∧ encoded.length > maxOutputBytes then (-4, out) else (0, encoded)

/-- `difz_diff` -/
def difzDiff (a b : List UInt8) (out : List UInt8) : Return (List UInt8) :=
  difzDiffLimited native a b 0 out

/-- `difz_patch_limited` -/
def difzPatchLimited (a diff : List UInt8) (maxOutputBytes : Nat) (out : List UInt8) :
    Return (List UInt8) :=
  match applyLimited native a diff maxOutputBytes with
  | .error e => (if e = .resourceLimitExceeded then -4 else -1, out)
  | .ok reconstructed => (0, reconstructed)

/-- `difz_patch` -/
def difzPatch (a diff : List UInt8) (out : List UInt8) : Return (List UInt8) :=
  difzPatchLimited native a diff 0 out

/-- `difz_parse_metadata_omit`, on a text that ends at its first zero byte. -/
def difzParseMetadataOmit (text : List UInt8) (outMask : UInt32) : Return UInt32 :=
  match parseOmit (text.takeWhile (· ≠ 0)) with
  | .error _ => (-1, outMask)
  | .ok omit_ => (0, omit_.bits)

end Zig

/-! ### The Rust library -/

namespace CApi

inductive Status
  | invalidData
  | wrongSource
  | limit
  | outOfMemory
  | argument
  | panic
  deriving DecidableEq, Repr

def Status.code : Status → Int
  | .invalidData => -1
  | .wrongSource => -2
  | .limit => -4
  | .outOfMemory => -5
  | .argument => -6
  | .panic => -7

def Status.ofFile : File.Error → Status
  | .outOfMemory => .outOfMemory
  | .sizeMismatch | .sourceHashMismatch => .wrongSource
  | .windowTooLarge | .resourceLimitExceeded => .limit
  | .invalidMagic | .truncated | .targetHashMismatch | .compressionFailed | .decompressionFailed =>
    .invalidData

/-- A pointer and a length as they are passed: a null pointer with any length, or the bytes that
are there. -/
inductive Region
  | null (length : Nat)
  | live (bytes : List UInt8)
  deriving DecidableEq, Repr

/-- `isize::MAX` -/
def isizeMax : Nat := 2 ^ 63 - 1

def input : Region → Except Status (List UInt8)
  | .null length => if length ≠ 0 then .error .argument else .ok []
  | .live bytes => if bytes.length > isizeMax then .error .argument else .ok bytes

/-- How an operation ends under `catch_unwind`. -/
inductive Outcome (α : Type)
  | returned (result : Except Status α)
  | unwound

/-- `guard` around an operation that ends by writing to a slot. -/
def guard {α : Type} (operation : Outcome α) (slot : α) : Return α :=
  match operation with
  | .returned (.ok value) => (0, value)
  | .returned (.error status) => (status.code, slot)
  | .unwound => (Status.panic.code, slot)

/-- The owner of a buffer is allocated by itself, which may fail. -/
def own (allocates : Bool) (bytes : List UInt8) : Except Status (List UInt8) :=
  if allocates then .ok bytes else .error .outOfMemory

/-- `produce`. No slot stands for a null pointer. -/
def produce (allocates : Bool) (out : Option (List UInt8)) (operation : Outcome (List UInt8)) :
    Return (Option (List UInt8)) :=
  match out with
  | none => (Status.argument.code, none)
  | some slot =>
    let owned : Outcome (List UInt8) :=
      match operation with
      | .returned result => .returned (result >>= own allocates)
      | .unwound => .unwound
    let (code, slot) := guard owned slot
    (code, some slot)

variable (native : Native) (allocates : Bool)

/-- `difz_file_encode` -/
def difzFileEncode (source target : Region) (maxBytes : Nat) (out : Option (List UInt8)) :
    Return (Option (List UInt8)) :=
  produce allocates out <| .returned do
    let source ← input source
    let target ← input target
    let bytes ← (File.encode native source target).mapError Status.ofFile
    if maxBytes ≠ 0 ∧ bytes.length > maxBytes then .error .limit else .ok bytes

/-- `difz_file_apply` -/
def difzFileApply (source patch : Region) (maxBytes : Nat) (out : Option (List UInt8)) :
    Return (Option (List UInt8)) :=
  produce allocates out <| .returned do
    let source ← input source
    let patch ← input patch
    (File.apply native source patch maxBytes).mapError Status.ofFile

/-- `difz_metadata_omit_parse` -/
def difzMetadataOmitParse (text : Region) (out : Option UInt32) : Return (Option UInt32) :=
  match out with
  | none => (Status.argument.code, none)
  | some slot =>
    let operation : Except Status UInt32 := do
      let bytes ← input text
      let omit_ ← (Metadata.Omit.parse bytes).mapError fun _ => Status.invalidData
      .ok omit_.bits
    let (code, slot) := guard (.returned operation) slot
    (code, some slot)

/-! ### Codes and slots -/

lemma produce_returned (slot : List UInt8) (result : Except Status (List UInt8)) :
    produce true (some slot) (.returned result) =
      match result with
      | .ok bytes => (0, some bytes)
      | .error status => (status.code, some slot) := by
  cases result <;> rfl

lemma Status.code_ne_zero (status : Status) : status.code ≠ 0 := by
  cases status <;> decide

/-- A returned buffer is in the slot, and without one the slot is as it was. -/
lemma produce_cases (slot : List UInt8) (operation : Outcome (List UInt8)) :
    (∃ bytes, operation = .returned (.ok bytes) ∧ allocates = true ∧
      produce allocates (some slot) operation = (0, some bytes)) ∨
    ∃ status : Status, produce allocates (some slot) operation = (status.code, some slot) := by
  cases operation with
  | unwound => exact .inr ⟨.panic, rfl⟩
  | returned result =>
    cases result with
    | error status => exact .inr ⟨status, rfl⟩
    | ok bytes =>
      cases allocates with
      | false => exact .inr ⟨.outOfMemory, rfl⟩
      | true => exact .inl ⟨bytes, rfl, rfl, rfl⟩

/-- Without a buffer the slot is as it was. -/
lemma produce_slot {slot : List UInt8} {operation : Outcome (List UInt8)}
    (h : ∀ bytes, produce allocates (some slot) operation ≠ (0, some bytes)) :
    (produce allocates (some slot) operation).2 = some slot := by
  obtain ⟨bytes, -, -, hrun⟩ | ⟨status, hrun⟩ := produce_cases allocates slot operation
  · exact absurd hrun (h bytes)
  · rw [hrun]

end CApi

open CApi

variable {native : Native} {a b : List UInt8} {source target patch : Region}

/-- Both encoders fill the slot with the same bytes, under the same limit. -/
lemma difzFileEncode_iff (hsource : input source = .ok a) (htarget : input target = .ok b)
    {limit : Nat} {out slot p : List UInt8} :
    Zig.difzDiffLimited native a b limit out = (0, p) ↔
      difzFileEncode native true source target limit (some slot) = (0, some p) := by
  have hagree : Agree File.Error.name Eq (File.encode native a b) _ := Zig.encodeFile_agree a b
  rw [Zig.difzDiffLimited, difzFileEncode, hsource, ok_bind, htarget, ok_bind, produce_returned]
  cases hrust : File.encode native a b with
  | error e =>
    rw [hagree.error_eq hrust]
    exact iff_of_false (by simp) (by simp [Except.mapError, error_bind, Status.code_ne_zero])
  | ok bytes =>
    rw [hagree.ok_iff.mpr hrust, mapError_ok, ok_bind]
    dsimp only
    by_cases hlimit : limit ≠ 0 ∧ bytes.length > limit
    · rw [if_pos hlimit, if_pos hlimit]
      exact iff_of_false (by simp) (by simp [Status.code])
    · rw [if_neg hlimit, if_neg hlimit]
      simp

/-- Both decoders fill it with the same bytes. -/
lemma difzFileApply_iff (hsource : input source = .ok a) {diff : List UInt8}
    (hpatch : input patch = .ok diff) (limit : Nat) (out slot : List UInt8) {b : List UInt8} :
    Zig.difzPatchLimited native a diff limit out = (0, b) ↔
      difzFileApply native true source patch limit (some slot) = (0, some b) := by
  have hagree : Agree File.Error.name Eq (File.apply native a diff limit) _ :=
    Zig.applyLimited_agree a diff limit
  rw [Zig.difzPatchLimited, difzFileApply, hsource, ok_bind, hpatch, ok_bind, produce_returned]
  cases hrust : File.apply native a diff limit with
  | error e =>
    rw [hagree.error_eq hrust]
    refine iff_of_false ?_ (by simp [Except.mapError, Status.code_ne_zero])
    dsimp only
    split_ifs <;> simp
  | ok bytes =>
    rw [hagree.ok_iff.mpr hrust]
    simp [Except.mapError]

/-- The codes of the native library. -/
lemma difzPatchLimited_cases (native : Native) (a diff : List UInt8) (limit : Nat)
    (out : List UInt8) :
    (∃ b, Zig.difzPatchLimited native a diff limit out = (0, b)) ∨
      Zig.difzPatchLimited native a diff limit out = (-1, out) ∨
      Zig.difzPatchLimited native a diff limit out = (-4, out) := by
  rw [Zig.difzPatchLimited]
  cases Zig.applyLimited native a diff limit with
  | error e =>
    dsimp only
    split_ifs
    · exact .inr (.inr rfl)
    · exact .inr (.inl rfl)
  | ok b => exact .inl ⟨b, rfl⟩

lemma difzDiffLimited_cases (native : Native) (a b : List UInt8) (limit : Nat)
    (out : List UInt8) :
    (∃ p, Zig.difzDiffLimited native a b limit out = (0, p)) ∨
      Zig.difzDiffLimited native a b limit out = (-1, out) ∨
      Zig.difzDiffLimited native a b limit out = (-4, out) := by
  rw [Zig.difzDiffLimited]
  cases Zig.encodeFile native a b with
  | error e => exact .inr (.inl rfl)
  | ok encoded =>
    dsimp only
    split_ifs
    · exact .inr (.inr rfl)
    · exact .inl ⟨encoded, rfl⟩

/-- A patch that is too long for the native library is too long for the Rust library. -/
lemma limit_of_diff (hsource : input source = .ok a) (htarget : input target = .ok b) {limit : Nat}
    {out slot : List UInt8} (h : Zig.difzDiffLimited native a b limit out = (-4, out)) :
    difzFileEncode native true source target limit (some slot) = (-4, some slot) := by
  have hagree : Agree File.Error.name Eq (File.encode native a b) _ := Zig.encodeFile_agree a b
  rw [difzFileEncode, hsource, ok_bind, htarget, ok_bind, produce_returned]
  cases hrust : File.encode native a b with
  | error e =>
    rw [Zig.difzDiffLimited, hagree.error_eq hrust] at h
    exact absurd h (by simp)
  | ok bytes =>
    rw [Zig.difzDiffLimited, hagree.ok_iff.mpr hrust] at h
    dsimp only at h
    split_ifs at h with hlimit
    · rw [mapError_ok, ok_bind, if_pos hlimit]
      rfl
    · exact absurd h (by simp)

/-- What the native library leaves for a limit is left by the Rust library for the same reason. -/
lemma limit_of_limit (hsource : input source = .ok a) {diff : List UInt8}
    (hpatch : input patch = .ok diff) {limit : Nat} {out slot : List UInt8}
    (h : Zig.difzPatchLimited native a diff limit out = (-4, out)) :
    difzFileApply native true source patch limit (some slot) = (-4, some slot) := by
  have hagree : Agree File.Error.name Eq (File.apply native a diff limit) _ :=
    Zig.applyLimited_agree a diff limit
  rw [difzFileApply, hsource, ok_bind, hpatch, ok_bind, produce_returned]
  cases hrust : File.apply native a diff limit with
  | ok b =>
    rw [Zig.difzPatchLimited, hagree.ok_iff.mpr hrust] at h
    exact absurd h (by simp)
  | error e =>
    rw [Zig.difzPatchLimited, hagree.error_eq hrust] at h
    have hlimit : e = .resourceLimitExceeded := by
      by_contra hne
      have hname : e.name ≠ .resourceLimitExceeded := by
        cases e <;> first | exact absurd rfl hne | decide
      dsimp only at h
      rw [if_neg hname] at h
      exact absurd h (by simp)
    rw [hlimit]
    rfl

/-- A patch of either library is applied by both, within the limit. -/
lemma patch_of_diff (hz : native.Inverts) {p out : List UInt8} {limit : Nat}
    (h : Zig.difzDiffLimited native a b limit out = (0, p)) (maximum : Nat) :
    Zig.applyLimited native a p maximum = if maximum = 0 ∨ b.length ≤ maximum then .ok b
      else .error .resourceLimitExceeded := by
  have hencode : File.encode native a b = .ok p := by
    have hagree : Agree File.Error.name Eq (File.encode native a b) _ := Zig.encodeFile_agree a b
    rw [Zig.difzDiffLimited] at h
    split at h
    · exact absurd h (by simp)
    · next encoded hencoded =>
      split_ifs at h
      · exact absurd h (by simp)
      · rw [← (Prod.mk.inj h).2]
        exact hagree.ok_iff.mp hencoded
  have happly := File.apply_encode hz hencode maximum
  have hagree : Agree File.Error.name Eq (File.apply native a p maximum) _ :=
    Zig.applyLimited_agree a p maximum
  split_ifs at happly ⊢
  · exact hagree.ok_iff.mpr happly
  · exact hagree.error_eq happly

/-- An omission list without a zero byte names the same mask to both. -/
lemma difzMetadataOmitParse_iff {region : Region} {text : List UInt8}
    (hregion : input region = .ok text) (hzero : 0 ∉ text) (outMask slot : UInt32) {mask : UInt32} :
    Zig.difzParseMetadataOmit text outMask = (0, mask) ↔
      difzMetadataOmitParse region (some slot) = (0, some mask) := by
  have hwhole : text.takeWhile (· ≠ 0) = text := by
    rw [List.takeWhile_eq_self_iff]
    intro b hb
    simpa using ne_of_mem_of_not_mem hb hzero
  rw [Zig.difzParseMetadataOmit, hwhole, Zig.parseOmit_eq, difzMetadataOmitParse, hregion, ok_bind]
  cases Metadata.Omit.parse text with
  | error e => simp [Except.map, Except.mapError, error_bind, CApi.guard, Status.code]
  | ok parsed => simp [Except.map, Except.mapError, ok_bind, CApi.guard, Zig.Omit.bits_of]

/-- A call with a code of its own leaves both slots alone. -/
lemma slots_of_code {r : Return (List UInt8)} {out slot : List UInt8} {operation}
    (hcases : (∃ p, r = (0, p)) ∨ r = (-1, out) ∨ r = (-4, out))
    (hiff : ∀ p, r = (0, p) ↔ produce true (some slot) operation = (0, some p)) (hcode : r.1 ≠ 0) :
    r.2 = out ∧ (produce true (some slot) operation).2 = some slot := by
  refine ⟨?_, produce_slot true fun p hrun => hcode (by rw [(hiff p).mpr hrun])⟩
  obtain ⟨p, h⟩ | h | h := hcases
  · exact absurd (by rw [h]) hcode
  · rw [h]
  · rw [h]

/-- The two libraries exchange file patches. On the same files and with the same limit they make
the same patch or none; any patch is applied by both to the same file or by none; and what was made
is applied by both, to any length that the limit allows. A call that fails leaves the slot as it
was, and the native library says -4 only for a limit. -/
theorem file_exchange (zstd : Zstd) (blake3 : List UInt8 → Digest)
    (hz : (Zstdz.linked zstd blake3).Inverts) (hsource : input source = .ok a)
    (htarget : input target = .ok b) (out slot : List UInt8) :
    let zig := Zig.linked zstd blake3
    let rust := Zstdz.linked zstd blake3
    (∀ limit,
      (∀ p, Zig.difzDiffLimited zig a b limit out = (0, p) ↔
        difzFileEncode rust true source target limit (some slot) = (0, some p)) ∧
      (Zig.difzDiffLimited zig a b limit out = (-4, out) →
        difzFileEncode rust true source target limit (some slot) = (-4, some slot)) ∧
      ((Zig.difzDiffLimited zig a b limit out).1 ≠ 0 →
        (Zig.difzDiffLimited zig a b limit out).2 = out ∧
        (difzFileEncode rust true source target limit (some slot)).2 = some slot)) ∧
    (∀ patch diff limit, input patch = .ok diff →
      (∀ b, Zig.difzPatchLimited zig a diff limit out = (0, b) ↔
        difzFileApply rust true source patch limit (some slot) = (0, some b)) ∧
      (Zig.difzPatchLimited zig a diff limit out = (-4, out) →
        difzFileApply rust true source patch limit (some slot) = (-4, some slot)) ∧
      ((Zig.difzPatchLimited zig a diff limit out).1 ≠ 0 →
        (Zig.difzPatchLimited zig a diff limit out).2 = out ∧
        (difzFileApply rust true source patch limit (some slot)).2 = some slot)) ∧
    ∀ patch p limit, Zig.difzDiffLimited zig a b limit out = (0, p) → input patch = .ok p →
      ∀ maximum,
        Zig.difzPatchLimited zig a p maximum out
          = (if maximum = 0 ∨ b.length ≤ maximum then (0, b) else (-4, out)) ∧
        difzFileApply rust true source patch maximum (some slot)
          = if maximum = 0 ∨ b.length ≤ maximum then (0, some b) else (-4, some slot) := by
  intro zig rust
  have hsame : zig = rust := linked_eq zstd blake3
  rw [hsame]
  refine ⟨fun limit => ?_, fun patch diff limit hpatch => ?_,
    fun patch p limit h hpatch maximum => ?_⟩
  · exact ⟨fun p => difzFileEncode_iff hsource htarget, limit_of_diff hsource htarget,
      slots_of_code (difzDiffLimited_cases rust a b limit out)
        fun p => difzFileEncode_iff hsource htarget⟩
  · exact ⟨fun b => difzFileApply_iff hsource hpatch limit out slot,
      limit_of_limit hsource hpatch,
      slots_of_code (difzPatchLimited_cases rust a diff limit out)
        fun b => difzFileApply_iff hsource hpatch limit out slot⟩
  · have happly := patch_of_diff hz h maximum
    have hzig : Zig.difzPatchLimited rust a p maximum out
        = if maximum = 0 ∨ b.length ≤ maximum then (0, b) else (-4, out) := by
      rw [Zig.difzPatchLimited, happly]
      split_ifs <;> rfl
    refine ⟨hzig, ?_⟩
    split_ifs at hzig ⊢
    · exact (difzFileApply_iff hsource hpatch maximum out slot).mp hzig
    · exact limit_of_limit hsource hpatch hzig

/-- A library that stores short targets. The parameters are those of level 9 for a single byte. -/
def storedZstd : Zstd where
  getCParams _ _ _ := ⟨7, 7, 5, 4, 8, 6, by decide⟩
  compressBound := (File.stored []).compressBound
  compress2 _ _ := (File.stored []).compress []
  decompressDCtx _ _ := (File.stored []).decompress []

lemma storedZstd_inverts (blake3 : List UInt8 → Digest) :
    (Zstdz.linked storedZstd blake3).Inverts := by
  intro source target frame h
  obtain ⟨window, -, h⟩ := bind_eq_ok.mp h
  obtain ⟨set, -, h⟩ := bind_eq_ok.mp h
  exact File.stored_inverts [] [] target frame h

/-- The patch that the Rust library makes for the letter `a` is applied by the native library. -/
theorem file_exchange_letter :
    let blake3 := File.tabulated File.letterDigests
    ∃ p, difzFileEncode (Zstdz.linked storedZstd blake3) true (.null 0) (.live (utf8 "a")) 0
        (some []) = (0, some p) ∧
      Zig.difzPatchLimited (Zig.linked storedZstd blake3) [] p 0 [] = (0, utf8 "a") := by
  intro blake3
  let native := Zstdz.linked storedZstd blake3
  let p := (File.headerOf native [] (utf8 "a")).encode ++ File.storedFrame (utf8 "a")
  have hframe : native.compress [] (utf8 "a") = .ok (File.storedFrame (utf8 "a")) := by
    obtain ⟨window, hwindow⟩ : ∃ window, Zstdz.windowLog 0 1 = .ok window :=
      Zstdz.windowLog_of_le (by decide) (by decide)
    exact bind_eq_ok.mpr ⟨window, hwindow, bind_eq_ok.mpr ⟨_, parameters_eq .., rfl⟩⟩
  have hencode : File.encode native [] (utf8 "a") = .ok p :=
    File.encode_eq_ok.mpr ⟨by simp, by decide, _, hframe, by decide, rfl⟩
  have hmade : Zig.difzDiffLimited (Zig.linked storedZstd blake3) [] (utf8 "a") 0 [] = (0, p) := by
    rw [linked_eq, Zig.difzDiffLimited, (Zig.encodeFile_agree [] (utf8 "a")).ok_iff.mpr hencode]
    rfl
  have hsource : input (.null 0) = .ok [] := rfl
  have htarget : input (.live (utf8 "a")) = .ok (utf8 "a") := rfl
  have hpatch : input (.live p) = .ok p := by
    rw [input, if_neg (by decide)]
  obtain ⟨hdiff, -, happly⟩ :=
    file_exchange storedZstd blake3 (storedZstd_inverts _) hsource htarget [] []
  exact ⟨p, ((hdiff 0).1 p).mp hmade, (happly (.live p) p 0 hmade hpatch 0).1⟩

end Difz
