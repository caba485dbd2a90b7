import Difz.Tree.Header
import Difz.Wire.Checked
import Mathlib.Data.Vector.Basic

/-!
# Envelopes on the machine

`Header::decode_prefix` of file patches (`rust/src/lib.rs`) and of tree patches
(`rust/src/tree_patch.rs`), with the index, slice and integer operations of the source left in.
The fields lie inside the header that was cut out first, and the division of the count of rules
goes ahead of its multiplication.
-/

namespace Difz

open Wire
open Metadata (Omit)

namespace Machine

/-! ### File patches -/

namespace File

open Difz.File (Header HeaderError headerLen magic)

def decodePrefix (bytes : List UInt8) : Checked HeaderError (Header × List UInt8) :=
  if Checked.get? bytes 0 magic.length ≠ some magic then Checked.fail .invalidMagic
  else match Checked.get? bytes 0 headerLen with
    | none => Checked.fail .truncated
    | some encoded => do
      let sourceHash ← Checked.array .truncated 32 encoded 5 37
      let targetHash ← Checked.array .truncated 32 encoded 37 69
      let sourceLen ← Checked.array .truncated 8 encoded 69 77
      let targetLen ← Checked.array .truncated 8 encoded 77 encoded.length
      let frame ← Checked.slice bytes headerLen bytes.length
      .ok (⟨sourceHash, targetHash, fromLeBytes sourceLen.toList, fromLeBytes targetLen.toList⟩,
        frame)

/-- A field of the part that was cut out is one of the whole. -/
lemma field_take {bytes : List UInt8} {i j n : Nat} (h : j ≤ n) :
    field (bytes.take n) i j = field bytes i j := by
  rw [field, field, List.take_take, Nat.min_eq_left h]

lemma decodePrefix_eq (bytes : List UInt8) :
    decodePrefix bytes = Checked.ofExcept (Header.decodePrefix bytes) := by
  have hmagic : magic.length = 5 := rfl
  rw [decodePrefix, Header.decodePrefix, Checked.ofExcept_ite]
  by_cases htake : bytes.take 5 = magic
  · have hfive : 5 ≤ bytes.length := by
      have := congrArg List.length htake
      rw [List.length_take, hmagic] at this
      omega
    have hget : Checked.get? bytes 0 magic.length = some magic := by
      rw [Checked.get?, if_pos ⟨Nat.zero_le _, hfive⟩, hmagic, htake, List.drop_zero]
    rw [if_neg (not_not.mpr hget), if_neg (not_not.mpr htake), Checked.ofExcept_ite]
    by_cases hshort : bytes.length < headerLen
    · rw [if_pos hshort, Checked.get?, if_neg fun h => absurd h.2 (not_le.mpr hshort)]
      rfl
    have hlong : 85 ≤ bytes.length := not_lt.mp hshort
    have hencoded : (bytes.take headerLen).length = 85 := by
      rw [List.length_take]
      exact Nat.min_eq_left hlong
    rw [if_neg hshort, Checked.get?, if_pos ⟨Nat.zero_le _, not_lt.mp hshort⟩, List.drop_zero]
    obtain ⟨source, hsource, htoSource⟩ := Checked.array_of_le (n := 32) (i := 5) (j := 37)
      HeaderError.truncated rfl (by omega : 37 ≤ (bytes.take headerLen).length)
    obtain ⟨target, htarget, htoTarget⟩ := Checked.array_of_le (n := 32) (i := 37) (j := 69)
      HeaderError.truncated rfl (by omega : 69 ≤ (bytes.take headerLen).length)
    obtain ⟨sourceLen, hsourceLen, htoSourceLen⟩ := Checked.array_of_le (n := 8) (i := 69) (j := 77)
      HeaderError.truncated rfl (by omega : 77 ≤ (bytes.take headerLen).length)
    obtain ⟨targetLen, htargetLen, htoTargetLen⟩ := Checked.array_of_le (n := 8) (i := 77)
      HeaderError.truncated hencoded.symm le_rfl
    have hcut : ∀ {i j : Nat}, j ≤ 85 → field (bytes.take headerLen) i j = field bytes i j :=
      fun h => field_take h
    rw [hcut (by omega)] at htoSource htoTarget htoSourceLen htoTargetLen
    have hsource' : tryInto HeaderError.truncated 32 (field bytes 5 37) = .ok source :=
      tryInto_eq_ok.mpr htoSource.symm
    have htarget' : tryInto HeaderError.truncated 32 (field bytes 37 69) = .ok target :=
      tryInto_eq_ok.mpr htoTarget.symm
    rw [hencoded] at htoTargetLen
    dsimp only
    rw [hsource, ok_bind, htarget, ok_bind, hsourceLen, ok_bind, htargetLen, ok_bind,
      Checked.slice_drop (not_lt.mp hshort), ok_bind, hsource', ok_bind, htarget', ok_bind,
      htoSourceLen, htoTargetLen]
    rfl
  · rw [if_pos htake, if_pos]
    · rfl
    · intro hget
      rw [Checked.get?] at hget
      split_ifs at hget with h
      exact htake (Option.some.inj hget)

end File

/-! ### Tree patches -/

namespace TreePatch

open Difz.TreePatch (EnvelopeLimits Error Header checksumOffset headerLen version)

variable (blake3 : List UInt8 → Digest)

def word (bytes : List UInt8) (offset : Nat) : Checked Error UInt32 := do
  let first ← Checked.index bytes offset
  let second ← Checked.index bytes (← Checked.add 64 offset 1)
  let third ← Checked.index bytes (← Checked.add 64 offset 2)
  let fourth ← Checked.index bytes (← Checked.add 64 offset 3)
  .ok (fromLeBytes [first, second, third, fourth])

/-- `core::array::from_fn(|i| encoded[offset + i])`. -/
def hashAt (encoded : List UInt8) (offset : Nat) : Checked Error Digest :=
  List.Vector.mOfFn fun i => do
    let j ← Checked.add 64 offset i
    Checked.index encoded j

/-- The first bytes of a patch, as many as a header takes. -/
def headerBytes (bytes : List UInt8) : Checked Error (List UInt8) :=
  match Checked.get? bytes 0 headerLen with
  | none => Checked.fail .unexpectedEndOfInput
  | some encoded => .ok encoded

/-- The counts of rules and entries must fit in a body of that length. -/
def checkCounts (rules entries length : Nat) : Checked Error Unit := do
  let short ← Checked.or (rules > length / 9) do
    let taken ← Checked.mul 64 rules 9
    let rest ← Checked.sub length taken
    pure (decide (entries > rest / 41))
  ensure (short = false) (.error .unexpectedEndOfInput)

def decodePrefix (bytes : List UInt8) (limits : EnvelopeLimits) :
    Checked Error (Header × List UInt8) := do
  ensure (bytes.length ≤ limits.maxPatchBytes.toNat) (.error .limitExceeded)
  let encoded ← headerBytes bytes
  let magic ← Checked.slice encoded 0 8
  ensure (magic = utf8 "DIFZTREE") (.error .invalidMagic)
  let found ← Checked.indices encoded [8, 9]
  ensure (fromLeBytes found = version) (.error .unsupportedVersion)
  let body ← Checked.slice bytes headerLen bytes.length
  let leading ← Checked.slice encoded 0 checksumOffset
  let sum ← Checked.slice encoded checksumOffset encoded.length
  ensure ((Header.checksum blake3 leading body).toList = sum) (.error .patchHashMismatch)
  let needed ← Checked.indices encoded [10, 11]
  let neededReader : UInt16 := fromLeBytes needed
  ensure (neededReader ≤ version) (.error .readerTooOld)
  let flags ← word encoded 12
  ensure (flags &&& ~~~0x7f = 0) (.error .unsupportedFlags)
  let mask ← Checked.ofExcept ((Omit.fromBits (flags >>> 1)).mapError fun _ =>
    Error.unsupportedFlags)
  let ruleCount ← word encoded 16
  let entryCount ← word encoded 20
  ensure (ruleCount ≤ limits.maxRules ∧ entryCount ≤ limits.maxEntries) (.error .limitExceeded)
  checkCounts ruleCount.toNat entryCount.toNat body.length
  let sourceHash ← hashAt encoded 24
  let targetHash ← hashAt encoded 56
  .ok (⟨neededReader, flags &&& 1 != 0, mask, ruleCount, entryCount, sourceHash, targetHash⟩, body)

lemma getElem_field {bytes : List UInt8} {i j k : Nat} (h : i + k < bytes.length)
    (hk : k < (field bytes i j).length) : (field bytes i j)[k] = bytes[i + k] := by
  simp [field]

lemma word_eq {bytes : List UInt8} {offset : Nat} (hfits : bytes.length < 2 ^ 64)
    (h : offset + 4 ≤ bytes.length) : word bytes offset = .ok (Header.word bytes offset) := by
  have hfield : field bytes offset (offset + 4)
      = [bytes[offset], bytes[offset + 1], bytes[offset + 2], bytes[offset + 3]] := by
    refine List.ext_getElem (by rw [length_field h]; simp) fun k hk hk' => ?_
    rw [getElem_field (by rw [length_field h] at hk; omega) hk]
    match k, hk' with
    | 0, _ | 1, _ | 2, _ | 3, _ => rfl
  simp only [word, Header.word, hfield, Checked.add_of_lt (by omega : offset + 1 < 2 ^ 64),
    Checked.add_of_lt (by omega : offset + 2 < 2 ^ 64),
    Checked.add_of_lt (by omega : offset + 3 < 2 ^ 64), ok_bind,
    Checked.index_of_lt (by omega : offset < bytes.length),
    Checked.index_of_lt (by omega : offset + 1 < bytes.length),
    Checked.index_of_lt (by omega : offset + 2 < bytes.length),
    Checked.index_of_lt (by omega : offset + 3 < bytes.length)]

lemma hashAt_eq {encoded : List UInt8} {offset : Nat} (hfits : encoded.length < 2 ^ 64)
    (h : offset + 32 ≤ encoded.length) : ∃ hash, hashAt encoded offset = .ok hash ∧
      hash.toList = field encoded offset (offset + 32) := by
  refine ⟨List.Vector.ofFn fun i : Fin 32 => encoded[offset + i], ?_, ?_⟩
  · have hbody : ∀ i : Fin 32, (do
        let j ← Checked.add 64 offset i
        Checked.index encoded j : Checked Error UInt8) = pure encoded[offset + i] := by
      intro i
      have hi := i.isLt
      rw [Checked.add_of_lt (by omega), ok_bind, Checked.index_of_lt (by omega)]
      rfl
    rw [hashAt, funext hbody, List.Vector.mOfFn_pure]
    rfl
  · rw [List.Vector.toList_ofFn]
    refine List.ext_getElem (by rw [length_field h]; simp) fun k hk hk' => ?_
    rw [getElem_field (by rw [length_field h] at hk'; omega) hk', List.getElem_ofFn]

lemma headerBytes_bind {α : Type} (bytes : List UInt8) (f : List UInt8 → Checked Error α) :
    headerBytes bytes >>= f = ensure (headerLen ≤ bytes.length) (.error .unexpectedEndOfInput)
      >>= fun _ => f (bytes.take headerLen) := by
  rw [headerBytes, Checked.get?, ensure]
  by_cases h : headerLen ≤ bytes.length
  · rw [if_pos ⟨Nat.zero_le _, h⟩, if_pos h]
    rfl
  · rw [if_neg fun h' => h h'.2, if_neg h]
    rfl

/-- A 32-bit count is small enough to be multiplied, and one that passed the division to be
subtracted. -/
lemma checkCounts_eq {rules entries length : Nat} (h : rules < 2 ^ 32) :
    checkCounts rules entries length = Checked.ofExcept (ensure
      (rules ≤ length / 9 ∧ entries ≤ (length - rules * 9) / 41) .unexpectedEndOfInput) := by
  rw [checkCounts, Checked.mul_of_lt (by omega), ok_bind, Checked.ofExcept_ensure]
  by_cases hrules : rules > length / 9
  · rw [Checked.or, if_pos (by simpa using hrules), ok_bind, ensure, ensure, if_neg (by simp),
      if_neg fun h => absurd h.1 (not_le.mpr hrules)]
  · rw [Checked.sub_of_le (by omega), ok_bind, Checked.or, if_neg (by simpa using hrules)]
    change ensure (decide (entries > (length - rules * 9) / 41) = false) _ = _
    rw [ensure, ensure]
    refine if_congr ?_ rfl rfl
    simp only [decide_eq_false_iff_not]
    omega

lemma decodePrefix_eq {bytes : List UInt8} (limits : EnvelopeLimits) :
    decodePrefix blake3 bytes limits
      = Checked.ofExcept (Header.decodePrefix blake3 bytes limits) := by
  rw [decodePrefix, Header.decodePrefix, headerBytes_bind]
  simp only [Checked.ofExcept_bind, Checked.ofExcept_ensure]
  by_cases hlong : headerLen ≤ bytes.length
  · have hencoded : (bytes.take headerLen).length = 120 := by
      rw [List.length_take]
      exact Nat.min_eq_left hlong
    generalize hcut : bytes.take headerLen = encoded at hencoded ⊢
    have hslice : ∀ i j : Nat, i ≤ j → j ≤ 120 →
        (Checked.slice encoded i j : Checked Error _) = .ok (field encoded i j) :=
      fun i j hij hj => Checked.slice_of_le hij (by omega)
    have hpair : ∀ i, i + 2 ≤ 120 → (Checked.indices encoded [i, i + 1] : Checked Error _)
        = .ok (field encoded i (i + 2)) :=
      fun i hi => Checked.indices_range (n := 2) (by omega)
    obtain ⟨source, hsource, htoSource⟩ := @hashAt_eq encoded 24 (by omega) (by omega)
    obtain ⟨target, htarget, htoTarget⟩ := @hashAt_eq encoded 56 (by omega) (by omega)
    have hwords : ∀ i, i + 4 ≤ 120 → word encoded i = .ok (Header.word encoded i) :=
      fun i hi => word_eq (by omega) (by omega)
    have hsource' : tryInto Error.unexpectedEndOfInput 32 (field encoded 24 56) = .ok source :=
      tryInto_eq_ok.mpr htoSource.symm
    have htarget' : tryInto Error.unexpectedEndOfInput 32 (field encoded 56 88) = .ok target :=
      tryInto_eq_ok.mpr htoTarget.symm
    have hcounts : ∀ (rules entries : UInt32) (length : Nat),
        checkCounts rules.toNat entries.toNat length = ensure (rules.toNat ≤ length / 9
          ∧ entries.toNat ≤ (length - rules.toNat * 9) / 41) (.error .unexpectedEndOfInput) :=
      fun rules entries length => by rw [checkCounts_eq rules.toNat_lt, Checked.ofExcept_ensure]
    simp only [hencoded, hslice 0 8 (by omega) (by omega), hpair 8 (by omega),
      hslice 0 checksumOffset (by decide) (by decide), hslice checksumOffset 120 (by decide) le_rfl,
      hpair 10 (by omega), hwords 12 (by omega), hwords 16 (by omega), hwords 20 (by omega),
      Checked.slice_drop hlong, hsource, htarget, hsource', htarget', hcounts, Checked.ofExcept_ok,
      ok_bind]
    rfl
  · have hshort : ∀ {α : Type} (f : Unit → Checked Error α),
        (ensure (headerLen ≤ bytes.length) (Halt.error Error.unexpectedEndOfInput) >>= f)
          = Checked.fail .unexpectedEndOfInput := by
      intro α f
      rw [ensure, if_neg hlong]
      rfl
    simp only [hshort]

end TreePatch

end Machine

end Difz
