import Difz.Metadata.Canonical

/-!
# Timestamp overrides

The one-byte tag with an optional timestamp behind it, and the pair of an optional original and an
observed modification time (`encode_time_override` to `decode_modification_override` of
`rust/src/metadata.rs`, `encodeTimeOverride` to `decodeModificationOverride` of
`src/metadata.zig`). Both encodings are exact: what decodes is the encoding of the result.
-/

namespace Difz

open Wire

namespace Metadata

lemma Time.encode_eq_ok {t : Time} {bytes : List UInt8} : t.encode = .ok bytes ↔
    t.nsec < 1000000000 ∧ bytes = toLeBytes t.sec ++ toLeBytes t.nsec := by
  rw [Time.encode, ite_error_eq_ok, ge_iff_le, UInt32.not_le, Except.ok.injEq, eq_comm (a := bytes)]

lemma Time.decode_eq_ok_iff_encode {t : Time} {bytes : List UInt8} :
    Time.decode bytes = .ok t ↔ t.encode = .ok bytes := by
  rw [Time.decode_eq_ok, Time.encode_eq_ok]

lemma Time.length_of_encode {t : Time} {bytes : List UInt8} (h : t.encode = .ok bytes) :
    bytes.length = 12 := by
  obtain ⟨-, rfl⟩ := Time.encode_eq_ok.mp h
  simp

/-! ### One timestamp -/

def encodeTimeOverride : Option Time → Except Error (List UInt8)
  | none => .ok [0]
  | some time => do
    let bytes ← time.encode
    .ok (1 :: bytes)

def decodeTimeOverride (bytes : List UInt8) : Except Error (Option Time) :=
  if bytes = [0] then .ok none
  else if bytes.length ≠ 13 || bytes.head? ≠ some 1 then .error .badMetadata
  else (Time.decode (bytes.drop 1)).map some

/-- The bytes of an override; they are what encoding returns whenever it succeeds. -/
def overrideWire : Option Time → List UInt8
  | none => [0]
  | some t => 1 :: (toLeBytes t.sec ++ toLeBytes t.nsec)

lemma encodeTimeOverride_eq_ok {value : Option Time} {bytes : List UInt8} :
    encodeTimeOverride value = .ok bytes ↔
      (∀ t ∈ value, t.nsec < 1000000000) ∧ bytes = overrideWire value := by
  cases value with
  | none => simp [encodeTimeOverride, overrideWire, eq_comm]
  | some t =>
    simp only [encodeTimeOverride, bind_eq_ok, Time.encode_eq_ok, Except.ok.injEq, overrideWire,
      Option.mem_def, Option.some.injEq, forall_eq']
    constructor
    · intro h
      obtain ⟨w, ⟨hn, rfl⟩, rfl⟩ := h
      exact ⟨hn, rfl⟩
    · intro h
      obtain ⟨hn, rfl⟩ := h
      exact ⟨_, ⟨hn, rfl⟩, rfl⟩

lemma length_overrideWire (value : Option Time) :
    (overrideWire value).length = if value.isSome then 13 else 1 := by
  cases value <;> simp [overrideWire]

theorem decodeTimeOverride_eq_ok {bytes : List UInt8} {value : Option Time} :
    decodeTimeOverride bytes = .ok value ↔ encodeTimeOverride value = .ok bytes := by
  rw [encodeTimeOverride_eq_ok, decodeTimeOverride]
  by_cases h₀ : bytes = [0]
  · subst h₀
    cases value <;> simp [overrideWire]
  · rw [if_neg h₀, ite_error_eq_ok]
    simp only [Bool.or_eq_true, decide_eq_true_eq, not_or, not_not]
    cases value with
    | none => cases Time.decode (bytes.drop 1) <;> simp [Except.map, overrideWire, h₀]
    | some t =>
      have hmap : (Time.decode (bytes.drop 1)).map some = .ok (some t) ↔
          Time.decode (bytes.drop 1) = .ok t := by
        cases Time.decode (bytes.drop 1) <;> simp [Except.map]
      rw [hmap, Time.decode_eq_ok]
      simp only [Option.mem_def, Option.some.injEq, forall_eq', overrideWire]
      constructor
      · intro h
        obtain ⟨⟨-, hhead⟩, hn, hdrop⟩ := h
        refine ⟨hn, ?_⟩
        cases bytes with
        | nil => simp at hhead
        | cons b bs =>
          simp only [List.head?_cons, Option.some.injEq] at hhead
          simp only [List.drop_succ_cons, List.drop_zero] at hdrop
          rw [hhead, hdrop]
      · intro h
        obtain ⟨hn, rfl⟩ := h
        simp [hn]

/-! ### Original and observed modification time -/

structure ModificationOverride where
  original : Option Time
  observed : Time
  deriving DecidableEq, Repr

def encodeModificationOverride (value : ModificationOverride) : Except Error (List UInt8) := do
  let original ← encodeTimeOverride value.original
  let observed ← value.observed.encode
  .ok (original ++ observed)

def decodeModificationOverride (bytes : List UInt8) : Except Error ModificationOverride :=
  if bytes.length ≠ 13 && bytes.length ≠ 25 then .error .badMetadata
  else do
    let original ← decodeTimeOverride (bytes.take (bytes.length - 12))
    let observed ← Time.decode (bytes.drop (bytes.length - 12))
    .ok ⟨original, observed⟩

theorem decodeModificationOverride_eq_ok {bytes : List UInt8} {value : ModificationOverride} :
    decodeModificationOverride bytes = .ok value ↔
      encodeModificationOverride value = .ok bytes := by
  obtain ⟨original, observed⟩ := value
  simp only [decodeModificationOverride, encodeModificationOverride, ite_error_eq_ok, bind_eq_ok,
    decodeTimeOverride_eq_ok, Time.decode_eq_ok_iff_encode, Except.ok.injEq,
    ModificationOverride.mk.injEq]
  constructor
  · intro h
    obtain ⟨-, o, ho, t, ht, rfl, rfl⟩ := h
    exact ⟨_, ho, _, ht, List.take_append_drop _ _⟩
  · intro h
    obtain ⟨v, hv, w, hw, rfl⟩ := h
    have hlen := Time.length_of_encode hw
    have hv' : v.length = if original.isSome then 13 else 1 := by
      rw [(encodeTimeOverride_eq_ok.mp hv).2, length_overrideWire]
    have hpre : (v ++ w).length - 12 = v.length := by simp [hlen]
    rw [hpre, List.take_left, List.drop_left]
    refine ⟨?_, original, hv, observed, hw, rfl, rfl⟩
    rw [List.length_append, hlen, hv']
    split_ifs <;> simp

end Metadata

end Difz
