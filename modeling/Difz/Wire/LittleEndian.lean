import Mathlib.Tactic

/-!
# Little-endian integers

Fixed-width unsigned integers as byte lists, least significant byte first. `toLE w n` writes the
low `w` bytes of `n` and `ofLE` reads a byte list back. The class `Word` collects what a machine
integer type needs for the two to be inverse, so that every width is covered by one pair of
lemmas.
-/

namespace Wire

/-- The low `w` bytes of `n`, least significant first. -/
def toLE : Nat → Nat → List UInt8
  | 0, _ => []
  | w + 1, n => UInt8.ofNat n :: toLE w (n / 256)

/-- The number a little-endian byte list denotes. -/
def ofLE : List UInt8 → Nat
  | [] => 0
  | b :: bs => b.toNat + 256 * ofLE bs

@[simp] lemma length_toLE (w n : Nat) : (toLE w n).length = w := by
  induction w generalizing n with
  | zero => rfl
  | succ w ih => simp [toLE, ih]

lemma ofLE_toLE (w n : Nat) : ofLE (toLE w n) = n % 256 ^ w := by
  induction w generalizing n with
  | zero => simp [toLE, ofLE, Nat.mod_one]
  | succ w ih =>
    have hlow : (UInt8.ofNat n).toNat = n % 256 := UInt8.toNat_ofNat'
    simp only [toLE, ofLE, ih, hlow]
    rw [pow_succ', Nat.mod_mul]

lemma ofLE_toLE_of_lt {w n : Nat} (h : n < 256 ^ w) : ofLE (toLE w n) = n := by
  rw [ofLE_toLE, Nat.mod_eq_of_lt h]

lemma ofLE_lt (bs : List UInt8) : ofLE bs < 256 ^ bs.length := by
  induction bs with
  | nil => simp [ofLE]
  | cons b bs ih =>
    have hb := b.toNat_lt
    simp only [ofLE, List.length_cons, pow_succ]
    omega

lemma toLE_ofLE (bs : List UInt8) : toLE bs.length (ofLE bs) = bs := by
  induction bs with
  | nil => rfl
  | cons b bs ih =>
    have hb := b.toNat_lt
    have hdiv : (b.toNat + 256 * ofLE bs) / 256 = ofLE bs := by omega
    have hlow : UInt8.ofNat (b.toNat + 256 * ofLE bs) = b := by
      apply UInt8.toNat_inj.mp
      simp only [UInt8.toNat_ofNat']
      omega
    simp only [List.length_cons, ofLE, toLE, hdiv, ih, hlow]

/-- A fixed-width machine integer, seen through its value as a natural number. -/
class Word (α : Type) where
  width : Nat
  toNat : α → Nat
  ofNat : Nat → α
  toNat_lt : ∀ x, toNat x < 256 ^ width
  ofNat_toNat : ∀ x, ofNat (toNat x) = x
  toNat_ofNat : ∀ n, n < 256 ^ width → toNat (ofNat n) = n

section Word

variable {α : Type} [Word α]

def toLeBytes (x : α) : List UInt8 := toLE (Word.width α) (Word.toNat x)

def fromLeBytes (bs : List UInt8) : α := Word.ofNat (ofLE bs)

@[simp] lemma length_toLeBytes (x : α) : (toLeBytes x).length = Word.width α := by
  simp [toLeBytes]

@[simp] lemma fromLeBytes_toLeBytes (x : α) : fromLeBytes (toLeBytes x) = x := by
  rw [fromLeBytes, toLeBytes, ofLE_toLE_of_lt (Word.toNat_lt x), Word.ofNat_toNat]

lemma toLeBytes_fromLeBytes {bs : List UInt8} (h : bs.length = Word.width α) :
    toLeBytes (fromLeBytes bs : α) = bs := by
  have hlt : ofLE bs < 256 ^ Word.width α := h ▸ ofLE_lt bs
  rw [toLeBytes, fromLeBytes, Word.toNat_ofNat _ hlt, ← h, toLE_ofLE]

lemma toLeBytes_injective : Function.Injective (toLeBytes : α → List UInt8) :=
  Function.LeftInverse.injective fromLeBytes_toLeBytes

end Word

instance : Word UInt8 where
  width := 1
  toNat := UInt8.toNat
  ofNat := UInt8.ofNat
  toNat_lt x := by simpa using x.toNat_lt
  ofNat_toNat _ := UInt8.ofNat_toNat
  toNat_ofNat n h := by simpa using h

instance : Word UInt16 where
  width := 2
  toNat := UInt16.toNat
  ofNat := UInt16.ofNat
  toNat_lt x := by simpa using x.toNat_lt
  ofNat_toNat _ := UInt16.ofNat_toNat
  toNat_ofNat n h := by simpa using h

instance : Word UInt32 where
  width := 4
  toNat := UInt32.toNat
  ofNat := UInt32.ofNat
  toNat_lt x := by simpa using x.toNat_lt
  ofNat_toNat _ := UInt32.ofNat_toNat
  toNat_ofNat n h := by simpa using h

instance : Word UInt64 where
  width := 8
  toNat := UInt64.toNat
  ofNat := UInt64.ofNat
  toNat_lt x := by simpa using x.toNat_lt
  ofNat_toNat _ := UInt64.ofNat_toNat
  toNat_ofNat n h := by simpa using h

/-- Signed integers travel as their two's complement bit pattern. -/
instance : Word Int64 where
  width := 8
  toNat x := x.toUInt64.toNat
  ofNat n := (UInt64.ofNat n).toInt64
  toNat_lt x := by simpa using x.toUInt64.toNat_lt
  ofNat_toNat x := by simp
  toNat_ofNat n h := by simpa using h

@[simp] lemma width_uint8 : Word.width UInt8 = 1 := rfl
@[simp] lemma width_uint16 : Word.width UInt16 = 2 := rfl
@[simp] lemma width_uint32 : Word.width UInt32 = 4 := rfl
@[simp] lemma width_uint64 : Word.width UInt64 = 8 := rfl
@[simp] lemma width_int64 : Word.width Int64 = 8 := rfl

@[simp] lemma toLeBytes_uint8 (b : UInt8) : toLeBytes b = [b] := by
  change [UInt8.ofNat b.toNat] = [b]
  rw [UInt8.ofNat_toNat]

example : toLeBytes (0x01020304 : UInt32) = [4, 3, 2, 1] := by decide

end Wire
