import Mathlib.Data.List.Basic
import Mathlib.Tactic.NormNum

/-!
# Characters as bytes

UTF-8 seen from a program that works on bytes: a character below 128 is the byte of its number, and
the bytes of any other character are all above. A byte below 128 therefore stands for a character,
wherever it stands.
-/

namespace Wire

/-- The bytes of a list of characters. -/
def encodeChars (cs : List Char) : List UInt8 := cs.flatMap String.utf8EncodeChar

@[simp] lemma encodeChars_nil : encodeChars [] = [] := rfl

@[simp] lemma encodeChars_cons (c : Char) (cs : List Char) :
    encodeChars (c :: cs) = String.utf8EncodeChar c ++ encodeChars cs := rfl

@[simp] lemma encodeChars_append (cs ds : List Char) :
    encodeChars (cs ++ ds) = encodeChars cs ++ encodeChars ds :=
  List.flatMap_append

/-- A finite check decides a property of all the members of a list. -/
lemma forall_mem_of_all {α : Type} {p : α → Prop} [DecidablePred p] {l : List α}
    (h : (l.all fun a => decide (p a)) = true) : ∀ a ∈ l, p a := by
  simpa using h

/-- The character is one byte. -/
def IsAscii (c : Char) : Prop := c.val.toNat < 128

instance (c : Char) : Decidable (IsAscii c) := inferInstanceAs (Decidable (c.val.toNat < 128))

lemma utf8EncodeChar_ascii {c : Char} (h : IsAscii c) :
    String.utf8EncodeChar c = [UInt8.ofNat c.val.toNat] := by
  have hle : c.val.toNat ≤ 0x7f := Nat.le_of_lt_succ h
  unfold String.utf8EncodeChar
  exact if_pos hle

lemma utf8EncodeChar_wide {c : Char} (h : ¬IsAscii c) :
    ∀ b ∈ String.utf8EncodeChar c, 128 ≤ b.toNat := by
  have hgt : ¬c.val.toNat ≤ 0x7f := fun hle => h (Nat.lt_succ_of_le hle)
  unfold String.utf8EncodeChar
  dsimp only
  rw [if_neg hgt]
  intro b hb
  split_ifs at hb
  all_goals
    simp only [List.mem_cons, List.not_mem_nil, or_false] at hb
    rcases hb with rfl | rfl | rfl | rfl <;>
    · rw [UInt8.toNat_ofNat']
      omega

lemma encodeChars_eq_nil_iff {cs : List Char} : encodeChars cs = [] ↔ cs = [] := by
  cases cs with
  | nil => simp
  | cons c cs => simp [String.utf8EncodeChar_ne_nil]

lemma length_le_length_encodeChars (cs : List Char) : cs.length ≤ (encodeChars cs).length := by
  induction cs with
  | nil => exact le_rfl
  | cons c cs ih =>
    have hpos := List.length_pos_of_ne_nil (String.utf8EncodeChar_ne_nil (c := c))
    rw [encodeChars_cons, List.length_append, List.length_cons]
    omega

/-- The byte of a character below 128. -/
def byteOf (c : Char) : UInt8 := UInt8.ofNat c.val.toNat

lemma toNat_byteOf {c : Char} (h : IsAscii c) : (byteOf c).toNat = c.val.toNat := by
  have hlt : c.val.toNat < 128 := h
  rw [byteOf, UInt8.toNat_ofNat']
  omega

lemma byteOf_inj {c d : Char} (hc : IsAscii c) (hd : IsAscii d) : byteOf c = byteOf d ↔ c = d := by
  constructor
  · intro h
    have hval := congrArg UInt8.toNat h
    rw [toNat_byteOf hc, toNat_byteOf hd] at hval
    exact Char.ext (UInt32.toNat_inj.mp hval)
  · rintro rfl
    rfl

lemma encodeChars_cons_ascii {c : Char} (h : IsAscii c) (cs : List Char) :
    encodeChars (c :: cs) = byteOf c :: encodeChars cs := by
  rw [encodeChars_cons, utf8EncodeChar_ascii h, List.singleton_append, byteOf]

/-- The first byte tells whether a text begins with a given character below 128. -/
lemma head?_encodeChars {c : Char} (hc : IsAscii c) (cs : List Char) :
    (encodeChars cs).head? = some (byteOf c) ↔ cs.head? = some c := by
  cases cs with
  | nil => simp
  | cons d cs =>
    by_cases hd : IsAscii d
    · rw [encodeChars_cons_ascii hd, List.head?_cons, List.head?_cons, Option.some.injEq,
        Option.some.injEq, byteOf_inj hd hc]
    · obtain ⟨b, bs, hb⟩ := List.exists_cons_of_ne_nil (String.utf8EncodeChar_ne_nil (c := d))
      have hwide := utf8EncodeChar_wide hd b (by simp [hb])
      have hlt : c.val.toNat < 128 := hc
      rw [encodeChars_cons, hb, List.cons_append, List.head?_cons, List.head?_cons,
        Option.some.injEq, Option.some.injEq]
      refine iff_of_false ?_ ?_
      · rintro rfl
        rw [toNat_byteOf hc] at hwide
        omega
      · rintro rfl
        exact hd hc

lemma encodeChars_ne_cons {c : Char} (hc : IsAscii c) {cs : List Char} (h : cs.head? ≠ some c)
    (bs : List UInt8) : encodeChars cs ≠ byteOf c :: bs := by
  intro heq
  refine h ((head?_encodeChars hc cs).mp ?_)
  rw [heq, List.head?_cons]

lemma tail_encodeChars {c : Char} (hc : IsAscii c) {cs : List Char} (h : cs.head? = some c) :
    (encodeChars cs).tail = encodeChars cs.tail := by
  obtain ⟨cs', rfl⟩ := List.head?_eq_some_iff.mp h
  rw [encodeChars_cons_ascii hc, List.tail_cons, List.tail_cons]

/-- A byte below 128 is never inside a character, so a text can be cut behind it. -/
lemma exists_of_encodeChars_eq {cs : List Char} {pre rest : List UInt8} {b : UInt8}
    (hb : b.toNat < 128) (h : encodeChars cs = pre ++ b :: rest) :
    ∃ ds, encodeChars ds = rest := by
  induction cs generalizing pre with
  | nil => simp at h
  | cons c cs ih =>
    rw [encodeChars_cons] at h
    rcases List.append_eq_append_iff.mp h with ⟨mid, -, hrest⟩ | ⟨mid, hchar, hrest⟩
    · exact ih hrest
    · cases mid with
      | nil => exact @ih [] hrest.symm
      | cons x mid =>
        obtain ⟨rfl, htail⟩ := List.cons.inj hrest
        by_cases hc : IsAscii c
        · rw [utf8EncodeChar_ascii hc] at hchar
          have hlen := congrArg List.length hchar
          simp only [List.length_append, List.length_cons, List.length_nil] at hlen
          have hmid : mid = [] := List.eq_nil_of_length_eq_zero (by omega)
          subst hmid
          exact ⟨cs, htail.symm⟩
        · have hwide := utf8EncodeChar_wide hc b (by simp [hchar])
          omega

end Wire
