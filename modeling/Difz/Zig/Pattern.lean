import Difz.Zig.Glob

/-!
# Glob patterns in both programs

The native program translates a glob pattern to a regular expression byte by byte, the Rust crate
compiles it to tokens character by character. `pieces` takes a pattern apart once and gives every
part its token and its text: the tokens are those of the one program, the bytes of the texts are
those of the other.
-/

namespace Difz

open Wire

namespace Zig

open PathFilter (Token classMembers compileFrom)

/-! ### Parts of a pattern -/

/-- The characters that get a backslash outside classes. -/
def metaChar (c : Char) : Bool :=
  ['.', '+', '^', '$', '(', ')', '\x7b', '\x7d', '|', '\\', '*', '?', '[', ']'].contains c

def literalText (c : Char) : List Char := if metaChar c then ['\\', c] else [c]

/-- The characters that get a backslash inside a class. -/
def classMetaChar (c : Char) : Bool := ['\\', '-', '[', ']', '^'].contains c

def classLiteral (c : Char) : List Char := if classMetaChar c then ['\\', c] else [c]

/-- A part of a pattern: its token, and its text in the regular expression. -/
structure Piece where
  token : Token
  text : List Char

def classPiece (negated leading : Bool) (members : List Char) : Piece :=
  ⟨.class_ negated (if leading then ']' :: members else members),
    '[' :: ((if negated then ['^'] else []) ++ ((if leading then [']'] else [])
      ++ (members.flatMap classLiteral ++ [']'])))⟩

/-- The class behind an opening bracket. -/
def readPiece (chars : List Char) : Option (Piece × List Char) :=
  let negated := chars.head? == some '!' || chars.head? == some '^'
  let chars := if negated then chars.tail else chars
  let leading := chars.head? == some ']'
  let chars := if leading then chars.tail else chars
  (classMembers chars).map fun p => (classPiece negated leading p.1, p.2)

lemma readClass_eq (chars : List Char) :
    PathFilter.readClass chars = (readPiece chars).map fun p => (p.1.token, p.2) := by
  rw [PathFilter.readClass, readPiece, Option.map_map]
  rfl

lemma length_readPiece {chars rest : List Char} {piece : Piece}
    (h : readPiece chars = some (piece, rest)) : rest.length < chars.length := by
  have hclass : PathFilter.readClass chars = some (piece.token, rest) := by
    rw [readClass_eq, h]
    rfl
  exact PathFilter.length_readClass hclass

def pieces : List Char → List Piece
  | [] => []
  | ['\\'] => [⟨.literal '\\', literalText '\\'⟩]
  | '\\' :: c :: rest => ⟨.literal c, literalText c⟩ :: pieces rest
  | '*' :: '*' :: '/' :: rest => ⟨.treePrefix, ['(', '.', '*', '/', ')', '?']⟩ :: pieces rest
  | '*' :: '*' :: rest => ⟨.star true, ['.', '*']⟩ :: pieces rest
  | '*' :: rest => ⟨.star false, ['[', '^', '/', ']', '*']⟩ :: pieces rest
  | '?' :: rest => ⟨.any, ['[', '^', '/', ']']⟩ :: pieces rest
  | '[' :: rest =>
    match _h : readPiece rest with
    | some (piece, rest') => piece :: pieces rest'
    | none => ⟨.literal '[', ['\\', '[']⟩ :: pieces rest
  | c :: rest => ⟨.literal c, literalText c⟩ :: pieces rest
  termination_by chars => chars.length
  decreasing_by
    all_goals simp only [List.length_cons]
    all_goals first
      | omega
      | have hlen := length_readPiece (by assumption)
        omega

/-! ### Tokens -/

lemma classMembers_escape {c : Char} {rest : List Char}
    (h : classMembers ('\\' :: c :: rest) = none) : classMembers rest = none := by
  simpa [classMembers] using h

lemma classMembers_plain {c : Char} {rest : List Char} (hc : c ≠ '\\')
    (h : classMembers (c :: rest) = none) : c ≠ ']' ∧ classMembers rest = none := by
  by_cases hclose : c = ']'
  · subst hclose
    simp [classMembers] at h
  · rw [classMembers] at h
    · exact ⟨hclose, by simpa using h⟩
    · exact hclose
    · intro d rest' hd
      exact absurd hd hc

/-- Without a closing bracket ahead there is no class. -/
lemma readPiece_of_classMembers {chars : List Char} (h : classMembers chars = none) :
    readPiece chars = none := by
  have hlead : ∀ cs : List Char, classMembers cs = none →
      classMembers (if cs.head? == some ']' then cs.tail else cs) = none := by
    intro cs hcs
    cases cs with
    | nil => exact hcs
    | cons c cs =>
      by_cases hc : c = ']'
      · subst hc
        simp [classMembers] at hcs
      · simpa [hc] using hcs
  rw [readPiece, Option.map_eq_none_iff]
  refine hlead _ ?_
  split_ifs with hneg
  · cases chars with
    | nil => exact h
    | cons c rest =>
      have hc : c ≠ '\\' := by
        rintro rfl
        simp at hneg
      exact (classMembers_plain hc h).2
  · exact h

lemma compileFrom_unclosed {rest : List Char} (h : readPiece rest = none) (classesRemain : Bool) :
    compileFrom classesRemain ('[' :: rest) = .literal '[' :: compileFrom false rest := by
  have hclass : PathFilter.readClass rest = none := by rw [readClass_eq, h, Option.map_none]
  rw [compileFrom]
  split_ifs
  · split
    · next heq =>
      rw [hclass] at heq
      exact absurd heq (by simp)
    · rfl
  · rfl

/-- Without a closing bracket ahead both ways of compiling are one. -/
lemma compileFrom_of_classMembers {chars : List Char} (h : classMembers chars = none)
    (classesRemain : Bool) :
    compileFrom classesRemain chars = (pieces chars).map Piece.token := by
  fun_induction pieces chars generalizing classesRemain with
  | case1 => rw [compileFrom, List.map_nil]
  | case2 => rw [compileFrom, List.map_singleton]
  | case3 c rest ih => rw [compileFrom, List.map_cons, ih (classMembers_escape h)]
  | case4 rest ih =>
    have hrest := (classMembers_plain (by decide) (classMembers_plain (by decide)
      (classMembers_plain (by decide) h).2).2).2
    rw [compileFrom, List.map_cons, ih hrest]
  | case5 rest hslash ih =>
    have hrest := (classMembers_plain (by decide) (classMembers_plain (by decide) h).2).2
    rw [compileFrom, List.map_cons, ih hrest]
    exact hslash
  | case6 rest htree hstar ih =>
    rw [compileFrom, List.map_cons, ih (classMembers_plain (by decide) h).2]
    · exact htree
    · exact hstar
  | case7 rest ih => rw [compileFrom, List.map_cons, ih (classMembers_plain (by decide) h).2]
  | case8 rest piece rest' hread ih =>
    have hnone := readPiece_of_classMembers (classMembers_plain (by decide) h).2
    rw [hread] at hnone
    exact absurd hnone (by simp)
  | case9 rest hread ih =>
    rw [compileFrom_unclosed hread, List.map_cons, ih (classMembers_plain (by decide) h).2]
  | case10 c rest h₁ h₂ h₃ h₄ h₅ h₆ h₇ ih =>
    have hc : c ≠ '\\' := by
      rintro rfl
      cases rest with
      | nil => exact h₁ rfl rfl
      | cons d rest => exact h₂ d rest rfl rfl
    rw [compileFrom, List.map_cons, ih (classMembers_plain hc h).2]
    all_goals assumption

/-- A bracket that opens no class leaves none to the rest of the pattern. -/
lemma compileFrom_of_readPiece {chars : List Char} (h : readPiece chars = none) :
    compileFrom false chars = (pieces chars).map Piece.token := by
  have hplain : ∀ {c : Char} {rest : List Char}, c = '!' ∨ c = '^' ∨ c = ']' →
      compileFrom false rest = (pieces rest).map Piece.token →
      compileFrom false (c :: rest) = (pieces (c :: rest)).map Piece.token := by
    intro c rest hc hrest
    rcases hc with rfl | rfl | rfl <;>
      simp [compileFrom, pieces, hrest]
  have hlead : ∀ cs : List Char,
      classMembers (if cs.head? == some ']' then cs.tail else cs) = none →
      compileFrom false cs = (pieces cs).map Piece.token := by
    intro cs hcs
    split_ifs at hcs with hclose
    · obtain ⟨rest, rfl⟩ := List.head?_eq_some_iff.mp (beq_iff_eq.mp hclose)
      exact hplain (.inr (.inr rfl)) (compileFrom_of_classMembers hcs false)
    · exact compileFrom_of_classMembers hcs false
  rw [readPiece, Option.map_eq_none_iff] at h
  have hrest := hlead _ h
  split_ifs at hrest with hneg
  · rcases (Bool.or_eq_true _ _).mp hneg with hc | hc
    · obtain ⟨rest, rfl⟩ := List.head?_eq_some_iff.mp (beq_iff_eq.mp hc)
      exact hplain (.inl rfl) hrest
    · obtain ⟨rest, rfl⟩ := List.head?_eq_some_iff.mp (beq_iff_eq.mp hc)
      exact hplain (.inr (.inl rfl)) hrest
  · exact hrest

/-- The tokens of a pattern are those of its parts: it makes no difference that the compiler stops
looking for classes behind the first bracket without a closing one. -/
lemma compile_eq (chars : List Char) :
    PathFilter.compile chars = (pieces chars).map Piece.token := by
  rw [PathFilter.compile]
  fun_induction pieces chars with
  | case1 => rw [compileFrom, List.map_nil]
  | case2 => rw [compileFrom, List.map_singleton]
  | case3 c rest ih => rw [compileFrom, List.map_cons, ih]
  | case4 rest ih => rw [compileFrom, List.map_cons, ih]
  | case5 rest hslash ih =>
    rw [compileFrom, List.map_cons, ih]
    exact hslash
  | case6 rest htree hstar ih =>
    rw [compileFrom, List.map_cons, ih]
    · exact htree
    · exact hstar
  | case7 rest ih => rw [compileFrom, List.map_cons, ih]
  | case8 rest piece rest' hread ih =>
    have hclass : PathFilter.readClass rest = some (piece.token, rest') := by
      rw [readClass_eq, hread, Option.map_some]
    rw [compileFrom, if_pos rfl, List.map_cons, ← ih]
    split
    · next heq =>
      rw [hclass, Option.some.injEq, Prod.mk.injEq] at heq
      rw [heq.1, heq.2]
    · next heq =>
      rw [hclass] at heq
      exact absurd heq (by simp)
  | case9 rest hread ih =>
    rw [compileFrom_unclosed hread, List.map_cons, compileFrom_of_readPiece hread]
  | case10 c rest h₁ h₂ h₃ h₄ h₅ h₆ h₇ ih =>
    rw [compileFrom, List.map_cons, ih]
    all_goals assumption

/-! ### Texts -/

/-- What holds of the first 128 characters holds of those that are one byte. -/
lemma forall_ascii {p : Char → Prop} (h : ∀ n : Fin 128, p (Char.ofNat n)) {c : Char}
    (hc : IsAscii c) : p c := by
  have hn := h ⟨c.val.toNat, hc⟩
  rwa [show Char.ofNat c.val.toNat = c from Char.ofNat_toNat c] at hn

lemma appendLiteral_byteOf {c : Char} (h : IsAscii c) :
    appendLiteral (byteOf c) = encodeChars (literalText c) :=
  forall_ascii (p := fun c => appendLiteral (byteOf c) = encodeChars (literalText c))
    (by decide +kernel) h

lemma appendClassLiteral_byteOf {c : Char} (h : IsAscii c) :
    appendClassLiteral (byteOf c) = encodeChars (classLiteral c) :=
  forall_ascii (p := fun c => appendClassLiteral (byteOf c) = encodeChars (classLiteral c))
    (by decide +kernel) h

lemma literalText_wide {c : Char} (h : ¬IsAscii c) : literalText c = [c] := by
  have hmeta : ∀ d ∈ ['.', '+', '^', '$', '(', ')', '\x7b', '\x7d', '|', '\\', '*', '?', '[', ']'],
      IsAscii d := forall_mem_of_all (by decide)
  refine if_neg fun hc => h (hmeta c ?_)
  simpa [metaChar] using hc

lemma classLiteral_wide {c : Char} (h : ¬IsAscii c) : classLiteral c = [c] := by
  have hmeta : ∀ d ∈ ['\\', '-', '[', ']', '^'], IsAscii d :=
    forall_mem_of_all (by decide)
  refine if_neg fun hc => h (hmeta c ?_)
  simpa [classMetaChar] using hc

lemma append_wide {b : UInt8} (h : 128 ≤ b.toNat) :
    appendLiteral b = [b] ∧ appendClassLiteral b = [b] := by
  revert h
  obtain ⟨v⟩ := b
  revert v
  decide +kernel

lemma toRegexFrom_plain {b : UInt8} {rest : List UInt8} (h₁ : b ≠ 0x5c) (h₂ : b ≠ 0x2a)
    (h₃ : b ≠ 0x3f) (h₄ : b ≠ 0x5b) :
    toRegexFrom (b :: rest) = appendLiteral b ++ toRegexFrom rest := by
  rw [toRegexFrom]
  all_goals simp_all

lemma toRegexFrom_wide {bs rest : List UInt8} (h : ∀ b ∈ bs, 128 ≤ b.toNat) :
    toRegexFrom (bs ++ rest) = bs ++ toRegexFrom rest := by
  induction bs with
  | nil => rfl
  | cons b bs ih =>
    have hb := h b (by simp)
    have hne : ∀ d : UInt8, d.toNat < 128 → b ≠ d := by
      rintro d hd rfl
      omega
    rw [List.cons_append, toRegexFrom_plain (hne _ (by decide)) (hne _ (by decide))
      (hne _ (by decide)) (hne _ (by decide)), (append_wide hb).1,
      ih fun x hx => h x (by simp [hx])]
    rfl

lemma classText_wide {bs rest : List UInt8} (h : ∀ b ∈ bs, 128 ≤ b.toNat) :
    classText (bs ++ rest) = (classText rest).map fun p => (bs ++ p.1, p.2) := by
  induction bs with
  | nil => simp
  | cons b bs ih =>
    have hb := h b (by simp)
    have hne : ∀ d : UInt8, d.toNat < 128 → b ≠ d := by
      rintro d hd rfl
      omega
    rw [List.cons_append, classText, ih fun x hx => h x (by simp [hx]), (append_wide hb).2,
      Option.map_map]
    · rfl
    · exact hne _ (by decide)
    · intro d rest' hd
      exact absurd hd (hne _ (by decide))

lemma ascii_backslash : IsAscii '\\' := by decide

/-- One character of a class, whatever its number of bytes. -/
lemma classText_char {c : Char} (rest : List Char) (hclose : c ≠ ']')
    (hescape : c = '\\' → rest = []) : classText (encodeChars (c :: rest))
      = (classText (encodeChars rest)).map fun p => (encodeChars (classLiteral c) ++ p.1, p.2) := by
  by_cases hc : IsAscii c
  · rw [encodeChars_cons_ascii hc, classText, appendClassLiteral_byteOf hc]
    · intro heq
      exact hclose ((byteOf_inj hc (by decide)).mp heq)
    · intro d rest' heq hrest
      rw [hescape ((byteOf_inj hc ascii_backslash).mp heq), encodeChars_nil] at hrest
      exact absurd hrest (by simp)
  · rw [encodeChars_cons, classText_wide (utf8EncodeChar_wide hc), classLiteral_wide hc]
    simp

lemma classText_escape (c : Char) (rest : List Char) : classText (encodeChars ('\\' :: c :: rest))
      = (classText (encodeChars rest)).map fun p => (encodeChars (classLiteral c) ++ p.1, p.2) := by
  rw [encodeChars_cons_ascii ascii_backslash]
  by_cases hc : IsAscii c
  · rw [encodeChars_cons_ascii hc, ← appendClassLiteral_byteOf hc]
    exact classText.eq_3 _ _
  · obtain ⟨b, bs, hb⟩ := List.exists_cons_of_ne_nil (String.utf8EncodeChar_ne_nil (c := c))
    have hwide := utf8EncodeChar_wide hc
    rw [hb] at hwide
    rw [encodeChars_cons, classLiteral_wide hc, encodeChars_cons, encodeChars_nil, hb,
      List.cons_append]
    refine (classText.eq_3 _ _).trans ?_
    rw [classText_wide fun x hx => hwide x (by simp [hx]), (append_wide (hwide b (by simp))).2,
      Option.map_map]
    simp [Function.comp_def]

lemma classText_encodeChars (cs : List Char) : classText (encodeChars cs)
    = (classMembers cs).map fun p => (encodeChars (p.1.flatMap classLiteral), encodeChars p.2) := by
  fun_induction classMembers cs with
  | case1 => rfl
  | case2 rest => exact classText.eq_2 _
  | case3 c rest ih =>
    rw [classText_escape, ih, Option.map_map, Option.map_map]
    simp [Function.comp_def]
  | case4 c rest hclose hescape ih =>
    rw [classText_char rest hclose ?_, ih, Option.map_map, Option.map_map]
    · simp [Function.comp_def]
    · rintro rfl
      cases rest with
      | nil => rfl
      | cons d rest => exact absurd rfl (hescape d rest rfl)

lemma head?_beq_encodeChars {c : Char} (hc : IsAscii c) (cs : List Char) :
    ((encodeChars cs).head? == some (byteOf c)) = (cs.head? == some c) := by
  rw [Bool.eq_iff_iff, beq_iff_eq, beq_iff_eq, head?_encodeChars hc]

lemma skip_encodeChars {cs : List Char} {b : Bool}
    (h : b = true → ∃ c, IsAscii c ∧ cs.head? = some c) :
    (if b then (encodeChars cs).tail else encodeChars cs)
      = encodeChars (if b then cs.tail else cs) := by
  cases b with
  | false => rfl
  | true =>
    obtain ⟨c, hc, hhead⟩ := h rfl
    exact tail_encodeChars hc hhead

lemma encodeChars_classPiece (negated leading : Bool) (members : List Char) :
    encodeChars (classPiece negated leading members).text
      = byteOf '[' :: ((if negated then [byteOf '^'] else [])
        ++ ((if leading then [byteOf ']'] else [])
        ++ (encodeChars (members.flatMap classLiteral) ++ [byteOf ']']))) := by
  rw [classPiece]
  dsimp only
  rw [encodeChars_cons_ascii (by decide), encodeChars_append, encodeChars_append,
    encodeChars_append]
  cases negated <;> cases leading <;> rfl

lemma readClass_encodeChars (cs : List Char) : readClass (encodeChars cs)
    = (readPiece cs).map fun p => (encodeChars p.1.text, encodeChars p.2) := by
  have hbang := head?_beq_encodeChars (c := '!') (by decide)
  have hcaret := head?_beq_encodeChars (c := '^') (by decide)
  have hclose := head?_beq_encodeChars (c := ']') (by decide)
  rw [readClass, readPiece]
  dsimp only
  rw [show (0x21 : UInt8) = byteOf '!' from rfl, show (0x5e : UInt8) = byteOf '^' from rfl,
    show (0x5d : UInt8) = byteOf ']' from rfl, hbang, hcaret, skip_encodeChars ?_, hclose,
    skip_encodeChars ?_, classText_encodeChars, Option.map_map, Option.map_map]
  · congr 1
    funext p
    exact Prod.ext (encodeChars_classPiece _ _ _).symm rfl
  · intro h
    exact ⟨']', by decide, beq_iff_eq.mp h⟩
  · intro h
    rcases (Bool.or_eq_true _ _).mp h with h | h
    · exact ⟨'!', by decide, beq_iff_eq.mp h⟩
    · exact ⟨'^', by decide, beq_iff_eq.mp h⟩

lemma toRegexFrom_char {c : Char} (rest : List Char) (h₁ : c ≠ '\\') (h₂ : c ≠ '*')
    (h₃ : c ≠ '?') (h₄ : c ≠ '[') : toRegexFrom (encodeChars (c :: rest))
      = encodeChars (literalText c) ++ toRegexFrom (encodeChars rest) := by
  by_cases hc : IsAscii c
  · have hne : ∀ {d : Char}, IsAscii d → c ≠ d → byteOf c ≠ byteOf d :=
      fun hd h heq => h ((byteOf_inj hc hd).mp heq)
    rw [encodeChars_cons_ascii hc, ← appendLiteral_byteOf hc]
    exact toRegexFrom_plain (hne (by decide) h₁) (hne (by decide) h₂) (hne (by decide) h₃)
      (hne (by decide) h₄)
  · rw [encodeChars_cons, toRegexFrom_wide (utf8EncodeChar_wide hc), literalText_wide hc]
    simp

lemma toRegexFrom_escape (c : Char) (rest : List Char) :
    toRegexFrom (encodeChars ('\\' :: c :: rest))
      = encodeChars (literalText c) ++ toRegexFrom (encodeChars rest) := by
  have hstep : ∀ (b : UInt8) (bs : List UInt8),
      toRegexFrom (0x5c :: b :: bs) = appendLiteral b ++ toRegexFrom bs := by
    intro b bs
    rw [toRegexFrom]
  rw [encodeChars_cons_ascii ascii_backslash]
  by_cases hc : IsAscii c
  · rw [encodeChars_cons_ascii hc, ← appendLiteral_byteOf hc]
    exact hstep _ _
  · obtain ⟨b, bs, hb⟩ := List.exists_cons_of_ne_nil (String.utf8EncodeChar_ne_nil (c := c))
    have hwide := utf8EncodeChar_wide hc
    rw [hb] at hwide
    rw [encodeChars_cons, literalText_wide hc, encodeChars_cons, encodeChars_nil, hb,
      List.cons_append]
    refine (hstep _ _).trans ?_
    rw [toRegexFrom_wide fun x hx => hwide x (by simp [hx]), (append_wide (hwide b (by simp))).1]
    simp

/-- The text of a pattern is that of its parts. -/
lemma toRegexFrom_encodeChars (cs : List Char) :
    toRegexFrom (encodeChars cs) = encodeChars ((pieces cs).flatMap Piece.text) := by
  have hstar : IsAscii '*' := by decide
  have hslash : IsAscii '/' := by decide
  fun_induction pieces cs with
  | case1 => rw [encodeChars_nil, toRegexFrom]; rfl
  | case2 =>
    rw [encodeChars_cons_ascii ascii_backslash, encodeChars_nil]
    exact toRegexFrom.eq_2.trans (by decide)
  | case3 c rest ih => rw [toRegexFrom_escape, ih, List.flatMap_cons, encodeChars_append]
  | case4 rest ih =>
    rw [encodeChars_cons_ascii hstar, encodeChars_cons_ascii hstar, encodeChars_cons_ascii hslash,
      List.flatMap_cons, encodeChars_append, ← ih]
    exact toRegexFrom.eq_4 _
  | case5 rest hne ih =>
    have hhead : rest.head? ≠ some '/' := by
      intro h
      obtain ⟨rest', rfl⟩ := List.head?_eq_some_iff.mp h
      exact hne rest' rfl
    rw [encodeChars_cons_ascii hstar, encodeChars_cons_ascii hstar, List.flatMap_cons,
      encodeChars_append, ← ih]
    exact toRegexFrom.eq_5 _ (encodeChars_ne_cons hslash hhead)
  | case6 rest htree hne ih =>
    have hhead : rest.head? ≠ some '*' := by
      intro h
      obtain ⟨rest', rfl⟩ := List.head?_eq_some_iff.mp h
      exact hne rest' rfl
    have hbytes := encodeChars_ne_cons hstar hhead
    rw [encodeChars_cons_ascii hstar, List.flatMap_cons, encodeChars_append, ← ih]
    exact toRegexFrom.eq_6 _ (fun bs => hbytes _) hbytes
  | case7 rest ih =>
    rw [encodeChars_cons_ascii (by decide), List.flatMap_cons, encodeChars_append, ← ih]
    exact toRegexFrom.eq_7 _
  | case8 rest piece rest' hread ih =>
    have hclass : readClass (encodeChars rest) = some (encodeChars piece.text, encodeChars rest') := by
      rw [readClass_encodeChars, hread, Option.map_some]
    rw [encodeChars_cons_ascii (by decide), List.flatMap_cons, encodeChars_append, ← ih]
    refine (toRegexFrom.eq_8 _).trans ?_
    split
    · next heq =>
      rw [hclass, Option.some.injEq, Prod.mk.injEq] at heq
      rw [heq.1, heq.2]
    · next heq =>
      rw [hclass] at heq
      exact absurd heq (by simp)
  | case9 rest hread ih =>
    have hclass : readClass (encodeChars rest) = none := by
      rw [readClass_encodeChars, hread, Option.map_none]
    rw [encodeChars_cons_ascii (by decide), List.flatMap_cons, encodeChars_append, ← ih]
    refine (toRegexFrom.eq_8 _).trans ?_
    split
    · next heq =>
      rw [hclass] at heq
      exact absurd heq (by simp)
    · rfl
  | case10 c rest h₁ h₂ h₃ h₄ h₅ h₆ h₇ ih =>
    have hc : c ≠ '\\' := by
      rintro rfl
      cases rest with
      | nil => exact h₁ rfl rfl
      | cons d rest => exact h₂ d rest rfl rfl
    rw [toRegexFrom_char rest hc h₅ h₆ h₇, ih, List.flatMap_cons, encodeChars_append]

end Zig

end Difz
