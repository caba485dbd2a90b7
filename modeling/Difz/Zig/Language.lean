import Difz.Filter.Match
import Difz.Filter.Regex
import Difz.Zig.Pattern

/-!
# Filters in both programs

The text of a part of a pattern is read back as a pattern of the language of its token, so the
regular expression of the native program matches the words of the tokens of the Rust crate. The
exception is a class whose text is spelled like a POSIX class: the library refuses the whole
expression, and with it the rule list.
-/

namespace Difz

open Wire

namespace Zig

open PathFilter (Token classMembers)

/-! ### Reading the texts back -/

/-- The forms of the parts of a pattern. -/
inductive Spelled : Piece → Prop
  | literal (c : Char) : Spelled ⟨.literal c, literalText c⟩
  | any : Spelled ⟨.any, ['[', '^', '/', ']']⟩
  | star : Spelled ⟨.star false, ['[', '^', '/', ']', '*']⟩
  | crossing : Spelled ⟨.star true, ['.', '*']⟩
  | treePrefix : Spelled ⟨.treePrefix, ['(', '.', '*', '/', ')', '?']⟩
  | class_ (negated leading : Bool) (members : List Char) (h : leading = false → members ≠ []) :
      Spelled (classPiece negated leading members)

lemma spelled_readPiece {chars rest : List Char} {piece : Piece}
    (h : readPiece chars = some (piece, rest)) : Spelled piece := by
  obtain ⟨⟨members, rest'⟩, hmembers, heq⟩ := Option.map_eq_some_iff.mp h
  obtain ⟨rfl, -⟩ := Prod.mk.inj heq
  refine .class_ _ _ _ fun hleading hnil => ?_
  dsimp only at hnil
  subst hnil
  rw [hleading, if_neg (by simp)] at hmembers
  -- a class that ends at once has its closing bracket in first place
  generalize (if (chars.head? == some '!' || chars.head? == some '^') = true then chars.tail
    else chars) = cs at hmembers hleading
  unfold classMembers at hmembers
  split at hmembers
  · simp at hmembers
  · simp at hleading
  · simp at hmembers
  · simp at hmembers

lemma spelled_pieces (cs : List Char) : ∀ piece ∈ pieces cs, Spelled piece := by
  fun_induction pieces cs with
  | case1 => simp
  | case2 => simpa using Spelled.literal '\\'
  | case3 c rest ih => exact List.forall_mem_cons.mpr ⟨.literal c, ih⟩
  | case4 rest ih => exact List.forall_mem_cons.mpr ⟨.treePrefix, ih⟩
  | case5 rest _ ih => exact List.forall_mem_cons.mpr ⟨.crossing, ih⟩
  | case6 rest _ _ ih => exact List.forall_mem_cons.mpr ⟨.star, ih⟩
  | case7 rest ih => exact List.forall_mem_cons.mpr ⟨.any, ih⟩
  | case8 rest piece rest' hread ih =>
    exact List.forall_mem_cons.mpr ⟨spelled_readPiece hread, ih⟩
  | case9 rest _ ih => exact List.forall_mem_cons.mpr ⟨.literal '[', ih⟩
  | case10 c rest _ _ _ _ _ _ _ ih => exact List.forall_mem_cons.mpr ⟨.literal c, ih⟩

/-- The pattern that a token stands for. -/
def tokenPattern : Token → Regex.Pattern
  | .literal c => .letter false [c]
  | .any => .letter true ['/']
  | .star false => .star (.letter true ['/'])
  | .star true => .star .dot
  | .treePrefix => .optional (.seq (.star .dot) (.seq (.letter false ['/']) .empty))
  | .class_ negated members => .letter negated members

lemma language_tokenPattern (token : Token) : (tokenPattern token).language = token.language := by
  have hletter : ∀ c : Char, (Words.letter fun d => [c].contains d ≠ false) = Words.letter (· = c) := by
    intro c
    congr 1
    funext d
    simp
  have hother : (Words.letter fun d => ['/'].contains d ≠ true) = Words.letter (· ≠ '/') := by
    congr 1
    funext d
    simp
  cases token with
  | literal c => exact hletter c
  | any => exact hother
  | class_ negated members => rfl
  | star cross =>
    cases cross with
    | false =>
      change KStar.kstar (Words.letter fun d => ['/'].contains d ≠ true) = Words.run (· ≠ '/')
      rw [hother, Regex.kstar_letter]
    | true => exact Regex.kstar_letter _
  | treePrefix =>
    change 1 + KStar.kstar (Words.letter (· ≠ '\n'))
      * ((Words.letter fun d => ['/'].contains d ≠ false) * 1) = Words.lead (· ≠ '\n') '/'
    rw [hletter, mul_one, Regex.kstar_letter, Regex.one_add_run_letter]

/-! ### Classes -/

/-- The members are spelled like a POSIX class: they stand between two equal marks, and no bracket
stands right in front of the mark inside. -/
def PosixLike (members : List Char) : Prop :=
  ∃ mark ∈ [':', '.', '='], ∃ inner, members = mark :: (inner ++ [mark]) ∧
    ¬['[', mark] <:+: inner ++ [mark]

/-- The first character of what follows in the text of a class. -/
def nextChar : List Char → Char
  | [] => ']'
  | m :: _ => if classMetaChar m then '\\' else m

lemma exists_nextChar (members rest : List Char) :
    ∃ cs, members.flatMap classLiteral ++ ']' :: rest = nextChar members :: cs := by
  cases members with
  | nil => exact ⟨rest, rfl⟩
  | cons m ms =>
    by_cases hm : classMetaChar m = true
    · exact ⟨m :: (ms.flatMap classLiteral ++ ']' :: rest), by simp [classLiteral, nextChar, hm]⟩
    · exact ⟨ms.flatMap classLiteral ++ ']' :: rest, by simp [classLiteral, nextChar, hm]⟩

lemma nextChar_eq_close {members : List Char} : nextChar members = ']' ↔ members = [] := by
  cases members with
  | nil => simp [nextChar]
  | cons m ms =>
    refine iff_of_false (fun h => ?_) (by simp)
    rw [nextChar] at h
    split_ifs at h with hm
    · exact absurd h (by decide)
    · rw [h] at hm
      exact hm (by decide)

lemma nextChar_ne_caret (members : List Char) : nextChar members ≠ '^' := by
  cases members with
  | nil => simp [nextChar]
  | cons m ms =>
    intro h
    rw [nextChar] at h
    split_ifs at h with hm
    · exact absurd h (by decide)
    · rw [h] at hm
      exact hm (by decide)

/-- A plain character is what it is in the text. -/
lemma nextChar_eq_mark {members : List Char} {mark : Char} (hmark : mark ∈ [':', '.', '=']) :
    nextChar members = mark ↔ members.head? = some mark := by
  have hmeta : classMetaChar mark = false :=
    forall_mem_of_all (p := fun c => classMetaChar c = false) (by decide) mark hmark
  have hne : mark ≠ '\\' ∧ mark ≠ ']' :=
    forall_mem_of_all (p := fun c => c ≠ '\\' ∧ c ≠ ']') (by decide) mark hmark
  cases members with
  | nil => simp [nextChar, hne.2.symm]
  | cons m ms =>
    rw [nextChar, List.head?_cons, Option.some.injEq]
    split_ifs with hm
    · refine iff_of_false hne.1.symm ?_
      rintro rfl
      rw [hmeta] at hm
      exact absurd hm (by simp)
    · rfl

/-- The check for a POSIX class on the text of members is the one on the members. -/
def endsPosix (mark : Char) : List Char → Bool
  | [] => false
  | [m] => m == mark
  | m :: n :: ms => !(m == '[' && n == mark) && endsPosix mark (n :: ms)

lemma endsPosix_cons {mark m : Char} {ms : List Char} (hms : ms ≠ []) :
    endsPosix mark (m :: ms) = (!(m == '[' && ms.head? == some mark) && endsPosix mark ms) := by
  cases ms with
  | nil => exact absurd rfl hms
  | cons n ms => simp [endsPosix]

lemma endsPosix_other {mark m : Char} {ms : List Char} (hm : m ≠ mark)
    (hbracket : ¬(m = '[' ∧ ms.head? = some mark)) :
    endsPosix mark (m :: ms) = endsPosix mark ms := by
  cases ms with
  | nil => simp [endsPosix, hm]
  | cons n ms =>
    rw [endsPosix_cons (by simp)]
    have hfalse : (m == '[' && (n :: ms).head? == some mark) = false := by
      rw [Bool.eq_false_iff]
      intro h
      exact hbracket (by simpa using h)
    rw [hfalse, Bool.not_false, Bool.true_and]

lemma posixEnds_step {mark a b : Char} {rest : List Char} (h₁ : a ≠ '\\') (h₂ : a ≠ ']') :
    Regex.posixEnds mark (a :: b :: rest) = if a = '[' ∧ b = mark then false
      else if a = mark ∧ b = ']' then true else Regex.posixEnds mark (b :: rest) := by
  rw [Regex.posixEnds]
  simp [h₁, h₂]

lemma posixEnds_members {mark : Char} (hmark : mark ∈ [':', '.', '=']) (members rest : List Char) :
    Regex.posixEnds mark (members.flatMap classLiteral ++ ']' :: rest) = endsPosix mark members := by
  have hne : mark ≠ '\\' ∧ mark ≠ ']' ∧ mark ≠ '[' ∧ mark ≠ '-' ∧ mark ≠ '^' :=
    forall_mem_of_all (p := fun c => c ≠ '\\' ∧ c ≠ ']' ∧ c ≠ '[' ∧ c ≠ '-' ∧ c ≠ '^') (by decide)
      mark hmark
  induction members with
  | nil =>
    cases rest with
    | nil => rfl
    | cons c rest =>
      rw [List.flatMap_nil, List.nil_append, Regex.posixEnds]
      simp [endsPosix]
  | cons m ms ih =>
    obtain ⟨cs, hcs⟩ := exists_nextChar ms rest
    rw [List.flatMap_cons, List.append_assoc, hcs]
    rw [hcs] at ih
    by_cases hm : classMetaChar m = true
    · have hlit : classLiteral m = ['\\', m] := if_pos hm
      have hmember : m = '\\' ∨ m = '-' ∨ m = '[' ∨ m = ']' ∨ m = '^' := by
        simpa [classMetaChar] using hm
      rw [hlit, List.cons_append, List.cons_append, List.nil_append]
      rcases hmember with rfl | rfl | rfl | rfl | rfl
      · rw [Regex.posixEnds, if_pos (by simp), ih, endsPosix_other hne.1.symm (by simp)]
      · rw [Regex.posixEnds, if_neg (by simp), if_neg (by simp), if_neg (by simp [hne.1.symm]),
          posixEnds_step (by simp) (by simp), if_neg (by simp),
          if_neg (by simp [hne.2.2.2.1.symm]), ih, endsPosix_other hne.2.2.2.1.symm (by simp)]
      · rw [Regex.posixEnds, if_neg (by simp), if_neg (by simp), if_neg (by simp [hne.1.symm]),
          posixEnds_step (by simp) (by simp)]
        by_cases hnext : nextChar ms = mark
        · have hhead := (nextChar_eq_mark hmark).mp hnext
          have hms : ms ≠ [] := by
            rintro rfl
            simp at hhead
          rw [if_pos ⟨rfl, hnext⟩, endsPosix_cons hms]
          simp [hhead]
        · have hhead := mt (nextChar_eq_mark hmark).mpr hnext
          rw [if_neg (by simp [hnext]), if_neg (by simp [hne.2.2.1.symm]), ih,
            endsPosix_other hne.2.2.1.symm (by simp [hhead])]
      · rw [Regex.posixEnds, if_pos (by simp), ih, endsPosix_other hne.2.1.symm (by simp)]
      · rw [Regex.posixEnds, if_neg (by simp), if_neg (by simp), if_neg (by simp [hne.1.symm]),
          posixEnds_step (by simp) (by simp), if_neg (by simp),
          if_neg (by simp [hne.2.2.2.2.symm]), ih, endsPosix_other hne.2.2.2.2.symm (by simp)]
    · have hlit : classLiteral m = [m] := if_neg hm
      have hplain : m ≠ '\\' ∧ m ≠ '-' ∧ m ≠ '[' ∧ m ≠ ']' ∧ m ≠ '^' := by
        simpa [classMetaChar] using hm
      rw [hlit, List.cons_append, List.nil_append, posixEnds_step hplain.1 hplain.2.2.2.1,
        if_neg (by simp [hplain.2.2.1]), ih]
      by_cases hms : ms = []
      · subst hms
        by_cases heq : m = mark
        · simp [heq, nextChar, endsPosix]
        · simp [heq, endsPosix]
      · rw [if_neg fun h => hms (nextChar_eq_close.mp h.2), endsPosix_cons hms]
        simp [hplain.2.2.1]

lemma endsPosix_iff {mark : Char} (members : List Char) : endsPosix mark members = true ↔
    (∃ inner, members = inner ++ [mark]) ∧ ¬['[', mark] <:+: members := by
  induction members with
  | nil => simp [endsPosix]
  | cons m ms ih =>
    cases ms with
    | nil =>
      have hinfix : ¬['[', mark] <:+: [m] := fun h => absurd h.length_le (by simp)
      simp only [endsPosix, beq_iff_eq, hinfix, not_false_eq_true, and_true]
      constructor
      · rintro rfl
        exact ⟨[], rfl⟩
      · rintro ⟨inner, h⟩
        have hlast := congrArg List.getLast? h
        simpa using hlast
    | cons n ms =>
      have hlast : (∃ inner, m :: n :: ms = inner ++ [mark]) ↔
          ∃ inner, n :: ms = inner ++ [mark] := by
        constructor
        · rintro ⟨inner, h⟩
          cases inner with
          | nil => simp at h
          | cons i inner => exact ⟨inner, (List.cons.inj h).2⟩
        · rintro ⟨inner, h⟩
          exact ⟨m :: inner, by rw [h]; rfl⟩
      have hinfix : ['[', mark] <:+: m :: n :: ms
          ↔ ['[', mark] <+: m :: n :: ms ∨ ['[', mark] <:+: n :: ms := List.infix_cons_iff
      have hhere : ['[', mark] <+: m :: n :: ms ↔ m = '[' ∧ n = mark := by
        simp [List.cons_prefix_cons, eq_comm]
      rw [endsPosix_cons (by simp), Bool.and_eq_true, ih, hlast, hinfix, hhere]
      simp only [List.head?_cons, Bool.not_eq_true', Bool.and_eq_false_iff, beq_eq_false_iff_ne,
        ne_eq, Option.some.injEq]
      rw [not_or, not_and_or]
      exact and_left_comm

lemma posixLike_cons {m : Char} {ms : List Char} :
    PosixLike (m :: ms) ↔ m ∈ [':', '.', '='] ∧ endsPosix m ms = true := by
  rw [endsPosix_iff, PosixLike]
  constructor
  · rintro ⟨mark, hmark, inner, heq, hinfix⟩
    obtain ⟨rfl, rfl⟩ := List.cons.inj heq
    exact ⟨hmark, ⟨inner, rfl⟩, hinfix⟩
  · rintro ⟨hmark, ⟨inner, rfl⟩, hinfix⟩
    exact ⟨m, hmark, inner, rfl, hinfix⟩

lemma startsPosix_members {members : List Char} (rest : List Char) :
    Regex.startsPosix (members.flatMap classLiteral ++ ']' :: rest) = true ↔ PosixLike members := by
  cases members with
  | nil => simp [Regex.startsPosix, PosixLike]
  | cons m ms =>
    rw [posixLike_cons]
    by_cases hmark : m ∈ [':', '.', '=']
    · have hlit : classLiteral m = [m] := by
        revert m
        exact forall_mem_of_all (by decide)
      have hbool : (m == ':' || m == '.' || m == '=') = true := by
        revert m
        exact forall_mem_of_all (by decide)
      rw [List.flatMap_cons, hlit, List.append_assoc, List.singleton_append, Regex.startsPosix,
        posixEnds_members hmark, hbool, Bool.true_and]
      simp [hmark]
    · refine iff_of_false ?_ fun h => hmark h.1
      obtain ⟨cs, hcs⟩ := exists_nextChar (m :: ms) rest
      rw [hcs, Regex.startsPosix, nextChar]
      split_ifs with hm
      · simp
      · have hbool : (m == ':' || m == '.' || m == '=') = false := by
          simpa [Bool.or_assoc] using hmark
        rw [hbool, Bool.false_and]
        simp

lemma classItems_members (members rest : List Char) :
    Regex.classItems (members.flatMap classLiteral ++ ']' :: rest) = .ok (members, rest) := by
  induction members with
  | nil => rfl
  | cons m ms ih =>
    rw [List.flatMap_cons, List.append_assoc]
    by_cases hm : classMetaChar m = true
    · have hlit : classLiteral m = ['\\', m] := if_pos hm
      have hescapable : Regex.isEscapable m = true := by
        have hall : ∀ c ∈ ['\\', '-', '[', ']', '^'], Regex.isEscapable c = true :=
          forall_mem_of_all (by decide)
        exact hall m (by simpa [classMetaChar] using hm)
      rw [hlit, List.cons_append, List.cons_append, List.nil_append, Regex.classItems,
        if_pos hescapable, ih, ok_bind]
    · have hlit : classLiteral m = [m] := if_neg hm
      have hplain : m ≠ '\\' ∧ m ≠ '-' ∧ m ≠ '[' ∧ m ≠ ']' ∧ m ≠ '^' := by
        simpa [classMetaChar] using hm
      have hspecial : ¬(m = '-' ∨ m = '[' ∨ m = '\\') :=
        not_or.mpr ⟨hplain.2.1, not_or.mpr ⟨hplain.2.2.1, hplain.1⟩⟩
      rw [hlit, List.singleton_append, Regex.classItems, if_neg hspecial, ih, ok_bind]
      · exact hplain.2.2.2.1
      · intro c cs h
        exact absurd h hplain.1

/-- The token of a class that the library refuses. -/
def RefusedClass : Token → Prop
  | .class_ false members => PosixLike members
  | _ => False

lemma parseClass_negated {leading : Bool} {members : List Char} (rest : List Char)
    (h : leading = false → members ≠ []) :
    Regex.parseClass ('^' :: ((if leading then [']'] else [])
      ++ (members.flatMap classLiteral ++ ']' :: rest)))
      = .ok (.letter true (if leading then ']' :: members else members), rest) := by
  have hposix : ∀ cs, Regex.startsPosix ('^' :: cs) = false := fun cs => rfl
  rw [Regex.parseClass, hposix, if_neg (by simp)]
  dsimp only
  cases leading with
  | true =>
    simp [classItems_members, ok_bind]
  | false =>
    obtain ⟨cs, hcs⟩ := exists_nextChar members rest
    have hclose : nextChar members ≠ ']' := mt nextChar_eq_close.mp (h rfl)
    have hitems := classItems_members members rest
    rw [hcs] at hitems
    simp [hcs, hclose, hitems, ok_bind]

lemma parseClass_leading (members rest : List Char) :
    Regex.parseClass (']' :: (members.flatMap classLiteral ++ ']' :: rest))
      = .ok (.letter false (']' :: members), rest) := by
  have hposix : ∀ cs, Regex.startsPosix (']' :: cs) = false := fun cs => rfl
  rw [Regex.parseClass, hposix, if_neg (by simp)]
  simp [classItems_members, ok_bind]

lemma parseClass_plain {members : List Char} (rest : List Char) (h : members ≠ [])
    (hposix : ¬PosixLike members) :
    Regex.parseClass (members.flatMap classLiteral ++ ']' :: rest)
      = .ok (.letter false members, rest) := by
  obtain ⟨cs, hcs⟩ := exists_nextChar members rest
  have hclose : nextChar members ≠ ']' := mt nextChar_eq_close.mp h
  have hitems := classItems_members members rest
  rw [Regex.parseClass, if_neg (mt (startsPosix_members rest).mp hposix)]
  rw [hcs] at hitems ⊢
  simp [hclose, nextChar_ne_caret, hitems, ok_bind]

lemma parseClass_posix {members : List Char} (rest : List Char) (hposix : PosixLike members) :
    Regex.parseClass (members.flatMap classLiteral ++ ']' :: rest) = .error .refused := by
  rw [Regex.parseClass, if_pos ((startsPosix_members rest).mpr hposix)]

/-- The text of a class is read back, unless it is refused. -/
lemma parseAtom_class {negated leading : Bool} {members : List Char} (rest : List Char)
    (h : leading = false → members ≠ []) :
    (¬RefusedClass (classPiece negated leading members).token →
      Regex.parseAtom ((classPiece negated leading members).text ++ rest)
        = .ok (tokenPattern (classPiece negated leading members).token, rest)) ∧
    (RefusedClass (classPiece negated leading members).token →
      Regex.parseAtom ((classPiece negated leading members).text ++ rest)
        = .error .refused) := by
  cases negated with
  | true =>
    refine ⟨fun _ => ?_, fun hrefused => hrefused.elim⟩
    have hparse := parseClass_negated rest h
    simpa [classPiece, Regex.parseAtom, tokenPattern] using hparse
  | false =>
    cases leading with
    | true =>
      refine ⟨fun _ => ?_, fun hrefused => ?_⟩
      · have hparse := parseClass_leading members rest
        simpa [classPiece, Regex.parseAtom, tokenPattern] using hparse
      · have hmark := (posixLike_cons.mp hrefused).1
        exact absurd hmark (by decide)
    | false =>
      refine ⟨fun hposix => ?_, fun hposix => ?_⟩
      · have hparse := parseClass_plain rest (h rfl) hposix
        simpa [classPiece, Regex.parseAtom, tokenPattern] using hparse
      · have hparse := parseClass_posix rest hposix
        simpa [classPiece, Regex.parseAtom] using hparse

/-! ### Whole texts -/

lemma parseAtom_literal (c : Char) (rest : List Char) :
    Regex.parseAtom (literalText c ++ rest) = .ok (.letter false [c], rest) := by
  by_cases hc : metaChar c = true
  · have hescapable : Regex.isEscapable c = true := by
      have hall : ∀ d ∈ ['.', '+', '^', '$', '(', ')', '\x7b', '\x7d', '|', '\\', '*', '?', '[',
          ']'], Regex.isEscapable d = true := forall_mem_of_all (by decide)
      exact hall c (by simpa [metaChar] using hc)
    rw [literalText, if_pos hc, List.cons_append, List.singleton_append, Regex.parseAtom,
      if_pos hescapable]
  · have hsub : ∀ d ∈ ['\\', '^', '$', '.', '[', '|', '(', ')', '*', '+', '?', '\x7b'],
        metaChar d = true := forall_mem_of_all (by decide)
    have hplain : Regex.isMeta c = false := by
      rw [Bool.eq_false_iff]
      intro h
      exact hc (hsub c (by simpa [Regex.isMeta] using h))
    rw [literalText, if_neg hc, List.singleton_append, Regex.parseAtom, hplain,
      if_neg (by simp)]
    · rintro rfl
      exact hc (by decide)
    · rintro rfl
      exact hc (by decide)
    · rintro d rest' rfl
      exact absurd (by decide) hc

lemma Spelled.fresh {piece : Piece} (h : Spelled piece) (rest : List Char) :
    Regex.Fresh (piece.text ++ rest) := by
  cases h with
  | literal c =>
    have hsub : ∀ d ∈ ['*', '+', '?', '\x7b'], metaChar d = true :=
      forall_mem_of_all (by decide)
    rw [Regex.Fresh, literalText]
    split_ifs with hc
    · rfl
    · have hplain : Regex.isQuantifier c = false := by
        rw [Bool.eq_false_iff]
        intro h
        exact hc (hsub c (by simpa [Regex.isQuantifier] using h))
      simpa using hplain
  | any => rfl
  | star => rfl
  | crossing => rfl
  | treePrefix => rfl
  | class_ negated leading members _ => rfl

/-- One part in front of others. -/
lemma parseFrom_piece {piece : Piece} (h : Spelled piece) (hok : ¬RefusedClass piece.token)
    {rest : List Char} (hrest : Regex.Fresh rest) {fuel : Nat} (hfuel : 3 ≤ fuel) :
    Regex.parseFrom (fuel + 1) (piece.text ++ rest) = (Regex.parseFrom fuel rest >>= fun p =>
      .ok (.seq (tokenPattern piece.token) p.1, p.2)) := by
  have hatom : ∀ {r : Regex.Pattern} {chars rest' : List Char} {item : Regex.Pattern × List Char},
      Regex.parseAtom chars = .ok (r, rest') → Regex.quantify r rest' = .ok item →
      Regex.parseFrom (fuel + 1) chars = (Regex.parseFrom fuel item.2 >>= fun p =>
        .ok (.seq item.1 p.1, p.2)) := by
    intro r chars rest' item hparse hquantify
    rw [Regex.parseFrom_of_atom (by rw [hparse]; simp), hparse, ok_bind, hquantify, ok_bind]
  have hnotSlash : ∀ rest' : List Char,
      Regex.parseAtom (['[', '^', '/', ']'] ++ rest') = .ok (.letter true ['/'], rest') := by
    intro rest'
    exact (@parseAtom_class true false ['/'] rest' (by simp)).1 id
  cases h with
  | literal c => exact hatom (parseAtom_literal c rest) (Regex.quantify_plain hrest)
  | any => exact hatom (hnotSlash rest) (Regex.quantify_plain hrest)
  | star => exact hatom (hnotSlash ('*' :: rest)) (Regex.quantify_star hrest)
  | crossing => exact hatom (r := .dot) rfl (Regex.quantify_star hrest)
  | treePrefix =>
    obtain ⟨k, rfl⟩ := Nat.exists_eq_add_of_le' hfuel
    have hinner : Regex.parseFrom (k + 3) ('.' :: '*' :: '/' :: ')' :: '?' :: rest)
        = .ok (.seq (.star .dot) (.seq (.letter false ['/']) .empty), ')' :: '?' :: rest) := rfl
    refine (Regex.parseFrom_group (by simp) hinner).trans ?_
    rw [Regex.quantify_optional hrest, ok_bind]
    rfl
  | class_ negated leading members hmembers =>
    exact hatom ((parseAtom_class rest hmembers).1 hok) (Regex.quantify_plain hrest)

lemma parseAtom_refused {piece : Piece} (h : Spelled piece) (hbad : RefusedClass piece.token)
    (rest : List Char) : Regex.parseAtom (piece.text ++ rest) = .error .refused := by
  cases h with
  | class_ negated leading members hmembers => exact (parseAtom_class rest hmembers).2 hbad
  | _ => exact hbad.elim

/-- The pattern of a list of parts. -/
def piecesPattern : List Piece → Regex.Pattern
  | [] => .empty
  | piece :: ps => .seq (tokenPattern piece.token) (piecesPattern ps)

lemma fresh_pieces {ps : List Piece} (h : ∀ piece ∈ ps, Spelled piece) :
    Regex.Fresh (ps.flatMap Piece.text ++ ['\\', 'z']) := by
  cases ps with
  | nil => rfl
  | cons piece ps =>
    rw [List.flatMap_cons, List.append_assoc]
    exact (h piece (by simp)).fresh _

lemma length_text {piece : Piece} (h : Spelled piece) : 1 ≤ piece.text.length := by
  cases h with
  | literal c =>
    rw [literalText]
    split_ifs <;> simp
  | class_ negated leading members _ => simp [classPiece]
  | _ => simp

lemma parseFrom_pieces {ps : List Piece} (h : ∀ piece ∈ ps, Spelled piece) {fuel : Nat}
    (hfuel : (ps.flatMap Piece.text).length + 3 ≤ fuel) :
    ((∀ piece ∈ ps, ¬RefusedClass piece.token) →
      Regex.parseFrom fuel (ps.flatMap Piece.text ++ ['\\', 'z'])
        = .ok (piecesPattern ps, ['\\', 'z'])) ∧
    ((∃ piece ∈ ps, RefusedClass piece.token) →
      Regex.parseFrom fuel (ps.flatMap Piece.text ++ ['\\', 'z']) = .error .refused) := by
  induction ps generalizing fuel with
  | nil =>
    obtain ⟨k, rfl⟩ := Nat.exists_eq_add_of_le' hfuel
    exact ⟨fun _ => rfl, by simp⟩
  | cons piece ps ih =>
    obtain ⟨hpiece, hps⟩ := List.forall_mem_cons.mp h
    have hpos := length_text hpiece
    rw [List.flatMap_cons, List.length_append] at hfuel
    obtain ⟨k, rfl⟩ := Nat.exists_eq_add_of_le' (show 1 ≤ fuel by omega)
    have hk : (ps.flatMap Piece.text).length + 3 ≤ k := by omega
    obtain ⟨hread, hrefused⟩ := ih hps hk
    rw [List.flatMap_cons, List.append_assoc]
    refine ⟨fun hok => ?_, fun hbad => ?_⟩
    · obtain ⟨hhead, htail⟩ := List.forall_mem_cons.mp hok
      rw [parseFrom_piece hpiece hhead (fresh_pieces hps) (by omega), hread htail, ok_bind]
      rfl
    · by_cases hhead : RefusedClass piece.token
      · have hparse := parseAtom_refused hpiece hhead (ps.flatMap Piece.text ++ ['\\', 'z'])
        rw [Regex.parseFrom_of_atom (by rw [hparse]; simp), hparse, error_bind]
      · obtain ⟨bad, hmem, hbad⟩ := hbad
        rcases List.mem_cons.mp hmem with rfl | hmem
        · exact absurd hbad hhead
        · rw [parseFrom_piece hpiece hhead (fresh_pieces hps) (by omega),
            hrefused ⟨bad, hmem, hbad⟩, error_bind]

lemma language_piecesPattern (ps : List Piece) :
    (piecesPattern ps).language = PathFilter.language (ps.map Piece.token) := by
  induction ps with
  | nil => rfl
  | cons piece ps ih =>
    rw [List.map_cons, PathFilter.language_cons, ← ih, ← language_tokenPattern]
    rfl

/-! ### Both programs -/

/-- The pattern has a class that is spelled like a POSIX class. -/
def HasPosixClass (pattern : List Char) : Prop :=
  ∃ piece ∈ pieces pattern, RefusedClass piece.token

/-- The text that a pattern is translated to. -/
def regexText (pattern : List Char) : List Char :=
  '\\' :: 'A' :: ((pieces pattern).flatMap Piece.text ++ ['\\', 'z'])

lemma toRegex_encodeChars (pattern : List Char) :
    toRegex (encodeChars pattern) = encodeChars (regexText pattern) := by
  have hstart : utf8 "\\A" = encodeChars ['\\', 'A'] := utf8_eq_encodeChars _
  have hend : utf8 "\\z" = encodeChars ['\\', 'z'] := utf8_eq_encodeChars _
  rw [toRegex, toRegexFrom_encodeChars, hstart, hend, ← encodeChars_append, ← encodeChars_append]
  rfl

lemma parse_regexText (pattern : List Char) :
    (¬HasPosixClass pattern →
      Regex.parse (regexText pattern) = .ok (piecesPattern (pieces pattern))) ∧
    (HasPosixClass pattern → Regex.parse (regexText pattern) = .error .refused) := by
  have hfuel : ((pieces pattern).flatMap Piece.text).length + 3
      ≤ ((pieces pattern).flatMap Piece.text ++ ['\\', 'z']).length + 1 := by simp
  obtain ⟨hread, hrefused⟩ := parseFrom_pieces (spelled_pieces pattern) hfuel
  rw [regexText, Regex.parse]
  refine ⟨fun hnone => ?_, fun hsome => ?_⟩
  · rw [hread fun piece hpiece hbad => hnone ⟨piece, hpiece, hbad⟩, ok_bind]
    rfl
  · rw [hrefused hsome, error_bind]

/-- What the documentation of the library says about the described part of its syntax. `fits` tells
of a text whether what it compiles to is within the library's limit (64 KiB with the usual link
size); a text that is too large is refused like one that is wrong. -/
structure Pcre2.Documented (pcre2 : Pcre2) (fits : List UInt8 → Prop) : Prop where
  accepts : ∀ text r, Regex.parse text = .ok r → fits (encodeChars text) → ∃ regex,
    pcre2.compile (encodeChars text) = some regex ∧
      ∀ subject, pcre2.isMatch regex (encodeChars subject) = true ↔ subject ∈ r.language
  refuses : ∀ text, Regex.parse text = .error .refused → pcre2.compile (encodeChars text) = none
  tooLarge : ∀ bytes, ¬fits bytes → pcre2.compile bytes = none

variable {pcre2 : Pcre2} {fits : List UInt8 → Prop}

/-- What the library takes of a pattern: no class of it is spelled like a POSIX class, and its
expression is not too large. -/
def Regular (fits : List UInt8 → Prop) (pattern : List Char) : Prop :=
  ¬HasPosixClass pattern ∧ fits (toRegex (encodeChars pattern))

lemma Pcre2.Documented.compile_pattern (h : pcre2.Documented fits) {pattern : List Char}
    (hregular : Regular fits pattern) : ∃ regex,
      pcre2.compile (toRegex (encodeChars pattern)) = some regex ∧
        ∀ subject, pcre2.isMatch regex (encodeChars subject) = true ↔
          subject ∈ PathFilter.language (PathFilter.compile pattern) := by
  obtain ⟨hposix, hfits⟩ := hregular
  rw [toRegex_encodeChars] at hfits
  obtain ⟨regex, hregex, hmatch⟩ := h.accepts _ _ ((parse_regexText pattern).1 hposix) hfits
  rw [← toRegex_encodeChars] at hregex
  refine ⟨regex, hregex, fun subject => ?_⟩
  rw [hmatch, language_piecesPattern, compile_eq]

lemma Pcre2.Documented.refuse_pattern (h : pcre2.Documented fits) {pattern : List Char}
    (hregular : ¬Regular fits pattern) : pcre2.compile (toRegex (encodeChars pattern)) = none := by
  by_cases hposix : HasPosixClass pattern
  · rw [toRegex_encodeChars]
    exact h.refuses _ ((parse_regexText pattern).2 hposix)
  · exact h.tooLarge _ fun hfits => hregular ⟨hposix, hfits⟩

/-- The regular expression of a pattern matches the valid paths that its tokens match. -/
def SameLanguage (pcre2 : Pcre2) (pattern : List Char) : Prop :=
  ∃ regex, pcre2.compile (toRegex (encodeChars pattern)) = some regex ∧
    ∀ text : String, Directory.validatePath (utf8 text) = .ok () →
      (pcre2.isMatch regex (utf8 text) = true ↔
        text.toList ∈ PathFilter.language (PathFilter.compile pattern))

/-- Filters of the rules return the same verdict on every valid path. -/
def SameVerdicts (pcre2 : Pcre2) (rules : List PathFilter.Rule) : Prop :=
  ∀ path, Directory.validatePath path = .ok () →
    (PathFilter.Filter.compile rules >>= fun filter => filter.includes path).toOption
      = (Filter.compile pcre2 (rules.map Rule.of) >>= fun filter => filter.includes path).toOption

lemma Rule.compile_of_eq_ok {rule : PathFilter.Rule} {compiled : CompiledRule pcre2}
    (h : (Rule.of rule).compile pcre2 = .ok compiled) : rule.split.2 ≠ [] ∧
      compiled.action = rule.split.1 ∧
      pcre2.compile (toRegex (encodeChars rule.split.2)) = some compiled.regex := by
  rw [Rule.compile, Rule.split_of] at h
  simp only [ite_error_eq_ok] at h
  obtain ⟨hlen, -, h⟩ := h
  refine ⟨fun hnil => hlen (by simp [hnil]), ?_⟩
  cases hregex : pcre2.compile (toRegex (encodeChars rule.split.2)) with
  | none => simp [hregex] at h
  | some regex =>
    simp only [hregex, Except.ok.injEq] at h
    rw [← h]
    exact ⟨rfl, rfl⟩

/-- What becomes of a rule is up to the library. -/
lemma Rule.compile_of_ne {rule : PathFilter.Rule} (hne : rule.split.2 ≠ []) :
    (Rule.of rule).compile pcre2 = match pcre2.compile (toRegex (encodeChars rule.split.2)) with
      | some regex => .ok ⟨rule.split.1, regex⟩
      | none => .error .compileFailed := by
  have hutf8 : isUtf8 (encodeChars rule.split.2) = true :=
    isUtf8_iff.mpr ⟨String.ofList rule.split.2, by simp [utf8_eq_encodeChars]⟩
  have hbytes : encodeChars rule.split.2 ≠ [] := mt encodeChars_eq_nil_iff.mp hne
  rw [Rule.compile, Rule.split_of]
  dsimp only
  exact (if_neg (by simpa using hbytes)).trans (if_neg (by simp [hutf8]))

lemma Rule.compile_of_regex {rule : PathFilter.Rule} (hne : rule.split.2 ≠ [])
    {regex : pcre2.Regex} (h : pcre2.compile (toRegex (encodeChars rule.split.2)) = some regex) :
    (Rule.of rule).compile pcre2 = .ok ⟨rule.split.1, regex⟩ := by
  rw [Rule.compile_of_ne hne, h]

/-- Rules that match alike judge alike. -/
lemma verdicts_eq {chars : List Char} {path : List UInt8} {rules : List PathFilter.Rule}
    {compiled : List (CompiledRule pcre2)}
    (h : List.Forall₂ (fun rule c => c.action = rule.split.1 ∧ (pcre2.isMatch c.regex path = true ↔
      chars ∈ PathFilter.language (PathFilter.compile rule.split.2))) rules compiled)
    (state : PathFilter.Rows × Bool) (hnext : state.1.next.length = chars.length + 1)
    (hcurrent : state.1.current.length = chars.length + 1) :
    ((rules.map PathFilter.Rule.compiled).foldl (PathFilter.runRule chars) state).2
      = compiled.foldl (fun included rule =>
          if pcre2.isMatch rule.regex path then rule.action == .include_ else included) state.2 := by
  induction h generalizing state with
  | nil => rfl
  | @cons rule c rules compiled hrule _ ih =>
    obtain ⟨hstands, hyes, hno⟩ :=
      PathFilter.runRule_verdict hnext hcurrent (PathFilter.Rule.compiled rule)
    rw [List.map_cons, List.foldl_cons, List.foldl_cons, ih _ hstands.next.length hstands.current]
    congr 1
    by_cases hmatch : pcre2.isMatch c.regex path = true
    · rw [if_pos hmatch, hyes (hrule.2.mp hmatch), hrule.1]
      rfl
    · rw [if_neg hmatch, hno (mt hrule.2.mpr hmatch)]

/-- Rules with such patterns compile, to expressions of the languages of their tokens. -/
lemma Pcre2.Documented.compile_rules (hdoc : pcre2.Documented fits) {rules : List PathFilter.Rule}
    (hne : ∀ rule ∈ rules, rule.split.2 ≠ [])
    (hregular : ∀ rule ∈ rules, Regular fits rule.split.2) :
    ∃ compiled, (rules.map Rule.of).mapM (Rule.compile pcre2) = .ok compiled ∧
      ∀ subject, List.Forall₂ (fun rule c => c.action = rule.split.1 ∧
        (pcre2.isMatch c.regex (encodeChars subject) = true ↔
          subject ∈ PathFilter.language (PathFilter.compile rule.split.2))) rules compiled := by
  induction rules with
  | nil => exact ⟨[], rfl, fun _ => .nil⟩
  | cons rule rules ih =>
    obtain ⟨hhead, hrest⟩ := List.forall_mem_cons.mp hne
    obtain ⟨hhead', hrest'⟩ := List.forall_mem_cons.mp hregular
    obtain ⟨compiled, hcompiled, hmatch⟩ := ih hrest hrest'
    obtain ⟨regex, hregex, hword⟩ := hdoc.compile_pattern hhead'
    refine ⟨⟨rule.split.1, regex⟩ :: compiled, ?_, fun subject =>
      .cons ⟨rfl, hword subject⟩ (hmatch subject)⟩
    rw [List.map_cons, List.mapM_cons, Rule.compile_of_regex hhead hregex, ok_bind, hcompiled]
    rfl

lemma all_action_of (rules : List PathFilter.Rule) :
    (rules.map Rule.of).all (·.action != .include_) = rules.all (·.action != .include_) := by
  rw [List.all_map]
  rfl

lemma includes_eq {filter : Filter pcre2} {path : List UInt8}
    (hpath : Directory.validatePath path = .ok ()) :
    filter.includes path = .ok (filter.rules.foldl (fun included rule =>
      if pcre2.isMatch rule.regex path then rule.action == .include_ else included)
      filter.defaultIncluded) := by
  rw [Filter.includes, hpath]
  rfl

lemma sameVerdicts_of_forall (hdoc : pcre2.Documented fits) {rules : List PathFilter.Rule}
    (hne : ∀ rule ∈ rules, rule.split.2 ≠ [])
    (hregular : ∀ rule ∈ rules, Regular fits rule.split.2) : SameVerdicts pcre2 rules := by
  intro path hpath
  obtain ⟨text, rfl⟩ := PathFilter.utf8_of_validatePath hpath
  obtain ⟨filter, hfilter⟩ := (PathFilter.Filter.exists_compile_iff rules).mpr hne
  obtain ⟨compiled, hcompiled, hmatch⟩ := hdoc.compile_rules hne hregular
  rw [hfilter, ok_bind, Filter.compile, hcompiled, ok_bind, ok_bind, includes_eq hpath,
    PathFilter.Filter.includes_utf8 filter hpath]
  rw [PathFilter.Filter.compile, Wire.bind_eq_ok] at hfilter
  obtain ⟨rust, hrust, hok⟩ := hfilter
  obtain rfl := Except.ok.inj hok
  obtain rfl := PathFilter.mapM_compile hrust
  have hmatch := hmatch text.toList
  rw [← utf8_eq_encodeChars] at hmatch
  have hverdict := verdicts_eq hmatch
    (⟨List.replicate (text.toList.length + 1) false,
      List.replicate (text.toList.length + 1) false⟩, rules.all (·.action != .include_))
    (by simp) (by simp)
  rw [hverdict, all_action_of]
  rfl

lemma exists_of_forall₂ {α β : Type} {R : α → β → Prop} {xs : List α} {ys : List β}
    (h : List.Forall₂ R xs ys) {x : α} (hx : x ∈ xs) : ∃ y, R x y := by
  induction h with
  | nil => simp at hx
  | @cons a b _ _ hab _ ih =>
    rcases List.mem_cons.mp hx with rfl | hx
    · exact ⟨b, hab⟩
    · exact ih hx

/-- A rule that does not compile keeps the list from compiling. -/
lemma compile_toOption_eq_none {rules : List PathFilter.Rule} {rule : PathFilter.Rule}
    (hmem : rule ∈ rules) (h : ∀ compiled, (Rule.of rule).compile pcre2 ≠ .ok compiled)
    (path : List UInt8) :
    (Filter.compile pcre2 (rules.map Rule.of) >>= fun filter => filter.includes path).toOption
      = none := by
  cases hcompile : Filter.compile pcre2 (rules.map Rule.of) with
  | error e => rfl
  | ok filter =>
    rw [Filter.compile, Wire.bind_eq_ok] at hcompile
    obtain ⟨compiled, hcompiled, -⟩ := hcompile
    have hall := List.forall₂_map_left_iff.mp (mapM_eq_ok.mp hcompiled)
    obtain ⟨c, hc⟩ := exists_of_forall₂ hall hmem
    exact absurd hc (h c)

/-- The library refuses some pattern, and neither it nor one in front of it is empty. -/
def RefusedRules (fits : List UInt8 → Prop) (rules : List PathFilter.Rule) : Prop :=
  ∃ before rule after, rules = before ++ rule :: after ∧
    (∀ r ∈ before ++ [rule], r.split.2 ≠ []) ∧ ¬Regular fits rule.split.2

lemma refusedRules_cons {rule : PathFilter.Rule} {rules : List PathFilter.Rule} :
    RefusedRules fits (rule :: rules) ↔
      rule.split.2 ≠ [] ∧ (¬Regular fits rule.split.2 ∨ RefusedRules fits rules) := by
  constructor
  · rintro ⟨before, r, after, heq, hne, hrefused⟩
    cases before with
    | nil =>
      obtain ⟨rfl, rfl⟩ := List.cons.inj heq
      exact ⟨hne rule (by simp), .inl hrefused⟩
    | cons b before =>
      obtain ⟨rfl, rfl⟩ := List.cons.inj heq
      obtain ⟨hb, hbefore⟩ := List.forall_mem_cons.mp hne
      exact ⟨hb, .inr ⟨before, r, after, rfl, hbefore, hrefused⟩⟩
  · rintro ⟨hne, hrefused | ⟨before, r, after, rfl, hbefore, hrefused⟩⟩
    · exact ⟨[], rule, rules, rfl, by simpa using hne, hrefused⟩
    · exact ⟨rule :: before, r, after, rfl, List.forall_mem_cons.mpr ⟨hne, hbefore⟩, hrefused⟩

lemma Rule.compile_empty {rule : PathFilter.Rule} (h : rule.split.2 = []) :
    (Rule.of rule).compile pcre2 = .error .emptyPattern := by
  rw [Rule.compile, Rule.split_of]
  dsimp only
  rw [h, if_pos (by simp)]

lemma Pcre2.Documented.compile_refused (hdoc : pcre2.Documented fits) {rule : PathFilter.Rule}
    (hne : rule.split.2 ≠ []) (h : ¬Regular fits rule.split.2) :
    (Rule.of rule).compile pcre2 = .error .compileFailed := by
  rw [Rule.compile_of_ne hne, hdoc.refuse_pattern h]

/-- The rule lists whose compilation fails with the refusal of a pattern. -/
lemma Pcre2.Documented.compileFailed_iff (hdoc : pcre2.Documented fits)
    (rules : List PathFilter.Rule) :
    Filter.compile pcre2 (rules.map Rule.of) = .error .compileFailed ↔ RefusedRules fits rules := by
  have hmap : (rules.map Rule.of).mapM (Rule.compile pcre2) = .error .compileFailed ↔
      RefusedRules fits rules := by
    induction rules with
    | nil => simp [RefusedRules, pure, Except.pure]
    | cons rule rules ih =>
      rw [List.map_cons, List.mapM_cons, bind_eq_error, refusedRules_cons, ← ih]
      by_cases hnil : rule.split.2 = []
      · simp [hnil, Rule.compile_empty hnil]
      · by_cases hregular : Regular fits rule.split.2
        · obtain ⟨regex, hregex, -⟩ := hdoc.compile_pattern hregular
          simp [hregular, hnil, Rule.compile_of_regex hnil hregex, bind_eq_error, pure,
            Except.pure]
        · simp [hregular, hnil, hdoc.compile_refused hnil hregular]
  rw [← hmap, Filter.compile, bind_eq_error]
  simp

lemma not_sameLanguage_of_refused (hdoc : pcre2.Documented fits) {pattern : List Char}
    (hrefused : ¬Regular fits pattern) : ¬SameLanguage pcre2 pattern := by
  intro h
  obtain ⟨regex, hregex, -⟩ := h
  rw [hdoc.refuse_pattern hrefused] at hregex
  exact absurd hregex (by simp)

/-- One program has a verdict on the path `a`, the other has no filter. -/
lemma not_sameVerdicts_of_refused (hdoc : pcre2.Documented fits) {rules : List PathFilter.Rule}
    (hne : ∀ rule ∈ rules, rule.split.2 ≠ []) {rule : PathFilter.Rule} (hmem : rule ∈ rules)
    (hrefused : ¬Regular fits rule.split.2) : ¬SameVerdicts pcre2 rules := by
  intro hsame
  have hpath : Directory.validatePath (utf8 "a") = .ok () := by decide
  have heq := hsame _ hpath
  obtain ⟨filter, hfilter⟩ := (PathFilter.Filter.exists_compile_iff rules).mpr hne
  rw [compile_toOption_eq_none hmem ?_, hfilter, ok_bind,
    PathFilter.Filter.includes_utf8 filter hpath] at heq
  · exact absurd heq (by simp [Except.toOption])
  · intro compiled hcompiled
    have hregex := (Rule.compile_of_eq_ok hcompiled).2.2
    rw [hdoc.refuse_pattern hrefused] at hregex
    exact absurd hregex (by simp)

/-- Neither program has a filter for a list with an empty pattern. -/
lemma sameVerdicts_of_empty {rules : List PathFilter.Rule} {rule : PathFilter.Rule}
    (hmem : rule ∈ rules) (hnil : rule.split.2 = []) : SameVerdicts pcre2 rules := by
  intro path _
  rw [compile_toOption_eq_none hmem fun compiled hcompiled =>
    (Rule.compile_of_eq_ok hcompiled).1 hnil]
  cases hcompile : PathFilter.Filter.compile rules with
  | error e => rfl
  | ok filter =>
    have hne := (PathFilter.Filter.exists_compile_iff rules).mp ⟨filter, hcompile⟩
    exact absurd hnil (hne rule hmem)

/-- The programs agree on a pattern exactly if it has no class that is spelled like a POSIX class
and its expression is not too large, and on a rule list that compiles exactly if all its patterns are
such. -/
theorem filters_agree_iff (hdoc : pcre2.Documented fits) :
    (∀ pattern, pattern ≠ [] → (SameLanguage pcre2 pattern ↔
      ¬HasPosixClass pattern ∧ fits (toRegex (encodeChars pattern)))) ∧
    ∀ rules, SameVerdicts pcre2 rules ↔ ((∀ rule ∈ rules, rule.split.2 ≠ []) →
      ∀ rule ∈ rules, ¬HasPosixClass rule.split.2 ∧ fits (toRegex (encodeChars rule.split.2))) := by
  refine ⟨fun pattern _ => ⟨fun h => ?_, fun h => ?_⟩, fun rules => ⟨?_, fun h => ?_⟩⟩
  · by_contra hrefused
    exact not_sameLanguage_of_refused hdoc hrefused h
  · obtain ⟨regex, hregex, hmatch⟩ := hdoc.compile_pattern h
    refine ⟨regex, hregex, fun text _ => ?_⟩
    rw [utf8_eq_encodeChars, hmatch]
  · intro hsame hne rule hmem
    by_contra hrefused
    exact not_sameVerdicts_of_refused hdoc hne hmem hrefused hsame
  · by_cases hne : ∀ rule ∈ rules, rule.split.2 ≠ []
    · exact sameVerdicts_of_forall hdoc hne (h hne)
    · push Not at hne
      obtain ⟨rule, hmem, hnil⟩ := hne
      exact sameVerdicts_of_empty hmem hnil

/-- A size that is well within the limit of the library. -/
def Short (bytes : List UInt8) : Prop := bytes.length ≤ 1000

instance : DecidablePred Short := fun bytes => inferInstanceAs (Decidable (bytes.length ≤ 1000))

open Classical in
/-- A library as it is documented: it compiles what the described syntax reads and is short, and
nothing else. -/
noncomputable def Pcre2.reference : Pcre2 where
  Regex := Regex.Pattern
  compile bytes := if Short bytes then
    (fromUtf8 bytes).bind fun text => (Regex.parse text.toList).toOption else none
  isMatch r bytes := decide (∃ subject, bytes = encodeChars subject ∧ subject ∈ r.language)

lemma fromUtf8_encodeChars (cs : List Char) :
    fromUtf8 (encodeChars cs) = some (String.ofList cs) := by
  rw [fromUtf8_eq_some_iff, utf8_eq_encodeChars, String.toList_ofList]

lemma encodeChars_injective {cs ds : List Char} (h : encodeChars cs = encodeChars ds) : cs = ds := by
  have heq := fromUtf8_encodeChars cs
  rw [h, fromUtf8_encodeChars, Option.some.injEq] at heq
  exact (String.ofList_injective heq).symm

lemma Pcre2.documented_reference : Pcre2.reference.Documented Short where
  accepts text r h hshort := by
    refine ⟨r, ?_, fun subject => ?_⟩
    · refine (if_pos hshort).trans ?_
      rw [fromUtf8_encodeChars, Option.bind_some, String.toList_ofList, h]
      rfl
    · refine Iff.trans (@decide_eq_true_iff _ (Classical.propDecidable _)) ?_
      constructor
      · rintro ⟨s, hs, hmem⟩
        rwa [encodeChars_injective hs]
      · exact fun hmem => ⟨subject, rfl, hmem⟩
  refuses text h := by
    change (if Short _ then (fromUtf8 (encodeChars text)).bind _ else none) = none
    rw [fromUtf8_encodeChars, Option.bind_some, String.toList_ofList, h]
    exact ite_self none
  tooLarge bytes h := if_neg h

lemma regular_letter : Regular Short ['a'] := by
  have hpieces : pieces ['a'] = [⟨.literal 'a', literalText 'a'⟩] := by simp [pieces]
  refine ⟨?_, ?_⟩
  · rintro ⟨piece, hmem, hbad⟩
    rw [hpieces, List.mem_singleton] at hmem
    rw [hmem] at hbad
    exact hbad
  · rw [toRegex_encodeChars, regexText, hpieces]
    decide

theorem filters_agree_letter :
    Pcre2.reference.Documented Short ∧ SameLanguage Pcre2.reference ['a'] :=
  ⟨Pcre2.documented_reference, ((filters_agree_iff Pcre2.documented_reference).1 ['a']
    (by simp)).mpr regular_letter⟩

lemma pieces_posix : pieces ['[', ':', 'a', ':', ']']
    = [classPiece false false [':', 'a', ':']] := by
  have hread : readPiece [':', 'a', ':', ']']
      = some (classPiece false false [':', 'a', ':'], []) := rfl
  rw [pieces]
  split
  · next heq =>
    rw [hread, Option.some.injEq, Prod.mk.injEq] at heq
    rw [← heq.1, ← heq.2, pieces]
  · next heq =>
    rw [hread] at heq
    exact absurd heq (by simp)

lemma hasPosixClass_posix : HasPosixClass ['[', ':', 'a', ':', ']'] := by
  refine ⟨_, by rw [pieces_posix]; exact List.mem_singleton_self _, ?_⟩
  exact posixLike_cons.mpr ⟨by decide, by decide⟩

/-- The pattern `[:a:]` and the rule to include it: one program has no filter for it. -/
theorem filters_differ : Pcre2.reference.Documented Short ∧
    ¬SameLanguage Pcre2.reference ['[', ':', 'a', ':', ']'] ∧
    ¬SameVerdicts Pcre2.reference [⟨.include_, "[:a:]"⟩] := by
  have hdoc := Pcre2.documented_reference
  have hsplit : (⟨.include_, "[:a:]"⟩ : PathFilter.Rule).split.2 = ['[', ':', 'a', ':', ']'] := by
    decide
  have hrefused : ¬Regular Short ['[', ':', 'a', ':', ']'] := fun h => h.1 hasPosixClass_posix
  refine ⟨hdoc, not_sameLanguage_of_refused hdoc hrefused, ?_⟩
  refine not_sameVerdicts_of_refused hdoc ?_ (List.mem_singleton_self _) (hsplit ▸ hrefused)
  intro rule hrule
  rw [List.mem_singleton.mp hrule, hsplit]
  simp

end Zig

end Difz
