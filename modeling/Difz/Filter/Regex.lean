import Difz.Filter.Language
import Difz.Wire.Reader

/-!
# Regular expressions

A part of the pattern syntax that the documentation of PCRE2 describes, and what patterns of that
part match: characters, classes of single characters, the dot, groups and the quantifiers `*` and
`?`, between `\A` and `\z`. A text outside that part is not described here, which says nothing
about it. One kind of text is described as refused: at the top level a class that is spelled like
a POSIX class, collating element or equivalence class.
-/

namespace Regex

open Wire

/-! ### Meaning -/

inductive Pattern
  | empty
  | letter (negated : Bool) (members : List Char)
  | dot
  | star (r : Pattern)
  | optional (r : Pattern)
  | seq (r s : Pattern)
  deriving DecidableEq, Repr

/-- The dot leaves out the newline, a negated class does not. -/
def Pattern.language : Pattern → Language Char
  | empty => 1
  | letter negated members => Words.letter fun c => members.contains c ≠ negated
  | dot => Words.letter (· ≠ '\n')
  | star r => KStar.kstar r.language
  | optional r => 1 + r.language
  | seq r s => r.language * s.language

/-! ### Syntax -/

/-- Why a text is not read: the library refuses it, or it is not described here. -/
inductive Stop
  | refused
  | undescribed
  deriving DecidableEq, Repr

/-- Whether the text behind `[` and a terminator comes to the terminator and `]` before the class
would end. -/
def posixEnds (terminator : Char) : List Char → Bool
  | a :: b :: rest =>
    if a = '\\' ∧ (b = ']' ∨ b = '\\') then posixEnds terminator rest
    else if a = '[' ∧ b = terminator ∨ a = ']' then false
    else if a = terminator ∧ b = ']' then true
    else posixEnds terminator (b :: rest)
  | _ => false

/-- Whether the text behind `[` is spelled like a POSIX class. -/
def startsPosix : List Char → Bool
  | [] => false
  | c :: rest => (c == ':' || c == '.' || c == '=') && posixEnds c rest

/-- A backslash takes the special meaning from any character but letters and digits. -/
def isEscapable (c : Char) : Bool := c.val < 128 && !c.isAlphanum

/-- The characters that need a backslash outside classes. -/
def isMeta (c : Char) : Bool := ['\\', '^', '$', '.', '[', '|', '(', ')', '*', '+', '?', '{'].contains c

/-- The members of a class up to its closing bracket, and what follows the bracket. -/
def classItems : List Char → Except Stop (List Char × List Char)
  | [] => .error .refused
  | ']' :: rest => .ok ([], rest)
  | '\\' :: c :: rest =>
    if isEscapable c then classItems rest >>= fun p => .ok (c :: p.1, p.2)
    else .error .undescribed
  | c :: rest =>
    if c = '-' ∨ c = '[' ∨ c = '\\' then .error .undescribed
    else classItems rest >>= fun p => .ok (c :: p.1, p.2)

/-- A class behind its opening bracket. A closing bracket in first place is a member. -/
def parseClass (chars : List Char) : Except Stop (Pattern × List Char) :=
  if startsPosix chars then .error .refused
  else
    let negated := chars.head? == some '^'
    let chars := if negated then chars.tail else chars
    let leading := chars.head? == some ']'
    let chars := if leading then chars.tail else chars
    classItems chars >>= fun p =>
      .ok (.letter negated (if leading then ']' :: p.1 else p.1), p.2)

/-- One character, class or dot. -/
def parseAtom : List Char → Except Stop (Pattern × List Char)
  | [] => .error .undescribed
  | '.' :: rest => .ok (.dot, rest)
  | '[' :: rest => parseClass rest
  | '\\' :: c :: rest =>
    if isEscapable c then .ok (.letter false [c], rest) else .error .undescribed
  | c :: rest => if isMeta c then .error .undescribed else .ok (.letter false [c], rest)

/-- Characters that may belong to a quantifier. -/
def isQuantifier (c : Char) : Bool := ['*', '+', '?', '{'].contains c

/-- The quantifier behind an item, if there is one. Lazy and possessive ones are not described. -/
def quantify (r : Pattern) : List Char → Except Stop (Pattern × List Char)
  | '*' :: rest => if rest.head?.any isQuantifier then .error .undescribed else .ok (.star r, rest)
  | '?' :: rest =>
    if rest.head?.any isQuantifier then .error .undescribed else .ok (.optional r, rest)
  | rest => if rest.head?.any isQuantifier then .error .undescribed else .ok (r, rest)

/-- Items up to the end of the group or of the text. -/
def parseFrom : Nat → List Char → Except Stop (Pattern × List Char)
  | 0, _ => .error .undescribed
  | fuel + 1, chars =>
    match chars with
    | [] => .ok (.empty, [])
    | ')' :: rest => .ok (.empty, ')' :: rest)
    | ['\\', 'z'] => .ok (.empty, ['\\', 'z'])
    | '(' :: rest =>
      if rest.head? == some '?' || rest.head? == some '*' then .error .undescribed
      else do
        let inner ← parseFrom fuel rest
        match inner.2 with
        | ')' :: rest =>
          let item ← quantify inner.1 rest
          let items ← parseFrom fuel item.2
          .ok (.seq item.1 items.1, items.2)
        | _ => .error .undescribed
    | chars => do
      let atom ← parseAtom chars
      let item ← quantify atom.1 atom.2
      let items ← parseFrom fuel item.2
      .ok (.seq item.1 items.1, items.2)

/-- A whole text. -/
def parse : List Char → Except Stop Pattern
  | '\\' :: 'A' :: rest => do
    let items ← parseFrom (rest.length + 1) rest
    match items.2 with
    | ['\\', 'z'] => .ok items.1
    | _ => .error .undescribed
  | _ => .error .undescribed

/-! ### How items are read -/

variable {r : Pattern} {chars rest : List Char} {fuel : Nat}

/-- A text that goes on with an item of its own. -/
def Fresh (rest : List Char) : Prop := rest.head?.any isQuantifier = false

lemma quantify_plain (h : Fresh rest) : quantify r rest = .ok (r, rest) := by
  have hnot : ¬rest.head?.any isQuantifier = true := Bool.eq_false_iff.mp h
  unfold quantify
  split
  · exact absurd rfl hnot
  · exact absurd rfl hnot
  · exact if_neg hnot

lemma quantify_star (h : Fresh rest) : quantify r ('*' :: rest) = .ok (.star r, rest) :=
  if_neg (Bool.eq_false_iff.mp h)

lemma quantify_optional (h : Fresh rest) : quantify r ('?' :: rest) = .ok (.optional r, rest) :=
  if_neg (Bool.eq_false_iff.mp h)

/-- Parentheses and the end are no atoms, so a text that begins with an atom is read as one. -/
lemma parseFrom_of_atom (h : parseAtom chars ≠ .error .undescribed) :
    parseFrom (fuel + 1) chars = (do
      let atom ← parseAtom chars
      let item ← quantify atom.1 atom.2
      let items ← parseFrom fuel item.2
      .ok (.seq item.1 items.1, items.2)) := by
  rw [parseFrom]
  · rintro rfl
    exact h rfl
  · rintro rest rfl
    exact h rfl
  · rintro rfl
    exact h rfl
  · rintro rest rfl
    exact h rfl

lemma parseFrom_group {inner : Pattern} (hhead : rest.head? ≠ some '?' ∧ rest.head? ≠ some '*')
    {rest' : List Char} (h : parseFrom fuel rest = .ok (inner, ')' :: rest')) :
    parseFrom (fuel + 1) ('(' :: rest) = (do
      let item ← quantify inner rest'
      let items ← parseFrom fuel item.2
      .ok (.seq item.1 items.1, items.2)) := by
  have hcond : ¬(rest.head? == some '?' || rest.head? == some '*') = true := by
    simpa using hhead
  rw [parseFrom, if_neg hcond, h, ok_bind]
  rfl

/-! ### Languages -/

lemma kstar_letter {α : Type} (p : α → Prop) : KStar.kstar (Words.letter p) = Words.run p := by
  ext w
  rw [Language.mem_kstar]
  constructor
  · intro h
    obtain ⟨words, rfl, hwords⟩ := h
    intro a ha
    obtain ⟨word, hword, ha⟩ := List.mem_flatten.mp ha
    obtain ⟨b, hb, rfl⟩ := hwords word hword
    obtain rfl := List.mem_singleton.mp ha
    exact hb
  · intro h
    refine ⟨w.map fun a => [a], ?_, fun word hword => ?_⟩
    · exact (List.flatMap_def.symm.trans (List.flatMap_singleton' w)).symm
    · obtain ⟨a, ha, rfl⟩ := List.mem_map.mp hword
      exact ⟨a, h a ha, rfl⟩

lemma one_add_run_letter {α : Type} (p : α → Prop) (last : α) :
    1 + Words.run p * Words.letter (· = last) = Words.lead p last := by
  ext w
  rw [Language.mem_add, Language.mem_one, Language.mem_mul]
  constructor
  · intro h
    rcases h with rfl | h
    · exact Or.inl rfl
    · obtain ⟨v, hv, _, ⟨a, rfl, rfl⟩, rfl⟩ := h
      exact Or.inr ⟨v, hv, rfl⟩
  · intro h
    rcases h with rfl | h
    · exact Or.inl rfl
    · obtain ⟨v, hv, rfl⟩ := h
      exact Or.inr ⟨v, hv, [last], ⟨last, rfl, rfl⟩, rfl⟩

end Regex
