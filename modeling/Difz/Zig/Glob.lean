import Difz.Filter
import Difz.Wire.Simulation
import Difz.Wire.Text
import Difz.Zig.Error

/-!
# Path filters of the native program

The translation of glob patterns to regular expressions (`src/glob.zig`) and the filters made of
them (`src/path_filter.zig`). The translation works on bytes and looks for a closing bracket at
every opening one. The regular expression library stands behind `Pcre2`.
-/

namespace Difz

open Wire

namespace Zig

open PathFilter (Action)

/-! ### Translation of one pattern -/

/-- The bytes that get a backslash outside classes: `.+^$(){}|\*?[]`. -/
def isMeta (byte : UInt8) : Bool := (utf8 ".+^$()\x7b\x7d|\\*?[]").contains byte

def appendLiteral (byte : UInt8) : List UInt8 :=
  if isMeta byte then [0x5c, byte] else [byte]

/-- The bytes that get a backslash inside a class. -/
def isClassMeta (byte : UInt8) : Bool := (utf8 "\\-[]^").contains byte

def appendClassLiteral (byte : UInt8) : List UInt8 :=
  if isClassMeta byte then [0x5c, byte] else [byte]

/-- The text of a class up to its closing bracket, and what follows the bracket. -/
def classText : List UInt8 → Option (List UInt8 × List UInt8)
  | [] => none
  | 0x5d :: rest => some ([], rest)
  | 0x5c :: byte :: rest =>
    (classText rest).map fun (text, rest) => (appendClassLiteral byte ++ text, rest)
  | byte :: rest =>
    (classText rest).map fun (text, rest) => (appendClassLiteral byte ++ text, rest)

lemma length_classText {bytes text rest : List UInt8}
    (h : classText bytes = some (text, rest)) : rest.length < bytes.length := by
  fun_induction classText bytes generalizing text with
  | case1 => simp at h
  | case2 rest' =>
    obtain ⟨-, rfl⟩ := Prod.mk.inj (Option.some.inj h)
    simp
  | case3 byte rest' ih =>
    obtain ⟨⟨m, r⟩, hm, hr⟩ := Option.map_eq_some_iff.mp h
    obtain ⟨-, rfl⟩ := Prod.mk.inj hr
    have := ih hm
    simp only [List.length_cons]
    omega
  | case4 byte rest' _ _ ih =>
    obtain ⟨⟨m, r⟩, hm, hr⟩ := Option.map_eq_some_iff.mp h
    obtain ⟨-, rfl⟩ := Prod.mk.inj hr
    have := ih hm
    simp only [List.length_cons]
    omega

/-- The class behind an opening bracket. -/
def readClass (bytes : List UInt8) : Option (List UInt8 × List UInt8) :=
  let negated := bytes.head? == some 0x21 || bytes.head? == some 0x5e
  let bytes := if negated then bytes.tail else bytes
  let leading := bytes.head? == some 0x5d
  let bytes := if leading then bytes.tail else bytes
  (classText bytes).map fun (text, rest) =>
    (0x5b :: ((if negated then [0x5e] else []) ++ ((if leading then [0x5d] else [])
      ++ (text ++ [0x5d]))), rest)

lemma length_readClass {bytes text rest : List UInt8}
    (h : readClass bytes = some (text, rest)) : rest.length < bytes.length := by
  have htail : ∀ (b : Bool) (cs : List UInt8), (if b then cs.tail else cs).length ≤ cs.length := by
    intro b cs
    cases b <;> simp
  obtain ⟨⟨members, r⟩, hm, hr⟩ := Option.map_eq_some_iff.mp h
  obtain ⟨-, rfl⟩ := Prod.mk.inj hr
  exact (length_classText hm).trans_le ((htail _ _).trans (htail _ _))

/-- The loop over the pattern. -/
def toRegexFrom : List UInt8 → List UInt8
  | [] => []
  | [0x5c] => appendLiteral 0x5c
  | 0x5c :: byte :: rest => appendLiteral byte ++ toRegexFrom rest
  | 0x2a :: 0x2a :: 0x2f :: rest => utf8 "(.*/)?" ++ toRegexFrom rest
  | 0x2a :: 0x2a :: rest => utf8 ".*" ++ toRegexFrom rest
  | 0x2a :: rest => utf8 "[^/]*" ++ toRegexFrom rest
  | 0x3f :: rest => utf8 "[^/]" ++ toRegexFrom rest
  | 0x5b :: rest =>
    match _h : readClass rest with
    | some (text, rest') => text ++ toRegexFrom rest'
    | none => utf8 "\\[" ++ toRegexFrom rest
  | byte :: rest => appendLiteral byte ++ toRegexFrom rest
  termination_by bytes => bytes.length
  decreasing_by
    all_goals simp only [List.length_cons]
    all_goals first
      | omega
      | have hlen := length_readClass (by assumption)
        omega

def toRegex (glob : List UInt8) : List UInt8 :=
  utf8 "\\A" ++ (toRegexFrom glob ++ utf8 "\\z")

/-! ### Filters -/

/-- The regular expression library: what a pattern compiles to, if it does, and whether the whole
of a subject matches. -/
structure Pcre2 where
  Regex : Type
  compile : List UInt8 → Option Regex
  isMatch : Regex → List UInt8 → Bool

structure Rule where
  action : Action
  pattern : List UInt8
  deriving DecidableEq, Repr

/-- The action and the pattern of a rule after its leading exclamation mark is taken off. -/
def Rule.split (rule : Rule) : Action × List UInt8 :=
  match rule.pattern with
  | 0x21 :: rest => (rule.action.opposite, rest)
  | pattern => (rule.action, pattern)

variable (pcre2 : Pcre2)

structure CompiledRule where
  action : Action
  regex : pcre2.Regex

structure Filter where
  rules : List (CompiledRule pcre2)
  defaultIncluded : Bool

def Rule.compile (rule : Rule) : Except Error (CompiledRule pcre2) :=
  let (action, pattern) := rule.split
  if pattern.length = 0 then .error .emptyPattern
  else if !isUtf8 pattern then .error .invalidUtf8
  else
    match pcre2.compile (toRegex pattern) with
    | some regex => .ok ⟨action, regex⟩
    | none => .error .compileFailed

def Filter.compile (rules : List Rule) : Except Error (Filter pcre2) := do
  let compiled ← rules.mapM (Rule.compile pcre2)
  .ok ⟨compiled, rules.all (·.action != .include_)⟩

variable {pcre2}

def Filter.includes (filter : Filter pcre2) (path : List UInt8) : Except Error Bool := do
  (Directory.validatePath path).mapError Directory.Error.name
  .ok (filter.rules.foldl (fun included rule =>
    if pcre2.isMatch rule.regex path then rule.action == .include_ else included)
    filter.defaultIncluded)

/-! ### Compilation in both programs -/

/-- The rule with its pattern as bytes. -/
def Rule.of (rule : PathFilter.Rule) : Rule := ⟨rule.action, utf8 rule.pattern⟩

/-- An exclamation mark is one byte, and no other character begins with it. -/
lemma Rule.split_of (rule : PathFilter.Rule) :
    (Rule.of rule).split = (rule.split.1, encodeChars rule.split.2) := by
  obtain ⟨action, pattern⟩ := rule
  simp only [Rule.of, Rule.split, PathFilter.Rule.split, utf8_eq_encodeChars]
  cases hp : pattern.toList with
  | nil => rfl
  | cons c cs =>
    by_cases hc : c = '!'
    · subst hc
      rfl
    · have hhead : ∀ rest, encodeChars (c :: cs) ≠ 0x21 :: rest := by
        intro rest heq
        by_cases hascii : IsAscii c
        · rw [encodeChars_cons, utf8EncodeChar_ascii hascii, List.singleton_append] at heq
          have hval : c.val.toNat % 256 = 0x21 := by
            simpa using congrArg UInt8.toNat (List.cons.inj heq).1
          have hlt : c.val.toNat < 128 := hascii
          have hval' : c.val.toNat = '!'.val.toNat := by
            rw [← Nat.mod_eq_of_lt (show c.val.toNat < 256 by omega), hval]
            rfl
          exact hc (Char.ext (UInt32.toNat_inj.mp hval'))
        · have hne := String.utf8EncodeChar_ne_nil (c := c)
          obtain ⟨b, bs, hb⟩ := List.exists_cons_of_ne_nil hne
          rw [encodeChars_cons, hb] at heq
          have hwide := utf8EncodeChar_wide hascii b (by simp [hb])
          rw [(List.cons.inj heq).1] at hwide
          exact absurd hwide (by decide)
      split
      · next rest heq => exact absurd heq (hhead rest)
      · split
        · next rest heq => exact absurd (List.cons.inj heq).1 hc
        · rfl

lemma Rule.compile_agree {rule : PathFilter.Rule}
    (hne : (Rule.of rule).compile pcre2 ≠ .error .compileFailed) :
    Agree PathFilter.Error.name (fun _ _ => True) rule.compile ((Rule.of rule).compile pcre2) := by
  rw [Rule.compile, Rule.split_of] at hne ⊢
  rw [PathFilter.Rule.compile]
  dsimp only at hne ⊢
  by_cases hempty : rule.split.2 = []
  · rw [if_pos (by simp [hempty]), if_pos (by simp [hempty])]
    rfl
  · have hutf8 : isUtf8 (encodeChars rule.split.2) = true :=
      isUtf8_iff.mpr ⟨String.ofList rule.split.2, by simp [utf8_eq_encodeChars]⟩
    have hbytes : encodeChars rule.split.2 ≠ [] := mt encodeChars_eq_nil_iff.mp hempty
    rw [if_neg (by simpa using hbytes), if_neg (by simp [hutf8])] at hne
    rw [if_neg (by simpa using hempty), if_neg (by simpa using hbytes), if_neg (by simp [hutf8])]
    cases hregex : pcre2.compile (toRegex (encodeChars rule.split.2)) with
    | none => simp [hregex] at hne
    | some regex => trivial

/-- Unless the library refuses a translated pattern, both programs refuse the same rule lists, for
the same reason. -/
lemma Filter.compile_agree {rules : List PathFilter.Rule}
    (hne : Filter.compile pcre2 (rules.map Rule.of) ≠ .error .compileFailed) :
    Agree PathFilter.Error.name (fun _ _ => True) (PathFilter.Filter.compile rules)
      (Filter.compile pcre2 (rules.map Rule.of)) := by
  have hmap : (rules.map Rule.of).mapM (Rule.compile pcre2) ≠ .error .compileFailed := by
    intro heq
    exact hne (bind_eq_error.mpr (.inl heq))
  have hagree : Agree PathFilter.Error.name (fun _ _ => True)
      (rules.mapM PathFilter.Rule.compile) ((rules.map Rule.of).mapM (Rule.compile pcre2)) := by
    clear hne
    induction rules with
    | nil => exact Agree.ok trivial
    | cons rule rules ih =>
      rw [List.map_cons, List.mapM_cons] at hmap ⊢
      rw [List.mapM_cons]
      have hhead : (Rule.of rule).compile pcre2 ≠ .error .compileFailed := by
        intro heq
        exact hmap (bind_eq_error.mpr (.inl heq))
      refine (Rule.compile_agree hhead).bind_of_eq fun _ compiled _ hcompiled _ => ?_
      refine (ih ?_).bind fun _ _ _ => Agree.ok trivial
      intro heq
      exact hmap (bind_eq_error.mpr (.inr ⟨compiled, hcompiled, bind_eq_error.mpr (.inl heq)⟩))
  exact hagree.bind fun _ _ _ => Agree.ok trivial

/-- What the library is taken to do: it compiles the translated patterns of the rules. -/
def Compiles (pcre2 : Pcre2) (rules : List PathFilter.Rule) : Prop :=
  ∀ rule ∈ rules, (pcre2.compile (toRegex (encodeChars rule.split.2))).isSome = true

lemma Compiles.ne_compileFailed {rules : List PathFilter.Rule} (h : Compiles pcre2 rules) :
    Filter.compile pcre2 (rules.map Rule.of) ≠ .error .compileFailed := by
  have hrule : ∀ rule ∈ rules, (Rule.of rule).compile pcre2 ≠ .error .compileFailed := by
    intro rule hmem
    obtain ⟨regex, hregex⟩ := Option.isSome_iff_exists.mp (h rule hmem)
    rw [Rule.compile, Rule.split_of]
    dsimp only
    rw [hregex]
    split_ifs <;> simp
  have hmap : (rules.map Rule.of).mapM (Rule.compile pcre2) ≠ .error .compileFailed := by
    clear h
    induction rules with
    | nil => simp [pure, Except.pure]
    | cons rule rules ih =>
      rw [List.map_cons, List.mapM_cons]
      intro heq
      rcases bind_eq_error.mp heq with hhead | ⟨_, -, hrest⟩
      · exact hrule rule (by simp) hhead
      · rcases bind_eq_error.mp hrest with htail | ⟨_, -, hpure⟩
        · exact ih (fun r hr => hrule r (by simp [hr])) htail
        · exact absurd hpure (by simp [pure, Except.pure])
  intro heq
  rcases bind_eq_error.mp heq with hrules | ⟨_, -, hok⟩
  · exact hmap hrules
  · exact absurd hok (by simp)

end Zig

end Difz
