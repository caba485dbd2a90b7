import Difz.Directory.Structure

/-!
# Path filters

Rules and the compilation of their glob patterns to tokens (`rust/src/path_filter.rs`). The index
loops of the source only ever move forward, so they are written on the characters still to be
read.
-/

namespace Difz

namespace PathFilter

inductive Action
  | include_ | exclude
  deriving DecidableEq, Repr

def Action.opposite : Action → Action
  | include_ => exclude
  | exclude => include_

structure Rule where
  action : Action
  pattern : String
  deriving DecidableEq, Repr

inductive Error
  | emptyPattern
  | outOfMemory
  | path (error : Directory.Error)
  deriving DecidableEq, Repr

inductive Token
  | literal (c : Char)
  | any
  | star (crossDirectories : Bool)
  | treePrefix
  | class_ (negated : Bool) (members : List Char)
  deriving DecidableEq, Repr

structure CompiledRule where
  action : Action
  tokens : List Token
  deriving DecidableEq, Repr

structure Filter where
  rules : List CompiledRule
  defaultIncluded : Bool
  deriving DecidableEq, Repr

/-! ### Compiling one pattern -/

/-- The members of a class up to its closing bracket, and what follows the bracket. -/
def classMembers : List Char → Option (List Char × List Char)
  | [] => none
  | ']' :: rest => some ([], rest)
  | '\\' :: c :: rest => (classMembers rest).map fun (members, rest) => (c :: members, rest)
  | c :: rest => (classMembers rest).map fun (members, rest) => (c :: members, rest)

lemma length_classMembers {chars members rest : List Char}
    (h : classMembers chars = some (members, rest)) : rest.length < chars.length := by
  fun_induction classMembers chars generalizing members with
  | case1 => simp at h
  | case2 rest' =>
    obtain ⟨-, rfl⟩ := Prod.mk.inj (Option.some.inj h)
    simp
  | case3 c rest' ih =>
    obtain ⟨⟨m, r⟩, hm, hr⟩ := Option.map_eq_some_iff.mp h
    obtain ⟨-, rfl⟩ := Prod.mk.inj hr
    have := ih hm
    simp only [List.length_cons]
    omega
  | case4 c rest' _ _ ih =>
    obtain ⟨⟨m, r⟩, hm, hr⟩ := Option.map_eq_some_iff.mp h
    obtain ⟨-, rfl⟩ := Prod.mk.inj hr
    have := ih hm
    simp only [List.length_cons]
    omega

/-- The class behind an opening bracket. A closing bracket in first place is a member. -/
def readClass (chars : List Char) : Option (Token × List Char) :=
  let negated := chars.head? == some '!' || chars.head? == some '^'
  let chars := if negated then chars.tail else chars
  let leading := chars.head? == some ']'
  let chars := if leading then chars.tail else chars
  (classMembers chars).map fun (members, rest) =>
    (.class_ negated (if leading then ']' :: members else members), rest)

lemma length_readClass {chars rest : List Char} {token : Token}
    (h : readClass chars = some (token, rest)) : rest.length < chars.length := by
  have htail : ∀ (b : Bool) (cs : List Char), (if b then cs.tail else cs).length ≤ cs.length := by
    intro b cs
    cases b <;> simp
  obtain ⟨⟨members, r⟩, hm, hr⟩ := Option.map_eq_some_iff.mp h
  obtain ⟨-, rfl⟩ := Prod.mk.inj hr
  exact (length_classMembers hm).trans_le ((htail _ _).trans (htail _ _))

/-- Once an opening bracket has no closing one, no later bracket opens a class either, and
`classesRemain` turns false. -/
def compileFrom (classesRemain : Bool) : List Char → List Token
  | [] => []
  | ['\\'] => [.literal '\\']
  | '\\' :: c :: rest => .literal c :: compileFrom classesRemain rest
  | '*' :: '*' :: '/' :: rest => .treePrefix :: compileFrom classesRemain rest
  | '*' :: '*' :: rest => .star true :: compileFrom classesRemain rest
  | '*' :: rest => .star false :: compileFrom classesRemain rest
  | '?' :: rest => .any :: compileFrom classesRemain rest
  | '[' :: rest =>
    if classesRemain then
      match _h : readClass rest with
      | some (token, rest') => token :: compileFrom true rest'
      | none => .literal '[' :: compileFrom false rest
    else .literal '[' :: compileFrom false rest
  | c :: rest => .literal c :: compileFrom classesRemain rest
  termination_by chars => chars.length
  decreasing_by
    all_goals simp only [List.length_cons]
    all_goals first
      | omega
      | have hlen := length_readClass (by assumption)
        omega

def compile (pattern : List Char) : List Token := compileFrom true pattern

/-! ### Compiling a rule list -/

/-- The action and the characters of a rule after its leading exclamation mark is taken off. -/
def Rule.split (rule : Rule) : Action × List Char :=
  match rule.pattern.toList with
  | '!' :: rest => (rule.action.opposite, rest)
  | chars => (rule.action, chars)

def Rule.compile (rule : Rule) : Except Error CompiledRule :=
  let (action, pattern) := rule.split
  if pattern.isEmpty then .error .emptyPattern else .ok ⟨action, PathFilter.compile pattern⟩

def Filter.compile (rules : List Rule) : Except Error Filter := do
  let compiled ← rules.mapM Rule.compile
  .ok ⟨compiled, rules.all (·.action != .include_)⟩

/-- Compilation refuses empty patterns and nothing else. -/
theorem Filter.exists_compile_iff (rules : List Rule) :
    (∃ filter, Filter.compile rules = .ok filter) ↔ ∀ rule ∈ rules, rule.split.2 ≠ [] := by
  have hrule : ∀ rule : Rule, (∃ r, rule.compile = .ok r) ↔ rule.split.2 ≠ [] := by
    intro rule
    simp [Rule.compile, Wire.ite_error_eq_ok]
  have hmap : (∃ rs, rules.mapM Rule.compile = .ok rs) ↔ ∀ rule ∈ rules, rule.split.2 ≠ [] := by
    induction rules with
    | nil => simp [pure, Except.pure]
    | cons rule rules ih =>
      rw [List.forall_mem_cons, ← hrule, ← ih]
      simp only [List.mapM_cons, Wire.bind_eq_ok, pure, Except.pure, Except.ok.injEq]
      constructor
      · intro h
        obtain ⟨_, r, hr, rs, hrs, -⟩ := h
        exact ⟨⟨r, hr⟩, rs, hrs⟩
      · intro h
        obtain ⟨⟨r, hr⟩, rs, hrs⟩ := h
        exact ⟨_, r, hr, rs, hrs, rfl⟩
  rw [← hmap]
  simp [Filter.compile, Wire.bind_eq_ok]

end PathFilter

end Difz
