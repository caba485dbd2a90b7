import Difz.Command.Library
import Difz.Tree.Omission

/-!
# Arguments of the command line

The loop of `main` in `src/difz.c` over its arguments. It accepts a list exactly when the list reads
as a series of options, each with its value, and of at most two paths, in any order, and what it
makes of them depends on each kind of option by itself: the last path for the output and the last
value of a limit count, rules are kept in order, and omission lists are joined.
-/

namespace Difz

open Wire

namespace Command

/-- An argument, without the zero byte at its end. -/
abbrev Arg := List UInt8

/-! ### Numbers -/

/-- `isspace` in the C locale. -/
def isSpace (b : UInt8) : Bool := b == 0x20 || (0x09 ≤ b && b ≤ 0x0d)

def isDigit (b : UInt8) : Bool := 0x30 ≤ b && b ≤ 0x39

def digitsValue (digits : List UInt8) : Nat :=
  digits.foldl (fun value b => 10 * value + (b.toNat - 0x30)) 0

/-- Whether a minus sign stands in front, and what is behind the sign. -/
def sign : Arg → Bool × Arg
  | 0x2d :: rest => (true, rest)
  | 0x2b :: rest => (false, rest)
  | s => (false, s)

/-- The value of digits, and whether it does not fit. -/
def numberOf (negative : Bool) (digits : List UInt8) : UInt64 × Bool :=
  if digitsValue digits ≥ 2 ^ 64 then (UInt64.ofNat (2 ^ 64 - 1), true)
  else if negative then (-UInt64.ofNat (digitsValue digits), false)
  else (UInt64.ofNat (digitsValue digits), false)

/-- What `strtoull` reads in base 10: the number, and the bytes behind it. Without a digit it stays
at the start. -/
def strtoull (s : Arg) : Option ((UInt64 × Bool) × Arg) :=
  let (negative, unsigned) := sign (s.dropWhile isSpace)
  let digits := unsigned.takeWhile isDigit
  if digits.isEmpty then none
  else some (numberOf negative digits, unsigned.dropWhile isDigit)

/-- `parse_positive_size` -/
def parsePositiveSize (s : Arg) : Option UInt64 :=
  match strtoull s with
  | none => none
  | some ((value, overflow), rest) =>
    if overflow ∨ rest ≠ [] ∨ value = 0 then none else some value

/-! ### Options -/

inductive Limit
  | outputBytes | outputRatio | rssBytes | wallMs
  deriving DecidableEq, Repr

/-- What an argument that is no path stands for. `quiet` are the options for the display. -/
inductive Flag
  | help | about | lang | patch | inspect | output | omitMetadata | allow | deny | quiet
  | limit (kind : Limit)
  deriving DecidableEq, Repr

def Flag.all : List Flag :=
  [.help, .about, .lang, .patch, .inspect, .output, .omitMetadata, .allow, .deny, .quiet,
    .limit .outputBytes, .limit .outputRatio, .limit .rssBytes, .limit .wallMs]

def Flag.names : Flag → List Arg
  | .help => [utf8 "-h", utf8 "--help", utf8 "--hilfe"]
  | .about => [utf8 "--about"]
  | .lang => [utf8 "--lang"]
  | .patch => [utf8 "--patch"]
  | .inspect => [utf8 "--inspect"]
  | .output => [utf8 "-o"]
  | .omitMetadata => [utf8 "--omit-metadata"]
  | .allow => [utf8 "--allow"]
  | .deny => [utf8 "--deny"]
  | .quiet => [utf8 "--no-progress", utf8 "--no-ansi", utf8 "--no-color", utf8 "--simple"]
  | .limit .outputBytes => [utf8 "--max-output-bytes"]
  | .limit .outputRatio => [utf8 "--max-output-ratio"]
  | .limit .rssBytes => [utf8 "--max-rss-bytes"]
  | .limit .wallMs => [utf8 "--max-wall-ms"]

/-- The chain of `strcmp`. -/
def flagOf (arg : Arg) : Option Flag := Flag.all.find? fun flag => flag.names.contains arg

/-- A hyphen with something behind it. -/
def isOption : Arg → Bool
  | 0x2d :: _ :: _ => true
  | _ => false

/-- `difz_path_rule` -/
structure PathRule where
  action : UInt8
  pattern : Arg
  deriving DecidableEq, Repr

structure Options where
  patchMode : Bool
  inspectMode : Bool
  outputPath : Option Arg
  maxOutputBytes : UInt64
  maxOutputRatio : UInt64
  maxRssBytes : UInt64
  maxWallMs : UInt64
  rules : List PathRule
  omitMetadata : UInt32
  omitSeen : Bool
  positional : List Arg
  deriving DecidableEq, Repr

def Options.initial : Options := ⟨false, false, none, 0, 0, 0, 0, [], 0, false, []⟩

def Options.set (o : Options) (value : UInt64) : Limit → Options
  | .outputBytes => { o with maxOutputBytes := value }
  | .outputRatio => { o with maxOutputRatio := value }
  | .rssBytes => { o with maxRssBytes := value }
  | .wallMs => { o with maxWallMs := value }

/-- Why the program ends before it does anything. -/
inductive Stop
  | usage
  | about
  | failure (text : List UInt8)
  deriving DecidableEq, Repr

def complain (text : String) : Stop := .failure (utf8 text)

def Limit.complaint : Limit → Stop
  | .outputBytes => complain "difz: --max-output-bytes requires a positive integer\n"
  | .outputRatio => complain "difz: --max-output-ratio requires an integer 1-100\n"
  | .rssBytes => complain "difz: --max-rss-bytes requires a positive integer\n"
  | .wallMs => complain "difz: --max-wall-ms requires a positive integer\n"

def maxRules : Nat := 4096

def addRule (o : Options) (rule : PathRule) : Except Stop (Options × Bool) :=
  if o.rules.length = maxRules then
    .error (complain "difz: too many path rules (maximum 4096)\n")
  else .ok ({ o with rules := o.rules ++ [rule] }, true)

/-- The branch of an option: the options after it, and whether the next argument is its value. -/
def Flag.turn (o : Options) (arg : Arg) (next : Option Arg) :
    Flag → Except Stop (Options × Bool)
  | .help => .error .usage
  | .about => .error .about
  | .lang =>
    match next with
    | none => .error (complain "difz: --lang requires a locale code argument\n")
    | some _ => .ok (o, true)
  | .patch => .ok ({ o with patchMode := true }, false)
  | .inspect => .ok ({ o with inspectMode := true }, false)
  | .output =>
    match next with
    | none => .error (complain "difz: -o requires an argument\n")
    | some name => .ok ({ o with outputPath := some name }, true)
  | .omitMetadata =>
    let text := next.getD []
    let (code, parsed) := Zig.difzParseMetadataOmit text 0
    if text = [] then
      .error (complain "difz: --omit-metadata requires a nonempty comma-separated list\n")
    else if code ≠ 0 ∨ parsed = 0 ∨ parsed &&& o.omitMetadata ≠ 0 then
      .error (complain "difz: --omit-metadata contains an unknown, empty, or duplicate family\n")
    else .ok ({ o with omitMetadata := o.omitMetadata ||| parsed, omitSeen := true }, true)
  | .allow =>
    match next with
    | none => .error (.failure (utf8 "difz: " ++ arg ++ utf8 " requires a glob argument\n"))
    | some pattern => addRule o ⟨1, pattern⟩
  | .deny =>
    match next with
    | none => .error (.failure (utf8 "difz: " ++ arg ++ utf8 " requires a glob argument\n"))
    | some pattern => addRule o ⟨2, pattern⟩
  | .quiet => .ok (o, false)
  | .limit kind =>
    match next.bind parsePositiveSize with
    | none => .error kind.complaint
    | some value =>
      if kind = .outputRatio ∧ value > 100 then .error kind.complaint
      else .ok (o.set value kind, true)

/-- One turn of the loop. -/
def turn (o : Options) (arg : Arg) (next : Option Arg) : Except Stop (Options × Bool) :=
  match flagOf arg with
  | some flag => flag.turn o arg next
  | none =>
    if isOption arg then .error (.failure (utf8 "difz: unknown option '" ++ arg ++ utf8 "'\n"))
    else if o.positional.length < 2 then
      .ok ({ o with positional := o.positional ++ [arg] }, false)
    else .error (complain "difz: too many arguments\n")

/-- The loop over the arguments behind the name of the program. -/
def parse (o : Options) : List Arg → Except Stop Options
  | [] => .ok o
  | [arg] => (turn o arg none).map Prod.fst
  | arg :: next :: rest =>
    match turn o arg (some next) with
    | .error stop => .error stop
    | .ok (o, true) => parse o rest
    | .ok (o, false) => parse o (next :: rest)

/-! ### What arguments say -/

/-- An option with its value, or a path. -/
inductive Item
  | lang (code : Arg)
  | patch
  | inspect
  | output (name : Arg)
  | omitMetadata (text : Arg) (mask : UInt32)
  | rule (allow : Bool) (pattern : Arg)
  | quiet (name : Arg)
  | limit (kind : Limit) (text : Arg) (value : UInt64)
  | path (arg : Arg)
  deriving DecidableEq, Repr

def Limit.name (kind : Limit) : Arg := ((Flag.limit kind).names.head?).getD []

def Item.spell : Item → List Arg
  | .lang code => [utf8 "--lang", code]
  | .patch => [utf8 "--patch"]
  | .inspect => [utf8 "--inspect"]
  | .output name => [utf8 "-o", name]
  | .omitMetadata text _ => [utf8 "--omit-metadata", text]
  | .rule allow pattern => [if allow then utf8 "--allow" else utf8 "--deny", pattern]
  | .quiet name => [name]
  | .limit kind text _ => [kind.name, text]
  | .path arg => [arg]

/-- A number behind spaces and a sign. A minus sign stands for the negative modulo 2^64. -/
def Numeral (text : Arg) (value : UInt64) : Prop :=
  ∃ spaces sign digits : Arg, text = spaces ++ (sign ++ digits) ∧ (∀ b ∈ spaces, isSpace b) ∧
    (sign = [] ∨ sign = [0x2b] ∨ sign = [0x2d]) ∧ digits ≠ [] ∧ (∀ b ∈ digits, isDigit b) ∧
    digitsValue digits < 2 ^ 64 ∧ value ≠ 0 ∧
    value = if sign = [0x2d] then -UInt64.ofNat (digitsValue digits)
      else UInt64.ofNat (digitsValue digits)

def Item.Valid : Item → Prop
  | .omitMetadata text mask => text ≠ [] ∧ Zig.difzParseMetadataOmit text 0 = (0, mask) ∧ mask ≠ 0
  | .quiet name => name ∈ Flag.quiet.names
  | .limit kind text value => Numeral text value ∧ (kind = .outputRatio → value ≤ 100)
  | .path arg => isOption arg = false
  | .lang _ | .patch | .inspect | .output _ | .rule _ _ => True

def Item.outputPath? : Item → Option Arg
  | .output name => some name
  | _ => none

def Item.value? (kind : Limit) : Item → Option UInt64
  | .limit kind' _ value => if kind' = kind then some value else none
  | _ => none

def Item.rule? : Item → Option PathRule
  | .rule allow pattern => some ⟨if allow then 1 else 2, pattern⟩
  | _ => none

def Item.mask? : Item → Option UInt32
  | .omitMetadata _ mask => some mask
  | _ => none

def Item.path? : Item → Option Arg
  | .path arg => some arg
  | _ => none

/-- What counts of the values that were given to a limit. -/
def lastValue (items : List Item) (kind : Limit) : UInt64 :=
  ((items.filterMap (Item.value? kind)).getLast?).getD 0

/-- The options that a series of items sets. -/
def Options.of (items : List Item) : Options where
  patchMode := items.contains .patch
  inspectMode := items.contains .inspect
  outputPath := (items.filterMap Item.outputPath?).getLast?
  maxOutputBytes := lastValue items .outputBytes
  maxOutputRatio := lastValue items .outputRatio
  maxRssBytes := lastValue items .rssBytes
  maxWallMs := lastValue items .wallMs
  rules := items.filterMap Item.rule?
  omitMetadata := (items.filterMap Item.mask?).foldl (· ||| ·) 0
  omitSeen := !(items.filterMap Item.mask?).isEmpty
  positional := items.filterMap Item.path?

/-- The program takes so many rules and paths, and omits no family twice. -/
@[mk_iff]
structure Admissible (items : List Item) : Prop where
  valid : ∀ item ∈ items, item.Valid
  rules : (items.filterMap Item.rule?).length ≤ maxRules
  paths : (items.filterMap Item.path?).length ≤ 2
  disjoint : (items.filterMap Item.mask?).Pairwise fun a b => a &&& b = 0

/-! ### Numerals -/

lemma isSpace_of_isDigit {b : UInt8} (h : isDigit b) : isSpace b = false := by
  simp only [isDigit, isSpace, Bool.and_eq_true, decide_eq_true_eq, Bool.or_eq_false_iff,
    beq_eq_false_iff_ne, ne_eq, Bool.and_eq_false_imp, decide_eq_false_iff_not,
    UInt8.le_iff_toNat_le, ← UInt8.toNat_inj] at h ⊢
  simp at h ⊢
  omega

lemma sign_digits {s : Arg} (hne : s ≠ []) (hdigits : ∀ b ∈ s, isDigit b) :
    sign s = (false, s) := by
  obtain ⟨d, tail, rfl⟩ := List.exists_cons_of_ne_nil hne
  have hd := hdigits d List.mem_cons_self
  rw [sign]
  · rintro rest h
    rw [(List.cons.inj h).1] at hd
    exact absurd hd (by decide)
  · rintro rest h
    rw [(List.cons.inj h).1] at hd
    exact absurd hd (by decide)

lemma sign_cases (s : Arg) :
    s = 0x2d :: (sign s).2 ∧ (sign s).1 = true ∨
      (s = (sign s).2 ∨ s = 0x2b :: (sign s).2) ∧ (sign s).1 = false := by
  unfold sign
  split
  · exact .inl ⟨rfl, rfl⟩
  · exact .inr ⟨.inr rfl, rfl⟩
  · exact .inr ⟨.inl rfl, rfl⟩

lemma numberOf_eq_iff {negative : Bool} {digits : List UInt8} {value : UInt64} :
    numberOf negative digits = (value, false) ↔ digitsValue digits < 2 ^ 64 ∧
      value = if negative then -UInt64.ofNat (digitsValue digits)
        else UInt64.ofNat (digitsValue digits) := by
  rw [numberOf]
  by_cases hbound : digitsValue digits < 2 ^ 64
  · rw [if_neg (not_le.mpr hbound), and_iff_right hbound]
    cases negative <;> simp [eq_comm]
  · rw [if_pos (not_lt.mp hbound)]
    exact iff_of_false (by simp) fun h => hbound h.1

/-- Everything behind the sign is a digit, and something is. -/
lemma strtoull_eq_some {s : Arg} {result : UInt64 × Bool} :
    strtoull s = some (result, []) ↔ ∃ negative digits,
      sign (s.dropWhile isSpace) = (negative, digits) ∧ digits ≠ [] ∧ (∀ b ∈ digits, isDigit b) ∧
        result = numberOf negative digits := by
  rw [strtoull]
  generalize sign (s.dropWhile isSpace) = read
  obtain ⟨negative, digits⟩ := read
  constructor
  · intro h
    dsimp only at h
    split_ifs at h with hempty
    obtain ⟨hresult, hrest⟩ := Prod.mk.inj (Option.some.inj h)
    have hdigits : ∀ b ∈ digits, isDigit b := List.dropWhile_eq_nil_iff.mp hrest
    rw [List.takeWhile_eq_self_iff.mpr hdigits] at hempty hresult
    exact ⟨negative, digits, rfl, by simpa using hempty, hdigits, hresult.symm⟩
  · rintro ⟨_, _, heq, hne, hdigits, rfl⟩
    obtain ⟨rfl, rfl⟩ := Prod.mk.inj heq
    dsimp only
    rw [List.takeWhile_eq_self_iff.mpr hdigits, List.dropWhile_eq_nil_iff.mpr hdigits,
      if_neg (by simpa using hne)]

/-- `parse_positive_size` takes the numerals of positive sizes. -/
lemma parsePositiveSize_eq_some {text : Arg} {value : UInt64} :
    parsePositiveSize text = some value ↔ Numeral text value := by
  have hread : parsePositiveSize text = some value ↔
      strtoull text = some ((value, false), []) ∧ value ≠ 0 := by
    rw [parsePositiveSize]
    cases strtoull text with
    | none => simp
    | some read =>
      obtain ⟨⟨v, overflow⟩, rest⟩ := read
      dsimp only
      split_ifs with hrefuse
      · refine iff_of_false (by simp) ?_
        grind
      · grind
  rw [hread, strtoull_eq_some]
  constructor
  · rintro ⟨⟨negative, digits, hsign, hne, hdigits, hnumber⟩, hpositive⟩
    obtain ⟨hbound, hvalue⟩ := numberOf_eq_iff.mp hnumber.symm
    have hsplit : text.takeWhile isSpace ++ text.dropWhile isSpace = text :=
      List.takeWhile_append_dropWhile
    have hspaces : ∀ b ∈ text.takeWhile isSpace, isSpace b := fun b => List.mem_takeWhile_imp
    have hcases := sign_cases (text.dropWhile isSpace)
    rw [hsign] at hcases
    dsimp only at hcases
    obtain ⟨hmark, rfl⟩ | ⟨hmark | hmark, rfl⟩ := hcases
    · exact ⟨_, [0x2d], digits, by rw [List.singleton_append, ← hmark, hsplit], hspaces,
        by simp, hne, hdigits, hbound, hpositive, hvalue⟩
    · exact ⟨_, [], digits, by rw [List.nil_append, ← hmark, hsplit], hspaces,
        by simp, hne, hdigits, hbound, hpositive, hvalue⟩
    · exact ⟨_, [0x2b], digits, by rw [List.singleton_append, ← hmark, hsplit], hspaces,
        by simp, hne, hdigits, hbound, hpositive, hvalue⟩
  · rintro ⟨spaces, mark, digits, rfl, hspaces, hmark, hne, hdigits, hbound, hpositive, hvalue⟩
    refine ⟨⟨decide (mark = [0x2d]), digits, ?_, hne, hdigits,
      (numberOf_eq_iff.mpr ⟨hbound, by simpa using hvalue⟩).symm⟩, hpositive⟩
    rw [List.dropWhile_append_of_pos hspaces]
    obtain rfl | rfl | rfl := hmark
    · have hdrop : digits.dropWhile isSpace = digits := by
        rw [List.dropWhile_eq_self_iff]
        intro hlength
        rw [isSpace_of_isDigit (hdigits _ (List.getElem_mem _))]
        simp
      rw [List.nil_append, hdrop, sign_digits hne hdigits]
      rfl
    · rfl
    · rfl

/-! ### Single turns -/

/-- What an item changes. -/
def Item.apply (o : Options) : Item → Options
  | .lang _ | .quiet _ => o
  | .patch => { o with patchMode := true }
  | .inspect => { o with inspectMode := true }
  | .output name => { o with outputPath := some name }
  | .omitMetadata _ mask =>
    { o with omitMetadata := o.omitMetadata ||| mask, omitSeen := true }
  | .rule allow pattern => { o with rules := o.rules ++ [⟨if allow then 1 else 2, pattern⟩] }
  | .limit kind _ value => o.set value kind
  | .path arg => { o with positional := o.positional ++ [arg] }

/-- There is a place for another rule or path, and no family is omitted again. -/
def Item.Fits (o : Options) : Item → Prop
  | .omitMetadata _ mask => mask &&& o.omitMetadata = 0
  | .rule _ _ => o.rules.length ≠ maxRules
  | .path _ => o.positional.length < 2
  | .lang _ | .patch | .inspect | .output _ | .quiet _ | .limit _ _ _ => True

lemma flagOf_eq_some {arg : Arg} {flag : Flag} (h : flagOf arg = some flag) : arg ∈ flag.names := by
  simpa using List.find?_some h

lemma flagOf_names : ∀ flag ∈ Flag.all, ∀ arg ∈ flag.names, flagOf arg = some flag := by
  decide +kernel

lemma Flag.mem_all (flag : Flag) : flag ∈ Flag.all := by
  rcases flag with _ | _ | _ | _ | _ | _ | _ | _ | _ | _ | (_ | _ | _ | _) <;> decide

lemma flagOf_eq_none {arg : Arg} (h : isOption arg = false) : flagOf arg = none := by
  have hoptions : ∀ flag ∈ Flag.all, ∀ name ∈ flag.names, isOption name = true := by
    decide +kernel
  rw [flagOf, List.find?_eq_none]
  intro flag hflag hname
  have hname : arg ∈ flag.names := by simpa using hname
  exact absurd (hoptions flag hflag arg hname) (by rw [h]; decide)

lemma turn_flag {o : Options} {arg : Arg} (flag : Flag) (h : arg ∈ flag.names)
    (next : Option Arg) : turn o arg next = flag.turn o arg next := by
  rw [turn, flagOf_names flag flag.mem_all arg h]

lemma addRule_eq_ok {o o' : Options} {rule : PathRule} {used : Bool} :
    addRule o rule = .ok (o', used) ↔
      o.rules.length ≠ maxRules ∧ o' = { o with rules := o.rules ++ [rule] } ∧ used = true := by
  rw [addRule]
  split_ifs with hfull
  · simp [hfull]
  · simp [hfull, eq_comm]

/-- An item is read in one turn. -/
lemma turn_spell {o : Options} {item : Item} (hvalid : item.Valid) (hfits : item.Fits o) :
    (∃ arg, item.spell = [arg] ∧ ∀ next, turn o arg next = .ok (item.apply o, false)) ∨
      ∃ arg value, item.spell = [arg, value] ∧
        turn o arg (some value) = .ok (item.apply o, true) := by
  cases item with
  | lang code => exact .inr ⟨_, _, rfl, turn_flag .lang (by decide) _⟩
  | patch => exact .inl ⟨_, rfl, turn_flag .patch (by decide)⟩
  | inspect => exact .inl ⟨_, rfl, turn_flag .inspect (by decide)⟩
  | output name => exact .inr ⟨_, _, rfl, turn_flag .output (by decide) _⟩
  | omitMetadata text mask =>
    obtain ⟨hne, hparse, hmask⟩ := hvalid
    have hnew : mask &&& o.omitMetadata = 0 := hfits
    refine .inr ⟨_, _, rfl, ?_⟩
    rw [turn_flag .omitMetadata (by decide), Flag.turn, Option.getD_some, hparse]
    dsimp only
    rw [if_neg hne, if_neg (by simp [hmask, hnew])]
    rfl
  | rule allow pattern =>
    refine .inr ⟨_, _, rfl, ?_⟩
    have hadd : ∀ rule, addRule o rule = .ok ({ o with rules := o.rules ++ [rule] }, true) :=
      fun rule => addRule_eq_ok.mpr ⟨hfits, rfl, rfl⟩
    cases allow with
    | false => exact (turn_flag .deny (by decide) _).trans (hadd _)
    | true => exact (turn_flag .allow (by decide) _).trans (hadd _)
  | quiet name => exact .inl ⟨_, rfl, turn_flag .quiet hvalid⟩
  | limit kind text value =>
    obtain ⟨hnumeral, hratio⟩ := hvalid
    refine .inr ⟨_, _, rfl, ?_⟩
    rw [turn_flag (.limit kind) (by cases kind <;> decide), Flag.turn, Option.bind_some,
      parsePositiveSize_eq_some.mpr hnumeral]
    dsimp only
    rw [if_neg (by simpa using hratio)]
    rfl
  | path arg =>
    have hplace : o.positional.length < 2 := hfits
    refine .inl ⟨_, rfl, fun next => ?_⟩
    rw [turn, flagOf_eq_none hvalid]
    dsimp only
    rw [if_neg (by rw [hvalid]; decide), if_pos hplace]
    rfl

/-- A turn that goes on reads one item, which has its value when the next argument is taken. -/
lemma turn_eq_ok {o o' : Options} {arg : Arg} {next : Option Arg} {used : Bool}
    (h : turn o arg next = .ok (o', used)) :
    ∃ item : Item, item.Valid ∧ item.Fits o ∧ o' = item.apply o ∧
      (used = false ∧ item.spell = [arg] ∨
        ∃ value, next = some value ∧ used = true ∧ item.spell = [arg, value]) := by
  rw [turn] at h
  cases hflag : flagOf arg with
  | none =>
    rw [hflag] at h
    dsimp only at h
    split_ifs at h with hoption hplace
    obtain ⟨rfl, rfl⟩ := Prod.mk.inj (Except.ok.inj h)
    exact ⟨.path arg, Bool.eq_false_iff.mpr hoption, hplace, rfl, .inl ⟨rfl, rfl⟩⟩
  | some flag =>
    rw [hflag] at h
    have hname := flagOf_eq_some hflag
    cases flag with
    | help => cases h
    | about => cases h
    | lang =>
      cases next with
      | none => cases h
      | some code =>
        cases h
        exact ⟨.lang code, trivial, trivial, rfl,
          .inr ⟨code, rfl, rfl, by rw [List.mem_singleton.mp hname]; rfl⟩⟩
    | patch =>
      cases h
      exact ⟨.patch, trivial, trivial, rfl, .inl ⟨rfl, by rw [List.mem_singleton.mp hname]; rfl⟩⟩
    | inspect =>
      cases h
      exact ⟨.inspect, trivial, trivial, rfl, .inl ⟨rfl, by rw [List.mem_singleton.mp hname]; rfl⟩⟩
    | output =>
      cases next with
      | none => cases h
      | some name =>
        cases h
        exact ⟨.output name, trivial, trivial, rfl,
          .inr ⟨name, rfl, rfl, by rw [List.mem_singleton.mp hname]; rfl⟩⟩
    | omitMetadata =>
      dsimp only [Flag.turn] at h
      cases next with
      | none => cases h
      | some text =>
        cases hparse : Zig.difzParseMetadataOmit text 0 with
        | mk code mask =>
        rw [Option.getD_some, hparse] at h
        dsimp only at h
        split_ifs at h with hempty hrefuse
        cases h
        obtain ⟨rfl, hmask, hnew⟩ : code = 0 ∧ mask ≠ 0 ∧ mask &&& o.omitMetadata = 0 := by
          simpa [not_or] using hrefuse
        exact ⟨.omitMetadata text mask, ⟨hempty, hparse, hmask⟩, hnew, rfl,
          .inr ⟨text, rfl, rfl, by rw [List.mem_singleton.mp hname]; rfl⟩⟩
    | allow =>
      cases next with
      | none => cases h
      | some pattern =>
        obtain ⟨hplace, rfl, rfl⟩ := addRule_eq_ok.mp h
        exact ⟨.rule true pattern, trivial, hplace, rfl,
          .inr ⟨pattern, rfl, rfl, by rw [List.mem_singleton.mp hname]; rfl⟩⟩
    | deny =>
      cases next with
      | none => cases h
      | some pattern =>
        obtain ⟨hplace, rfl, rfl⟩ := addRule_eq_ok.mp h
        exact ⟨.rule false pattern, trivial, hplace, rfl,
          .inr ⟨pattern, rfl, rfl, by rw [List.mem_singleton.mp hname]; rfl⟩⟩
    | quiet =>
      cases h
      exact ⟨.quiet arg, hname, trivial, rfl, .inl ⟨rfl, rfl⟩⟩
    | limit kind =>
      dsimp only [Flag.turn] at h
      cases hvalue : next.bind parsePositiveSize with
      | none =>
        rw [hvalue] at h
        cases h
      | some value =>
        rw [hvalue] at h
        dsimp only at h
        split_ifs at h with hratio
        cases h
        obtain ⟨text, rfl, hparse⟩ := Option.bind_eq_some_iff.mp hvalue
        refine ⟨.limit kind text value, ⟨parsePositiveSize_eq_some.mp hparse, ?_⟩, trivial, rfl,
          .inr ⟨text, rfl, rfl, ?_⟩⟩
        · simpa using hratio
        · cases kind <;> rw [List.mem_singleton.mp hname] <;> rfl

/-! ### Whole lists -/

lemma and_foldl_or (mask : UInt32) (masks : List UInt32) :
    mask &&& masks.foldl (· ||| ·) 0 = 0 ↔ ∀ m ∈ masks, m &&& mask = 0 := by
  induction masks using List.reverseRecOn with
  | nil => simp
  | append_singleton masks last ih =>
    rw [UInt32.and_comm] at ih
    rw [List.foldl_append, List.foldl_cons, List.foldl_nil, UInt32.and_comm, Metadata.or_and_mask,
      UInt32.or_eq_zero_iff, ih]
    simp [or_imp, forall_and]

/-- Another item at the end changes what it changes by itself. -/
lemma Options.of_append (items : List Item) (item : Item) :
    Options.of (items ++ [item]) = item.apply (Options.of items) := by
  cases item with
  | limit kind text value =>
    cases kind <;>
      simp [Options.of, Item.apply, Options.set, lastValue, Item.outputPath?, Item.value?,
        Item.rule?, Item.mask?, Item.path?, List.filterMap_cons]
  | _ =>
    simp [Options.of, Item.apply, lastValue, Item.outputPath?, Item.value?, Item.rule?, Item.mask?,
      Item.path?, List.filterMap_cons]

/-- What was admissible stays so behind another item exactly when that is valid and fits. -/
lemma admissible_append {items : List Item} {item : Item} :
    Admissible (items ++ [item]) ↔
      Admissible items ∧ item.Valid ∧ item.Fits (Options.of items) := by
  have hlast : ∀ {β : Type} (f : Item → Option β),
      (items ++ [item]).filterMap f = items.filterMap f ++ (f item).toList := by
    intro β f
    rw [List.filterMap_append]
    cases h : f item <;> simp [h]
  rw [admissible_iff, admissible_iff, hlast, hlast, hlast, List.forall_mem_append,
    List.forall_mem_singleton]
  cases item with
  | omitMetadata text mask =>
    rw [show Item.Fits (Options.of items) (.omitMetadata text mask) ↔ _ from
      and_foldl_or mask (items.filterMap Item.mask?)]
    simp only [Item.rule?, Item.path?, Item.mask?, Option.toList_none, Option.toList_some,
      List.append_nil, List.pairwise_append, List.pairwise_singleton, List.mem_singleton,
      forall_eq, true_and]
    tauto
  | rule allow pattern =>
    have hfits : Item.Fits (Options.of items) (.rule allow pattern) ↔
      (items.filterMap Item.rule?).length ≠ maxRules := Iff.rfl
    have hplace : (items.filterMap Item.rule?).length + 1 ≤ maxRules ↔
        (items.filterMap Item.rule?).length ≤ maxRules ∧
          (items.filterMap Item.rule?).length ≠ maxRules := by omega
    simp only [hfits, Item.rule?, Item.path?, Item.mask?, Option.toList_none, Option.toList_some,
      List.append_nil, List.length_append, List.length_singleton, hplace]
    tauto
  | path arg =>
    have hfits : Item.Fits (Options.of items) (.path arg) ↔
      (items.filterMap Item.path?).length < 2 := Iff.rfl
    have hplace : (items.filterMap Item.path?).length + 1 ≤ 2 ↔
        (items.filterMap Item.path?).length ≤ 2 ∧
          (items.filterMap Item.path?).length < 2 := by omega
    simp only [hfits, Item.rule?, Item.path?, Item.mask?, Option.toList_none, Option.toList_some,
      List.append_nil, List.length_append, List.length_singleton, hplace]
    tauto
  | _ =>
    simp only [Item.rule?, Item.path?, Item.mask?, Option.toList_none, List.append_nil, Item.Fits,
      and_true]
    tauto

/-- An item in front is read by itself, whatever follows. -/
lemma parse_spell {o : Options} {item : Item} (hvalid : item.Valid) (hfits : item.Fits o)
    (rest : List Arg) : parse o (item.spell ++ rest) = parse (item.apply o) rest := by
  obtain ⟨arg, hspell, hturn⟩ | ⟨arg, value, hspell, hturn⟩ := turn_spell hvalid hfits
  · rw [hspell, List.singleton_append]
    cases rest with
    | nil =>
      have hlast : parse o [arg] = (turn o arg none).map Prod.fst := rfl
      rw [hlast, hturn]
      rfl
    | cons next rest => rw [parse, hturn]
  · rw [hspell, List.cons_append, List.singleton_append, parse, hturn]

lemma Admissible.of_append {pre items : List Item} (h : Admissible (pre ++ items)) :
    Admissible pre := by
  induction items using List.reverseRecOn with
  | nil => rwa [List.append_nil] at h
  | append_singleton items last ih =>
    rw [← List.append_assoc] at h
    exact ih (admissible_append.mp h).1

lemma parse_items {pre items : List Item} (h : Admissible (pre ++ items)) :
    parse (Options.of pre) (items.flatMap Item.spell) = .ok (Options.of (pre ++ items)) := by
  induction items generalizing pre with
  | nil => rw [List.append_nil]; rfl
  | cons item items ih =>
    rw [List.append_cons] at h ⊢
    obtain ⟨-, hvalid, hfits⟩ := admissible_append.mp h.of_append
    rw [List.flatMap_cons, parse_spell hvalid hfits, ← Options.of_append]
    exact ih h

/-- The arguments read as items behind those that were read before. -/
def Reads (pre : List Item) (args : List Arg) (o : Options) : Prop :=
  ∃ items : List Item, args = items.flatMap Item.spell ∧ Admissible (pre ++ items) ∧
    o = Options.of (pre ++ items)

lemma Reads.nil {pre : List Item} (h : Admissible pre) : Reads pre [] (Options.of pre) :=
  ⟨[], rfl, by rwa [List.append_nil], by rw [List.append_nil]⟩

lemma Reads.cons {pre : List Item} {item : Item} {rest : List Arg} {o : Options}
    (h : Reads (pre ++ [item]) rest o) : Reads pre (item.spell ++ rest) o := by
  obtain ⟨items, rfl, hadmissible, rfl⟩ := h
  exact ⟨item :: items, rfl, by rwa [List.append_cons], by rw [← List.append_cons]⟩

lemma reads_of_parse {pre : List Item} {args : List Arg} {o : Options} (hpre : Admissible pre)
    (h : parse (Options.of pre) args = .ok o) : Reads pre args o := by
  generalize hstart : Options.of pre = start at h
  fun_induction parse start args generalizing pre with
  | case1 start =>
    cases h
    exact hstart ▸ Reads.nil hpre
  | case2 start arg =>
    subst hstart
    cases hturn : turn (Options.of pre) arg none with
    | error stop =>
      rw [hturn] at h
      cases h
    | ok result =>
      rw [hturn] at h
      cases h
      obtain ⟨item, hvalid, hfits, heq, ⟨-, hspell⟩ | ⟨value, hnext, -⟩⟩ := turn_eq_ok hturn
      · rw [← List.append_nil [arg], ← hspell, heq, ← Options.of_append]
        exact Reads.cons (Reads.nil (admissible_append.mpr ⟨hpre, hvalid, hfits⟩))
      · cases hnext
  | case3 start arg next rest stop hturn => cases h
  | case4 start arg next rest o' hturn ih =>
    subst hstart
    obtain ⟨item, hvalid, hfits, rfl, ⟨hused, -⟩ | ⟨value, hnext, -, hspell⟩⟩ := turn_eq_ok hturn
    · cases hused
    · cases hnext
      have hrest := ih (admissible_append.mpr ⟨hpre, hvalid, hfits⟩) (Options.of_append _ _) h
      simpa [hspell] using hrest.cons
  | case5 start arg next rest o' hturn ih =>
    subst hstart
    obtain ⟨item, hvalid, hfits, rfl, ⟨-, hspell⟩ | ⟨value, -, hused, -⟩⟩ := turn_eq_ok hturn
    · have hrest := ih (admissible_append.mpr ⟨hpre, hvalid, hfits⟩) (Options.of_append _ _) h
      simpa [hspell] using hrest.cons
    · cases hused

/-- The loop accepts the arguments that read as a series of options with their values and of paths,
in any order, with at most two paths and 4096 rules and no family omitted twice. Then each kind of
option is set by the options of that kind alone: the last path for the output counts and the last
value of a limit, rules keep their order, and omitted families are joined. -/
theorem parse_iff {args : List Arg} {o : Options} :
    parse Options.initial args = .ok o ↔
      ∃ items : List Item, args = items.flatMap Item.spell ∧ Admissible items ∧
        o = Options.of items := by
  constructor
  · have hempty : Admissible [] := ⟨by simp, by simp, by simp, by simp⟩
    exact fun h => reads_of_parse hempty h
  · rintro ⟨items, rfl, hadmissible, rfl⟩
    have hempty : Admissible ([] ++ items) := hadmissible
    exact parse_items hempty

end Command

end Difz
