import Difz.Filter
import Difz.Filter.Language

/-!
# Matching paths

`Filter::includes` (`rust/src/path_filter.rs`): two rows of flags, swapped for every token and
filled from the end of the path to its front. A row says of each suffix of the path whether the
tokens handled so far match it; `Row` states that against the language of the tokens, and the
verdict of a filter follows by induction on its rules.
-/

namespace Difz

open Wire

namespace PathFilter

/-! ### The dynamic program -/

/-- One cell: `here` and `behind` are the cells `j` and `j + 1` of the finished row, `written` is
the cell `j + 1` of the row being filled. Returns the cell and the flag of the tree prefix. -/
def cell (token : Token) (ch : Option Char) (here behind written directoryPrefix : Bool) :
    Bool × Bool :=
  match token with
  | .literal expected => (ch == some expected && behind, directoryPrefix)
  | .any => (ch.any (· != '/') && behind, directoryPrefix)
  | .class_ negated members =>
    (ch.any (fun c => members.contains c != negated) && behind, directoryPrefix)
  | .star crossDirectories =>
    (here || ch.any (fun c => c != if crossDirectories then '\n' else '/') && written,
      directoryPrefix)
  | .treePrefix =>
    let directoryPrefix := match ch with
      | none => false
      | some '\n' => false
      | some '/' => if behind then true else directoryPrefix
      | some _ => directoryPrefix
    (here || directoryPrefix, directoryPrefix)

/-- Fill the cell `j` of the row being written. -/
def writeCell (chars : List Char) (token : Token) (next : List Bool) (row : List Bool × Bool)
    (j : Nat) : List Bool × Bool :=
  let result := cell token chars[j]? (next.getD j false) (next.getD (j + 1) false)
    (row.1.getD (j + 1) false) row.2
  (row.1.set j result.1, result.2)

/-- Fill a row from the end of the path to its front. -/
def writeRow (chars : List Char) (token : Token) (next current : List Bool) : List Bool :=
  ((List.range (chars.length + 1)).reverse.foldl (writeCell chars token next) (current, false)).1

structure Rows where
  next : List Bool
  current : List Bool

/-- Handle one token and swap the rows. -/
def runToken (chars : List Char) (rows : Rows) (token : Token) : Rows :=
  ⟨writeRow chars token rows.next rows.current, rows.next⟩

def runRule (chars : List Char) (state : Rows × Bool) (rule : CompiledRule) : Rows × Bool :=
  let next := (List.replicate state.1.next.length false).set chars.length true
  let rows := rule.tokens.reverse.foldl (runToken chars) ⟨next, state.1.current⟩
  (rows, if rows.next.getD 0 false then rule.action == .include_ else state.2)

def Filter.includes (filter : Filter) (path : List UInt8) : Except Error Bool := do
  (Directory.validatePath path).mapError Error.path
  if filter.rules.isEmpty then .ok filter.defaultIncluded
  else
    match fromUtf8 path with
    | none => .error (.path .invalidUtf8)
    | some text =>
      let chars := text.toList
      let row := List.replicate (chars.length + 1) false
      .ok (filter.rules.foldl (runRule chars) (⟨row, row⟩, filter.defaultIncluded)).2

/-! ### What tokens mean -/

/-- The words a token stands for. -/
def Token.language : Token → Language Char
  | .literal c => Words.letter (· = c)
  | .any => Words.letter (· ≠ '/')
  | .class_ negated members => Words.letter fun c => members.contains c ≠ negated
  | .star false => Words.run (· ≠ '/')
  | .star true => Words.run (· ≠ '\n')
  | .treePrefix => Words.lead (· ≠ '\n') '/'

/-- The words a token list stands for: words of its tokens, one behind the other. -/
def language (tokens : List Token) : Language Char := (tokens.map Token.language).prod

lemma language_cons (token : Token) (tokens : List Token) :
    language (token :: tokens) = token.language * language tokens := by
  simp [language]

/-- The suffixes for which the flag of the tree prefix stands. -/
def flagged (L : Language Char) : Language Char := Words.behind (· ≠ '\n') '/' L

/-- The cell behind the last character. -/
lemma cell_none {token : Token} {L : Language Char} {here behind written flag : Bool}
    (hhere : here = true ↔ [] ∈ L) :
    ((cell token none here behind written flag).1 = true ↔ [] ∈ token.language * L) ∧
      (token = .treePrefix → ((cell token none here behind written flag).2 = true ↔
        [] ∈ flagged L)) := by
  have hflag : [] ∉ flagged L := Words.nil_notMem_behind
  cases token with
  | literal c => simp [cell, Token.language, Words.nil_notMem_letter_mul]
  | any => simp [cell, Token.language, Words.nil_notMem_letter_mul]
  | class_ negated members => simp [cell, Token.language, Words.nil_notMem_letter_mul]
  | star cross =>
    cases cross <;> simp [cell, Token.language, Words.nil_mem_run_mul, hhere]
  | treePrefix =>
    rw [Token.language, Words.mem_lead_mul]
    simp [cell, hhere, hflag, Words.nil_notMem_behind]

/-- A cell in front of a character, from the cells right of it. -/
lemma cell_some {token : Token} {L : Language Char} {c : Char} {w : List Char}
    {here behind written flag : Bool} (hhere : here = true ↔ c :: w ∈ L)
    (hbehind : behind = true ↔ w ∈ L) (hwritten : written = true ↔ w ∈ token.language * L)
    (hflag : token = .treePrefix → (flag = true ↔ w ∈ flagged L)) :
    ((cell token (some c) here behind written flag).1 = true ↔ c :: w ∈ token.language * L) ∧
      (token = .treePrefix → ((cell token (some c) here behind written flag).2 = true ↔
        c :: w ∈ flagged L)) := by
  cases token with
  | literal expected => simp [cell, Token.language, Words.cons_mem_letter_mul, hbehind]
  | any => simp [cell, Token.language, Words.cons_mem_letter_mul, hbehind]
  | class_ negated members => simp [cell, Token.language, Words.cons_mem_letter_mul, hbehind]
  | star cross =>
    cases cross with
    | false =>
      rw [Token.language] at hwritten
      simp [cell, Token.language, Words.cons_mem_run_mul, hhere, hwritten]
    | true =>
      rw [Token.language] at hwritten
      simp [cell, Token.language, Words.cons_mem_run_mul, hhere, hwritten]
  | treePrefix =>
    have hfl : (cell .treePrefix (some c) here behind written flag).2 = true ↔
        c :: w ∈ flagged L := by
      rw [flagged, Words.cons_mem_behind, ← flagged, ← hflag rfl, ← hbehind]
      by_cases hn : c = '\n'
      · subst hn
        simp [cell]
      · by_cases hs : c = '/'
        · subst hs
          cases behind <;> simp [cell]
        · simp [cell, hn, hs]
    refine ⟨?_, fun _ => hfl⟩
    rw [Token.language, Words.mem_lead_mul, ← flagged, ← hfl, ← hhere]
    simp [cell]

/-! ### Rows -/

/-- A finished row: cell `j` says whether the path from `j` on is a word of `L`. -/
structure Row (chars : List Char) (L : Language Char) (row : List Bool) : Prop where
  length : row.length = chars.length + 1
  cell : ∀ j, j ≤ chars.length → (row.getD j false = true ↔ chars.drop j ∈ L)

/-- A row filled from its end down to cell `k`, with the flag of the tree prefix. -/
structure Filled (chars : List Char) (token : Token) (L : Language Char) (k : Nat)
    (row : List Bool × Bool) : Prop where
  length : row.1.length = chars.length + 1
  cell : ∀ j, k ≤ j → j ≤ chars.length →
    (row.1.getD j false = true ↔ chars.drop j ∈ token.language * L)
  flag : token = .treePrefix → (row.2 = true ↔ chars.drop k ∈ flagged L)

variable {chars : List Char} {token : Token} {L : Language Char} {next : List Bool}

/-- Nothing is filled yet, and whatever the row holds from earlier does not matter. -/
lemma Filled.start {current : List Bool} (h : current.length = chars.length + 1) :
    Filled chars token L (chars.length + 1) (current, false) := by
  refine ⟨h, fun j hj hj' => absurd hj' (by omega), fun _ => ?_⟩
  rw [List.drop_eq_nil_of_le (by omega)]
  exact iff_of_false (by simp) Words.nil_notMem_behind

/-- One more cell to the left. -/
lemma Filled.step (hnext : Row chars L next) {k : Nat} (hk : k ≤ chars.length)
    {row : List Bool × Bool} (h : Filled chars token L (k + 1) row) :
    Filled chars token L k (writeCell chars token next row k) := by
  have hcell : ((writeCell chars token next row k).1.getD k false = true ↔
      chars.drop k ∈ token.language * L) ∧ (token = .treePrefix →
      ((writeCell chars token next row k).2 = true ↔ chars.drop k ∈ flagged L)) := by
    have hset : (writeCell chars token next row k).1.getD k false
        = (PathFilter.cell token chars[k]? (next.getD k false) (next.getD (k + 1) false)
            (row.1.getD (k + 1) false) row.2).1 := by
      have hlt : k < row.1.length := by rw [h.length]; omega
      simp [writeCell, List.getD_eq_getElem?_getD, hlt]
    rw [hset]
    rcases Nat.lt_or_eq_of_le hk with hlt | rfl
    · have hdrop : chars.drop k = chars[k] :: chars.drop (k + 1) :=
        List.drop_eq_getElem_cons hlt
      have hhere := hnext.cell k hk
      rw [hdrop] at hhere ⊢
      rw [writeCell, List.getElem?_eq_getElem hlt]
      exact cell_some hhere (hnext.cell (k + 1) hlt) (h.cell (k + 1) le_rfl hlt) h.flag
    · have hdrop : chars.drop chars.length = [] := List.drop_length
      have hhere := hnext.cell _ le_rfl
      rw [hdrop] at hhere ⊢
      rw [writeCell, List.getElem?_eq_none le_rfl]
      exact cell_none hhere
  refine ⟨by simp [writeCell, h.length], fun j hj hj' => ?_, hcell.2⟩
  rcases Nat.eq_or_lt_of_le hj with rfl | hlt
  · exact hcell.1
  · rw [← h.cell j hlt hj', writeCell, List.getD_eq_getElem?_getD,
      List.getElem?_set_ne (by omega), ← List.getD_eq_getElem?_getD]

/-- The rest of the loop fills the rest of the row. -/
lemma Filled.loop (hnext : Row chars L next) {k : Nat} (hk : k ≤ chars.length + 1)
    {row : List Bool × Bool} (h : Filled chars token L k row) :
    Filled chars token L 0
      ((List.range k).reverse.foldl (writeCell chars token next) row) := by
  induction k generalizing row with
  | zero => exact h
  | succ k ih =>
    rw [List.range_succ, List.reverse_append, List.reverse_singleton, List.singleton_append,
      List.foldl_cons]
    exact ih (by omega) (h.step hnext (by omega))

lemma Row.writeRow (hnext : Row chars L next) {current : List Bool}
    (h : current.length = chars.length + 1) :
    Row chars (token.language * L) (writeRow chars token next current) := by
  have hstart : Filled chars token L (chars.length + 1) (current, false) := Filled.start h
  have hfilled := hstart.loop hnext le_rfl
  exact ⟨hfilled.length, fun j hj => hfilled.cell j (Nat.zero_le j) hj⟩

/-- The row a rule starts from: only the empty suffix matches no tokens. -/
lemma Row.start (chars : List Char) :
    Row chars (language []) ((List.replicate (chars.length + 1) false).set chars.length true) := by
  refine ⟨by simp, fun j hj => ?_⟩
  rw [language, List.map_nil, List.prod_nil, Language.mem_one, List.drop_eq_nil_iff,
    List.getD_eq_getElem?_getD, List.getElem?_set]
  rcases Nat.lt_or_eq_of_le hj with hlt | rfl
  · rw [if_neg (by omega), List.getElem?_replicate]
    simp [hlt, Nat.lt_succ_of_lt hlt]
  · simp

/-- Both rows during the work on a rule: the finished one stands for the tokens so far. -/
structure Rows.Stands (chars : List Char) (tokens : List Token) (rows : Rows) : Prop where
  next : Row chars (language tokens) rows.next
  current : rows.current.length = chars.length + 1

lemma Rows.Stands.foldl {tokens : List Token} (before : List Token) {rows : Rows}
    (h : rows.Stands chars tokens) :
    (before.reverse.foldl (runToken chars) rows).Stands chars (before ++ tokens) := by
  induction before with
  | nil => exact h
  | cons token before ih =>
    rw [List.reverse_cons, List.foldl_append, List.foldl_cons, List.foldl_nil, List.cons_append]
    refine ⟨?_, ih.next.length⟩
    rw [language_cons]
    exact ih.next.writeRow ih.current

/-! ### Rules -/

/-- The rule matches the path with these characters. -/
def CompiledRule.Matches (rule : CompiledRule) (chars : List Char) : Prop :=
  chars ∈ language rule.tokens

/-- The verdict so far, and rows of the right length. -/
structure Judged (chars : List Char) (rules : List CompiledRule) (default : Bool)
    (state : Rows × Bool) : Prop where
  next : state.1.next.length = chars.length + 1
  current : state.1.current.length = chars.length + 1
  last : ∀ before rule after, rules = before ++ rule :: after → rule.Matches chars →
    (∀ r ∈ after, ¬r.Matches chars) → state.2 = (rule.action == .include_)
  none : (∀ r ∈ rules, ¬r.Matches chars) → state.2 = default

/-- What a rule makes of the verdict. -/
lemma runRule_verdict {state : Rows × Bool} (hnext : state.1.next.length = chars.length + 1)
    (hcurrent : state.1.current.length = chars.length + 1) (rule : CompiledRule) :
    (runRule chars state rule).1.Stands chars rule.tokens ∧
      (rule.Matches chars → (runRule chars state rule).2 = (rule.action == .include_)) ∧
      (¬rule.Matches chars → (runRule chars state rule).2 = state.2) := by
  have hstands : (runRule chars state rule).1.Stands chars rule.tokens := by
    have hstart : Rows.Stands chars []
        ⟨(List.replicate state.1.next.length false).set chars.length true, state.1.current⟩ :=
      ⟨hnext ▸ Row.start chars, hcurrent⟩
    have := hstart.foldl rule.tokens
    rwa [List.append_nil] at this
  have hmatch := hstands.next.cell 0 (Nat.zero_le _)
  refine ⟨hstands, fun h => ?_, fun h => ?_⟩
  · exact if_pos (hmatch.mpr h)
  · exact if_neg (mt hmatch.mp h)

lemma Judged.runRule {rules : List CompiledRule} {default : Bool} {state : Rows × Bool}
    (h : Judged chars rules default state) (rule : CompiledRule) :
    Judged chars (rules ++ [rule]) default (runRule chars state rule) := by
  obtain ⟨hstands, hyes, hno⟩ := runRule_verdict h.next h.current rule
  refine ⟨hstands.next.length, hstands.current, fun before r after heq hr hafter => ?_,
    fun hnone => ?_⟩
  · -- either `rule` is the last match or it does not match at all
    rcases List.eq_nil_or_concat after with rfl | hconcat
    · obtain ⟨rfl, hrule⟩ := List.append_inj' heq rfl
      obtain rfl := List.singleton_inj.mp hrule
      exact hyes hr
    · obtain ⟨after, last, rfl⟩ := hconcat
      rw [List.concat_eq_append, ← List.cons_append, ← List.append_assoc] at heq
      obtain ⟨rfl, hlast⟩ := List.append_inj' heq rfl
      obtain rfl := List.singleton_inj.mp hlast
      rw [List.concat_eq_append] at hafter
      rw [hno (hafter rule (by simp))]
      exact h.last before r after rfl hr fun x hx => hafter x (List.mem_append_left _ hx)
  · rw [hno (hnone rule (by simp))]
    exact h.none fun r hr => hnone r (List.mem_append_left _ hr)

lemma judged_foldl (rules : List CompiledRule) (default : Bool) :
    Judged chars rules default (rules.foldl (runRule chars)
      (⟨List.replicate (chars.length + 1) false, List.replicate (chars.length + 1) false⟩,
        default)) := by
  induction rules using List.reverseRecOn with
  | nil =>
    refine ⟨by simp, by simp, fun before rule after heq => ?_, fun _ => rfl⟩
    exact absurd heq (by simp)
  | append_singleton rules rule ih =>
    rw [List.foldl_append, List.foldl_cons, List.foldl_nil]
    exact ih.runRule rule

/-- What a rule compiles to. -/
def Rule.compiled (rule : Rule) : CompiledRule := ⟨rule.split.1, PathFilter.compile rule.split.2⟩

lemma mapM_compile {rules : List Rule} {compiled : List CompiledRule}
    (h : rules.mapM Rule.compile = .ok compiled) : compiled = rules.map Rule.compiled := by
  induction rules generalizing compiled with
  | nil => exact (Except.ok.inj h).symm
  | cons rule rules ih =>
    simp only [List.mapM_cons, bind_eq_ok, pure, Except.pure, Except.ok.injEq] at h
    obtain ⟨r, hr, rs, hrs, rfl⟩ := h
    rw [Rule.compile, ite_error_eq_ok] at hr
    rw [List.map_cons, ih hrs, Rule.compiled, Except.ok.inj hr.2]

/-- The path is a word of the language of the rule's tokens. -/
def Rule.Matches (rule : Rule) (text : String) : Prop :=
  text.toList ∈ language (PathFilter.compile rule.split.2)

lemma utf8_of_validatePath {path : List UInt8} (h : Directory.validatePath path = .ok ()) :
    ∃ text, path = utf8 text := by
  simp only [Directory.validatePath, Directory.validateText, ite_error_eq_ok, seq_eq_ok] at h
  exact isUtf8_iff.mp (by simpa using h.2.2.1.1)

lemma Filter.includes_utf8 (filter : Filter) {text : String}
    (h : Directory.validatePath (utf8 text) = .ok ()) : filter.includes (utf8 text) =
      .ok (filter.rules.foldl (runRule text.toList)
        (⟨List.replicate (text.toList.length + 1) false,
          List.replicate (text.toList.length + 1) false⟩, filter.defaultIncluded)).2 := by
  have hutf8 := fromUtf8_eq_some_iff.mpr (rfl : utf8 text = utf8 text)
  rw [Filter.includes, h, hutf8]
  simp only [Except.mapError, ok_bind]
  split_ifs with hrules
  · rw [List.isEmpty_iff.mp hrules, List.foldl_nil]
  · rfl

/-- The verdict on a valid path: the last rule that matches decides with its action, flipped by a
leading exclamation mark; when none matches, the path is excluded exactly if some rule was
written as an include. -/
theorem Filter.includes_spec (rules : List Rule) (filter : Filter)
    (hcompile : Filter.compile rules = .ok filter) (path : List UInt8)
    (hpath : Directory.validatePath path = .ok ()) : ∃ text, path = utf8 text ∧
      (∀ before rule after, rules = before ++ rule :: after → rule.Matches text →
        (∀ r ∈ after, ¬r.Matches text) →
        filter.includes path = .ok (rule.split.1 == .include_)) ∧
      ((∀ r ∈ rules, ¬r.Matches text) →
        filter.includes path = .ok (!rules.any (·.action == .include_))) := by
  rw [Filter.compile, bind_eq_ok] at hcompile
  obtain ⟨compiled, hmap, hfilter⟩ := hcompile
  obtain rfl := Except.ok.inj hfilter
  obtain rfl := mapM_compile hmap
  obtain ⟨text, rfl⟩ := utf8_of_validatePath hpath
  rw [Filter.includes_utf8 _ hpath]
  have hjudged := @judged_foldl text.toList (rules.map Rule.compiled)
    (rules.all (·.action != .include_))
  refine ⟨text, rfl, fun before rule after heq hrule hafter => ?_, fun hnone => ?_⟩
  · subst heq
    rw [hjudged.last (before.map Rule.compiled) rule.compiled (after.map Rule.compiled) (by simp)
      hrule]
    · rfl
    · intro r hr
      obtain ⟨rule', hrule', rfl⟩ := List.mem_map.mp hr
      exact hafter rule' hrule'
  · rw [hjudged.none]
    · rw [List.not_any_eq_all_not]
      rfl
    · intro r hr
      obtain ⟨rule', hrule', rfl⟩ := List.mem_map.mp hr
      exact hnone rule' hrule'

/-- One include, flipped: it keeps `a` out, and as an include it keeps out the rest. -/
theorem Filter.includes_spec_flipped : ∃ filter,
    Filter.compile [⟨.include_, "!a"⟩] = .ok filter ∧
      filter.includes (utf8 "a") = .ok false ∧ filter.includes (utf8 "b") = .ok false := by
  have hsplit : (⟨.include_, "!a"⟩ : Rule).split = (.exclude, ['a']) := by decide
  have htokens : PathFilter.compile ['a'] = [.literal 'a'] := by
    simp [PathFilter.compile, compileFrom]
  have hmatches : ∀ text, (⟨.include_, "!a"⟩ : Rule).Matches text ↔ text.toList = ['a'] := by
    intro text
    rw [Rule.Matches, hsplit, htokens, language_cons, language, List.map_nil, List.prod_nil,
      mul_one, Token.language]
    constructor
    · intro h
      obtain ⟨a, rfl, heq⟩ := h
      exact heq
    · exact fun h => ⟨'a', rfl, h⟩
  obtain ⟨filter, hfilter⟩ :=
    (Filter.exists_compile_iff [⟨.include_, "!a"⟩]).mpr (by simp [hsplit])
  refine ⟨filter, hfilter, ?_, ?_⟩
  · obtain ⟨text, htext, hlast, -⟩ := includes_spec _ filter hfilter (utf8 "a") (by decide)
    obtain rfl := utf8_injective htext
    rw [hlast [] ⟨.include_, "!a"⟩ [] rfl ((hmatches _).mpr (by decide)) (by simp), hsplit]
    rfl
  · obtain ⟨text, htext, -, hnone⟩ := includes_spec _ filter hfilter (utf8 "b") (by decide)
    obtain rfl := utf8_injective htext
    rw [hnone fun r hr => ?_]
    · rfl
    · rw [List.mem_singleton.mp hr, hmatches]
      decide

end PathFilter

end Difz
