import Difz.Filter
import Difz.Wire.Checked

/-!
# Compiling patterns on the machine

The index loops of `compile` in `rust/src/path_filter.rs`. An index never passes the end of the
pattern, and what stands behind it is what the total function has still to read: the loops compute
the tokens of `PathFilter.compileFrom`. The loops run on a number of rounds that is large enough;
to run out of it would count as a panic.
-/

namespace Difz

open Wire

namespace Machine

namespace PathFilter

open Difz.PathFilter (CompiledRule Error Filter Rule Token)

variable {chars : List Char}

/-- The loop over the members of a class, up to its closing bracket or the end. -/
def classMembers (chars : List Char) : Nat → Nat → List Char → Checked Error (Nat × List Char)
  | 0, _, _ => .error .panic
  | rounds + 1, j, members => do
    let open_ ← Checked.and (j < chars.length) do
      let c ← Checked.index chars j
      pure (c != ']')
    if open_ then
      let c ← Checked.index chars j
      let escape ← Checked.and (c == '\\') do
        let next ← Checked.add 64 j 1
        pure (decide (next < chars.length))
      let j ← Checked.add 64 j (if escape then 1 else 0)
      let c ← Checked.index chars j
      let j ← Checked.add 64 j 1
      classMembers chars rounds j (members ++ [c])
    else .ok (j, members)

/-- A class at the opening bracket `i`, with the index of its closing one. -/
def readClass (chars : List Char) (i : Nat) : Checked Error (Option (Token × Nat)) := do
  let j ← Checked.add 64 i 1
  let negated := chars[j]? == some '!' || chars[j]? == some '^'
  let j ← Checked.add 64 j (if negated then 1 else 0)
  let leading := chars[j]? == some ']'
  let j ← Checked.add 64 j (if leading then 1 else 0)
  let (j, members) ← classMembers chars (chars.length + 1) j (if leading then [']'] else [])
  if j < chars.length then .ok (some (.class_ negated members, j)) else .ok none

/-- The character that a backslash at `i` escapes, and its index. -/
def readEscape (chars : List Char) (i : Nat) : Checked Error (Token × Nat) := do
  let next ← Checked.add 64 i 1
  let i ← Checked.add 64 i (if next < chars.length then 1 else 0)
  let literal ← Checked.index chars i
  .ok (.literal literal, i)

/-- One star, two, or two with a separator, and the index of the last character. -/
def readStar (chars : List Char) (i : Nat) : Checked Error (Token × Nat) := do
  let next ← Checked.add 64 i 1
  if chars[next]? = some '*' then
    let i ← Checked.add 64 i 1
    let next ← Checked.add 64 i 1
    if chars[next]? = some '/' then
      let i ← Checked.add 64 i 1
      .ok (.treePrefix, i)
    else .ok (.star true, i)
  else .ok (.star false, i)

/-- The token at `i`, the index of its last character, and whether classes remain. -/
def nextToken (chars : List Char) (i : Nat) (classesRemain : Bool) :
    Checked Error (Token × Nat × Bool) := do
  let c ← Checked.index chars i
  if c = '\\' then
    let (token, j) ← readEscape chars i
    .ok (token, j, classesRemain)
  else if c = '*' then
    let (token, j) ← readStar chars i
    .ok (token, j, classesRemain)
  else if c = '?' then .ok (.any, i, classesRemain)
  else if c = '[' ∧ classesRemain = true then
    match ← readClass chars i with
    | some (token, j) => .ok (token, j, classesRemain)
    | none => .ok (.literal '[', i, false)
  else .ok (.literal c, i, classesRemain)

def compileLoop (chars : List Char) : Nat → Nat → Bool → List Token → Checked Error (List Token)
  | 0, _, _, _ => .error .panic
  | rounds + 1, i, classesRemain, tokens =>
    if i < chars.length then do
      let (token, i, classesRemain) ← nextToken chars i classesRemain
      let i ← Checked.add 64 i 1
      compileLoop chars rounds i classesRemain (tokens ++ [token])
    else .ok tokens

def compile (chars : List Char) : Checked Error (List Token) :=
  compileLoop chars (chars.length + 1) 0 true []

def Rule.compile (rule : Rule) : Checked Error CompiledRule :=
  let (action, pattern) := rule.split
  if pattern.isEmpty then Checked.fail .emptyPattern
  else do
    let tokens ← PathFilter.compile pattern
    .ok ⟨action, tokens⟩

/-- `Filter::compile`. -/
def Filter.compile (rules : List Rule) : Checked Error Filter := do
  let compiled ← rules.mapM Rule.compile
  .ok ⟨compiled, rules.all (·.action != .include_)⟩

/-! ### Classes -/

lemma classMembers_cons {c : Char} {rest : List Char} (hclose : c ≠ ']')
    (hescape : c = '\\' → rest = []) : Difz.PathFilter.classMembers (c :: rest)
      = (Difz.PathFilter.classMembers rest).map fun (members, rest) => (c :: members, rest) := by
  rw [Difz.PathFilter.classMembers]
  · exact fun h => absurd h hclose
  · intro d rest' h hrest
    rw [hescape h] at hrest
    exact absurd hrest (by simp)

/-- Where the loop over the members stops, in terms of the class that a suffix starts with: at the
closing bracket, or at the end when there is none. -/
def Stops (chars : List Char) (j : Nat) (members : List Char) (stop : Nat × List Char)
    (suffix : List Char) : Prop :=
  match Difz.PathFilter.classMembers suffix with
  | some (more, rest) => stop.1 < chars.length ∧ j ≤ stop.1 ∧ rest = chars.drop (stop.1 + 1) ∧
      stop.2 = members ++ more
  | none => stop.1 = chars.length

/-- One more member in front. -/
lemma Stops.cons {j k : Nat} {members suffix rest : List Char} {d : Char} {stop : Nat × List Char}
    (h : Stops chars (k + 1) (members ++ [d]) stop rest) (hjk : j ≤ k)
    (hsuffix : Difz.PathFilter.classMembers suffix = (Difz.PathFilter.classMembers rest).map
      fun (members, rest) => (d :: members, rest)) : Stops chars j members stop suffix := by
  rw [Stops] at h ⊢
  rw [hsuffix]
  cases hmore : Difz.PathFilter.classMembers rest with
  | none =>
    rw [hmore] at h
    exact h
  | some more =>
    rw [hmore] at h
    obtain ⟨hend, hle, hdrop, hfound⟩ := h
    exact ⟨hend, by omega, hdrop, by simp [hfound]⟩

lemma classMembers_eq (hfits : chars.length < 2 ^ 64) {rounds j : Nat} (members : List Char)
    (hj : j ≤ chars.length) (hrounds : chars.length < j + rounds) :
    ∃ stop, classMembers chars rounds j members = .ok stop ∧
      Stops chars j members stop (chars.drop j) := by
  induction rounds generalizing j members with
  | zero => omega
  | succ rounds ih =>
    rw [classMembers]
    rcases Nat.eq_or_lt_of_le hj with rfl | hlt
    · refine ⟨(chars.length, members), by simp [Checked.and, ok_bind], ?_⟩
      rw [Stops, List.drop_length, Difz.PathFilter.classMembers]
    rw [List.drop_eq_getElem_cons hlt, Checked.index_of_lt hlt, ok_bind]
    simp only [hlt, decide_true, pure, Except.pure, Checked.and_ok, Bool.true_and, ok_bind]
    by_cases hclose : chars[j] = ']'
    · refine ⟨(j, members), by simp [hclose], ?_⟩
      rw [Stops, hclose, Difz.PathFilter.classMembers]
      exact ⟨hlt, le_rfl, rfl, by simp⟩
    have hopen : (chars[j] != ']') = true := by simpa using hclose
    rw [hopen, if_pos rfl, Checked.add_of_lt (by omega), ok_bind]
    by_cases hescape : chars[j] = '\\' ∧ j + 1 < chars.length
    · obtain ⟨hback, hnext⟩ := hescape
      simp only [hback, hnext, beq_self_eq_true, decide_true, Bool.and_true, if_true, ok_bind,
        Checked.and_ok]
      rw [Checked.add_of_lt (by omega), ok_bind, Checked.index_of_lt hnext, ok_bind,
        Checked.add_of_lt (by omega), ok_bind]
      obtain ⟨stop, hstop, hstops⟩ := ih (j := j + 1 + 1) (members ++ [chars[j + 1]])
        (by omega) (by omega)
      refine ⟨stop, hstop, hstops.cons (by omega) ?_⟩
      rw [List.drop_eq_getElem_cons hnext, Difz.PathFilter.classMembers]
    · have hplain : (chars[j] == '\\' && decide (j + 1 < chars.length)) = false := by
        simpa using hescape
      simp only [Checked.and_ok, ok_bind, hplain, Bool.false_eq_true, if_false]
      rw [Checked.add_of_lt (by omega), ok_bind, Nat.add_zero, Checked.index_of_lt hlt, ok_bind,
        Checked.add_of_lt (by omega), ok_bind]
      obtain ⟨stop, hstop, hstops⟩ := ih (j := j + 1) (members ++ [chars[j]])
        (by omega) (by omega)
      refine ⟨stop, hstop, hstops.cons le_rfl (classMembers_cons hclose fun hback => ?_)⟩
      refine List.drop_eq_nil_of_le ?_
      by_contra hnext
      exact hescape ⟨hback, by omega⟩

lemma readClass_eq (hfits : chars.length < 2 ^ 64) {i : Nat} (hi : i < chars.length) :
    ∃ found, readClass chars i = .ok found ∧
      match Difz.PathFilter.readClass (chars.drop (i + 1)) with
      | some (token, rest) => ∃ j, found = some (token, j) ∧ i ≤ j ∧ j < chars.length ∧
          rest = chars.drop (j + 1)
      | none => found = none := by
  have hhead : ∀ k, (chars.drop k).head? = chars[k]? := fun k => List.head?_drop
  -- a flag that is set stands for a character
  have hskip : ∀ (k : Nat) (b : Bool), k ≤ chars.length → (b = true → k < chars.length) →
      k + (if b then 1 else 0) ≤ chars.length ∧
        (if b then (chars.drop k).tail else chars.drop k) = chars.drop (k + if b then 1 else 0) := by
    intro k b hk hb
    cases b with
    | false => exact ⟨hk, rfl⟩
    | true => exact ⟨hb rfl, by simp⟩
  have hsome : ∀ {k : Nat} {c : Char}, (chars[k]? == some c) = true → k < chars.length := by
    intro k c h
    exact (List.getElem?_eq_some_iff.mp (by simpa using h)).1
  rw [readClass, Difz.PathFilter.readClass, Checked.add_of_lt (by omega), ok_bind]
  simp only [hhead]
  generalize hnegated : (chars[i + 1]? == some '!' || chars[i + 1]? == some '^') = negated
  obtain ⟨hle₁, hdrop₁⟩ := hskip (i + 1) negated (by omega) (by
    rintro rfl
    rcases Bool.or_eq_true_iff.mp hnegated with h | h
    · exact hsome h
    · exact hsome h)
  rw [hdrop₁, Checked.add_of_lt (by omega), ok_bind, hhead]
  have hik : i + 1 ≤ i + 1 + (if negated then 1 else 0) := Nat.le_add_right _ _
  generalize i + 1 + (if negated then 1 else 0) = k at hik hle₁ ⊢
  generalize hleading : (chars[k]? == some ']') = leading
  obtain ⟨hle₂, hdrop₂⟩ := hskip k leading hle₁ (by
    rintro rfl
    exact hsome hleading)
  rw [hdrop₂, Checked.add_of_lt (by omega), ok_bind]
  have hkm : k ≤ k + (if leading then 1 else 0) := Nat.le_add_right _ _
  generalize k + (if leading then 1 else 0) = m at hkm hle₂ ⊢
  obtain ⟨⟨j, members⟩, hloop, hstops⟩ := @classMembers_eq _ hfits (chars.length + 1) m
    (if leading then [']'] else []) hle₂ (by omega)
  rw [hloop, ok_bind]
  rw [Stops] at hstops
  cases hclass : Difz.PathFilter.classMembers (chars.drop m) with
  | none =>
    rw [hclass] at hstops
    exact ⟨none, if_neg (by omega), rfl⟩
  | some found =>
    obtain ⟨more, rest⟩ := found
    rw [hclass] at hstops
    obtain ⟨hj, hmj, hrest, hmembers⟩ := hstops
    have hlist : members = if leading then ']' :: more else more := by
      cases leading
      · exact hmembers
      · exact hmembers
    refine ⟨some (.class_ negated members, j), if_pos hj, j, ?_, ?_, hj, hrest⟩
    · rw [hlist]
    · exact Nat.le_of_succ_le (hik.trans (hkm.trans hmj))

/-! ### Tokens -/

/-- The token of the total function at `i` ends at `j`. -/
structure Emits (chars : List Char) (i : Nat) (classesRemain : Bool) (token : Token) (j : Nat)
    (remain : Bool) : Prop where
  le : i ≤ j
  lt : j < chars.length
  eq : Difz.PathFilter.compileFrom classesRemain (chars.drop i)
    = token :: Difz.PathFilter.compileFrom remain (chars.drop (j + 1))

lemma readEscape_eq (hfits : chars.length < 2 ^ 64) {i : Nat} (hi : i < chars.length)
    (hc : chars[i] = '\\') (classesRemain : Bool) : ∃ token j,
      readEscape chars i = .ok (token, j) ∧ Emits chars i classesRemain token j classesRemain := by
  rw [readEscape, Checked.add_of_lt (by omega), ok_bind]
  by_cases hlt : i + 1 < chars.length
  · rw [if_pos hlt, Checked.add_of_lt (by omega), ok_bind, Checked.index_of_lt hlt, ok_bind]
    refine ⟨_, _, rfl, by omega, hlt, ?_⟩
    rw [List.drop_eq_getElem_cons hi, hc, List.drop_eq_getElem_cons hlt,
      Difz.PathFilter.compileFrom]
  · rw [if_neg hlt, Checked.add_of_lt (by omega), ok_bind, Nat.add_zero, Checked.index_of_lt hi,
      ok_bind]
    refine ⟨_, _, rfl, le_rfl, hi, ?_⟩
    rw [List.drop_eq_getElem_cons hi, hc, List.drop_eq_nil_of_le (by omega),
      Difz.PathFilter.compileFrom, Difz.PathFilter.compileFrom]

lemma readStar_eq (hfits : chars.length < 2 ^ 64) {i : Nat} (hi : i < chars.length)
    (hc : chars[i] = '*') (classesRemain : Bool) : ∃ token j,
      readStar chars i = .ok (token, j) ∧ Emits chars i classesRemain token j classesRemain := by
  have hnext : ∀ {k : Nat} {c : Char}, chars[k]? = some c →
      k < chars.length ∧ chars.drop k = c :: chars.drop (k + 1) := by
    intro k c h
    obtain ⟨hk, rfl⟩ := List.getElem?_eq_some_iff.mp h
    exact ⟨hk, List.drop_eq_getElem_cons hk⟩
  have hother : ∀ {k : Nat} {c : Char}, chars[k]? ≠ some c → ∀ rest, chars.drop k ≠ c :: rest := by
    intro k c h rest hrest
    refine h ?_
    rw [← List.head?_drop, hrest, List.head?_cons]
  rw [readStar, Checked.add_of_lt (by omega), ok_bind]
  by_cases hsecond : chars[i + 1]? = some '*'
  · obtain ⟨hlt, hdrop⟩ := hnext hsecond
    rw [if_pos hsecond, ok_bind, Checked.add_of_lt (by omega), ok_bind]
    by_cases hslash : chars[i + 1 + 1]? = some '/'
    · obtain ⟨hlt', hdrop'⟩ := hnext hslash
      rw [if_pos hslash, ok_bind]
      refine ⟨_, _, rfl, by omega, hlt', ?_⟩
      rw [List.drop_eq_getElem_cons hi, hc, hdrop, hdrop', Difz.PathFilter.compileFrom]
    · rw [if_neg hslash]
      refine ⟨_, _, rfl, by omega, hlt, ?_⟩
      rw [List.drop_eq_getElem_cons hi, hc, hdrop, Difz.PathFilter.compileFrom]
      exact fun rest => hother hslash rest
  · rw [if_neg hsecond]
    refine ⟨_, _, rfl, le_rfl, hi, ?_⟩
    rw [List.drop_eq_getElem_cons hi, hc, Difz.PathFilter.compileFrom]
    · exact fun rest => hother hsecond _
    · exact fun rest => hother hsecond _

/-- One round of the loop is one token of the total function. -/
lemma nextToken_eq (hfits : chars.length < 2 ^ 64) {i : Nat} (hi : i < chars.length)
    (classesRemain : Bool) : ∃ token j remain, nextToken chars i classesRemain
        = .ok (token, j, remain) ∧ Emits chars i classesRemain token j remain := by
  have hdrop := List.drop_eq_getElem_cons hi
  rw [nextToken, Checked.index_of_lt hi, ok_bind]
  by_cases hescape : chars[i] = '\\'
  · obtain ⟨token, j, hread, hemits⟩ := readEscape_eq hfits hi hescape classesRemain
    rw [if_pos hescape, hread, ok_bind]
    exact ⟨token, j, _, rfl, hemits⟩
  rw [if_neg hescape]
  by_cases hstar : chars[i] = '*'
  · obtain ⟨token, j, hread, hemits⟩ := readStar_eq hfits hi hstar classesRemain
    rw [if_pos hstar, hread, ok_bind]
    exact ⟨token, j, _, rfl, hemits⟩
  rw [if_neg hstar]
  by_cases hany : chars[i] = '?'
  · rw [if_pos hany]
    refine ⟨_, _, _, rfl, le_rfl, hi, ?_⟩
    rw [hdrop, hany, Difz.PathFilter.compileFrom]
  rw [if_neg hany]
  by_cases hclass : chars[i] = '[' ∧ classesRemain = true
  · obtain ⟨hbracket, rfl⟩ := hclass
    obtain ⟨found, hread, hmatch⟩ := readClass_eq hfits hi
    rw [if_pos ⟨hbracket, rfl⟩, hread, ok_bind]
    cases hpure : Difz.PathFilter.readClass (chars.drop (i + 1)) with
    | none =>
      rw [hpure] at hmatch
      subst hmatch
      refine ⟨_, _, _, rfl, le_rfl, hi, ?_⟩
      rw [hdrop, hbracket, Difz.PathFilter.compileFrom, if_pos rfl]
      split
      · next h => exact absurd (h.symm.trans hpure) (by simp)
      · rfl
    | some p =>
      obtain ⟨token, rest⟩ := p
      rw [hpure] at hmatch
      obtain ⟨j, rfl, hle, hlt, rfl⟩ := hmatch
      refine ⟨_, _, _, rfl, hle, hlt, ?_⟩
      rw [hdrop, hbracket, Difz.PathFilter.compileFrom, if_pos rfl]
      split
      · next h =>
        obtain ⟨rfl, rfl⟩ := Prod.mk.inj (Option.some.inj (hpure.symm.trans h))
        rfl
      · next h => exact absurd (h.symm.trans hpure) (by simp)
  rw [if_neg hclass]
  refine ⟨_, _, _, rfl, le_rfl, hi, ?_⟩
  rw [hdrop]
  by_cases hbracket : chars[i] = '['
  · have hfalse : classesRemain = false := by
      by_contra h
      exact hclass ⟨hbracket, by simpa using h⟩
    rw [hbracket, hfalse, Difz.PathFilter.compileFrom, if_neg (by simp)]
  · rw [Difz.PathFilter.compileFrom] <;> tauto

/-! ### The loop -/

lemma compileLoop_eq (hfits : chars.length < 2 ^ 64) {rounds i : Nat} (classesRemain : Bool)
    (tokens : List Token) (hi : i ≤ chars.length) (hrounds : chars.length < i + rounds) :
    compileLoop chars rounds i classesRemain tokens
      = .ok (tokens ++ Difz.PathFilter.compileFrom classesRemain (chars.drop i)) := by
  induction rounds generalizing i classesRemain tokens with
  | zero => omega
  | succ rounds ih =>
    rw [compileLoop]
    rcases Nat.eq_or_lt_of_le hi with rfl | hlt
    · rw [if_neg (by omega), List.drop_length, Difz.PathFilter.compileFrom, List.append_nil]
    · obtain ⟨token, j, remain, hnext, hemits⟩ := nextToken_eq hfits hlt classesRemain
      have hle := hemits.le
      have hj := hemits.lt
      rw [if_pos hlt, hnext, ok_bind]
      dsimp only
      rw [Checked.add_of_lt (by omega), ok_bind, ih _ _ (by omega) (by omega), hemits.eq,
        List.append_assoc, List.singleton_append]

lemma compile_eq (hfits : chars.length < 2 ^ 64) :
    compile chars = .ok (Difz.PathFilter.compile chars) :=
  compileLoop_eq hfits true [] (Nat.zero_le _) (by omega)

lemma Filter.compile_eq {rules : List Rule}
    (hfits : ∀ rule ∈ rules, rule.pattern.toList.length < 2 ^ 64) :
    Filter.compile rules = Checked.ofExcept (Difz.PathFilter.Filter.compile rules) := by
  have hrule : ∀ rule ∈ rules, Rule.compile rule
      = Checked.ofExcept (Difz.PathFilter.Rule.compile rule) := by
    intro rule hmem
    have hlen : rule.split.2.length ≤ rule.pattern.toList.length := by
      rw [Difz.PathFilter.Rule.split]
      split
      · next h => simp [h]
      · exact le_rfl
    rw [Rule.compile, Difz.PathFilter.Rule.compile, Checked.ofExcept_ite]
    dsimp only
    rw [PathFilter.compile_eq (hlen.trans_lt (hfits rule hmem)), ok_bind]
    rfl
  rw [Filter.compile, Difz.PathFilter.Filter.compile, Checked.ofExcept_bind,
    Checked.mapM_eq_ofExcept hrule]
  rfl

end PathFilter

end Machine

end Difz
