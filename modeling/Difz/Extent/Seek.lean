import Difz.Extent.Allocated

/-!
# Sparse files by seeking

`capture` of `src/native_sparse.zig` on the systems with `SEEK_HOLE` and `SEEK_DATA`, and `punch`.
Whatever the seeks answer, the loop ends and its holes lie in the file, in order. Where they answer
for some layout of the file, the holes are those of the layout; so punching holes that consist of
whole blocks into a file just written gives them back, `capture_exact`.
-/

namespace Difz

open Metadata (Hole)

namespace Zig

namespace NativeSparse

inductive Errno
  | nxio
  | inval
  | opnotsupp
  | other (code : Nat)

inductive Whence
  | hole
  | data

/-- The answer to each call of `lseek`. -/
abbrev Lseek := Nat → Whence → Nat → Except Errno Nat

section Capture

variable (lseek : Lseek) (size : Nat)

/-- Where the data behind a hole begins. -/
def dataBehind (k hole : Nat) : Except Error Nat :=
  match lseek k .data hole with
  | .ok next => .ok (min size next)
  | .error .nxio => .ok size
  | .error .inval | .error .opnotsupp | .error (.other _) => .error .extentReadFailed

def seekLoop : Nat → Nat → Nat → List Hole → Option (Except Error (List Hole))
  | 0, _, _, _ => none
  | fuel + 1, k, cursor, holes =>
    if cursor ≥ size then some (.ok holes)
    else match lseek k .hole cursor with
      | .error .nxio => some (.ok holes)
      -- a file system that does not know holes
      | .error .inval | .error .opnotsupp => some (.ok [])
      | .error (.other _) => some (.error .extentReadFailed)
      | .ok hole =>
        if hole < cursor then some (.error .invalidExtents)
        else if hole ≥ size then some (.ok holes)
        else match dataBehind lseek size (k + 1) hole with
          | .error e => some (.error e)
          | .ok data =>
            if data ≤ hole then some (.error .invalidExtents)
            else seekLoop fuel (k + 2) data (holes ++ [holeBetween hole data])

end Capture

/-- The holes of a file that can be opened. -/
def capture (lseek : Lseek) (size : UInt64) (fuel : Nat) : Option (Except Error (List Hole)) :=
  if size = 0 then some (.ok [])
  else if size.toNat > 2 ^ 63 - 1 then some (.error .invalidExtents)
  else seekLoop lseek size.toNat fuel 0 0 []

/-- What of a file is allocated after a hole was punched: whole blocks of it go. -/
def punchHole (block : Nat) (layout : Nat → Bool) (hole : Hole) (p : Nat) : Bool :=
  layout p && !(hole.offset.toNat ≤ block * (p / block) && block * (p / block) + block ≤ hole.end_)

/-- The loop of `punch`, without a failing call. -/
def punch (block : Nat) (layout : Nat → Bool) (holes : List Hole) : Nat → Bool :=
  holes.foldl (punchHole block) layout

/-! ### What the answers mean -/

/-- The holes lie in the file, one behind the other. -/
structure Ordered (size : Nat) (holes : List Hole) : Prop where
  proper : ∀ h ∈ holes, 0 < h.length.toNat
  inside : ∀ h ∈ holes, h.end_ ≤ size
  ascending : holes.Pairwise fun g h => g.end_ ≤ h.offset.toNat

/-- The seeks answer for one layout of a file, with a hole at its end. -/
structure Faithful (lseek : Lseek) (layout : Nat → Bool) (size : Nat) : Prop where
  hole : ∀ k c, c < size → ∃ p,
    IsLeast {p | c ≤ p ∧ (p < size → layout p = false)} p ∧ lseek k .hole c = .ok p
  data : ∀ k c, c < size →
    (∃ q, IsLeast {q | c ≤ q ∧ q < size ∧ layout q = true} q ∧ lseek k .data c = .ok q) ∨
    (∀ q, c ≤ q → q < size → layout q = false) ∧ lseek k .data c = .error .nxio

/-- The holes of a layout, as few as possible. -/
structure HolesOf (layout : Nat → Bool) (size : Nat) (holes : List Hole) : Prop where
  separated : Extent.Separated (holes.map Hole.span)
  covered : Extent.covered (holes.map Hole.span) = {p | p < size ∧ layout p = false}

section Loop

variable {lseek : Lseek} {size : Nat} {layout : Nat → Bool} {holes : List Hole}
  {fuel fuel' k cursor : Nat}

lemma dataBehind_le {hole data : Nat} (h : dataBehind lseek size k hole = .ok data) :
    data ≤ size := by
  rw [dataBehind] at h
  split at h
  · obtain rfl := Except.ok.inj h
    exact min_le_left _ _
  · exact (Except.ok.inj h).ge
  · exact absurd h (by simp)
  · exact absurd h (by simp)
  · exact absurd h (by simp)

/-- A round ends the loop, or it finds a hole and goes on behind it. -/
lemma seekLoop_cases (lseek : Lseek) (size k cursor : Nat) (holes : List Hole) :
    (∃ result, (∀ fuel, seekLoop lseek size (fuel + 1) k cursor holes = some result) ∧
      ∀ found, result = .ok found → found = holes ∨ found = []) ∨
    ∃ hole data, cursor ≤ hole ∧ hole < data ∧ data ≤ size ∧
      ∀ fuel, seekLoop lseek size (fuel + 1) k cursor holes
        = seekLoop lseek size fuel (k + 2) data (holes ++ [holeBetween hole data]) := by
  simp only [seekLoop]
  split_ifs with hend
  · exact .inl ⟨_, fun _ => rfl, fun found h => .inl (Except.ok.inj h).symm⟩
  · cases hseek : lseek k .hole cursor with
    | error e =>
      cases e with
      | nxio => exact .inl ⟨_, fun _ => rfl, fun found h => .inl (Except.ok.inj h).symm⟩
      | inval => exact .inl ⟨_, fun _ => rfl, fun found h => .inr (Except.ok.inj h).symm⟩
      | opnotsupp => exact .inl ⟨_, fun _ => rfl, fun found h => .inr (Except.ok.inj h).symm⟩
      | other code => exact .inl ⟨_, fun _ => rfl, fun found h => absurd h (by simp)⟩
    | ok hole =>
      dsimp only
      split_ifs with hback hlast
      · exact .inl ⟨_, fun _ => rfl, fun found h => absurd h (by simp)⟩
      · exact .inl ⟨_, fun _ => rfl, fun found h => .inl (Except.ok.inj h).symm⟩
      · cases hdata : dataBehind lseek size (k + 1) hole with
        | error e => exact .inl ⟨_, fun _ => rfl, fun found h => absurd h (by simp)⟩
        | ok data =>
          dsimp only
          split_ifs with hempty
          · exact .inl ⟨_, fun _ => rfl, fun found h => absurd h (by simp)⟩
          · exact .inr ⟨hole, data, not_lt.mp hback, not_le.mp hempty, dataBehind_le hdata,
              fun _ => rfl⟩

/-- Every round goes forward, so the loop ends. -/
lemma exists_seekLoop (hfuel : size - cursor < fuel) :
    ∃ result, seekLoop lseek size fuel k cursor holes = some result := by
  induction fuel generalizing k cursor holes with
  | zero => exact absurd hfuel (Nat.not_lt_zero _)
  | succ fuel ih =>
    rcases seekLoop_cases lseek size k cursor holes with
      ⟨result, hstop, -⟩ | ⟨hole, data, hcursor, hdata, hsize, hgo⟩
    · exact ⟨result, hstop fuel⟩
    · rw [hgo]
      exact ih (by omega)

/-- More fuel changes nothing. -/
lemma seekLoop_of_le {result : Except Error (List Hole)} (hfuel : fuel ≤ fuel')
    (h : seekLoop lseek size fuel k cursor holes = some result) :
    seekLoop lseek size fuel' k cursor holes = some result := by
  induction fuel generalizing fuel' k cursor holes with
  | zero => exact absurd h (by simp [seekLoop])
  | succ fuel ih =>
    obtain ⟨fuel', rfl⟩ : ∃ n, fuel' = n + 1 := ⟨fuel' - 1, by omega⟩
    rcases seekLoop_cases lseek size k cursor holes with ⟨result, hstop, -⟩ | ⟨_, _, -, -, -, hgo⟩
    · rw [hstop] at h ⊢
      exact h
    · rw [hgo] at h ⊢
      exact ih (Nat.le_of_succ_le_succ hfuel) h

lemma holeBetween_bounds {offset end_ : Nat} (hlt : offset < end_) (hend : end_ < 2 ^ 64) :
    (holeBetween offset end_).offset.toNat = offset ∧ (holeBetween offset end_).end_ = end_ :=
  Prod.mk.inj (span_holeBetween hlt hend)

/-- The holes before the cursor stay in order when one behind it joins them. -/
lemma Ordered.append (h : Ordered cursor holes) {hole data : Nat} (hcursor : cursor ≤ hole)
    (hdata : hole < data) (hsize : data < 2 ^ 64) :
    Ordered data (holes ++ [holeBetween hole data]) := by
  obtain ⟨hoffset, hend⟩ := holeBetween_bounds hdata hsize
  refine ⟨fun g hg => ?_, fun g hg => ?_, List.pairwise_append.mpr ⟨h.ascending,
    List.pairwise_singleton _ _, fun g hg x hx => ?_⟩⟩
  · rcases List.mem_append.mp hg with hg | hg
    · exact h.proper g hg
    · obtain rfl := List.mem_singleton.mp hg
      rw [Hole.end_] at hend
      omega
  · rcases List.mem_append.mp hg with hg | hg
    · exact (h.inside g hg).trans (by omega)
    · obtain rfl := List.mem_singleton.mp hg
      exact hend.le
  · obtain rfl := List.mem_singleton.mp hx
    rw [hoffset]
    exact (h.inside g hg).trans hcursor

/-- What is returned lies in the file, in order. -/
lemma ordered_of_seekLoop (hsize : size < 2 ^ 64) (hcursor : cursor ≤ size)
    (hholes : Ordered cursor holes) {found : List Hole}
    (h : seekLoop lseek size fuel k cursor holes = some (.ok found)) : Ordered size found := by
  induction fuel generalizing k cursor holes with
  | zero => exact absurd h (by simp [seekLoop])
  | succ fuel ih =>
    rcases seekLoop_cases lseek size k cursor holes with
      ⟨result, hstop, hresult⟩ | ⟨hole, data, hle, hdata, hfits, hgo⟩
    · rw [hstop] at h
      rcases hresult found (Option.some.inj h) with rfl | rfl
      · exact ⟨hholes.proper, fun g hg => (hholes.inside g hg).trans hcursor, hholes.ascending⟩
      · exact ⟨by simp, by simp, .nil⟩
    · rw [hgo] at h
      exact ih hfits (hholes.append hle hdata (by omega)) h

/-- The holes before the cursor have been found, and the last of them ends where data begins. -/
structure Found (layout : Nat → Bool) (size cursor : Nat) (holes : List Hole) : Prop where
  bounded : cursor ≤ size
  separated : Extent.Separated (holes.map Hole.span)
  covered : Extent.covered (holes.map Hole.span) = {p | p < cursor ∧ layout p = false}
  inside : ∀ i ∈ holes.map Hole.span, i.2 ≤ cursor
  data : holes ≠ [] → cursor < size → layout cursor = true

/-- A layout without holes behind the cursor. -/
lemma Found.holesOf (h : Found layout size cursor holes)
    (hall : ∀ p, cursor ≤ p → p < size → layout p = true) : HolesOf layout size holes := by
  refine ⟨h.separated, h.covered.trans (Set.ext fun p => ?_)⟩
  refine ⟨fun hp => ⟨hp.1.trans_le h.bounded, hp.2⟩, fun hp => ⟨?_, hp.2⟩⟩
  by_contra hlt
  have htrue := hall p (not_lt.mp hlt) hp.1
  exact absurd (htrue.symm.trans hp.2) (by simp)

/-- The next hole, and the data behind it. -/
lemma Found.append (h : Found layout size cursor holes) (hsize : size < 2 ^ 64) {hole data : Nat}
    (hcursor : cursor ≤ hole) (hdata : hole < data) (hfits : data ≤ size)
    (hbefore : ∀ p, cursor ≤ p → p < hole → layout p = true)
    (hwithin : ∀ p, hole ≤ p → p < data → layout p = false)
    (hbehind : data < size → layout data = true) :
    Found layout size data (holes ++ [holeBetween hole data]) := by
  have hspan := span_holeBetween hdata (hfits.trans_lt hsize)
  have hmap : (holes ++ [holeBetween hole data]).map Hole.span
      = holes.map Hole.span ++ [(hole, data)] := by
    rw [List.map_append, List.map_singleton, hspan]
  refine ⟨hfits, ?_, ?_, ?_, fun _ => hbehind⟩
  · rw [hmap]
    refine h.separated.append_singleton hdata fun i hi => ?_
    have hend := h.inside i hi
    refine lt_of_le_of_ne (hend.trans hcursor) fun heq => ?_
    -- a hole that begins at the cursor would follow data
    have hsame : cursor = hole := le_antisymm hcursor ((show i.2 = hole from heq) ▸ hend)
    have hne : holes ≠ [] := fun hnil => absurd hi (by simp [hnil])
    have htrue := h.data hne (by omega)
    have hfalse := hwithin hole le_rfl hdata
    rw [hsame, hfalse] at htrue
    exact absurd htrue (by simp)
  · rw [hmap, Extent.covered_append, h.covered, Extent.covered_singleton]
    ext p
    simp only [Set.mem_union, Set.mem_ofPred_eq, Set.mem_Ico]
    constructor
    · rintro (⟨hlt, hp⟩ | ⟨hle, hlt⟩)
      · exact ⟨by omega, hp⟩
      · exact ⟨hlt, hwithin p hle hlt⟩
    · rintro ⟨hlt, hp⟩
      by_cases hfirst : p < cursor
      · exact .inl ⟨hfirst, hp⟩
      · refine .inr ⟨?_, hlt⟩
        by_contra hle
        have htrue := hbefore p (not_lt.mp hfirst) (not_le.mp hle)
        exact absurd (htrue.symm.trans hp) (by simp)
  · rw [hmap]
    intro i hi
    rcases List.mem_append.mp hi with hi | hi
    · have hend := h.inside i hi
      omega
    · obtain rfl := List.mem_singleton.mp hi
      exact le_rfl

/-- Seeks that answer for a layout find the holes of the layout. -/
lemma seekLoop_of_faithful (hf : Faithful lseek layout size) (hsize : size < 2 ^ 64)
    (hfuel : size - cursor < fuel) (h : Found layout size cursor holes) :
    ∃ found, seekLoop lseek size fuel k cursor holes = some (.ok found) ∧
      HolesOf layout size found := by
  induction fuel generalizing k cursor holes with
  | zero => exact absurd hfuel (Nat.not_lt_zero _)
  | succ fuel ih =>
    rw [seekLoop]
    split_ifs with hend
    · exact ⟨holes, rfl, h.holesOf fun p hle hlt => absurd hlt (by omega)⟩
    · obtain ⟨hole, ⟨⟨hcursor, hhole⟩, hleast⟩, hseek⟩ := hf.hole k cursor (not_le.mp hend)
      have hbefore : ∀ p, cursor ≤ p → p < hole → layout p = true := by
        intro p hle hlt
        by_contra hp
        exact absurd (hleast ⟨hle, fun _ => by simpa using hp⟩) (not_le.mpr hlt)
      rw [hseek]
      dsimp only
      rw [if_neg (not_lt.mpr hcursor)]
      split_ifs with hlast
      · exact ⟨holes, rfl, h.holesOf fun p hle hlt => hbefore p hle (hlt.trans_le hlast)⟩
      · have hfirst : layout hole = false := hhole (not_le.mp hlast)
        rcases hf.data (k + 1) hole (not_le.mp hlast) with
          ⟨next, ⟨⟨hnext, hfits, hallocated⟩, hleast'⟩, hdata⟩ | ⟨hnone, hdata⟩
        · have hmin : min size next = next := min_eq_right hfits.le
          have hlt : hole < next := by
            refine lt_of_le_of_ne hnext fun heq => ?_
            rw [heq, hallocated] at hfirst
            exact absurd hfirst (by simp)
          rw [dataBehind, hdata]
          dsimp only
          rw [hmin, if_neg (not_le.mpr hlt)]
          refine ih (by omega) (h.append hsize hcursor hlt hfits.le hbefore (fun p hle hp => ?_)
            fun _ => hallocated)
          by_contra hne
          exact absurd (hleast' ⟨hle, hp.trans hfits, by simpa using hne⟩) (not_le.mpr hp)
        · rw [dataBehind, hdata]
          dsimp only
          rw [if_neg hlast]
          refine ih (by omega) (h.append hsize hcursor (not_le.mp hlast) le_rfl hbefore hnone
            fun hlt => absurd hlt (lt_irrefl _))

/-! ### Punching -/

/-- Whole blocks of a hole are gone, and nothing else. -/
lemma punch_eq_false {block : Nat} (hblock : 0 < block)
    (haligned : ∀ h ∈ holes, block ∣ h.offset.toNat ∧ block ∣ h.length.toNat) (p : Nat) :
    punch block layout holes p = false ↔
      layout p = false ∨ p ∈ Extent.covered (holes.map Hole.span) := by
  induction holes generalizing layout with
  | nil => simp [punch]
  | cons h holes ih =>
    obtain ⟨⟨m, hm⟩, ⟨n, hn⟩⟩ := haligned h (by simp)
    have hrest : punch block (punchHole block layout h) holes p = false ↔
        punchHole block layout h p = false ∨ p ∈ Extent.covered (holes.map Hole.span) :=
      ih fun x hx => haligned x (by simp [hx])
    have hwhole : h.offset.toNat ≤ block * (p / block) ∧
        block * (p / block) + block ≤ h.end_ ↔ h.offset.toNat ≤ p ∧ p < h.end_ := by
      rw [Hole.end_, hm, hn, ← Nat.mul_add, ← Nat.mul_succ, Nat.mul_le_mul_left_iff hblock,
        Nat.mul_le_mul_left_iff hblock, Nat.le_div_iff_mul_le hblock, Nat.succ_le_iff,
        Nat.div_lt_iff_lt_mul hblock, Nat.mul_comm m, Nat.mul_comm (m + n)]
    have hhead : punchHole block layout h p = false ↔
        layout p = false ∨ h.offset.toNat ≤ p ∧ p < h.end_ := by
      rw [← hwhole, punchHole]
      simp [or_iff_not_imp_left]
    have hfold : punch block layout (h :: holes) = punch block (punchHole block layout h) holes :=
      rfl
    rw [hfold, hrest, hhead, or_assoc]
    refine or_congr_right ?_
    simp only [Extent.mem_covered, List.map_cons, List.mem_cons, exists_eq_or_imp, Hole.span]

/-- Two lists of the holes of one layout are one list. -/
lemma HolesOf.unique {found : List Hole} (h : HolesOf layout size holes)
    (h' : HolesOf layout size found) : found = holes := by
  have hspans := Extent.Separated.eq_of_covered_eq h'.separated h.separated
    (h'.covered.trans h.covered.symm)
  exact List.map_injective_iff.mpr Hole.span_injective hspans

/-- Aligned holes are what is missing of a file after they were punched. -/
lemma holesOf_punch {block : Nat} (hblock : 0 < block)
    (hseparated : Extent.Separated (holes.map Hole.span)) (hinside : ∀ h ∈ holes, h.end_ ≤ size)
    (haligned : ∀ h ∈ holes, block ∣ h.offset.toNat ∧ block ∣ h.length.toNat) :
    HolesOf (punch block (fun _ => true) holes) size holes := by
  refine ⟨hseparated, Set.ext fun p => ?_⟩
  rw [Set.mem_ofPred_eq, punch_eq_false hblock haligned]
  refine ⟨fun hp => ⟨?_, .inr hp⟩, fun hp => hp.2.resolve_left (by simp)⟩
  obtain ⟨i, hi, -, hlt⟩ := Extent.mem_covered.mp hp
  obtain ⟨h, hh, rfl⟩ := List.mem_map.mp hi
  exact hlt.trans_le (hinside h hh)

end Loop

/-! ### The capture -/

/-- The capture ends, whatever the seeks answer, with an error or with holes that lie in the file one
behind the other. Where the seeks answer for a layout, the holes are those of the layout; where the
layout is that of a new file into which aligned holes were punched, they are these holes. -/
theorem capture_exact (lseek : Lseek) (size : UInt64) :
    ∃ result, (∀ fuel > size.toNat, capture lseek size fuel = some result) ∧
      (∀ holes, result = .ok holes → Ordered size.toNat holes) ∧
      (size.toNat < 2 ^ 63 →
        (∀ layout, Faithful lseek layout size.toNat →
          ∃ holes, result = .ok holes ∧ HolesOf layout size.toNat holes) ∧
        ∀ block > 0, ∀ holes : List Hole, Extent.Separated (holes.map Hole.span) →
          (∀ h ∈ holes, h.end_ ≤ size.toNat) →
          (∀ h ∈ holes, block ∣ h.offset.toNat ∧ block ∣ h.length.toNat) →
          Faithful lseek (punch block (fun _ => true) holes) size.toNat → result = .ok holes) := by
  have hsize : size.toNat < 2 ^ 64 := size.toNat_lt
  by_cases hlarge : size.toNat > 2 ^ 63 - 1
  · have hne : size ≠ 0 := by
      rintro rfl
      exact absurd hlarge (by decide)
    refine ⟨.error .invalidExtents, fun fuel _ => ?_, fun holes h => absurd h (by simp),
      fun hsmall => absurd hsmall (by omega)⟩
    rw [capture, if_neg hne, if_pos hlarge]
  obtain ⟨result, hresult⟩ : ∃ result,
      seekLoop lseek size.toNat (size.toNat + 1) 0 0 [] = some result :=
    exists_seekLoop (Nat.lt_succ_self _)
  have hfound : ∀ layout, Found layout size.toNat 0 [] := fun layout =>
    ⟨Nat.zero_le _, .nil, by simp, by simp, fun hne => absurd rfl hne⟩
  have hlayout : ∀ layout, Faithful lseek layout size.toNat →
      ∃ holes, result = .ok holes ∧ HolesOf layout size.toNat holes := by
    intro layout hf
    obtain ⟨holes, hrun, hholes⟩ := seekLoop_of_faithful hf hsize (Nat.lt_succ_self _)
      (hfound layout)
    exact ⟨holes, Option.some.inj (hresult.symm.trans hrun), hholes⟩
  refine ⟨result, fun fuel hfuel => ?_, fun holes h => ?_, fun _ => ⟨hlayout, ?_⟩⟩
  · have hrun := seekLoop_of_le hfuel hresult
    rw [capture]
    split_ifs with hzero
    · obtain ⟨fuel, rfl⟩ : ∃ n, fuel = n + 1 := ⟨fuel - 1, by omega⟩
      rw [hzero] at hrun
      exact hrun
    · exact hrun
  · subst h
    exact ordered_of_seekLoop hsize (Nat.zero_le _) ⟨by simp, by simp, .nil⟩ hresult
  · intro block hblock holes hseparated hinside haligned hf
    obtain ⟨found, hok, hholes⟩ := hlayout _ hf
    rw [hok, (holesOf_punch hblock hseparated hinside haligned).unique hholes]

/-- A system that answers for a layout. -/
def seekIn (layout : Nat → Bool) (size : Nat) : Lseek := fun _ whence c =>
  match whence with
  | .hole => .ok (((List.range' c (size - c)).find? fun p => !layout p).getD size)
  | .data => match (List.range' c (size - c)).find? layout with
    | some q => .ok q
    | none => .error .nxio

lemma faithful_seekIn (layout : Nat → Bool) (size : Nat) :
    Faithful (seekIn layout size) layout size := by
  constructor
  · intro k c hc
    cases hfind : (List.range' c (size - c)).find? fun p => !layout p with
    | none =>
      rw [List.find?_range'_eq_none] at hfind
      refine ⟨size, ⟨⟨hc.le, fun h => absurd h (lt_irrefl _)⟩, fun q hq => ?_⟩, by
        simp only [seekIn, List.find?_range'_eq_none.mpr hfind, Option.getD_none]⟩
      by_contra hlt
      have htrue := hfind q hq.1 (by omega)
      simp [hq.2 (not_le.mp hlt)] at htrue
    | some p =>
      have hp := List.find?_range'_eq_some.mp hfind
      simp only [List.mem_range'_1] at hp
      obtain ⟨hfalse, ⟨hle, hlt⟩, hleast⟩ := hp
      refine ⟨p, ⟨⟨hle, fun _ => by simpa using hfalse⟩, fun q hq => ?_⟩, by
        simp only [seekIn, hfind, Option.getD_some]⟩
      by_contra hbefore
      have htrue := hleast q hq.1 (not_le.mp hbefore)
      simp [hq.2 (by omega)] at htrue
  · intro k c hc
    cases hfind : (List.range' c (size - c)).find? layout with
    | none =>
      refine .inr ⟨fun q hle hlt => ?_, by simp only [seekIn, hfind]⟩
      have hfalse := List.find?_range'_eq_none.mp hfind q hle (by omega)
      simpa using hfalse
    | some q =>
      have hq := List.find?_range'_eq_some.mp hfind
      simp only [List.mem_range'_1] at hq
      obtain ⟨htrue, ⟨hle, hlt⟩, hleast⟩ := hq
      refine .inl ⟨q, ⟨⟨hle, by omega, htrue⟩, fun x hx => ?_⟩, by simp only [seekIn, hfind]⟩
      by_contra hbefore
      have hfalse := hleast x hx.1 (not_le.mp hbefore)
      simp [hx.2.2] at hfalse

/-- Two punched ranges of a file that is no whole number of blocks long. -/
theorem capture_exact_punched :
    capture (seekIn (punch 4 (fun _ => true) [⟨4, 8⟩, ⟨20, 4⟩]) 26) 26 27
      = some (.ok [⟨4, 8⟩, ⟨20, 4⟩]) := by
  obtain ⟨result, hrun, -, hfaithful⟩ :=
    capture_exact (seekIn (punch 4 (fun _ => true) [⟨4, 8⟩, ⟨20, 4⟩]) 26) 26
  have hresult : result = .ok [⟨4, 8⟩, ⟨20, 4⟩] :=
    (hfaithful (by decide)).2 4 (by decide) _ ⟨by decide, by decide⟩ (by decide) (by decide)
      (faithful_seekIn _ _)
  rw [hrun 27 (by decide), hresult]

end NativeSparse

end Zig

end Difz
