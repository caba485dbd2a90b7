import Difz.Extent.Complement
import Difz.Metadata.Normalize
import Difz.Wire.Simulation

/-!
# Sparse files from allocated ranges

Capture of the holes of a file on a system that reports the ranges that hold data
(`holesFromAllocated` and `captureRanges` of `src/native_sparse.zig`). The system answers with
pages and may say anything; every query begins where the last range of the page before ended. The
holes are the gaps between all the ranges, `captureRanges_exact`.
-/

namespace Difz

open Wire
open Metadata (Hole)

namespace Zig

namespace NativeSparse

structure Range where
  offset : Int64
  length : Int64

inductive Error
  | invalidExtents
  | extentReadFailed
  | unsupported
  | other (code : Nat)
  deriving DecidableEq, Repr

/-- Offset and end of a range, in unsigned integers. -/
def Range.bounds (range : Range) : Except Error (Nat × Nat) := do
  ensure (¬(range.offset < 0 ∨ range.length ≤ 0)) .invalidExtents
  let offset := range.offset.toInt.toNat
  let end_ := offset + range.length.toInt.toNat
  ensure (end_ < 2 ^ 64) .invalidExtents
  .ok (offset, end_)

/-- The hole between two offsets. -/
def holeBetween (offset end_ : Nat) : Hole := ⟨UInt64.ofNat offset, UInt64.ofNat (end_ - offset)⟩

def holesLoop (size : Nat) : Nat → List Hole → List Range → Except Error (List Hole)
  | cursor, holes, [] => .ok (if cursor < size then holes ++ [holeBetween cursor size] else holes)
  | cursor, holes, range :: ranges => do
    let (offset, end_) ← range.bounds
    ensure (¬(offset < cursor ∨ offset ≥ size)) .invalidExtents
    let holes := if offset > cursor then holes ++ [holeBetween cursor offset] else holes
    holesLoop size (min size end_) holes ranges

def holesFromAllocated (size : Nat) (ranges : List Range) : Except Error (List Hole) :=
  holesLoop size 0 [] ranges

/-- An answer, with the buffer for the ranges as it is left behind. -/
structure Page where
  count : Nat
  more : Bool
  output : List.Vector Range 128

/-- The ranges of a page whose count was checked. -/
def Page.ranges (page : Page) : List Range := page.output.toList.take page.count

/-- The answer to each query. -/
abbrev Port := Nat → Range → Except Error Page

/-- What is left of the file behind the cursor. -/
def queryAt (size cursor : Nat) : Range := ⟨Int64.ofNat cursor, Int64.ofNat (size - cursor)⟩

/-- The new cursor behind a page that is not the last one. -/
def advance (size cursor : Nat) (page : Page) : Except Error Nat :=
  match page.ranges.getLast? with
  | none => .error .invalidExtents
  | some last => do
    let (_, next) ← last.bounds
    ensure (¬(next ≤ cursor ∨ next > size)) .invalidExtents
    .ok next

/-- How the queries end, unless they fail. -/
inductive Collected
  | unsupported
  | ranges (ranges : List Range)

variable (port : Port) (size : Nat)

/-- The loop over the pages, from a query on. -/
def collect : Nat → Nat → Nat → List Range → Option (Except Error Collected)
  | 0, _, _, _ => none
  | fuel + 1, k, cursor, ranges =>
    if cursor < size then
      match port k (queryAt size cursor) with
      | .error e =>
        some (if e ≠ .unsupported then .error e
          else if cursor ≠ 0 then .error .extentReadFailed
          else .ok .unsupported)
      | .ok page =>
        if page.count > 128 then some (.error .invalidExtents)
        else if !page.more then some (.ok (.ranges (ranges ++ page.ranges)))
        else match advance size cursor page with
          | .error e => some (.error e)
          | .ok next => collect fuel (k + 1) next (ranges ++ page.ranges)
    else some (.ok (.ranges ranges))

/-- Where capture is not supported a file counts as one without holes. -/
def finishRanges : Collected → Except Error (List Hole)
  | .unsupported => .ok []
  | .ranges ranges => holesFromAllocated size ranges

def captureRanges (fuel : Nat) : Option (Except Error (List Hole)) :=
  (collect port size fuel 0 0 []).map fun collected => collected >>= finishRanges size

/-! ### Holes of a list of ranges -/

/-- Nonempty ranges that begin in the file, in order and without overlap. -/
structure Allocated (ranges : List Range) : Prop where
  positive : ∀ r ∈ ranges, 0 ≤ r.offset.toInt ∧ 0 < r.length.toInt
  inside : ∀ r ∈ ranges, r.offset.toInt < size
  apart : ranges.Pairwise fun r s => r.offset.toInt + r.length.toInt ≤ s.offset.toInt

/-- Nonempty holes of the file, in order and apart, which have exactly the offsets that the ranges
leave. -/
structure Complements (ranges : List Range) (holes : List Hole) : Prop where
  positive : ∀ h ∈ holes, 0 < h.length.toNat
  inside : ∀ h ∈ holes, h.end_ ≤ size
  apart : holes.Pairwise Hole.Before
  exact : ∀ x < size, (∃ h ∈ holes, h.offset.toNat ≤ x ∧ x < h.end_) ↔
    ¬∃ r ∈ ranges, r.offset.toInt ≤ x ∧ x < r.offset.toInt + r.length.toInt

def Range.span (range : Range) : Nat × Nat :=
  (range.offset.toInt.toNat, range.offset.toInt.toNat + range.length.toInt.toNat)

variable {port size}

/-- The end of a range always fits, since both of its fields are signed. -/
lemma Range.bounds_eq_ok {range : Range} {span : Nat × Nat} : range.bounds = .ok span ↔
    (0 ≤ range.offset.toInt ∧ 0 < range.length.toInt) ∧ span = range.span := by
  have hoffset := range.offset.toInt_lt
  have hlength := range.length.toInt_lt
  have hfits : range.span.2 < 2 ^ 64 := by
    rw [Range.span]
    omega
  have hsigns : (¬(range.offset < 0 ∨ range.length ≤ 0)) ↔
      0 ≤ range.offset.toInt ∧ 0 < range.length.toInt := by
    rw [Int64.lt_iff_toInt_lt, Int64.le_iff_toInt_le, Int64.toInt_zero]
    omega
  simp only [bounds, bind_eq_ok, ensure_eq_ok, exists_const, Except.ok.injEq, hsigns]
  constructor
  · intro h
    obtain ⟨hpos, -, rfl⟩ := h
    exact ⟨hpos, rfl⟩
  · intro h
    obtain ⟨hpos, rfl⟩ := h
    exact ⟨hpos, hfits, rfl⟩

/-- The clipped end of a range is what the gaps go on from, and a range that fails a check is out
of order. -/
lemma holesLoop_eq_ok {ranges : List Range} {cursor : Nat} {holes result : List Hole} :
    holesLoop size cursor holes ranges = .ok result ↔
      (∀ r ∈ ranges, 0 ≤ r.offset.toInt ∧ 0 < r.length.toInt) ∧
      Extent.Ascends size cursor (ranges.map Range.span) ∧
      result = holes ++ (Extent.gaps size cursor (ranges.map Range.span)).map
        fun gap => holeBetween gap.1 gap.2 := by
  induction ranges generalizing cursor holes with
  | nil =>
    rw [holesLoop, List.map_nil, Extent.gaps]
    split_ifs <;> simp [Extent.Ascends, eq_comm]
  | cons range ranges ih =>
    have hholes : (if range.span.1 > cursor then holes ++ [holeBetween cursor range.span.1]
        else holes) = holes ++ (if cursor < range.span.1 then [(cursor, range.span.1)] else []).map
          fun gap => holeBetween gap.1 gap.2 := by
      split_ifs <;> simp
    simp only [holesLoop, bind_eq_ok, Range.bounds_eq_ok, ensure_eq_ok, exists_const, ih,
      List.map_cons, Extent.Ascends, Extent.gaps, List.forall_mem_cons, List.map_append]
    constructor
    · rintro ⟨span, ⟨hpos, rfl⟩, hat, hrest, hasc, rfl⟩
      have hproper : range.span.1 < range.span.2 := by
        rw [Range.span]
        omega
      refine ⟨⟨hpos, hrest⟩, ⟨by omega, by omega, hproper, hasc⟩, ?_⟩
      rw [hholes, List.append_assoc]
    · rintro ⟨⟨hpos, hrest⟩, ⟨hle, hlt, -, hasc⟩, rfl⟩
      refine ⟨range.span, ⟨hpos, rfl⟩, by omega, hrest, hasc, ?_⟩
      rw [hholes, List.append_assoc]

lemma Range.span_fst {range : Range} (h : 0 ≤ range.offset.toInt) :
    (range.span.1 : Int) = range.offset.toInt := by
  rw [span]
  omega

lemma Range.span_snd {range : Range} (h : 0 ≤ range.offset.toInt) (hpos : 0 < range.length.toInt) :
    (range.span.2 : Int) = range.offset.toInt + range.length.toInt := by
  rw [span]
  omega

lemma allocated_iff {ranges : List Range} : Allocated size ranges ↔
    (∀ r ∈ ranges, 0 ≤ r.offset.toInt ∧ 0 < r.length.toInt) ∧
    Extent.Ascends size 0 (ranges.map Range.span) := by
  rw [Extent.ascends_iff, List.pairwise_map]
  constructor
  · intro h
    refine ⟨h.positive, fun span hspan => ?_, ?_⟩
    · obtain ⟨r, hr, rfl⟩ := List.mem_map.mp hspan
      obtain ⟨hoffset, hlength⟩ := h.positive r hr
      have hfst := Range.span_fst hoffset
      have hsnd := Range.span_snd hoffset hlength
      have hinside := h.inside r hr
      exact ⟨Nat.zero_le _, by omega, by omega⟩
    · refine h.apart.imp_of_mem fun {r s} hr hs happart => ?_
      obtain ⟨hoffset, hlength⟩ := h.positive r hr
      have hsnd := Range.span_snd hoffset hlength
      have hfst := Range.span_fst (h.positive s hs).1
      omega
  · intro h
    obtain ⟨hpos, hinside, happart⟩ := h
    refine ⟨hpos, fun r hr => ?_, happart.imp_of_mem fun {r s} hr hs happart => ?_⟩
    · have hfst := Range.span_fst (hpos r hr).1
      have hlt := (hinside r.span (List.mem_map_of_mem hr)).2.1
      omega
    · obtain ⟨hoffset, hlength⟩ := hpos r hr
      have hsnd := Range.span_snd hoffset hlength
      have hfst := Range.span_fst (hpos s hs).1
      omega

lemma mem_covered_spans {ranges : List Range} (hpos : ∀ r ∈ ranges, 0 ≤ r.offset.toInt ∧
    0 < r.length.toInt) {x : Nat} : x ∈ Extent.covered (ranges.map Range.span) ↔
    ∃ r ∈ ranges, r.offset.toInt ≤ x ∧ x < r.offset.toInt + r.length.toInt := by
  simp only [Extent.mem_covered, List.mem_map, exists_exists_and_eq_and]
  refine exists_congr fun r => and_congr_right fun hr => ?_
  have hfst := Range.span_fst (hpos r hr).1
  have hsnd := Range.span_snd (hpos r hr).1 (hpos r hr).2
  omega

lemma span_holeBetween {offset end_ : Nat} (hlt : offset < end_) (hend : end_ < 2 ^ 64) :
    (holeBetween offset end_).span = (offset, end_) := by
  have hfits : end_ - offset < 2 ^ 64 := by omega
  have hoffset : (UInt64.ofNat offset).toNat = offset := UInt64.toNat_ofNat_of_lt' (hlt.trans hend)
  have hlength : (UInt64.ofNat (end_ - offset)).toNat = end_ - offset :=
    UInt64.toNat_ofNat_of_lt' hfits
  simp only [holeBetween, Hole.span, Hole.end_, hoffset, hlength]
  congr
  omega

/-- The gaps as holes are still the gaps. -/
lemma complements_gaps {ranges : List Range} (hsize : size < 2 ^ 64) (h : Allocated size ranges) :
    Complements size ranges ((Extent.gaps size 0 (ranges.map Range.span)).map
      fun gap => holeBetween gap.1 gap.2) := by
  obtain ⟨hpos, hasc⟩ := allocated_iff.mp h
  have hseparated := Extent.separated_gaps hasc
  have hcovered := Extent.covered_gaps hasc
  have hbounds := fun g hg => (Extent.bounds_of_mem_gaps hasc (g := g) hg).2
  revert hseparated hcovered hbounds
  generalize Extent.gaps size 0 (ranges.map Range.span) = gaps
  intro hseparated hcovered hbounds
  have hspan : ∀ g ∈ gaps, (holeBetween g.1 g.2).span = g := fun g hg =>
    span_holeBetween (hseparated.proper g hg) ((hbounds g hg).trans_lt hsize)
  have hspans : (gaps.map fun gap => holeBetween gap.1 gap.2).map Hole.span = gaps := by
    rw [List.map_map]
    exact (List.map_congr_left hspan).trans (List.map_id _)
  have hinside : ∀ x ∈ gaps.map fun gap => holeBetween gap.1 gap.2, x.end_ ≤ size := by
    intro x hx
    obtain ⟨g, hg, rfl⟩ := List.mem_map.mp hx
    have hend : (holeBetween g.1 g.2).end_ = g.2 := congrArg Prod.snd (hspan g hg)
    exact hend.trans_le (hbounds g hg)
  have hfits := fun x hx => (hinside x hx).trans_lt hsize
  obtain ⟨hproper, happart⟩ := (Metadata.separated_iff hfits).mp (hspans.symm ▸ hseparated)
  refine ⟨fun x hx => ?_, hinside, happart, fun x hx => ?_⟩
  · have hlt := Hole.span_proper (hproper x hx)
    simp only [Hole.span, Hole.end_] at hlt
    omega
  · rw [← mem_covered_spans hpos]
    have hmem : (∃ h ∈ gaps.map fun gap => holeBetween gap.1 gap.2,
        h.offset.toNat ≤ x ∧ x < h.end_) ↔ x ∈ Extent.covered gaps := by
      rw [Extent.mem_covered]
      conv_rhs => rw [← hspans]
      simp [Hole.span]
    rw [hmem, hcovered]
    simp [hx]

lemma holesFromAllocated_eq_ok {ranges : List Range} {holes : List Hole} (hsize : size < 2 ^ 64)
    (h : holesFromAllocated size ranges = .ok holes) :
    Allocated size ranges ∧ Complements size ranges holes := by
  obtain ⟨hpos, hasc, rfl⟩ := holesLoop_eq_ok.mp h
  have hallocated := allocated_iff.mpr ⟨hpos, hasc⟩
  exact ⟨hallocated, complements_gaps hsize hallocated⟩

lemma Allocated.of_append {xs ys : List Range} (h : Allocated size (xs ++ ys)) :
    Allocated size xs where
  positive r hr := h.positive r (List.mem_append_left _ hr)
  inside r hr := h.inside r (List.mem_append_left _ hr)
  apart := (List.pairwise_append.mp h.apart).1

/-! ### The pages of a run -/

variable (port size) in
/-- The queries that are reached, with the ranges of the pages before. -/
inductive Reaches : Nat → Nat → List Range → Prop
  | start : Reaches 0 0 []
  | next {k cursor next : Nat} {ranges : List Range} {page : Page} : Reaches k cursor ranges →
    cursor < size → port k (queryAt size cursor) = .ok page → page.count ≤ 128 → page.more →
    advance size cursor page = .ok next → Reaches (k + 1) next (ranges ++ page.ranges)

variable (port size) in
/-- A page that answers one of the queries. -/
structure Answered (k cursor : Nat) (ranges : List Range) (page : Page) : Prop where
  reached : Reaches port size k cursor ranges
  behind : cursor < size
  answer : port k (queryAt size cursor) = .ok page

variable (port size) in
/-- All the ranges of all the pages, up to the end of the file or to the last page. -/
inductive Collects : List Range → Prop
  | full {k cursor : Nat} {ranges : List Range} : Reaches port size k cursor ranges →
    size ≤ cursor → Collects ranges
  | last {k cursor : Nat} {ranges : List Range} {page : Page} :
    Answered port size k cursor ranges page → page.count ≤ 128 → page.more = false →
    Collects (ranges ++ page.ranges)

/-- The last range of the page ends in the file behind the cursor. -/
def Page.Advances (size cursor : Nat) (page : Page) : Prop :=
  ∃ last ∈ page.ranges.getLast?, 0 ≤ last.offset.toInt ∧ 0 < last.length.toInt ∧
    cursor < last.offset.toInt + last.length.toInt ∧
    last.offset.toInt + last.length.toInt ≤ size

lemma advance_eq_ok {cursor next : Nat} {page : Page} (h : advance size cursor page = .ok next) :
    cursor < next ∧ next ≤ size ∧ page.Advances size cursor := by
  rw [advance] at h
  cases hlast : page.ranges.getLast? with
  | none => simp [hlast] at h
  | some last =>
    simp only [hlast, bind_eq_ok, Range.bounds_eq_ok, ensure_eq_ok, Except.ok.injEq] at h
    obtain ⟨span, ⟨⟨hoffset, hlength⟩, rfl⟩, -, hnext, rfl⟩ := h
    have hsnd := Range.span_snd hoffset hlength
    exact ⟨by omega, by omega, last, hlast, hoffset, hlength, by omega, by omega⟩

/-! ### Runs of the loop -/

/-- Every page but the last one takes the cursor on. -/
lemma exists_collect {fuel k cursor : Nat} {ranges : List Range} (hfuel : size - cursor < fuel) :
    ∃ result, collect port size fuel k cursor ranges = some result := by
  induction fuel generalizing k cursor ranges with
  | zero => omega
  | succ fuel ih =>
    rw [collect]
    by_cases hlt : cursor < size
    · rw [if_pos hlt]
      cases port k (queryAt size cursor) with
      | error e => exact ⟨_, rfl⟩
      | ok page =>
        dsimp only
        split_ifs
        · exact ⟨_, rfl⟩
        · exact ⟨_, rfl⟩
        · cases hnext : advance size cursor page with
          | error e => exact ⟨_, rfl⟩
          | ok next =>
            obtain ⟨hcursor, -, -⟩ := advance_eq_ok hnext
            apply ih
            omega
    · exact ⟨_, if_neg hlt⟩

lemma collect_succ {fuel k cursor : Nat} {ranges : List Range}
    {result : Except Error Collected} (h : collect port size fuel k cursor ranges = some result) :
    collect port size (fuel + 1) k cursor ranges = some result := by
  induction fuel generalizing k cursor ranges with
  | zero => exact absurd h (by simp [collect])
  | succ fuel ih =>
    rw [collect] at h ⊢
    by_cases hlt : cursor < size
    · rw [if_pos hlt] at h ⊢
      cases hanswer : port k (queryAt size cursor) with
      | error e => simpa only [hanswer] using h
      | ok page =>
        simp only [hanswer] at h ⊢
        split_ifs at h ⊢
        · exact h
        · exact h
        · cases hnext : advance size cursor page with
          | error e => simpa only [hnext] using h
          | ok next =>
            simp only [hnext] at h ⊢
            exact ih h
    · rwa [if_neg hlt] at h ⊢

lemma collect_of_le {fuel fuel' k cursor : Nat} {ranges : List Range}
    {result : Except Error Collected} (hle : fuel ≤ fuel')
    (h : collect port size fuel k cursor ranges = some result) :
    collect port size fuel' k cursor ranges = some result := by
  induction hle with
  | refl => exact h
  | step _ ih => exact collect_succ ih

lemma collect_of_reaches {fuel k cursor : Nat} {ranges : List Range}
    (h : Reaches port size k cursor ranges) :
    collect port size (fuel + k) 0 0 [] = collect port size fuel k cursor ranges := by
  induction h generalizing fuel with
  | start => rfl
  | next _ hlt hanswer hcount hmore hnext ih =>
    rw [← Nat.add_assoc, Nat.add_right_comm, ih, collect, if_pos hlt]
    simp only [hanswer, if_neg (not_lt.mpr hcount), hmore, Bool.not_true, hnext]
    rfl

/-- The ranges are never dropped again, and where the loop goes on it does not fall back. -/
lemma collect_eq_ok {fuel k cursor : Nat} {ranges : List Range} {collected : Collected}
    (h : collect port size fuel k cursor ranges = some (.ok collected)) :
    (collected = .unsupported ∧ cursor = 0 ∧ 0 < size ∧
      port k (queryAt size 0) = .error .unsupported) ∨
    ∃ all, collected = .ranges all ∧ ranges <+: all ∧
      (Reaches port size k cursor ranges → Collects port size all) := by
  induction fuel generalizing k cursor ranges with
  | zero => exact absurd h (by simp [collect])
  | succ fuel ih =>
    rw [collect] at h
    by_cases hlt : cursor < size
    · rw [if_pos hlt] at h
      cases hanswer : port k (queryAt size cursor) with
      | error e =>
        simp only [hanswer, Option.some.injEq] at h
        split_ifs at h with he hzero
        obtain rfl := not_not.mp he
        obtain rfl := not_not.mp hzero
        exact .inl ⟨(Except.ok.inj h).symm, rfl, hlt, hanswer⟩
      | ok page =>
        simp only [hanswer] at h
        split_ifs at h with hcount hmore
        · exact absurd h (by simp)
        · obtain rfl := Except.ok.inj (Option.some.inj h)
          refine .inr ⟨_, rfl, List.prefix_append _ _, fun hreached => ?_⟩
          exact .last ⟨hreached, hlt, hanswer⟩ (not_lt.mp hcount) (by simpa using hmore)
        · cases hnext : advance size cursor page with
          | error e => simp [hnext] at h
          | ok next =>
            simp only [hnext] at h
            have hmore : page.more = true := by simpa using hmore
            obtain ⟨-, rfl, -⟩ | ⟨all, rfl, hprefix, hall⟩ := ih h
            · exact absurd (advance_eq_ok hnext).1 (Nat.not_lt_zero _)
            · refine .inr ⟨all, rfl, (List.prefix_append _ _).trans hprefix, fun hreached => ?_⟩
              exact hall (.next hreached hlt hanswer (not_lt.mp hcount) hmore hnext)
    · rw [if_neg hlt] at h
      obtain rfl := Except.ok.inj (Option.some.inj h)
      exact .inr ⟨ranges, rfl, List.prefix_rfl, fun hreached => .full hreached (not_lt.mp hlt)⟩

/-- A page leads to an error unless its count is right, it takes the cursor on or is the last one,
and its ranges are kept. -/
lemma collect_answered {fuel k cursor : Nat} {ranges : List Range} {page : Page}
    {collected : Collected} (hpage : Answered port size k cursor ranges page)
    (h : collect port size (fuel + 1) k cursor ranges = some (.ok collected)) :
    page.count ≤ 128 ∧ (page.more → page.Advances size cursor) ∧
    ∃ all, collected = .ranges all ∧ ranges ++ page.ranges <+: all := by
  rw [collect, if_pos hpage.behind] at h
  simp only [hpage.answer] at h
  split_ifs at h with hcount hmore
  · exact absurd h (by simp)
  · obtain rfl := Except.ok.inj (Option.some.inj h)
    have hmore : page.more = false := by simpa using hmore
    exact ⟨not_lt.mp hcount, by simp [hmore], _, rfl, List.prefix_rfl⟩
  · cases hnext : advance size cursor page with
    | error e => simp [hnext] at h
    | ok next =>
      simp only [hnext] at h
      obtain ⟨hlt, -, hadvances⟩ := advance_eq_ok hnext
      obtain ⟨-, rfl, -⟩ | ⟨all, rfl, hprefix, -⟩ := collect_eq_ok h
      · exact absurd hlt (Nat.not_lt_zero _)
      · exact ⟨not_lt.mp hcount, fun _ => hadvances, all, rfl, hprefix⟩

lemma Collects.exists_collect {ranges : List Range} (h : Collects port size ranges) :
    ∃ fuel, collect port size fuel 0 0 [] = some (.ok (.ranges ranges)) := by
  cases h with
  | full hreached hle =>
    refine ⟨1 + _, (collect_of_reaches hreached).trans ?_⟩
    rw [collect, if_neg (not_lt.mpr hle)]
  | last hpage hcount hmore =>
    refine ⟨1 + _, (collect_of_reaches hpage.reached).trans ?_⟩
    rw [collect, if_pos hpage.behind]
    simp only [hpage.answer, if_neg (not_lt.mpr hcount), hmore]
    rfl

/-- The queries come to an end, whatever the pages say. The holes that are returned are exactly
what the ranges of the pages leave of the file, and wrong ranges or a page that does not go on are
an error. -/
theorem captureRanges_exact (port : Port) (size : Nat) (hsize : size < 2 ^ 63) :
    ∃ result, (∀ fuel > size, captureRanges port size fuel = some result) ∧
      (∀ holes, result = .ok holes →
        (0 < size ∧ port 0 (queryAt size 0) = .error .unsupported ∧ holes = []) ∨
        ∃ ranges, Collects port size ranges ∧ Allocated size ranges ∧
          Complements size ranges holes) ∧
      (∀ ranges, Collects port size ranges → Allocated size ranges →
        ∃ holes, result = .ok holes) ∧
      ∀ k cursor ranges page, Answered port size k cursor ranges page →
        128 < page.count ∨ ¬Allocated size (ranges ++ page.ranges) ∨
        page.more ∧ ¬page.Advances size cursor → ∃ e, result = .error e := by
  obtain ⟨collected, hcollected⟩ : ∃ result, collect port size (size + 1) 0 0 [] = some result :=
    exists_collect (Nat.lt_succ_self size)
  have hsize : size < 2 ^ 64 := by omega
  refine ⟨collected >>= finishRanges size, fun fuel hfuel => ?_, fun holes hok => ?_,
    fun ranges hranges hallocated => ?_, fun k cursor ranges page hpage hwrong => ?_⟩
  · rw [captureRanges, collect_of_le hfuel hcollected]
    rfl
  · obtain ⟨c, rfl, hfinish⟩ := bind_eq_ok.mp hok
    obtain ⟨rfl, -, hpos, hport⟩ | ⟨ranges, rfl, -, hall⟩ := collect_eq_ok hcollected
    · exact .inl ⟨hpos, hport, (Except.ok.inj hfinish).symm⟩
    · obtain ⟨hallocated, hholes⟩ := holesFromAllocated_eq_ok hsize hfinish
      exact .inr ⟨ranges, hall .start, hallocated, hholes⟩
  · obtain ⟨fuel, hfuel⟩ := hranges.exists_collect
    have hsame := (collect_of_le (le_max_left fuel _) hfuel).symm.trans
      (collect_of_le (le_max_right fuel _) hcollected)
    obtain rfl := Option.some.inj hsame
    obtain ⟨hpos, hasc⟩ := allocated_iff.mp hallocated
    exact ⟨_, holesLoop_eq_ok.mpr ⟨hpos, hasc, rfl⟩⟩
  · cases hresult : collected >>= finishRanges size with
    | error e => exact ⟨e, rfl⟩
    | ok holes =>
      obtain ⟨c, rfl, hfinish⟩ := bind_eq_ok.mp hresult
      have hrun := collect_of_le (Nat.le_add_right _ (k + 1)) hcollected
      rw [← Nat.add_assoc, Nat.add_right_comm, collect_of_reaches hpage.reached] at hrun
      obtain ⟨hcount, hadvances, all, rfl, hprefix⟩ := collect_answered hpage hrun
      obtain ⟨hallocated, -⟩ := holesFromAllocated_eq_ok hsize hfinish
      obtain ⟨rest, rfl⟩ := hprefix
      obtain hwrong | hwrong | ⟨hmore, hwrong⟩ := hwrong
      · exact absurd hcount (not_le.mpr hwrong)
      · exact absurd hallocated.of_append hwrong
      · exact absurd (hadvances hmore) hwrong

/-- Two ranges on a first page, one on the last. -/
def twoPages : Port := fun k _ =>
  let page (count : Nat) (more : Bool) (first second : Range) : Page :=
    ⟨count, more, ⟨[first, second] ++ List.replicate 126 ⟨0, 0⟩, rfl⟩⟩
  match k with
  | 0 => .ok (page 2 true ⟨2, 2⟩ ⟨6, 1⟩)
  | 1 => .ok (page 1 false ⟨10, 2⟩ ⟨0, 0⟩)
  | _ => .error (.other 0)

theorem captureRanges_twoPages : ∃ ranges, Collects twoPages 16 ranges ∧
    Complements 16 ranges [⟨0, 2⟩, ⟨4, 2⟩, ⟨7, 3⟩, ⟨12, 4⟩] := by
  have hrun : captureRanges twoPages 16 17 = some (.ok [⟨0, 2⟩, ⟨4, 2⟩, ⟨7, 3⟩, ⟨12, 4⟩]) := rfl
  obtain ⟨result, hresult, hholes, -⟩ := captureRanges_exact twoPages 16 (by norm_num)
  obtain rfl := Option.some.inj (hrun.symm.trans (hresult 17 (by norm_num)))
  obtain ⟨-, hport, -⟩ | ⟨ranges, hall, -, hexact⟩ := hholes _ rfl
  · exact absurd hport (by simp [twoPages])
  · exact ⟨ranges, hall, hexact⟩

end NativeSparse

end Zig

end Difz
