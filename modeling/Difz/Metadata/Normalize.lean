import Difz.Extent.Union
import Difz.Metadata.Sorted
import Difz.Wire.Checked

/-!
# Normalizing a raw record

`CanonicalMetadata::normalize` (`rust/src/metadata_canonical.rs`): families are cleared, each list
is checked and sorted, and the extents are merged in place. The sorts are unstable, so a sort here
is any function that returns a sorted permutation, and nothing may depend on which one it is.
Arithmetic that would overflow and indices out of bounds stop the program.
-/

namespace Difz

open Wire

namespace Metadata

/-! ### Sorting -/

/-- An unstable sort. -/
structure Sorter {α : Type} (le : α → α → Prop) where
  run : List α → List α
  perm : ∀ xs, (run xs).Perm xs
  sorted : ∀ xs, (run xs).Pairwise le

/-- The order by key, equal keys in any order. -/
def KeyLe {α : Type} (key : α → List UInt8) (a b : α) : Prop := compare (key a) (key b) ≠ .gt

def Hole.OffsetLe (a b : Hole) : Prop := a.offset ≤ b.offset

/-- The three sorts of `normalize`. -/
structure Sorts where
  xattrs : Sorter (KeyLe Xattr.key)
  aces : Sorter (KeyLe Ace.key)
  holes : Sorter Hole.OffsetLe

/-- Merge sort is such a sort. -/
def Sorter.merge {α : Type} {le : α → α → Prop} (test : α → α → Bool)
    (htrans : ∀ a b c, test a b → test b c → test a c) (htotal : ∀ a b, test a b || test b a)
    (htest : ∀ a b, test a b → le a b) : Sorter le where
  run xs := xs.mergeSort test
  perm xs := List.mergeSort_perm xs test
  sorted xs := (List.pairwise_mergeSort htrans htotal xs).imp (htest _ _)

def Sorter.byKey {α : Type} (key : α → List UInt8) : Sorter (KeyLe key) :=
  .merge (fun a b => (compare (key a) (key b)).isLE) (fun _ _ _ => Std.TransCmp.isLE_trans)
    (fun a b => by
      have hswap : compare (key a) (key b) = (compare (key b) (key a)).swap :=
        Std.OrientedCmp.eq_swap
      rw [hswap]
      cases compare (key b) (key a) <;> rfl)
    (fun a b h => by
      rw [KeyLe]
      cases hc : compare (key a) (key b) <;> simp_all)

lemma Sorter.run_byKey {α : Type} (key : α → List UInt8) (xs : List α) :
    (Sorter.byKey key).run xs = xs.mergeSort fun a b => !(compare (key b) (key a) == .lt) := by
  have hle : (fun a b : α => !(compare (key b) (key a) == .lt))
      = fun a b => (compare (key a) (key b)).isLE := by
    funext a b
    have hswap : compare (key a) (key b) = (compare (key b) (key a)).swap :=
      Std.OrientedCmp.eq_swap
    rw [hswap]
    cases compare (key b) (key a) <;> rfl
  rw [hle]
  rfl

def Sorts.merge : Sorts where
  xattrs := .byKey Xattr.key
  aces := .byKey Ace.key
  holes := .merge (fun a b => decide (a.offset ≤ b.offset))
    (fun a b c hab hbc => by simp only [decide_eq_true_eq] at *; exact UInt64.le_trans hab hbc)
    (fun a b => by simpa using UInt64.le_total a.offset b.offset)
    (fun a b h => show a.offset ≤ b.offset by simpa using h)

/-! ### Clearing families -/

def clearFamily (m : Metadata) : Family → Metadata
  | .xattr => { m with xattrs := [] }
  | .acl => { m with aces := [], nativeAcl := none }
  | .timestamps => { m with times := Times.default }
  | .finder => { m with finderFlags := 0, finderInfo := none }
  | .sparse => { m with holes := [] }
  | .hardlink => { m with hardlinkTo := none }

def clear (m : Metadata) (mask : Omit) : Metadata :=
  Family.all.foldl (fun m family => if mask.contains family then m.clearFamily family else m) m

/-- One round, field by field. -/
lemma clearFamily_when (omitted : Bool) (m : Metadata) (family : Family) :
    (if omitted then m.clearFamily family else m) =
      { xattrs := if omitted ∧ family = .xattr then [] else m.xattrs
        aces := if omitted ∧ family = .acl then [] else m.aces
        nativeAcl := if omitted ∧ family = .acl then none else m.nativeAcl
        times := if omitted ∧ family = .timestamps then Times.default else m.times
        finderFlags := if omitted ∧ family = .finder then 0 else m.finderFlags
        finderInfo := if omitted ∧ family = .finder then none else m.finderInfo
        holes := if omitted ∧ family = .sparse then [] else m.holes
        hardlinkTo := if omitted ∧ family = .hardlink then none else m.hardlinkTo } := by
  cases omitted <;> cases family <;> rfl

/-- Clearing in place leaves what copying the other families leaves. -/
lemma clear_eq (m : Metadata) (mask : Omit) : m.clear mask = m.retain mask := by
  rw [retain_eq, clear]
  simp only [clearFamily_when, Family.all, List.foldl, reduceCtorEq, and_false, and_true, if_false]

/-! ### Attributes and access lists -/

/-- Check every item, sort, and refuse neighbours with the same key. -/
def sortUnique {α : Type} {key : α → List UInt8} (sort : Sorter (KeyLe key))
    (check : α → Except Error Unit) (duplicate : Error) (items : List α) :
    Except Error (List α) := do
  wireLength items.length
  items.forM check
  let sorted := sort.run items
  forPrevious (fun previous x =>
    if previous.any (fun p => key p == key x) then .error duplicate else .ok ()) none sorted
  .ok sorted

def sortXattrs (sorts : Sorts) : List Xattr → Except Error (List Xattr) :=
  sortUnique sorts.xattrs Xattr.check .duplicateXattr

def sortAces (sorts : Sorts) : List Ace → Except Error (List Ace) :=
  sortUnique sorts.aces Ace.check .duplicateAce

/-! ### Extents -/

/-- `a + b` on `u64`. -/
def addU64 (a b : UInt64) : Except (Halt Error) UInt64 :=
  if a.toNat + b.toNat < 2 ^ 64 then .ok (a + b) else .error .panic

/-- `a - b` on `u64`. -/
def subU64 (a b : UInt64) : Except (Halt Error) UInt64 :=
  if b ≤ a then .ok (a - b) else .error .panic

/-- `holes[index]` -/
def holeAt (holes : List Hole) (index : Nat) : Except (Halt Error) Hole :=
  match holes[index]? with
  | some hole => .ok hole
  | none => .error .panic

/-- `holes[count] = hole; count += 1` -/
def storeHole (holes : List Hole) (count : Nat) (hole : Hole) :
    Except (Halt Error) (List Hole × Nat) :=
  if count < holes.length then .ok (holes.set count hole, count + 1) else .error .panic

/-- Grow the last extent that was kept, where the extent at hand touches it. -/
def growHole (holes : List Hole) (count : Nat) (hole : Hole) (end_ : UInt64) :
    Except (Halt Error) (List Hole × Nat) := do
  let previous ← holeAt holes (count - 1)
  let previousEnd ← addU64 previous.offset previous.length
  if hole.offset ≤ previousEnd then do
    let length ← subU64 (max previousEnd end_) previous.offset
    .ok (holes.set (count - 1) { previous with length }, count)
  else storeHole holes count hole

/-- One round of the loop, on the array and the number of extents kept so far. -/
def mergeStep (state : List Hole × Nat) (index : Nat) : Except (Halt Error) (List Hole × Nat) := do
  let hole ← holeAt state.1 index
  let end_ ← addU64 hole.offset hole.length
  if state.2 ≠ 0 then growHole state.1 state.2 hole end_ else storeHole state.1 state.2 hole

def mergeHoles (holes : List Hole) : Except (Halt Error) (List Hole) := do
  let state ← (List.range holes.length).foldlM mergeStep (holes, 0)
  .ok (state.1.take state.2)

def checkExtent (hole : Hole) : Except Error Unit :=
  if hole.length = 0 then .error .zeroLengthHole
  else if hole.offset.toNat + hole.length.toNat ≥ 2 ^ 64 then .error .holeOverflow
  else .ok ()

def normalizeHoles (sorts : Sorts) (holes : List Hole) : Except (Halt Error) (List Hole) := do
  (wireLength holes.length).mapError Halt.error
  (holes.forM checkExtent).mapError Halt.error
  mergeHoles (sorts.holes.run holes)

end Metadata

open Metadata

/-- `CanonicalMetadata::normalize`. -/
def CanonicalMetadata.normalize (sorts : Sorts) (m : Metadata) (mask : Omit) :
    Except (Halt Error) CanonicalMetadata := do
  let m := m.clear mask
  let xattrs ← (sortXattrs sorts m.xattrs).mapError Halt.error
  let aces ← (sortAces sorts m.aces).mapError Halt.error
  (checkNativeAcl m.nativeAcl).mapError Halt.error
  (checkTimes m.times).mapError Halt.error
  let holes ← normalizeHoles sorts m.holes
  (CanonicalMetadata.new { m with xattrs, aces, holes }).mapError Halt.error

namespace Metadata

/-! ### The in-place merge -/

/-- An extent as a half-open interval of offsets. -/
def Hole.span (h : Hole) : Nat × Nat := (h.offset.toNat, h.end_)

lemma Hole.span_injective : Function.Injective Hole.span := by
  intro a b h
  obtain ⟨hoffset, hend⟩ := Prod.mk.inj h
  have hoffset : a.offset.toNat = b.offset.toNat := hoffset
  have hlength : a.length.toNat = b.length.toNat := by
    simp only [Hole.end_] at hend
    omega
  cases a
  cases b
  simp_all [UInt64.toNat_inj]

lemma Hole.span_proper {h : Hole} (hh : h.Proper) : h.span.1 < h.span.2 := by
  have hpos : h.length.toNat ≠ 0 := fun hz => hh.1 (UInt64.toNat_inj.mp hz)
  simp only [Hole.span, Hole.end_]
  omega

/-- A list of extents is separated as a list of intervals. -/
lemma separated_iff {holes : List Hole} (hend : ∀ h ∈ holes, h.end_ < 2 ^ 64) :
    Extent.Separated (holes.map Hole.span) ↔
      (∀ h ∈ holes, h.Proper) ∧ holes.Pairwise Hole.Before := by
  constructor
  · intro h
    refine ⟨fun x hx => ⟨fun hzero => ?_, hend x hx⟩, ?_⟩
    · have hlt := h.proper x.span (List.mem_map_of_mem hx)
      simp [Hole.span, Hole.end_, hzero] at hlt
    · have happart := List.pairwise_map.mp h.apart
      exact happart
  · intro h
    refine ⟨fun i hi => ?_, List.pairwise_map.mpr h.2⟩
    obtain ⟨x, hx, rfl⟩ := List.mem_map.mp hi
    exact Hole.span_proper (h.1 x hx)

lemma toNat_max (a b : UInt64) : (max a b).toNat = max a.toNat b.toNat := by
  have hmax : max a b = if a ≤ b then b else a := rfl
  rw [hmax, max_def]
  simp only [UInt64.le_iff_toNat_le]
  split_ifs <;> rfl

lemma addU64_eq {a b : UInt64} (h : a.toNat + b.toNat < 2 ^ 64) :
    ∃ c, addU64 a b = .ok c ∧ c.toNat = a.toNat + b.toNat := by
  refine ⟨a + b, if_pos h, ?_⟩
  rw [UInt64.toNat_add, Nat.mod_eq_of_lt h]

lemma subU64_eq {a b : UInt64} (h : b.toNat ≤ a.toNat) :
    ∃ c, subU64 a b = .ok c ∧ c.toNat = a.toNat - b.toNat := by
  have hle : b ≤ a := UInt64.le_iff_toNat_le.mpr h
  exact ⟨a - b, if_pos hle, UInt64.toNat_sub_of_le _ _ hle⟩

/-- The array after some rounds: a part that was kept, and behind it what is still to be read. -/
structure Merging (sorted : List Hole) (index : Nat) (state : List Hole × Nat) : Prop where
  length : state.1.length = sorted.length
  rest : state.1.drop index = sorted.drop index
  kept : state.2 ≤ index
  joined : (state.1.take state.2).map Hole.span
    = Extent.joinAll ((sorted.take index).map Hole.span)

lemma take_set_succ {α : Type} {xs : List α} {n : Nat} (h : n < xs.length) (x : α) :
    (xs.set n x).take (n + 1) = xs.take n ++ [x] := by
  rw [List.take_succ_eq_append_getElem (by simpa using h), List.take_set_of_le le_rfl,
    List.getElem_set_self]

namespace Merging

variable {sorted : List Hole} {index : Nat} {state : List Hole × Nat}

lemma holeAt_eq (h : Merging sorted index state) {hole : Hole} (hole_at : sorted[index]? = some hole) :
    holeAt state.1 index = .ok hole := by
  have hsame : state.1[index]? = sorted[index]? := by
    have hrest := congrArg (fun xs : List Hole => xs[0]?) h.rest
    simpa using hrest
  rw [holeAt, hsame, hole_at]

lemma take_succ {hole : Hole} (hole_at : sorted[index]? = some hole) :
    (sorted.take (index + 1)).map Hole.span = (sorted.take index).map Hole.span ++ [hole.span] := by
  obtain ⟨hlt, rfl⟩ := List.getElem?_eq_some_iff.mp hole_at
  rw [List.take_succ_eq_append_getElem hlt, List.map_append, List.map_singleton]

lemma rest_succ (h : Merging sorted index state) :
    state.1.drop (index + 1) = sorted.drop (index + 1) := by
  rw [← List.drop_drop, ← List.drop_drop, h.rest]

/-- Keep the extent at hand. -/
lemma store (h : Merging sorted index state) {hole : Hole} (hole_at : sorted[index]? = some hole)
    (hjoin : Extent.join (Extent.joinAll ((sorted.take index).map Hole.span)) hole.span
      = Extent.joinAll ((sorted.take index).map Hole.span) ++ [hole.span]) :
    ∃ state', storeHole state.1 state.2 hole = .ok state' ∧ Merging sorted (index + 1) state' := by
  obtain ⟨hlt, -⟩ := List.getElem?_eq_some_iff.mp hole_at
  have hcount : state.2 < state.1.length := by
    have hkept := h.kept
    have hlength := h.length
    omega
  refine ⟨_, if_pos hcount, ?_, ?_, ?_, ?_⟩
  · rw [List.length_set, h.length]
  · dsimp only
    rw [List.drop_set_of_lt (Nat.lt_succ_of_le h.kept), h.rest_succ]
  · exact Nat.succ_le_succ h.kept
  · dsimp only
    rw [take_set_succ hcount, List.map_append, List.map_singleton, h.joined, take_succ hole_at,
      Extent.joinAll_append, hjoin]

/-- The last extent that was kept, seen as an interval. -/
lemma exists_previous (h : Merging sorted index state) (hcount : state.2 ≠ 0)
    (hindex : index ≤ sorted.length) :
    ∃ previous, holeAt state.1 (state.2 - 1) = .ok previous ∧
      Extent.joinAll ((sorted.take index).map Hole.span)
        = (state.1.take (state.2 - 1)).map Hole.span ++ [previous.span] := by
  have hlt : state.2 - 1 < state.1.length := by
    have hkept := h.kept
    have hlength := h.length
    omega
  have htake : state.1.take state.2 = state.1.take (state.2 - 1) ++ [state.1[state.2 - 1]] := by
    conv_lhs => rw [← Nat.sub_add_cancel (Nat.one_le_iff_ne_zero.mpr hcount)]
    exact List.take_succ_eq_append_getElem hlt
  refine ⟨state.1[state.2 - 1], ?_, ?_⟩
  · rw [holeAt, List.getElem?_eq_getElem hlt]
  · rw [← h.joined, htake, List.map_append, List.map_singleton]

/-- The end of the last interval is the end of an extent that was read. -/
lemma previous_fits (hproper : ∀ x ∈ sorted, x.Proper) {previous : Hole} {xs : List (Nat × Nat)}
    (hjoined : Extent.joinAll ((sorted.take index).map Hole.span) = xs ++ [previous.span]) :
    previous.end_ < 2 ^ 64 := by
  have hmem : previous.span ∈ Extent.joinAll ((sorted.take index).map Hole.span) := by
    rw [hjoined]
    simp
  obtain ⟨-, j, hj, hfinish⟩ := Extent.mem_joinAll hmem
  obtain ⟨y, hy, rfl⟩ := List.mem_map.mp hj
  have hfits : y.span.2 < 2 ^ 64 := (hproper y (List.mem_of_mem_take hy)).2
  rwa [hfinish] at hfits

/-- Replace the last extent that was kept by one that reaches over the extent at hand. -/
lemma grow (h : Merging sorted index state) {hole previous grown : Hole}
    (hole_at : sorted[index]? = some hole) (hcount : state.2 ≠ 0)
    (htouch : hole.span.1 ≤ previous.span.2)
    (hjoined : Extent.joinAll ((sorted.take index).map Hole.span)
      = (state.1.take (state.2 - 1)).map Hole.span ++ [previous.span])
    (hspan : grown.span = (previous.span.1, max previous.span.2 hole.span.2)) :
    Merging sorted (index + 1) (state.1.set (state.2 - 1) grown, state.2) := by
  obtain ⟨hlt, -⟩ := List.getElem?_eq_some_iff.mp hole_at
  have hkept := h.kept
  have hlength := h.length
  refine ⟨?_, ?_, hkept.trans (Nat.le_succ _), ?_⟩
  · rw [List.length_set, hlength]
  · dsimp only
    rw [List.drop_set_of_lt (by omega), h.rest_succ]
  · dsimp only
    conv_lhs => rw [← Nat.sub_add_cancel (Nat.one_le_iff_ne_zero.mpr hcount)]
    rw [Nat.add_sub_cancel, take_set_succ (by omega), List.map_append, List.map_singleton, hspan,
      take_succ hole_at, Extent.joinAll_append, hjoined, Extent.join_append, if_pos htouch]

/-- One round, given that the extents are proper: nothing overflows, nothing is read or written out
of bounds, and the kept part joins one more interval. -/
lemma step (h : Merging sorted index state) (hproper : ∀ x ∈ sorted, x.Proper) {hole : Hole}
    (hole_at : sorted[index]? = some hole) :
    ∃ state', mergeStep state index = .ok state' ∧ Merging sorted (index + 1) state' := by
  obtain ⟨hlt, hget⟩ := List.getElem?_eq_some_iff.mp hole_at
  have hmem : hole ∈ sorted := hget ▸ List.getElem_mem hlt
  obtain ⟨end_, hend, hendNat⟩ := addU64_eq (hproper hole hmem).2
  rw [mergeStep, h.holeAt_eq hole_at, ok_bind, hend, ok_bind]
  by_cases hcount : state.2 = 0
  · rw [if_neg (by simpa using hcount)]
    refine h.store hole_at ?_
    rw [← h.joined, hcount]
    rfl
  rw [if_pos hcount, growHole]
  obtain ⟨previous, hprevious, hjoined⟩ := h.exists_previous hcount hlt.le
  obtain ⟨previousEnd, hpreviousEnd, hpreviousNat⟩ := addU64_eq (previous_fits hproper hjoined)
  have htouch : hole.offset ≤ previousEnd ↔ hole.span.1 ≤ previous.span.2 := by
    rw [UInt64.le_iff_toNat_le, hpreviousNat]
    rfl
  rw [hprevious, ok_bind, hpreviousEnd, ok_bind]
  by_cases hle : hole.offset ≤ previousEnd
  · rw [if_pos hle]
    have hmax : (max previousEnd end_).toNat = max previous.end_ hole.end_ := by
      rw [toNat_max, hpreviousNat, hendNat]
      rfl
    have hge : previous.offset.toNat ≤ (max previousEnd end_).toNat := by
      rw [hmax]
      exact (Nat.le_add_right _ _).trans (le_max_left _ _)
    obtain ⟨length, hlength, hlengthNat⟩ := subU64_eq hge
    have hspan : Hole.span { previous with length }
        = (previous.span.1, max previous.span.2 hole.span.2) := by
      refine Prod.ext rfl ?_
      change previous.offset.toNat + length.toNat = max previous.end_ hole.end_
      omega
    rw [hlength, ok_bind]
    exact ⟨_, rfl, h.grow hole_at hcount ((htouch.mp hle)) hjoined hspan⟩
  · rw [if_neg hle]
    refine h.store hole_at ?_
    rw [hjoined, Extent.join_append, if_neg (by rwa [← htouch])]

end Merging

lemma foldlM_mergeStep {sorted : List Hole} (hproper : ∀ x ∈ sorted, x.Proper) {n : Nat}
    (hn : n ≤ sorted.length) :
    ∃ state, (List.range n).foldlM mergeStep (sorted, 0) = .ok state ∧
      Merging sorted n state := by
  induction n with
  | zero => exact ⟨(sorted, 0), rfl, rfl, rfl, le_rfl, rfl⟩
  | succ n ih =>
    obtain ⟨state, hrun, hmerging⟩ := ih (Nat.le_of_succ_le hn)
    obtain ⟨state', hstep, hnext⟩ := hmerging.step hproper (List.getElem?_eq_getElem hn)
    refine ⟨state', ?_, hnext⟩
    rw [List.range_succ, List.foldlM_append, hrun, ok_bind, List.foldlM_cons, hstep]
    rfl

/-- The loop over proper extents ends with the joined intervals. -/
lemma mergeHoles_eq {sorted : List Hole} (hproper : ∀ x ∈ sorted, x.Proper) :
    ∃ merged, mergeHoles sorted = .ok merged ∧ merged.length ≤ sorted.length ∧
      merged.map Hole.span = Extent.joinAll (sorted.map Hole.span) := by
  obtain ⟨state, hrun, hmerging⟩ := foldlM_mergeStep hproper le_rfl
  refine ⟨state.1.take state.2, ?_, ?_, ?_⟩
  · rw [mergeHoles, hrun, ok_bind]
  · exact (List.length_take_le _ _).trans hmerging.kept
  · rw [hmerging.joined, List.take_length]

/-! ### Extents, whole -/

/-- The offsets that a list of extents covers. -/
def coveredOffsets (holes : List Hole) : Set Nat := Extent.covered (holes.map Hole.span)

/-- A canonical list with the offsets of another. -/
structure Covers (merged holes : List Hole) : Prop where
  proper : ∀ h ∈ merged, h.Proper
  apart : merged.Pairwise Hole.Before
  offsets : coveredOffsets merged = coveredOffsets holes

lemma Covers.separated {merged holes : List Hole} (h : Covers merged holes) :
    Extent.Separated (merged.map Hole.span) :=
  (separated_iff fun x hx => (h.proper x hx).2).mpr ⟨h.proper, h.apart⟩

/-- There is at most one. -/
lemma Covers.unique {merged merged' holes holes' : List Hole} (h : Covers merged holes)
    (h' : Covers merged' holes') (heq : coveredOffsets holes = coveredOffsets holes') :
    merged = merged' := by
  refine List.map_injective_iff.mpr Hole.span_injective ?_
  refine h.separated.eq_of_covered_eq h'.separated ?_
  exact h.offsets.trans (heq.trans h'.offsets.symm)

lemma coveredOffsets_perm {holes holes' : List Hole} (h : holes.Perm holes') :
    coveredOffsets holes = coveredOffsets holes' :=
  Extent.covered_perm (h.map Hole.span)

lemma covers_of_span {sorted merged holes : List Hole} (hperm : sorted.Perm holes)
    (hproper : ∀ x ∈ sorted, x.Proper) (hsorted : sorted.Pairwise Hole.OffsetLe)
    (hspan : merged.map Hole.span = Extent.joinAll (sorted.map Hole.span)) :
    Covers merged holes := by
  have hnonempty : ∀ i ∈ sorted.map Hole.span, i.1 < i.2 := by
    intro i hi
    obtain ⟨x, hx, rfl⟩ := List.mem_map.mp hi
    exact Hole.span_proper (hproper x hx)
  have hfits : ∀ x ∈ merged, x.end_ < 2 ^ 64 := by
    intro x hx
    have hmem : x.span ∈ Extent.joinAll (sorted.map Hole.span) :=
      hspan ▸ List.mem_map_of_mem hx
    obtain ⟨-, j, hj, hfinish⟩ := Extent.mem_joinAll hmem
    obtain ⟨y, hy, rfl⟩ := List.mem_map.mp hj
    have hend : y.span.2 < 2 ^ 64 := (hproper y hy).2
    rwa [hfinish] at hend
  have hseparated := Extent.separated_joinAll hnonempty
  rw [← hspan, separated_iff hfits] at hseparated
  refine ⟨hseparated.1, hseparated.2, ?_⟩
  rw [← coveredOffsets_perm hperm, coveredOffsets, coveredOffsets, hspan]
  refine Extent.covered_joinAll hnonempty (List.pairwise_map.mpr (hsorted.imp fun hle => ?_))
  exact UInt64.le_iff_toNat_le.mp hle

lemma checkExtent_eq_ok {hole : Hole} : checkExtent hole = .ok () ↔ hole.Proper := by
  simp only [checkExtent, ite_error_eq_ok, Hole.Proper, Hole.end_, ge_iff_le, not_le, and_true,
    ne_eq]

/-- Proper extents are merged, whatever the sort does with equal offsets. -/
lemma exists_merged (sorts : Sorts) {holes : List Hole} (hproper : ∀ h ∈ holes, h.Proper) :
    ∃ merged, mergeHoles (sorts.holes.run holes) = .ok merged ∧ merged.length ≤ holes.length ∧
      Covers merged holes := by
  have hperm := sorts.holes.perm holes
  have hproper : ∀ h ∈ sorts.holes.run holes, h.Proper := fun h hh =>
    hproper h (hperm.subset hh)
  obtain ⟨merged, hmerged, hlength, hspan⟩ := mergeHoles_eq hproper
  refine ⟨merged, hmerged, hperm.length_eq ▸ hlength, ?_⟩
  exact covers_of_span hperm hproper (sorts.holes.sorted holes) hspan

/-- Extents are merged exactly when they are few enough and proper, into the one canonical list
with the same offsets. -/
lemma normalizeHoles_eq_ok {sorts : Sorts} {holes merged : List Hole} :
    normalizeHoles sorts holes = .ok merged ↔
      holes.length < 2 ^ 32 ∧ (∀ h ∈ holes, h.Proper) ∧ Covers merged holes := by
  rw [normalizeHoles, seq_eq_ok, seq_eq_ok, mapError_eq_ok, mapError_eq_ok, wireLength_eq_ok,
    forM_eq_ok]
  simp only [checkExtent_eq_ok]
  refine and_congr_right fun _ => and_congr_right fun hproper => ?_
  obtain ⟨m, hm, -, hcovers⟩ := exists_merged sorts hproper
  rw [hm, Except.ok.injEq]
  constructor
  · rintro rfl
    exact hcovers
  · exact fun h => hcovers.unique h rfl

lemma normalizeHoles_ne_panic {sorts : Sorts} {holes : List Hole} :
    normalizeHoles sorts holes ≠ .error .panic := by
  rw [normalizeHoles]
  cases hlength : wireLength holes.length with
  | error e => simp [Except.mapError, error_bind]
  | ok u =>
    cases hcheck : holes.forM checkExtent with
    | error e => simp [Except.mapError, error_bind, ok_bind]
    | ok u =>
      obtain ⟨m, hm, -⟩ := exists_merged sorts fun h hh =>
        checkExtent_eq_ok.mp (forM_eq_ok.mp hcheck h hh)
      simp [Except.mapError, ok_bind, hm]

/-! ### Sorted lists -/

/-- Sorted neighbours with different keys are in strict order. -/
lemma compare_lt_of_keyLe {α : Type} {key : α → List UInt8} {a b : α} (hle : KeyLe key a b)
    (hne : key a ≠ key b) : compare (key a) (key b) = .lt := by
  rw [KeyLe] at hle
  cases hcompare : compare (key a) (key b) with
  | lt => rfl
  | eq => exact absurd (Std.LawfulEqCmp.eq_of_compare hcompare) hne
  | gt => exact absurd hcompare hle

/-- In a sorted list, neighbours with different keys make the keys increase. -/
lemma unique_eq_ok {α : Type} {key : α → List UInt8} {duplicate : Error} {p : Option α}
    {xs : List α} (hsorted : (p.toList ++ xs).Pairwise (KeyLe key)) :
    forPrevious (fun previous x =>
      if previous.any (fun p => key p == key x) then .error duplicate else .ok ()) p xs = .ok () ↔
      Increasing key (p.toList ++ xs) := by
  induction xs generalizing p with
  | nil => cases p <;> simp [forPrevious, Increasing]
  | cons x xs ih =>
    have htail : ((some x).toList ++ xs).Pairwise (KeyLe key) :=
      hsorted.sublist (List.sublist_append_right _ _)
    rw [forPrevious_cons_eq_ok, ih htail, ite_error_eq_ok]
    cases p with
    | none => simp
    | some q =>
      have hqx : KeyLe key q x := (List.pairwise_cons.mp hsorted).1 x (by simp)
      simp only [Option.any_some, beq_iff_eq, and_true, Option.toList_some, List.cons_append,
        List.nil_append]
      constructor
      · intro h
        have hlt := compare_lt_of_keyLe hqx h.1
        refine List.pairwise_cons.mpr ⟨List.forall_mem_cons.mpr ⟨hlt, fun y hy => ?_⟩, h.2⟩
        exact compare_lt_trans hlt ((List.pairwise_cons.mp h.2).1 y hy)
      · intro h
        obtain ⟨hhead, hrest⟩ := List.pairwise_cons.mp h
        refine ⟨fun heq => ?_, hrest⟩
        have hlt := hhead x (by simp)
        rw [heq, Std.compare_self] at hlt
        exact absurd hlt (by decide)

lemma Increasing.nodup {α : Type} {key : α → List UInt8} {xs : List α} (h : Increasing key xs) :
    (xs.map key).Nodup := by
  refine List.pairwise_map.mpr (h.imp fun hlt heq => ?_)
  rw [heq, Std.compare_self] at hlt
  exact absurd hlt (by decide)

/-- There is one list with these items and increasing keys. -/
lemma Increasing.eq_of_perm {α : Type} {key : α → List UInt8} {xs ys : List α}
    (hx : Increasing key xs) (hy : Increasing key ys) (h : xs.Perm ys) : xs = ys := by
  refine h.eq_of_pairwise (fun a b _ _ hab hba => ?_) hx hy
  have haa := compare_lt_trans hab hba
  rw [Std.compare_self] at haa
  exact absurd haa (by decide)

lemma Sorter.increasing {α : Type} {key : α → List UInt8} (sort : Sorter (KeyLe key))
    {items : List α} (hnodup : (items.map key).Nodup) : Increasing key (sort.run items) := by
  have hne : (sort.run items).Pairwise fun a b => key a ≠ key b :=
    List.pairwise_map.mp (((sort.perm items).map key).nodup_iff.mpr hnodup)
  exact ((sort.sorted items).and hne).imp fun h => compare_lt_of_keyLe h.1 h.2

lemma sortUnique_eq_ok {α : Type} {key : α → List UInt8} {sort : Sorter (KeyLe key)}
    {check : α → Except Error Unit} {duplicate : Error} {items sorted : List α} :
    sortUnique sort check duplicate items = .ok sorted ↔
      items.length < 2 ^ 32 ∧ (∀ x ∈ items, check x = .ok ()) ∧ (items.map key).Nodup ∧
        sorted.Perm items ∧ Increasing key sorted := by
  have hperm := sort.perm items
  have hsorted : ((none : Option α).toList ++ sort.run items).Pairwise (KeyLe key) :=
    sort.sorted items
  rw [sortUnique, seq_eq_ok, seq_eq_ok, wireLength_eq_ok, forM_eq_ok]
  refine and_congr_right fun _ => and_congr_right fun _ => ?_
  dsimp only
  rw [seq_eq_ok, unique_eq_ok hsorted, Option.toList_none, List.nil_append, Except.ok.injEq]
  constructor
  · rintro ⟨hinc, rfl⟩
    exact ⟨(hperm.map key).nodup_iff.mp hinc.nodup, hperm, hinc⟩
  · rintro ⟨hnodup, hsame, hinc⟩
    have hrun := sort.increasing hnodup
    exact ⟨hrun, hrun.eq_of_perm hinc (hperm.trans hsame.symm)⟩

/-! ### Whole records -/

/-- What normalization asks of a record whose families are cleared. -/
structure Normalizable (m : Metadata) : Prop where
  xattrCount : m.xattrs.length < 2 ^ 32
  xattrs : ∀ x ∈ m.xattrs, validateXattrName x.class_ x.name = .ok () ∧ x.value.length < 2 ^ 32
  xattrsDistinct : (m.xattrs.map fun x => (x.class_, x.name)).Nodup
  aceCount : m.aces.length < 2 ^ 32
  aces : ∀ a ∈ m.aces, validateAceName a.tag a.name = .ok () ∧ a.name.length < 2 ^ 32
  acesDistinct : (m.aces.map fun a => (a.tag, a.name)).Nodup
  nativeAcl : ∀ acl ∈ m.nativeAcl, acl.bytes ≠ [] ∧ acl.bytes.length < 2 ^ 32
  times : ∀ t ∈ m.times.present, t.nsec < 1000000000
  holeCount : m.holes.length < 2 ^ 32
  holes : ∀ h ∈ m.holes, 0 < h.length.toNat ∧ h.offset.toNat + h.length.toNat < 2 ^ 64
  hardlinkTo : ∀ path ∈ m.hardlinkTo, validateHardlink path = .ok ()

/-- What becomes of it: sorted lists, merged extents, and everything else as it was. -/
structure Normalized (raw m : Metadata) : Prop where
  xattrs : m.xattrs.Perm raw.xattrs
  xattrsSorted : Increasing Xattr.key m.xattrs
  aces : m.aces.Perm raw.aces
  acesSorted : Increasing Ace.key m.aces
  holes : Covers m.holes raw.holes
  others : m = { raw with xattrs := m.xattrs, aces := m.aces, holes := m.holes }

lemma Xattr.check_eq_ok {x : Xattr} :
    x.check = .ok () ↔ validateXattrName x.class_ x.name = .ok () ∧ x.value.length < 2 ^ 32 := by
  rw [Xattr.check, seq_eq_ok, wireLength_eq_ok]

lemma Ace.check_eq_ok {a : Ace} :
    a.check = .ok () ↔ validateAceName a.tag a.name = .ok () ∧ a.name.length < 2 ^ 32 := by
  rw [Ace.check, seq_eq_ok, wireLength_eq_ok]

lemma checkNativeAcl_eq_ok {nativeAcl : Option NativeAcl} : checkNativeAcl nativeAcl = .ok () ↔
    ∀ acl ∈ nativeAcl, acl.bytes ≠ [] ∧ acl.bytes.length < 2 ^ 32 := by
  cases nativeAcl with
  | none => simp [checkNativeAcl]
  | some acl => simp [checkNativeAcl, ite_error_eq_ok, wireLength_eq_ok]

lemma checkTimes_eq_ok {times : Times} :
    checkTimes times = .ok () ↔ ∀ t ∈ times.present, t.nsec < 1000000000 := by
  simp [checkTimes]

lemma checkHardlink_eq_ok {hardlinkTo : Option (List UInt8)} : checkHardlink hardlinkTo = .ok () ↔
    ∀ path ∈ hardlinkTo, validateHardlink path = .ok () := by
  cases hardlinkTo <;> simp [checkHardlink]

/-- Keys are the same when class and name are. -/
lemma nodup_xattr_keys {xs : List Xattr} :
    (xs.map Xattr.key).Nodup ↔ (xs.map fun x => (x.class_, x.name)).Nodup := by
  have hinj : Function.Injective fun p : XattrClass × List UInt8 => p.1.tag :: p.2 := by
    intro p q h
    obtain ⟨htag, hname⟩ := List.cons.inj h
    exact Prod.ext (XattrClass.tag_injective htag) hname
  rw [← List.nodup_map_iff hinj, List.map_map]
  rfl

lemma nodup_ace_keys {xs : List Ace} :
    (xs.map Ace.key).Nodup ↔ (xs.map fun a => (a.tag, a.name)).Nodup := by
  have hinj : Function.Injective fun p : AceTag × List UInt8 => p.1.tag :: p.2 := by
    intro p q h
    obtain ⟨htag, hname⟩ := List.cons.inj h
    exact Prod.ext (AceTag.tag_injective htag) hname
  rw [← List.nodup_map_iff hinj, List.map_map]
  rfl

lemma Hole.proper_iff {h : Hole} :
    h.Proper ↔ 0 < h.length.toNat ∧ h.offset.toNat + h.length.toNat < 2 ^ 64 := by
  have hzero : h.length ≠ 0 ↔ 0 < h.length.toNat := by
    rw [Nat.pos_iff_ne_zero, ne_eq, ne_eq, ← UInt64.toNat_inj]
    rfl
  rw [Hole.Proper, hzero]
  rfl

lemma Normalizable.sortXattrs_iff {sorts : Sorts} {m : Metadata} {sorted : List Xattr}
    (h : m.Normalizable) : sortXattrs sorts m.xattrs = .ok sorted ↔
      sorted.Perm m.xattrs ∧ Increasing Xattr.key sorted := by
  rw [sortXattrs, sortUnique_eq_ok, nodup_xattr_keys]
  refine ⟨fun hs => hs.2.2.2, fun hs => ⟨h.xattrCount, fun x hx => ?_, h.xattrsDistinct, hs⟩⟩
  exact Xattr.check_eq_ok.mpr (h.xattrs x hx)

lemma Normalizable.sortAces_iff {sorts : Sorts} {m : Metadata} {sorted : List Ace}
    (h : m.Normalizable) : sortAces sorts m.aces = .ok sorted ↔
      sorted.Perm m.aces ∧ Increasing Ace.key sorted := by
  rw [sortAces, sortUnique_eq_ok, nodup_ace_keys]
  refine ⟨fun hs => hs.2.2.2, fun hs => ⟨h.aceCount, fun a ha => ?_, h.acesDistinct, hs⟩⟩
  exact Ace.check_eq_ok.mpr (h.aces a ha)

lemma Normalizable.normalizeHoles_iff {sorts : Sorts} {m : Metadata} {merged : List Hole}
    (h : m.Normalizable) : normalizeHoles sorts m.holes = .ok merged ↔ Covers merged m.holes := by
  rw [normalizeHoles_eq_ok]
  exact ⟨fun hs => hs.2.2,
    fun hs => ⟨h.holeCount, fun x hx => Hole.proper_iff.mpr (h.holes x hx), hs⟩⟩

/-- The last check finds nothing that the passes before it left. -/
lemma Normalizable.valid {raw m : Metadata} (h : raw.Normalizable) (hm : Normalized raw m)
    (hcount : m.holes.length ≤ raw.holes.length) : m.Valid where
  xattrCount := hm.xattrs.length_eq ▸ h.xattrCount
  xattrs := xattrs_eq_ok.mpr
    ⟨fun x hx => Xattr.check_eq_ok.mpr (h.xattrs x (hm.xattrs.subset hx)), hm.xattrsSorted⟩
  aceCount := hm.aces.length_eq ▸ h.aceCount
  aces := aces_eq_ok.mpr
    ⟨fun a ha => Ace.check_eq_ok.mpr (h.aces a (hm.aces.subset ha)), hm.acesSorted⟩
  nativeAcl := by
    rw [hm.others]
    exact checkNativeAcl_eq_ok.mpr h.nativeAcl
  times := by
    rw [hm.others]
    exact checkTimes_eq_ok.mpr h.times
  holeCount := hcount.trans_lt h.holeCount
  holes := holes_eq_ok.mpr ⟨hm.holes.proper, hm.holes.apart⟩
  hardlinkTo := by
    rw [hm.others]
    exact checkHardlink_eq_ok.mpr h.hardlinkTo

end Metadata

namespace CanonicalMetadata

/-- Normalization returns a record exactly when the cleared record can be normalized, and then the
one record it normalizes to. -/
lemma normalize_eq_ok {sorts : Sorts} {m : Metadata} {mask : Omit} {c : CanonicalMetadata} :
    normalize sorts m mask = .ok c ↔
      (m.clear mask).Normalizable ∧ Normalized (m.clear mask) c.metadata := by
  rw [normalize]
  generalize m.clear mask = raw
  simp only [bind_eq_ok, mapError_eq_ok]
  constructor
  · intro h
    obtain ⟨xattrs, hxattrs, aces, haces, _, hacl, _, htimes, holes, hholes, hnew⟩ := h
    obtain ⟨hxcount, hxcheck, hxnodup, hxperm, hxsorted⟩ := sortUnique_eq_ok.mp hxattrs
    obtain ⟨hacount, hacheck, hanodup, haperm, hasorted⟩ := sortUnique_eq_ok.mp haces
    obtain ⟨hhcount, hhproper, hcovers⟩ := normalizeHoles_eq_ok.mp hholes
    have hc := new_eq_ok.mp hnew
    have hlink : c.metadata.hardlinkTo = raw.hardlinkTo := by rw [hc]
    refine ⟨⟨hxcount, fun x hx => Xattr.check_eq_ok.mp (hxcheck x hx),
      nodup_xattr_keys.mp hxnodup, hacount, fun a ha => Ace.check_eq_ok.mp (hacheck a ha),
      nodup_ace_keys.mp hanodup, checkNativeAcl_eq_ok.mp hacl, checkTimes_eq_ok.mp htimes, hhcount,
      fun x hx => Hole.proper_iff.mp (hhproper x hx), ?_⟩, ?_⟩
    · rw [← hlink]
      exact checkHardlink_eq_ok.mp c.isValid.hardlinkTo
    · rw [hc]
      exact ⟨hxperm, hxsorted, haperm, hasorted, hcovers, rfl⟩
  · intro h
    obtain ⟨hraw, hc⟩ := h
    refine ⟨c.metadata.xattrs, hraw.sortXattrs_iff.mpr ⟨hc.xattrs, hc.xattrsSorted⟩,
      c.metadata.aces, hraw.sortAces_iff.mpr ⟨hc.aces, hc.acesSorted⟩,
      (), checkNativeAcl_eq_ok.mpr hraw.nativeAcl, (), checkTimes_eq_ok.mpr hraw.times,
      c.metadata.holes, hraw.normalizeHoles_iff.mpr hc.holes, ?_⟩
    exact new_eq_ok.mpr hc.others

lemma exists_normalize (sorts : Sorts) (mask : Omit) {m : Metadata}
    (h : (m.clear mask).Normalizable) : ∃ c, normalize sorts m mask = .ok c := by
  generalize hraw : m.clear mask = raw at h
  obtain ⟨merged, -, hlength, hcovers⟩ := exists_merged sorts
    fun x hx => Hole.proper_iff.mpr (h.holes x hx)
  have hnormalized : Normalized raw { raw with
      xattrs := sorts.xattrs.run raw.xattrs, aces := sorts.aces.run raw.aces, holes := merged } :=
    ⟨sorts.xattrs.perm _, sorts.xattrs.increasing (nodup_xattr_keys.mpr h.xattrsDistinct),
      sorts.aces.perm _, sorts.aces.increasing (nodup_ace_keys.mpr h.acesDistinct), hcovers, rfl⟩
  refine ⟨⟨_, validate_eq_ok.mpr (h.valid hnormalized hlength)⟩, ?_⟩
  rw [normalize_eq_ok, hraw]
  exact ⟨h, hnormalized⟩

/-- Nothing is cleared when nothing is left out. -/
lemma exists_normalized (sorts : Sorts) {m : Metadata} (h : m.Normalizable) :
    ∃ c, normalize sorts m Omit.default = .ok c ∧ Normalized m c.metadata := by
  have hclear : m.clear Omit.default = m := by rw [clear_eq, Metadata.retain_default]
  obtain ⟨c, hc⟩ := exists_normalize sorts Omit.default (hclear.symm ▸ h)
  have hnormalized := (normalize_eq_ok.mp hc).2
  rw [hclear] at hnormalized
  exact ⟨c, hc, hnormalized⟩

/-- A program stops when one of its parts does. -/
lemma bind_ne_panic {ε α β : Type} {x : Except (Halt ε) α} {f : α → Except (Halt ε) β}
    (hx : x ≠ .error .panic) (hf : ∀ a, f a ≠ .error .panic) : (x >>= f) ≠ .error .panic := by
  cases x with
  | error e =>
    intro h
    exact hx (congrArg Except.error (Except.error.inj h))
  | ok a => exact hf a

lemma normalize_ne_panic (sorts : Sorts) (m : Metadata) (mask : Omit) :
    normalize sorts m mask ≠ .error .panic := by
  have hpass : ∀ {α : Type} (x : Except Error α), x.mapError Halt.error ≠ .error .panic :=
    fun x => Checked.ofExcept_ne_panic x
  refine bind_ne_panic (hpass _) fun _ => bind_ne_panic (hpass _) fun _ => ?_
  refine bind_ne_panic (hpass _) fun _ => bind_ne_panic (hpass _) fun _ => ?_
  exact bind_ne_panic normalizeHoles_ne_panic fun _ => hpass _

end CanonicalMetadata

namespace Metadata

/-- The same record up to the order of its lists. -/
structure Permuted (m m' : Metadata) : Prop where
  xattrs : m'.xattrs.Perm m.xattrs
  aces : m'.aces.Perm m.aces
  holes : m'.holes.Perm m.holes
  others : m' = { m with xattrs := m'.xattrs, aces := m'.aces, holes := m'.holes }

namespace Permuted

variable {m m' : Metadata}

lemma symm (h : Permuted m m') : Permuted m' m :=
  ⟨h.xattrs.symm, h.aces.symm, h.holes.symm, by rw [h.others]⟩

lemma clear (h : Permuted m m') (mask : Omit) : Permuted (m.clear mask) (m'.clear mask) := by
  rw [clear_eq, clear_eq, retain_eq, retain_eq, h.others]
  refine ⟨?_, ?_, ?_, rfl⟩
  all_goals dsimp only; split_ifs
  exacts [.refl _, h.xattrs, .refl _, h.aces, .refl _, h.holes]

lemma normalizable (h : Permuted m m') (hm : m.Normalizable) : m'.Normalizable where
  xattrCount := h.xattrs.length_eq ▸ hm.xattrCount
  xattrs x hx := hm.xattrs x (h.xattrs.subset hx)
  xattrsDistinct := (h.xattrs.map _).nodup_iff.mpr hm.xattrsDistinct
  aceCount := h.aces.length_eq ▸ hm.aceCount
  aces a ha := hm.aces a (h.aces.subset ha)
  acesDistinct := (h.aces.map _).nodup_iff.mpr hm.acesDistinct
  nativeAcl := by
    rw [h.others]
    exact hm.nativeAcl
  times := by
    rw [h.others]
    exact hm.times
  holeCount := h.holes.length_eq ▸ hm.holeCount
  holes x hx := hm.holes x (h.holes.subset hx)
  hardlinkTo := by
    rw [h.others]
    exact hm.hardlinkTo

lemma normalized (h : Permuted m m') {r : Metadata} (hr : Normalized m r) : Normalized m' r where
  xattrs := hr.xattrs.trans h.xattrs.symm
  xattrsSorted := hr.xattrsSorted
  aces := hr.aces.trans h.aces.symm
  acesSorted := hr.acesSorted
  holes := ⟨hr.holes.proper, hr.holes.apart,
    hr.holes.offsets.trans (coveredOffsets_perm h.holes.symm)⟩
  others := by
    rw [h.others]
    exact hr.others

end Permuted

/-- A valid record is normalized, and normalizes to itself. -/
lemma Valid.normalizable {m : Metadata} (h : m.Valid) : m.Normalizable := by
  obtain ⟨hxattrs, hxsorted⟩ := xattrs_eq_ok.mp h.xattrs
  obtain ⟨haces, hasorted⟩ := aces_eq_ok.mp h.aces
  exact ⟨h.xattrCount, fun x hx => Xattr.check_eq_ok.mp (hxattrs x hx),
    nodup_xattr_keys.mp hxsorted.nodup, h.aceCount, fun a ha => Ace.check_eq_ok.mp (haces a ha),
    nodup_ace_keys.mp hasorted.nodup, checkNativeAcl_eq_ok.mp h.nativeAcl,
    checkTimes_eq_ok.mp h.times, h.holeCount,
    fun x hx => Hole.proper_iff.mp ((holes_eq_ok.mp h.holes).1 x hx),
    checkHardlink_eq_ok.mp h.hardlinkTo⟩

lemma Valid.normalized {m : Metadata} (h : m.Valid) : Normalized m m :=
  ⟨.refl _, (xattrs_eq_ok.mp h.xattrs).2, .refl _, (aces_eq_ok.mp h.aces).2,
    ⟨(holes_eq_ok.mp h.holes).1, (holes_eq_ok.mp h.holes).2, rfl⟩, rfl⟩

end Metadata

namespace CanonicalMetadata

/-- A canonical record loses the families of the mask and is otherwise left alone. -/
lemma normalize_canonical (sorts : Sorts) (c : CanonicalMetadata) (mask : Omit) :
    normalize sorts c.metadata mask = .ok (c.retain mask) := by
  have hvalid := (c.retain mask).isValid
  rw [normalize_eq_ok, clear_eq]
  exact ⟨hvalid.normalizable, hvalid.normalized⟩

lemma normalize_perm (sorts sorts' : Sorts) {m m' : Metadata} (h : Permuted m m') (mask : Omit)
    {c : CanonicalMetadata} (hc : normalize sorts m mask = .ok c) :
    normalize sorts' m' mask = .ok c := by
  obtain ⟨hm, hr⟩ := normalize_eq_ok.mp hc
  exact normalize_eq_ok.mpr ⟨(h.clear mask).normalizable hm, (h.clear mask).normalized hr⟩

/-- Normalization succeeds exactly on the records that can be normalized, sorts the lists, covers
the same offsets with the only canonical list there is, keeps everything else, never panics, does
not depend on the order of the lists or on the sort, and changes nothing the second time. -/
theorem normalize_spec (sorts : Sorts) (m : Metadata) (mask : Omit) :
    ((∃ c, normalize sorts m mask = .ok c) ↔ (m.clear mask).Normalizable) ∧
    (∀ c, normalize sorts m mask = .ok c → Normalized (m.clear mask) c.metadata ∧
      ∀ holes, Covers holes (m.clear mask).holes → holes = c.metadata.holes) ∧
    normalize sorts m mask ≠ .error .panic ∧
    (∀ sorts' m', Permuted m m' → ∀ c,
      (normalize sorts' m' mask = .ok c ↔ normalize sorts m mask = .ok c)) ∧
    (∀ c : CanonicalMetadata, normalize sorts c.metadata Omit.default = .ok c) := by
  refine ⟨⟨fun h => ?_, exists_normalize sorts mask⟩, fun c hc => ?_, normalize_ne_panic sorts m mask,
    fun sorts' m' h c => ?_, fun c => ?_⟩
  · obtain ⟨c, hc⟩ := h
    exact (normalize_eq_ok.mp hc).1
  · have hnormalized := (normalize_eq_ok.mp hc).2
    exact ⟨hnormalized, fun holes hholes => hholes.unique hnormalized.holes rfl⟩
  · exact ⟨normalize_perm sorts' sorts h.symm mask, normalize_perm sorts sorts' h mask⟩
  · rw [normalize_canonical, retain_default]

/-- Touching, nested and equal extents in no order. -/
def scattered : Metadata :=
  { Metadata.default with holes := [⟨4, 4⟩, ⟨16, 1⟩, ⟨0, 4⟩, ⟨4, 2⟩] }

/-- They become two. -/
theorem normalize_spec_scattered :
    ∃ c, normalize Sorts.merge scattered Omit.default = .ok c ∧
      c.metadata.holes = [⟨0, 8⟩, ⟨16, 1⟩] := by
  have hclear : scattered.clear Omit.default = scattered := by
    rw [clear_eq, Metadata.retain_default]
  obtain ⟨hok, hresult, -⟩ := normalize_spec Sorts.merge scattered Omit.default
  rw [hclear] at hok hresult
  obtain ⟨c, hc⟩ := hok.mpr (by
    constructor
    all_goals simp [scattered, Metadata.default, Times.default, Times.present])
  refine ⟨c, hc, ((hresult c hc).2 _ ?_).symm⟩
  refine ⟨by simp [Hole.Proper, Hole.end_], by simp [Hole.Before, Hole.end_], ?_⟩
  ext p
  simp only [coveredOffsets, Extent.mem_covered, scattered, Hole.span, Hole.end_, List.map_cons,
    List.map_nil, List.mem_cons, List.not_mem_nil, or_false, exists_eq_or_imp, exists_eq_left]
  simp
  omega

end CanonicalMetadata

end Difz
