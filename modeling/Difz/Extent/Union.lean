import Mathlib.Order.Interval.Set.Basic
import Mathlib.Tactic

/-!
# Unions of half-open intervals

A list of half-open intervals over a linear order, read as the set it covers. A list is separated
when its intervals are not empty and each ends strictly before the next begins; a set has at most
one separated list, `Separated.eq_of_covered_eq`. Going over a list in the order of the lower ends
and joining each interval to the last one it touches yields that list, `separated_joinAll` and
`covered_joinAll`.
-/

namespace Extent

variable {α : Type} [LinearOrder α]

/-- The points of the intervals. -/
def covered (xs : List (α × α)) : Set α := {p | ∃ i ∈ xs, p ∈ Set.Ico i.1 i.2}

lemma mem_covered {xs : List (α × α)} {p : α} :
    p ∈ covered xs ↔ ∃ i ∈ xs, i.1 ≤ p ∧ p < i.2 := Iff.rfl

@[simp] lemma covered_nil : covered ([] : List (α × α)) = ∅ := by
  ext p
  simp [mem_covered]

lemma covered_append (xs ys : List (α × α)) : covered (xs ++ ys) = covered xs ∪ covered ys := by
  ext p
  simp only [mem_covered, List.mem_append, Set.mem_union, or_and_right, exists_or]

lemma covered_singleton (i : α × α) : covered [i] = Set.Ico i.1 i.2 := by
  ext p
  simp [mem_covered]

/-- Which intervals a list has decides what it covers, not their order. -/
lemma covered_perm {xs ys : List (α × α)} (h : xs.Perm ys) : covered xs = covered ys := by
  ext p
  simp only [mem_covered, h.mem_iff]

/-- Intervals that are not empty, each with a gap before the next. -/
structure Separated (xs : List (α × α)) : Prop where
  proper : ∀ i ∈ xs, i.1 < i.2
  apart : xs.Pairwise fun i j => i.2 < j.1

namespace Separated

variable {xs ys : List (α × α)}

lemma nil : Separated ([] : List (α × α)) := ⟨by simp, .nil⟩

lemma tail {i : α × α} (h : Separated (i :: xs)) : Separated xs :=
  ⟨fun j hj => h.proper j (by simp [hj]), (List.pairwise_cons.mp h.apart).2⟩

lemma prefix_of_append (h : Separated (xs ++ ys)) : Separated xs :=
  ⟨fun i hi => h.proper i (by simp [hi]), (List.pairwise_append.mp h.apart).1⟩

/-- Everything behind the first interval lies beyond its end. -/
lemma lt_of_mem_covered_tail {i : α × α} (h : Separated (i :: xs)) {p : α} (hp : p ∈ covered xs) :
    i.2 < p := by
  obtain ⟨j, hj, hle, -⟩ := hp
  exact ((List.pairwise_cons.mp h.apart).1 j hj).trans_le hle

lemma isLeast_head {i : α × α} (h : Separated (i :: xs)) : IsLeast (covered (i :: xs)) i.1 := by
  refine ⟨⟨i, by simp, le_rfl, h.proper i (by simp)⟩, fun p hp => ?_⟩
  obtain ⟨j, hj, hle, hlt⟩ := hp
  rcases List.mem_cons.mp hj with rfl | hj
  · exact hle
  · exact (h.proper i (by simp)).le.trans (h.lt_of_mem_covered_tail ⟨j, hj, hle, hlt⟩).le

/-- The end of the first interval is a gap. -/
lemma end_notMem {i : α × α} (h : Separated (i :: xs)) : i.2 ∉ covered (i :: xs) := by
  rintro ⟨j, hj, hle, hlt⟩
  rcases List.mem_cons.mp hj with rfl | hj
  · exact lt_irrefl _ hlt
  · exact lt_irrefl _ (h.lt_of_mem_covered_tail ⟨j, hj, hle, hlt⟩)

lemma end_le {i j : α × α} (hj : Separated (j :: ys))
    (h : covered (i :: xs) = covered (j :: ys)) (hstart : i.1 = j.1) : i.2 ≤ j.2 := by
  by_contra hlt
  have hmem : j.2 ∈ covered (i :: xs) :=
    ⟨i, by simp, hstart ▸ (hj.proper j (by simp)).le, not_le.mp hlt⟩
  rw [h] at hmem
  exact hj.end_notMem hmem

lemma covered_tail {i : α × α} (h : Separated (i :: xs)) :
    covered xs = {p ∈ covered (i :: xs) | i.2 ≤ p} := by
  ext p
  constructor
  · intro hp
    obtain ⟨j, hj, hp'⟩ := hp
    exact ⟨⟨j, by simp [hj], hp'⟩, (h.lt_of_mem_covered_tail ⟨j, hj, hp'⟩).le⟩
  · rintro ⟨⟨j, hj, hle, hlt⟩, hend⟩
    rcases List.mem_cons.mp hj with rfl | hj
    · exact absurd hlt (not_lt.mpr hend)
    · exact ⟨j, hj, hle, hlt⟩

/-- A set is covered by at most one separated list. -/
theorem eq_of_covered_eq (hx : Separated xs) (hy : Separated ys) (h : covered xs = covered ys) :
    xs = ys := by
  induction xs generalizing ys with
  | nil =>
    cases ys with
    | nil => rfl
    | cons j ys =>
      rw [covered_nil] at h
      exact absurd (h ▸ hy.isLeast_head.1) (Set.notMem_empty _)
  | cons i xs ih =>
    cases ys with
    | nil =>
      rw [covered_nil] at h
      exact absurd (h ▸ hx.isLeast_head.1) (Set.notMem_empty _)
    | cons j ys =>
      have hstart : i.1 = j.1 := hx.isLeast_head.unique (h ▸ hy.isLeast_head)
      have hend : i.2 = j.2 :=
        le_antisymm (end_le hy h hstart) (end_le hx h.symm hstart.symm)
      obtain rfl : i = j := Prod.ext hstart hend
      rw [ih hx.tail hy.tail (by rw [hx.covered_tail, hy.covered_tail, h])]

/-- An interval that begins behind a gap may follow. -/
lemma append_singleton {i : α × α} (h : Separated xs) (hi : i.1 < i.2)
    (hgap : ∀ j ∈ xs, j.2 < i.1) : Separated (xs ++ [i]) := by
  refine ⟨fun j hj => ?_, List.pairwise_append.mpr ⟨h.apart, List.pairwise_singleton _ _, ?_⟩⟩
  · rcases List.mem_append.mp hj with hj | hj
    · exact h.proper j hj
    · rwa [List.mem_singleton.mp hj]
  · intro j hj k hk
    rw [List.mem_singleton.mp hk]
    exact hgap j hj

end Separated

/-! ### Joining -/

/-- Extend the last interval by one that touches it, or append it. -/
def join (xs : List (α × α)) (i : α × α) : List (α × α) :=
  match xs.getLast? with
  | none => [i]
  | some j => if i.1 ≤ j.2 then xs.dropLast ++ [(j.1, max j.2 i.2)] else xs ++ [i]

@[simp] lemma join_nil (i : α × α) : join [] i = [i] := rfl

lemma join_append (xs : List (α × α)) (j i : α × α) : join (xs ++ [j]) i
    = if i.1 ≤ j.2 then xs ++ [(j.1, max j.2 i.2)] else xs ++ [j] ++ [i] := by
  rw [join, List.getLast?_concat, List.dropLast_concat]

def joinAll (xs : List (α × α)) : List (α × α) := xs.foldl join []

lemma joinAll_append (xs : List (α × α)) (i : α × α) :
    joinAll (xs ++ [i]) = join (joinAll xs) i := by
  rw [joinAll, List.foldl_append]
  rfl

variable {xs : List (α × α)} {i : α × α}

lemma separated_join (h : Separated xs) (hi : i.1 < i.2) : Separated (join xs i) := by
  rcases List.eq_nil_or_concat xs with rfl | ⟨ys, j, rfl⟩
  · exact Separated.nil.append_singleton hi (by simp)
  · rw [List.concat_eq_append] at h ⊢
    have hlast : ∀ k ∈ ys, k.2 < j.1 := fun k hk =>
      (List.pairwise_append.mp h.apart).2.2 k hk j (by simp)
    have hj := h.proper j (by simp)
    rw [join_append]
    split_ifs with htouch
    · exact h.prefix_of_append.append_singleton (lt_max_of_lt_left hj) hlast
    · refine h.append_singleton hi fun k hk => ?_
      rcases List.mem_append.mp hk with hk | hk
      · exact (hlast k hk).trans (hj.trans (not_le.mp htouch))
      · rw [List.mem_singleton.mp hk]
        exact not_le.mp htouch

/-- Joining adds the points of the interval, when it does not begin before the last one. -/
lemma covered_join (hi : i.1 < i.2) (h : ∀ j ∈ xs, j.1 ≤ i.1) :
    covered (join xs i) = covered xs ∪ Set.Ico i.1 i.2 := by
  rcases List.eq_nil_or_concat xs with rfl | ⟨ys, j, rfl⟩
  · rw [join_nil, covered_singleton, covered_nil, Set.empty_union]
  · have hj : j.1 ≤ i.1 := h j (by simp)
    rw [List.concat_eq_append, join_append]
    split_ifs with htouch
    · rw [covered_append, covered_append, covered_singleton, covered_singleton, Set.union_assoc,
        Set.Ico_union_Ico' htouch (hj.trans hi.le), min_eq_left hj]
    · rw [covered_append, covered_singleton]

/-- The ends of the joined intervals are ends of the given ones. -/
lemma mem_joinAll {xs : List (α × α)} {i : α × α} (h : i ∈ joinAll xs) :
    (∃ j ∈ xs, j.1 = i.1) ∧ ∃ j ∈ xs, j.2 = i.2 := by
  induction xs using List.reverseRecOn generalizing i with
  | nil => exact absurd h (by simp [joinAll])
  | append_singleton xs k ih =>
    have hold : ∀ j ∈ joinAll xs, (∃ l ∈ xs ++ [k], l.1 = j.1) ∧ ∃ l ∈ xs ++ [k], l.2 = j.2 := by
      intro j hj
      obtain ⟨⟨l, hl, hstart⟩, m, hm, hend⟩ := ih hj
      exact ⟨⟨l, by simp [hl], hstart⟩, m, by simp [hm], hend⟩
    rw [joinAll_append] at h
    rcases List.eq_nil_or_concat (joinAll xs) with hnil | ⟨ys, j, hys⟩
    · rw [hnil, join_nil, List.mem_singleton] at h
      exact ⟨⟨k, by simp, by rw [h]⟩, k, by simp, by rw [h]⟩
    · rw [List.concat_eq_append] at hys
      rw [hys] at hold
      rw [hys, join_append] at h
      split_ifs at h
      · rcases List.mem_append.mp h with h | h
        · exact hold i (by simp [h])
        · obtain ⟨hstart, l, hl, hend⟩ := hold j (by simp)
          rw [List.mem_singleton.mp h]
          refine ⟨hstart, ?_⟩
          rcases max_cases j.2 k.2 with ⟨hmax, -⟩ | ⟨hmax, -⟩
          · exact ⟨l, hl, by rw [hmax, hend]⟩
          · exact ⟨k, by simp, by rw [hmax]⟩
      · rcases List.mem_append.mp h with h | h
        · exact hold i h
        · rw [List.mem_singleton.mp h]
          exact ⟨⟨k, by simp, rfl⟩, k, by simp, rfl⟩

/-- Intervals that are not empty join to a separated list. -/
lemma separated_joinAll {xs : List (α × α)} (h : ∀ i ∈ xs, i.1 < i.2) :
    Separated (joinAll xs) := by
  induction xs using List.reverseRecOn with
  | nil => exact Separated.nil
  | append_singleton xs k ih =>
    rw [joinAll_append]
    exact separated_join (ih fun i hi => h i (by simp [hi])) (h k (by simp))

/-- In the order of their lower ends they cover the same points as before. -/
lemma covered_joinAll {xs : List (α × α)} (h : ∀ i ∈ xs, i.1 < i.2)
    (hsorted : xs.Pairwise fun i j => i.1 ≤ j.1) : covered (joinAll xs) = covered xs := by
  induction xs using List.reverseRecOn with
  | nil => rfl
  | append_singleton xs k ih =>
    obtain ⟨hinit, -, hlast⟩ := List.pairwise_append.mp hsorted
    have hbelow : ∀ j ∈ joinAll xs, j.1 ≤ k.1 := by
      intro j hj
      obtain ⟨⟨l, hl, hstart⟩, -⟩ := mem_joinAll hj
      rw [← hstart]
      exact hlast l hl k (by simp)
    rw [joinAll_append, covered_join (h k (by simp)) hbelow, covered_append, covered_singleton,
      ih (fun i hi => h i (by simp [hi])) hinit]

end Extent
