import Difz.Extent.Union

/-!
# Gaps between half-open intervals

The complement of a list of intervals within bounds. For a list that ascends from the lower bound
the gaps are separated, `separated_gaps`, and cover the points between the bounds that no interval
has, `covered_gaps`. An interval may reach beyond the upper bound, where it is cut off.
-/

namespace Extent

variable {α : Type} [LinearOrder α]

/-- Intervals that are not empty and begin within the bounds, each not before the end of the one
in front of it. -/
def Ascends (hi : α) : α → List (α × α) → Prop
  | _, [] => True
  | lo, i :: xs => lo ≤ i.1 ∧ i.1 < hi ∧ i.1 < i.2 ∧ Ascends hi (min hi i.2) xs

/-- What the intervals leave free. -/
def gaps (hi : α) : α → List (α × α) → List (α × α)
  | lo, [] => if lo < hi then [(lo, hi)] else []
  | lo, i :: xs => (if lo < i.1 then [(lo, i.1)] else []) ++ gaps hi (min hi i.2) xs

variable {lo hi : α} {xs : List (α × α)}

lemma ascends_iff : Ascends hi lo xs ↔ (∀ i ∈ xs, lo ≤ i.1 ∧ i.1 < hi ∧ i.1 < i.2) ∧
    xs.Pairwise fun i j => i.2 ≤ j.1 := by
  induction xs generalizing lo with
  | nil => simp [Ascends]
  | cons i xs ih =>
    simp only [Ascends, ih, List.pairwise_cons, List.forall_mem_cons]
    constructor
    · intro h
      obtain ⟨hlo, hhi, hi, hxs, hpair⟩ := h
      refine ⟨⟨⟨hlo, hhi, hi⟩, fun j hj => ?_⟩, fun j hj => ?_, hpair⟩
      · obtain ⟨hmin, hj⟩ := hxs j hj
        exact ⟨hlo.trans ((le_min hhi.le hi.le).trans hmin), hj⟩
      · obtain ⟨hmin, hlt, -⟩ := hxs j hj
        exact (min_le_iff.mp hmin).resolve_left (not_le.mpr hlt)
    · intro h
      obtain ⟨⟨⟨hlo, hhi, hi⟩, hxs⟩, hafter, hpair⟩ := h
      exact ⟨hlo, hhi, hi, fun j hj => ⟨min_le_of_right_le (hafter j hj), (hxs j hj).2⟩, hpair⟩

lemma le_of_mem_covered (h : Ascends hi lo xs) {p : α} (hp : p ∈ covered xs) : lo ≤ p := by
  obtain ⟨i, hi, hle, -⟩ := hp
  exact ((ascends_iff.mp h).1 i hi).1.trans hle

lemma bounds_of_mem_gaps (h : Ascends hi lo xs) {g : α × α} (hg : g ∈ gaps hi lo xs) :
    lo ≤ g.1 ∧ g.2 ≤ hi := by
  induction xs generalizing lo with
  | nil =>
    rw [gaps] at hg
    split_ifs at hg with hlt
    · rw [List.mem_singleton.mp hg]
      exact ⟨le_rfl, le_rfl⟩
    · exact absurd hg (by simp)
  | cons i xs ih =>
    obtain ⟨hlo, hhi, hi, hxs⟩ := h
    rcases List.mem_append.mp hg with hg | hg
    · split_ifs at hg with hlt
      · rw [List.mem_singleton.mp hg]
        exact ⟨le_rfl, hhi.le⟩
      · exact absurd hg (by simp)
    · obtain ⟨hle, hend⟩ := ih hxs hg
      exact ⟨hlo.trans ((le_min hhi.le hi.le).trans hle), hend⟩

/-- An interval is not empty, so the gaps on both sides of it do not touch. -/
theorem separated_gaps (h : Ascends hi lo xs) : Separated (gaps hi lo xs) := by
  induction xs generalizing lo with
  | nil =>
    rw [gaps]
    split_ifs with hlt
    · exact ⟨by simpa using hlt, List.pairwise_singleton _ _⟩
    · exact Separated.nil
  | cons i xs ih =>
    obtain ⟨hlo, hhi, hi, hxs⟩ := h
    have hrest := ih hxs
    rw [gaps]
    split_ifs with hlt
    · refine ⟨?_, ?_⟩
      · intro g hg
        rcases List.mem_cons.mp hg with rfl | hg
        · exact hlt
        · exact hrest.proper g hg
      · refine List.pairwise_cons.mpr ⟨fun g hg => ?_, hrest.apart⟩
        exact (lt_min hhi hi).trans_le (bounds_of_mem_gaps hxs hg).1
    · exact hrest

theorem covered_gaps (h : Ascends hi lo xs) :
    covered (gaps hi lo xs) = Set.Ico lo hi \ covered xs := by
  induction xs generalizing lo with
  | nil =>
    rw [gaps, covered_nil, Set.sdiff_empty]
    split_ifs with hlt
    · exact covered_singleton _
    · rw [covered_nil, Set.Ico_eq_empty hlt]
  | cons i xs ih =>
    obtain ⟨hlo, hhi, hi, hxs⟩ := h
    have hfirst : covered (if lo < i.1 then [(lo, i.1)] else []) = Set.Ico lo i.1 := by
      split_ifs with hlt
      · exact covered_singleton _
      · rw [covered_nil, Set.Ico_eq_empty hlt]
    have habove : ∀ p ∈ covered xs, min _ i.2 ≤ p := fun p hp => le_of_mem_covered hxs hp
    rw [gaps, covered_append, hfirst, ih hxs, ← List.singleton_append, covered_append,
      covered_singleton]
    ext p
    simp only [Set.mem_union, Set.mem_Ico, Set.mem_sdiff, not_or, not_and, not_lt]
    constructor
    · rintro (⟨hle, hlt⟩ | ⟨⟨hle, hlt⟩, hnot⟩)
      · refine ⟨⟨hle, hlt.trans hhi⟩, fun hge => absurd hge (not_le.mpr hlt), fun hp => ?_⟩
        exact absurd (habove p hp) (not_le.mpr (hlt.trans (lt_min hhi hi)))
      · have hend : i.2 ≤ p := (min_le_iff.mp hle).resolve_left (not_le.mpr hlt)
        exact ⟨⟨hlo.trans (hi.le.trans hend), hlt⟩, fun _ => hend, hnot⟩
    · intro hp
      obtain ⟨⟨hle, hlt⟩, hout, hnot⟩ := hp
      rcases lt_or_ge p i.1 with hbefore | hafter
      · exact .inl ⟨hle, hbefore⟩
      · exact .inr ⟨⟨min_le_of_right_le (hout hafter), hlt⟩, hnot⟩

end Extent
