import Mathlib.Tactic
import Mathlib.Data.List.Pairwise

/-!
# Binary search by key

The half-open window loop over a list whose keys are strictly increasing. The loop is bounded by
the length of the list, which always suffices because the window shrinks in every round.
-/

namespace Search

variable {α β κ : Type} [Ord κ]

/-- One run of the loop on the window `[low, high)`. -/
def window (key : α → κ) (xs : List α) (k : κ) : Nat → Nat → Nat → Option Nat
  | 0, _, _ => none
  | fuel + 1, low, high =>
    if low < high then
      let middle := low + (high - low) / 2
      match xs[middle]? with
      | none => none
      | some x =>
        match compare (key x) k with
        | .lt => window key xs k fuel (middle + 1) high
        | .gt => window key xs k fuel low middle
        | .eq => some middle
    else none

/-- The position of the item with key `k`. -/
def find (key : α → κ) (xs : List α) (k : κ) : Option Nat :=
  window key xs k xs.length 0 xs.length

/-- Keys strictly increase along the list. -/
def Sorted (key : α → κ) (xs : List α) : Prop :=
  xs.Pairwise fun a b => compare (key a) (key b) = .lt

lemma window_map (f : β → α) (key : α → κ) (xs : List β) (k : κ) (fuel low high : Nat) :
    window key (xs.map f) k fuel low high = window (key ∘ f) xs k fuel low high := by
  induction fuel generalizing low high with
  | zero => rfl
  | succ fuel ih =>
    simp only [window, List.getElem?_map, ih]
    cases xs[low + (high - low) / 2]? <;> rfl

lemma find_map (f : β → α) (key : α → κ) (xs : List β) (k : κ) :
    find key (xs.map f) k = find (key ∘ f) xs k := by
  simp [find, window_map]

/-- The search only looks at the keys. -/
lemma find_congr (key : α → κ) (key' : β → κ) (xs : List α) (ys : List β) (k : κ)
    (h : xs.map key = ys.map key') : find key xs k = find key' ys k := by
  have hx := find_map key id xs k
  have hy := find_map key' id ys k
  rw [h] at hx
  exact hx.symm.trans hy

lemma Sorted.lt {key : α → κ} {xs : List α} (h : Sorted key xs) {i j : Nat} (hij : i < j)
    {x y : α} (hx : xs[i]? = some x) (hy : xs[j]? = some y) :
    compare (key x) (key y) = .lt := by
  obtain ⟨hi, rfl⟩ := List.getElem?_eq_some_iff.mp hx
  obtain ⟨hj, rfl⟩ := List.getElem?_eq_some_iff.mp hy
  exact List.pairwise_iff_getElem.mp h i j hi hj hij

section Lawful

variable [Std.LawfulEqOrd κ]

/-- Distinct positions hold distinct keys. -/
lemma Sorted.index_unique {key : α → κ} {xs : List α} (h : Sorted key xs) {i j : Nat} {x y : α}
    (hx : xs[i]? = some x) (hy : xs[j]? = some y) (hk : key x = key y) : i = j := by
  rcases Nat.lt_trichotomy i j with hij | hij | hij
  · have := h.lt hij hx hy
    rw [hk, Std.compare_self] at this
    exact absurd this (by decide)
  · exact hij
  · have := h.lt hij hy hx
    rw [hk, Std.compare_self] at this
    exact absurd this (by decide)

/-- Items with equal keys are the same item. -/
lemma Sorted.eq_of_key {key : α → κ} {xs : List α} (h : Sorted key xs) {x y : α}
    (hx : x ∈ xs) (hy : y ∈ xs) (hk : key x = key y) : x = y := by
  obtain ⟨i, hi⟩ := List.mem_iff_getElem?.mp hx
  obtain ⟨j, hj⟩ := List.mem_iff_getElem?.mp hy
  obtain rfl := h.index_unique hi hj hk
  exact Option.some.inj (hi.symm.trans hj)

/-- The items before a given one are those with smaller keys. -/
lemma Sorted.mem_before_iff [Std.TransOrd κ] {key : α → κ} {xs before after : List α} {x y : α}
    (h : Sorted key xs) (hsplit : xs = before ++ x :: after) :
    y ∈ before ↔ y ∈ xs ∧ compare (key y) (key x) = .lt := by
  rw [hsplit] at h
  obtain ⟨-, hafter, hcross⟩ := List.pairwise_append.mp h
  constructor
  · intro hy
    exact ⟨by simp [hsplit, hy], hcross y hy x (by simp)⟩
  · intro hx
    obtain ⟨hy, hlt⟩ := hx
    rw [hsplit] at hy
    rcases List.mem_append.mp hy with hy | hy
    · exact hy
    · rcases List.mem_cons.mp hy with rfl | hy
      · rw [Std.compare_self] at hlt
        exact absurd hlt (by decide)
      · have hgt := (List.pairwise_cons.mp hafter).1 y hy
        have := Std.TransCmp.lt_trans hlt hgt
        rw [Std.compare_self] at this
        exact absurd this (by decide)

lemma Sorted.nodup {key : α → κ} {xs : List α} (h : Sorted key xs) : xs.Nodup := by
  refine List.Pairwise.imp (fun hlt => ?_) h
  rintro rfl
  rw [Std.compare_self] at hlt
  exact absurd hlt (by decide)

/-- A sorted list is determined by its items. -/
lemma Sorted.eq_of_mem_iff [Std.TransOrd κ] {key : α → κ} {xs ys : List α} (hx : Sorted key xs)
    (hy : Sorted key ys) (h : ∀ x, x ∈ xs ↔ x ∈ ys) : xs = ys := by
  have hperm : xs.Perm ys := (List.perm_ext_iff_of_nodup hx.nodup hy.nodup).mpr h
  refine hperm.eq_of_pairwise (fun a b _ _ hab hba => ?_) hx hy
  have := Std.TransCmp.lt_trans hab hba
  rw [Std.compare_self] at this
  exact absurd this (by decide)

/-- What the window returns holds the key; this needs no order. -/
lemma window_sound {key : α → κ} {xs : List α} {k : κ} {fuel low high i : Nat}
    (h : window key xs k fuel low high = some i) : ∃ x, xs[i]? = some x ∧ key x = k := by
  induction fuel generalizing low high with
  | zero => simp [window] at h
  | succ fuel ih =>
    simp only [window] at h
    split_ifs at h with hlt
    cases hx : xs[low + (high - low) / 2]? with
    | none => simp [hx] at h
    | some x =>
      simp only [hx] at h
      cases hc : compare (key x) k with
      | lt => exact ih (by simpa [hc] using h)
      | gt => exact ih (by simpa [hc] using h)
      | eq =>
        simp only [hc, Option.some.injEq] at h
        exact ⟨x, h ▸ hx, Std.LawfulEqOrd.eq_of_compare hc⟩

variable [Std.OrientedOrd κ]

/-- The window contracts around the item looked for: it stays inside `[low, high)`. -/
lemma window_complete {key : α → κ} {xs : List α} {k : κ} (hs : Sorted key xs)
    {fuel low high i : Nat} {x : α} (hx : xs[i]? = some x) (hk : key x = k)
    (hlow : low ≤ i) (hhigh : i < high) (hle : high ≤ xs.length) (hfuel : high - low ≤ fuel) :
    window key xs k fuel low high = some i := by
  induction fuel generalizing low high with
  | zero => omega
  | succ fuel ih =>
    simp only [window]
    rw [if_pos (by omega)]
    set middle := low + (high - low) / 2 with hm
    have hy : xs[middle]? = some xs[middle] := List.getElem?_eq_getElem (by omega)
    rcases Nat.lt_trichotomy middle i with hlt | heq | hgt
    · have hc := hs.lt hlt hy hx
      rw [hk] at hc
      simp only [hy, hc]
      exact ih (by omega) hhigh hle (by omega)
    · simp [heq, hx, hk]
    · have hc : compare (key xs[middle]) (key x) = .gt :=
        Std.OrientedCmp.gt_iff_lt.mpr (hs.lt hgt hx hy)
      rw [hk] at hc
      simp only [hy, hc]
      exact ih hlow hgt (by omega) (by omega)

/-- On strictly increasing keys the search finds exactly the position of the key. -/
theorem find_eq_some_iff {key : α → κ} {xs : List α} (hs : Sorted key xs) {k : κ} {i : Nat} :
    find key xs k = some i ↔ ∃ x, xs[i]? = some x ∧ key x = k := by
  constructor
  · exact window_sound
  · intro h
    obtain ⟨x, hx, hk⟩ := h
    have hi := (List.getElem?_eq_some_iff.mp hx).1
    exact window_complete hs hx hk (Nat.zero_le _) hi le_rfl (by omega)

end Lawful

end Search
