import Mathlib.Computability.Language

/-!
# Languages of glob atoms

Single letters, runs of letters and prefixes that end in a fixed letter, over any alphabet, and
how each of them goes in front of a language. Every lemma looks at the first letter of a word, so
membership can be decided from the right end of a word to its left end.
-/

namespace Words

variable {α : Type} {p : α → Prop} {a last : α} {w : List α} {L : Language α}

/-- Words of one letter that satisfies `p`. -/
def letter (p : α → Prop) : Language α := {w | ∃ a, p a ∧ w = [a]}

/-- Words whose letters all satisfy `p`. -/
def run (p : α → Prop) : Language α := {w | ∀ a ∈ w, p a}

/-- The empty word, and the words of letters in `p` with `last` behind them. -/
def lead (p : α → Prop) (last : α) : Language α :=
  {w | w = [] ∨ ∃ v, (∀ a ∈ v, p a) ∧ w = v ++ [last]}

/-- A word of `L` behind letters in `p` and `last`. -/
def behind (p : α → Prop) (last : α) (L : Language α) : Language α :=
  {w | ∃ v u, (∀ a ∈ v, p a) ∧ u ∈ L ∧ w = v ++ last :: u}

/-! ### One letter -/

lemma nil_notMem_letter_mul : [] ∉ letter p * L := by
  intro h
  obtain ⟨v, ⟨a, -, rfl⟩, u, -, heq⟩ := Language.mem_mul.mp h
  simp at heq

lemma cons_mem_letter_mul : a :: w ∈ letter p * L ↔ p a ∧ w ∈ L := by
  rw [Language.mem_mul]
  constructor
  · intro h
    obtain ⟨v, ⟨b, hb, rfl⟩, u, hu, heq⟩ := h
    obtain ⟨rfl, rfl⟩ := List.cons.inj heq
    exact ⟨hb, hu⟩
  · intro h
    obtain ⟨ha, hw⟩ := h
    exact ⟨[a], ⟨a, ha, rfl⟩, w, hw, rfl⟩

/-! ### A run of letters -/

lemma nil_mem_run_mul : [] ∈ run p * L ↔ [] ∈ L := by
  rw [Language.mem_mul]
  constructor
  · intro h
    obtain ⟨v, -, u, hu, heq⟩ := h
    obtain ⟨rfl, rfl⟩ := List.append_eq_nil_iff.mp heq
    exact hu
  · intro h
    exact ⟨[], List.forall_mem_nil _, [], h, rfl⟩

lemma cons_mem_run_mul : a :: w ∈ run p * L ↔ a :: w ∈ L ∨ p a ∧ w ∈ run p * L := by
  constructor
  · intro h
    obtain ⟨v, hv, u, hu, heq⟩ := Language.mem_mul.mp h
    cases v with
    | nil => exact Or.inl (heq ▸ hu)
    | cons b v =>
      obtain ⟨rfl, rfl⟩ := List.cons.inj heq
      obtain ⟨hb, hv⟩ := List.forall_mem_cons.mp hv
      exact Or.inr ⟨hb, Language.mem_mul.mpr ⟨v, hv, u, hu, rfl⟩⟩
  · intro h
    rcases h with h | h
    · exact Language.mem_mul.mpr ⟨[], List.forall_mem_nil _, _, h, rfl⟩
    · obtain ⟨ha, hw⟩ := h
      obtain ⟨v, hv, u, hu, rfl⟩ := Language.mem_mul.mp hw
      exact Language.mem_mul.mpr ⟨a :: v, List.forall_mem_cons.mpr ⟨ha, hv⟩, u, hu, rfl⟩

/-! ### A leading part -/

lemma mem_lead_mul : w ∈ lead p last * L ↔ w ∈ L ∨ w ∈ behind p last L := by
  rw [Language.mem_mul]
  constructor
  · intro h
    obtain ⟨v, hv, u, hu, rfl⟩ := h
    rcases hv with rfl | hv
    · exact Or.inl hu
    · obtain ⟨v, hv, rfl⟩ := hv
      exact Or.inr ⟨v, u, hv, hu, by simp⟩
  · intro h
    rcases h with h | h
    · exact ⟨[], Or.inl rfl, w, h, rfl⟩
    · obtain ⟨v, u, hv, hu, rfl⟩ := h
      exact ⟨v ++ [last], Or.inr ⟨v, hv, rfl⟩, u, hu, by simp⟩

lemma nil_notMem_behind : [] ∉ behind p last L := by
  intro h
  obtain ⟨v, u, -, -, heq⟩ := h
  simp at heq

lemma cons_mem_behind :
    a :: w ∈ behind p last L ↔ a = last ∧ w ∈ L ∨ p a ∧ w ∈ behind p last L := by
  constructor
  · intro h
    obtain ⟨v, u, hv, hu, heq⟩ := h
    cases v with
    | nil =>
      obtain ⟨rfl, rfl⟩ := List.cons.inj heq
      exact Or.inl ⟨rfl, hu⟩
    | cons b v =>
      obtain ⟨rfl, rfl⟩ := List.cons.inj heq
      obtain ⟨hb, hv⟩ := List.forall_mem_cons.mp hv
      exact Or.inr ⟨hb, v, u, hv, hu, rfl⟩
  · intro h
    rcases h with h | h
    · obtain ⟨rfl, hw⟩ := h
      exact ⟨[], w, List.forall_mem_nil _, hw, rfl⟩
    · obtain ⟨ha, v, u, hv, hu, rfl⟩ := h
      exact ⟨a :: v, u, List.forall_mem_cons.mpr ⟨ha, hv⟩, hu, rfl⟩

end Words
