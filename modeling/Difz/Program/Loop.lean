import Mathlib.Logic.Relation

/-!
# Loops

A loop is a step function that says whether to go round again. `run` gives it a number of rounds,
and what it comes to does not depend on that number, `run_unique`. The states that it goes through
are those that `Reaches` relates to the first one; a loop keeps what each of its rounds keeps, and
it ends when its rounds take a measure down.
-/

namespace Loop

variable {σ α : Type}

/-- How a round of the loop ends. -/
inductive Round (σ α : Type)
  | again (s : σ)
  | done (a : α)

variable (step : σ → Round σ α)

def run : Nat → σ → Option α
  | 0, _ => none
  | fuel + 1, s =>
    match step s with
    | .done a => some a
    | .again s => run fuel s

/-- The states at the start of a round. -/
abbrev Reaches : σ → σ → Prop := Relation.ReflTransGen fun s t => step s = .again t

variable {step} {s t : σ} {a b : α} {fuel fuel' : Nat}

lemma run_done (h : step s = .done a) : run step (fuel + 1) s = some a := by
  rw [run, h]

lemma run_again (h : step s = .again t) : run step (fuel + 1) s = run step fuel t := by
  rw [run, h]

lemma run_succ (h : run step fuel s = some a) : run step (fuel + 1) s = some a := by
  induction fuel generalizing s with
  | zero => exact absurd h (by simp [run])
  | succ fuel ih =>
    cases hs : step s with
    | done b =>
      rw [run_done hs] at h ⊢
      exact h
    | again t =>
      rw [run_again hs] at h ⊢
      exact ih h

lemma run_of_le (hle : fuel ≤ fuel') (h : run step fuel s = some a) :
    run step fuel' s = some a := by
  induction hle with
  | refl => exact h
  | step _ ih => exact run_succ ih

/-- There is one result, however many rounds the loop was given. -/
theorem run_unique (h : run step fuel s = some a) (h' : run step fuel' s = some b) : a = b := by
  have ha := run_of_le (Nat.le_max_left fuel fuel') h
  have hb := run_of_le (Nat.le_max_right fuel fuel') h'
  exact Option.some.inj (ha.symm.trans hb)

/-- What the loop comes to from a state on its way is what it comes to. -/
lemma Reaches.exists_run (h : Reaches step s t) (hrun : run step fuel t = some a) :
    ∃ fuel, run step fuel s = some a := by
  induction h using Relation.ReflTransGen.head_induction_on with
  | refl => exact ⟨fuel, hrun⟩
  | head hs _ ih =>
    obtain ⟨fuel, hfuel⟩ := ih
    exact ⟨fuel + 1, (run_again hs).trans hfuel⟩

/-- What a round does is done by the loop. -/
lemma Reaches.exists_run_done (h : Reaches step s t) (hdone : step t = .done a) :
    ∃ fuel, run step fuel s = some a := by
  have hrun : run step 1 t = some a := run_done hdone
  exact h.exists_run hrun

/-- An invariant of the rounds holds in every state that the loop goes through. -/
lemma Reaches.preserves {I : σ → Prop} (h : Reaches step s t)
    (hI : ∀ s t, I s → step s = .again t → I t) (hs : I s) : I t := by
  induction h with
  | refl => exact hs
  | tail _ hround ih => exact hI _ _ ih hround

/-- A result is that of a round. -/
lemma exists_reaches (h : run step fuel s = some a) : ∃ t, Reaches step s t ∧ step t = .done a := by
  induction fuel generalizing s with
  | zero => exact absurd h (by simp [run])
  | succ fuel ih =>
    cases hs : step s with
    | done b =>
      obtain rfl := Option.some.inj ((run_done hs).symm.trans h)
      exact ⟨s, .refl, hs⟩
    | again t =>
      obtain ⟨u, hu, hdone⟩ := ih ((run_again hs).symm.trans h)
      exact ⟨u, .head hs hu, hdone⟩

/-- More rounds than the measure of the first state are enough. -/
theorem exists_run {I : σ → Prop} (measure : σ → Nat)
    (hstep : ∀ s t, I s → step s = .again t → I t ∧ measure t < measure s) (hs : I s)
    (hfuel : measure s < fuel) : ∃ a, run step fuel s = some a := by
  induction fuel generalizing s with
  | zero => omega
  | succ fuel ih =>
    cases hround : step s with
    | done a => exact ⟨a, run_done hround⟩
    | again t =>
      obtain ⟨ht, hlt⟩ := hstep s t hs hround
      rw [run_again hround]
      exact ih ht (by omega)

end Loop
