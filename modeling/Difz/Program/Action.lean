import Mathlib.Data.List.Basic

/-!
# Fallible actions

Programs over a state that can fail at any point and keep the changes made until then, with rules
of pre- and postconditions for them. A triple has two postconditions: one for the value returned
and one for the states in which the program fails.
-/

namespace Difz

namespace Program

def Action (σ ε α : Type) := σ → Except ε α × σ

variable {σ ε α β : Type}

namespace Action

instance : Monad (Action σ ε) where
  pure a := fun s => (.ok a, s)
  bind x f := fun s =>
    match x s with
    | (.ok a, s') => f a s'
    | (.error e, s') => (.error e, s')

def fail (e : ε) : Action σ ε α := fun s => (.error e, s)

/-- A computation that does not touch the state. -/
def lift (x : Except ε α) : Action σ ε α := fun s => (x, s)

def modify (f : σ → σ) : Action σ ε Unit := fun s => (.ok (), f s)

/-- What `f` sees of the state. -/
def gets (f : σ → α) : Action σ ε α := fun s => (.ok (f s), s)

/-- `x catch |e| handler e`. -/
def handle (x : Action σ ε α) (handler : ε → Action σ ε α) : Action σ ε α := fun s =>
  match x s with
  | (.ok a, s') => (.ok a, s')
  | (.error e, s') => handler e s'

/-- Run `cleanup` when the rest of the scope fails; the failure is passed on. -/
def errdefer (cleanup : Action σ ε Unit) (x : Action σ ε α) : Action σ ε α := fun s =>
  match x s with
  | (.ok a, s') => (.ok a, s')
  | (.error e, s') => (.error e, (cleanup s').2)

/-- `x` with its failures seen as another type of errors. -/
def mapError {ε' : Type} (f : ε → ε') (x : Action σ ε α) : Action σ ε' α := fun s =>
  match x s with
  | (.ok a, s') => (.ok a, s')
  | (.error e, s') => (.error (f e), s')

/-- Run over a list, in order, with an accumulator. -/
def fold (f : β → α → Action σ ε β) : β → List α → Action σ ε β
  | b, [] => pure b
  | b, a :: as => do
    let b ← f b a
    fold f b as

end Action

open Difz.Program.Action

lemma bind_apply (x : Action σ ε α) (f : α → Action σ ε β) (s : σ) :
    (x >>= f) s = match x s with
      | (.ok a, s') => f a s'
      | (.error e, s') => (.error e, s') := rfl

/-- A sequence returns when both parts do. -/
lemma bind_eq_ok {x : Action σ ε α} {f : α → Action σ ε β} {s u : σ} {b : β} :
    (x >>= f) s = (.ok b, u) ↔ ∃ a t, x s = (.ok a, t) ∧ f a t = (.ok b, u) := by
  rw [bind_apply]
  generalize x s = r
  obtain ⟨e | a, t⟩ := r
  · simp
  · simp

/-- A sequence whose first part returns goes on with the second. -/
lemma bind_of_ok {x : Action σ ε α} {f : α → Action σ ε β} {s t : σ} {a : α} (h : x s = (.ok a, t)) :
    (x >>= f) s = f a t := by
  rw [bind_apply, h]

lemma pure_eq_ok {a b : α} {s t : σ} :
    (pure a : Action σ ε α) s = (.ok b, t) ↔ a = b ∧ s = t := by
  change (Except.ok a, s) = (Except.ok b, t) ↔ _
  rw [Prod.mk.injEq, Except.ok.injEq]

lemma bind_gets (f : σ → α) (k : α → Action σ ε β) (s : σ) : (gets f >>= k) s = k (f s) s := rfl

section Rounds

variable {f : α → Action σ ε Unit} {s : σ} {as : List α}

end Rounds

/-- From a state with `P`, a result satisfies `Q` and a failure leaves a state with `E`. -/
def Triple (P : σ → Prop) (x : Action σ ε α) (Q : α → σ → Prop) (E : σ → Prop) : Prop :=
  ∀ s, P s → match x s with
    | (.ok a, s') => Q a s'
    | (.error _, s') => E s'

namespace Triple

variable {P P' E E' F : σ → Prop} {Q Q' : α → σ → Prop} {R : β → σ → Prop}

lemma pure {a : α} (h : ∀ s, P s → Q a s) : Triple P (pure a : Action σ ε α) Q E := h

lemma fail {e : ε} (h : ∀ s, P s → E s) : Triple P (fail e : Action σ ε α) Q E := h

lemma modify {f : σ → σ} {Q : Unit → σ → Prop} (h : ∀ s, P s → Q () (f s)) :
    Triple P (modify f : Action σ ε Unit) Q E := h

lemma bind {x : Action σ ε α} {f : α → Action σ ε β} (hx : Triple P x Q E)
    (hf : ∀ a, Triple (Q a) (f a) R E) : Triple P (x >>= f) R E := by
  intro s hs
  have h := hx s hs
  rw [bind_apply]
  generalize x s = r at h ⊢
  obtain ⟨a | a, s'⟩ := r
  · exact h
  · exact hf a s' h

lemma of_ok {x : Action σ ε α} (h : Triple P x Q E) {s s' : σ} {a : α} (hs : P s)
    (hrun : x s = (.ok a, s')) : Q a s' := by
  have := h s hs
  rwa [hrun] at this

lemma of_error {x : Action σ ε α} (h : Triple P x Q E) {s s' : σ} {e : ε} (hs : P s)
    (hrun : x s = (.error e, s')) : E s' := by
  have := h s hs
  rwa [hrun] at this

/-- Go on with the value of a computation that does not touch the state. -/
lemma lift_bind {x : Except ε α} {f : α → Action σ ε β} (hE : ∀ s, P s → E s)
    (hf : ∀ a, x = .ok a → Triple P (f a) R E) : Triple P (Action.lift x >>= f) R E := by
  cases x with
  | ok a => exact hf a rfl
  | error e => exact hE

/-- Stronger precondition, weaker postconditions. -/
lemma mono {x : Action σ ε α} (hx : Triple P x Q E) (hP : ∀ s, P' s → P s)
    (hQ : ∀ a s, Q a s → Q' a s) (hE : ∀ s, E s → E' s) : Triple P' x Q' E' := by
  intro s hs
  have h := hx s (hP s hs)
  generalize x s = r at h ⊢
  obtain ⟨e | a, s'⟩ := r
  · exact hE s' h
  · exact hQ a s' h

/-- A precondition that fixes something about the state may be assumed outright. -/
lemma of_exists {ι : Type} {P : ι → σ → Prop} {x : Action σ ε α}
    (h : ∀ i, Triple (P i) x Q E) : Triple (fun s => ∃ i, P i s) x Q E :=
  fun s ⟨i, hs⟩ => h i s hs

lemma handle {x : Action σ ε α} {handler : ε → Action σ ε α} (hx : Triple P x Q F)
    (hh : ∀ e, Triple F (handler e) Q E) : Triple P (handle x handler) Q E := by
  intro s hs
  have h := hx s hs
  unfold Action.handle
  generalize x s = r at h ⊢
  obtain ⟨e | a, s'⟩ := r
  · exact hh e s' h
  · exact h

lemma errdefer {x : Action σ ε α} {cleanup : Action σ ε Unit} (hx : Triple P x Q F)
    (hc : Triple F cleanup (fun _ => E) E) : Triple P (errdefer cleanup x) Q E := by
  intro s hs
  have h := hx s hs
  unfold Action.errdefer
  generalize x s = r at h ⊢
  obtain ⟨e | a, s'⟩ := r
  · have hclean := hc s' h
    change E (cleanup s').2
    generalize cleanup s' = r' at hclean ⊢
    obtain ⟨e' | a', s''⟩ := r'
    · exact hclean
    · exact hclean
  · exact h

lemma mapError {ε' : Type} {f : ε → ε'} {x : Action σ ε α} (hx : Triple P x Q E) :
    Triple P (mapError f x) Q E := by
  intro s hs
  have h := hx s hs
  unfold Action.mapError
  generalize x s = r at h ⊢
  obtain ⟨e | a, s'⟩ := r
  · exact h
  · exact h

end Triple

/-- The action keeps `P`, whether it fails or not. -/
def Keeps (P : σ → Prop) (x : Action σ ε α) : Prop := Triple P x (fun _ => P) P

namespace Keeps

variable {P : σ → Prop}

lemma pure (a : α) : Keeps P (pure a : Action σ ε α) := fun _ hs => hs

lemma fail (e : ε) : Keeps P (fail e : Action σ ε α) := fun _ hs => hs

lemma lift (x : Except ε α) : Keeps P (Action.lift x) := by
  intro s hs
  cases x with
  | ok a => exact hs
  | error e => exact hs

lemma bind {x : Action σ ε α} {f : α → Action σ ε β} (hx : Keeps P x) (hf : ∀ a, Keeps P (f a)) :
    Keeps P (x >>= f) :=
  Triple.bind hx hf

lemma handle {x : Action σ ε α} {handler : ε → Action σ ε α} (hx : Keeps P x)
    (hh : ∀ e, Keeps P (handler e)) : Keeps P (Action.handle x handler) :=
  Triple.handle hx hh

/-- A loop keeps what each round keeps. -/
lemma fold {f : β → α → Action σ ε β} (hf : ∀ b a, Keeps P (f b a)) (b : β) (as : List α) :
    Keeps P (Action.fold f b as) := by
  induction as generalizing b with
  | nil => exact pure b
  | cons a as ih => exact bind (hf b a) fun b' => ih b'

lemma fold_mem {f : β → α → Action σ ε β} {as : List α}
    (hf : ∀ b, ∀ a ∈ as, Keeps P (f b a)) (b : β) : Keeps P (Action.fold f b as) := by
  induction as generalizing b with
  | nil => exact pure b
  | cons a as ih =>
    exact bind (hf b a List.mem_cons_self) fun b' =>
      ih (fun b a ha => hf b a (List.mem_cons_of_mem _ ha)) b'

end Keeps

end Program

end Difz
