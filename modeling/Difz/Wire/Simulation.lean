import Difz.Wire.Reader

/-!
# Agreement of readers

Two implementations of one format, with errors and values of their own. `Agree name R x y` says
that two computations end alike: both with values related by `R`, or both with an error, the
second one being the name of the first. Readers agree when they do so at any two cursors with the
same input ahead, wherever these cursors stand in their byte strings. Agreement is closed under
sequencing and repetition, so that two parsers are compared field by field.
-/

namespace Wire

variable {ε δ α β γ ζ : Type} {name : ε → δ} {R : α → β → Prop} {S : γ → ζ → Prop}

lemma bind_eq_error {x : Except ε α} {f : α → Except ε γ} {e : ε} :
    (x >>= f) = .error e ↔ x = .error e ∨ ∃ a, x = .ok a ∧ f a = .error e := by
  cases x with
  | error d => simp [error_bind]
  | ok a => simp [ok_bind]

lemma mapError_ok (f : ε → δ) (a : α) : (Except.ok a : Except ε α).mapError f = .ok a := rfl

lemma ensure_pos {p : Prop} {_ : Decidable p} (h : p) (e : ε) : ensure p e = .ok () := if_pos h

lemma ensure_neg {p : Prop} {_ : Decidable p} (h : ¬p) (e : ε) : ensure p e = .error e := if_neg h

/-- Both succeed with related values, or both fail with errors of one name. -/
def Agree (name : ε → δ) (R : α → β → Prop) : Except ε α → Except δ β → Prop
  | .ok a, .ok b => R a b
  | .error e, .error d => name e = d
  | _, _ => False

namespace Agree

lemma ok {a : α} {b : β} (h : R a b) : Agree name R (.ok a) (.ok b) := h

lemma error {e : ε} {d : δ} (h : name e = d) : Agree name R (.error e) (.error d) := h

/-- Sequencing, when the rest depends on how the first part came out. -/
lemma bind_of_eq {x : Except ε α} {y : Except δ β} {f : α → Except ε γ} {g : β → Except δ ζ}
    (h : Agree name R x y)
    (hfg : ∀ a b, x = .ok a → y = .ok b → R a b → Agree name S (f a) (g b)) :
    Agree name S (x >>= f) (y >>= g) := by
  cases x with
  | error e =>
    cases y with
    | error d => exact h
    | ok b => exact h.elim
  | ok a =>
    cases y with
    | error d => exact h.elim
    | ok b => exact hfg a b rfl rfl h

lemma bind {x : Except ε α} {y : Except δ β} {f : α → Except ε γ} {g : β → Except δ ζ}
    (h : Agree name R x y) (hfg : ∀ a b, R a b → Agree name S (f a) (g b)) :
    Agree name S (x >>= f) (y >>= g) :=
  h.bind_of_eq fun a b _ _ => hfg a b

lemma mono {R' : α → β → Prop} {x : Except ε α} {y : Except δ β} (h : Agree name R x y)
    (hR : ∀ a b, R a b → R' a b) : Agree name R' x y := by
  cases x with
  | error e =>
    cases y with
    | error d => exact h
    | ok b => exact h.elim
  | ok a =>
    cases y with
    | error d => exact h.elim
    | ok b => exact hR a b h

/-- A value computed further on one side only. -/
lemma map_right {S : α → ζ → Prop} {f : β → ζ} {x : Except ε α} {y : Except δ β}
    (h : Agree name R x y) (hf : ∀ a b, R a b → S a (f b)) :
    Agree name S x (y >>= fun b => .ok (f b)) := by
  cases x with
  | error e =>
    cases y with
    | error d => exact h
    | ok b => exact h.elim
  | ok a =>
    cases y with
    | error d => exact h.elim
    | ok b => exact hf a b h

lemma exists_ok {x : Except ε α} {y : Except δ β} {a : α} (h : Agree name R x y)
    (hx : x = .ok a) : ∃ b, y = .ok b ∧ R a b := by
  subst hx
  cases y with
  | error d => exact h.elim
  | ok b => exact ⟨b, rfl, h⟩

lemma error_eq {x : Except ε α} {y : Except δ β} {e : ε} (h : Agree name R x y)
    (hx : x = .error e) : y = .error (name e) := by
  subst hx
  cases y with
  | error d => exact congrArg _ (Eq.symm h)
  | ok b => exact h.elim

/-- Computations that agree on their values succeed alike. -/
lemma ok_iff {x : Except ε α} {y : Except δ α} {a : α} (h : Agree name Eq x y) :
    y = .ok a ↔ x = .ok a := by
  cases x with
  | error e =>
    rw [h.error_eq rfl]
    simp
  | ok b =>
    obtain ⟨_, rfl, rfl⟩ := h.exists_ok rfl
    simp

/-- Agreement on a function of the value is an equation. -/
lemma iff_eq {f : α → β} {x : Except ε α} {y : Except δ β} :
    Agree name (fun a b => b = f a) x y ↔ y = (x.mapError name).map f := by
  cases x with
  | error e =>
    cases y with
    | error d =>
      change name e = d ↔ Except.error d = Except.error (name e)
      rw [Except.error.injEq, eq_comm]
    | ok b => exact iff_of_false (fun h => h) (by simp [Except.mapError, Except.map])
  | ok a =>
    cases y with
    | error d => exact iff_of_false (fun h => h) (by simp [Except.mapError, Except.map])
    | ok b =>
      change b = f a ↔ Except.ok b = Except.ok (f a)
      rw [Except.ok.injEq]

lemma of_eq {x : Except ε α} {y : Except δ α} (h : y = x.mapError name) :
    Agree name Eq x y := by
  subst h
  cases x <;> rfl

/-- A check both sides make, with what it establishes for the rest. -/
lemma ensure_bind {p q : Prop} [Decidable p] [Decidable q] {e : ε} {d : δ} (hpq : p ↔ q)
    (he : name e = d) {x : Except ε α} {y : Except δ β} (h : p → Agree name R x y) :
    Agree name R (Wire.ensure p e >>= fun _ => x) (Wire.ensure q d >>= fun _ => y) := by
  by_cases hp : p
  · rw [Wire.ensure, Wire.ensure, if_pos hp, if_pos (hpq.mp hp)]
    exact h hp
  · rw [Wire.ensure, Wire.ensure, if_neg hp, if_neg (mt hpq.mpr hp)]
    exact he

/-- A check on one side, the return of an error on the other. -/
lemma ensure_else {p q : Prop} [Decidable p] [Decidable q] {R : Unit → β → Prop} {e : ε} {d : δ}
    (hpq : p ↔ ¬q) (he : name e = d) {b : β} (h : p → R () b) :
    Agree name R (Wire.ensure p e) (if q then .error d else .ok b) := by
  by_cases hp : p
  · rw [Wire.ensure, if_pos hp, if_neg (hpq.mp hp)]
    exact h hp
  · rw [Wire.ensure, if_neg hp, if_pos (not_not.mp (mt hpq.mpr hp))]
    exact he

/-- The return of an error on one side, a check on the other. -/
lemma else_ensure {p q : Prop} [Decidable p] [Decidable q] {e : ε} {d : δ} (hpq : p ↔ ¬q)
    (he : name e = d) {x : Except ε α} {y : Except δ β} (h : q → Agree name R x y) :
    Agree name R (if p then .error e else x) (Wire.ensure q d >>= fun _ => y) := by
  by_cases hq : q
  · rw [if_neg (fun hp => hpq.mp hp hq), Wire.ensure, if_pos hq]
    exact h hq
  · rw [if_pos (hpq.mpr hq), Wire.ensure, if_neg hq]
    exact he

lemma ite {p q : Prop} [Decidable p] [Decidable q] (hpq : p ↔ q) {x x' : Except ε α}
    {y y' : Except δ β} (h : p → Agree name R x y) (h' : ¬p → Agree name R x' y') :
    Agree name R (if p then x else x') (if q then y else y') := by
  by_cases hp : p
  · rw [if_pos hp, if_pos (hpq.mp hp)]
    exact h hp
  · rw [if_neg hp, if_neg (mt hpq.mpr hp)]
    exact h' hp

/-- Renaming errors on the way. -/
lemma mapError {ε' : Type} {f : ε → ε'} {name' : ε' → δ} {x : Except ε α} {y : Except δ β}
    (h : Agree name R x y) (hf : ∀ e, name' (f e) = name e) :
    Agree name' R (x.mapError f) y := by
  cases x with
  | error e =>
    cases y with
    | error d => exact (hf e).trans h
    | ok b => exact h.elim
  | ok a =>
    cases y with
    | error d => exact h.elim
    | ok b => exact h

end Agree

/-! ### Readers as functions -/

namespace Reader

lemma lift_ok_bind (a : α) (f : α → Reader ε β) : (lift (.ok a) >>= f) = f a := rfl

lemma lift_error_bind (e : ε) (f : α → Reader ε β) :
    (lift (.error e) >>= f) = (lift (.error e) : Reader ε β) := rfl

lemma lift_bind (x : Except ε α) (f : α → Except ε β) :
    lift (x >>= f) = (lift x >>= fun a => lift (f a)) := by
  cases x <;> rfl

/-- What follows a byte string matters only on byte strings of its length. -/
lemma take_bind_congr {e : ε} {n : Nat} {f g : List UInt8 → Reader ε β}
    (h : ∀ w, w.length = n → f w = g w) : (take e n >>= f) = (take e n >>= g) := by
  funext c
  change (take e n c >>= fun p => f p.1 p.2) = (take e n c >>= fun p => g p.1 p.2)
  cases ht : take e n c with
  | error e => rfl
  | ok p => rw [ok_bind, ok_bind, h p.1 (take_eq_ok.mp ht).1]

/-- A byte string may be taken in two parts. -/
lemma take_add (e : ε) (m n : Nat) :
    take e (m + n) = take e m >>= fun v => take e n >>= fun w => pure (v ++ w) := by
  funext c
  have hle := c.le
  by_cases hm : c.offset + m ≤ c.bytes.length
  · have htake : take e m c = .ok (c.rest.take m, ⟨c.bytes, c.offset + m, hm⟩) := dif_pos hm
    change take e (m + n) c = (take e m c >>= fun p => take e n p.2 >>= fun q =>
      .ok (p.1 ++ q.1, q.2))
    rw [htake, ok_bind]
    unfold take
    by_cases hn : c.offset + m + n ≤ c.bytes.length
    · rw [dif_pos hn, dif_pos (by omega), ok_bind, Cursor.rest_advance, List.take_add]
      simp [Nat.add_assoc]
    · rw [dif_neg hn, dif_neg (by omega), error_bind]
  · have htake : take e m c = .error e := dif_neg hm
    change take e (m + n) c = (take e m c >>= fun p => take e n p.2 >>= fun q =>
      .ok (p.1 ++ q.1, q.2))
    rw [htake, error_bind]
    exact dif_neg (by omega)

end Reader

/-! ### Agreeing readers -/

/-- Two cursors have moved on in their byte strings and still have the same input ahead. -/
structure Abreast (c d c' d' : Cursor) : Prop where
  rest : c'.rest = d'.rest
  left : c'.bytes = c.bytes
  right : d'.bytes = d.bytes

/-- The readers agree at cursors with the same input ahead. -/
def Reader.Agree (name : ε → δ) (R : α → β → Prop) (r : Reader ε α) (s : Reader δ β) : Prop :=
  ∀ c d : Cursor, c.rest = d.rest →
    Wire.Agree name (fun p q => R p.1 q.1 ∧ Abreast c d p.2 q.2) (r c) (s d)

namespace Reader.Agree

variable {r : Reader ε α} {s : Reader δ β}

lemma pure {a : α} {b : β} (h : R a b) :
    Reader.Agree name R (Pure.pure a : Reader ε α) (Pure.pure b : Reader δ β) :=
  fun _ _ hcd => ⟨h, hcd, rfl, rfl⟩

lemma bind {f : α → Reader ε γ} {g : β → Reader δ ζ} (h : Reader.Agree name R r s)
    (hfg : ∀ a b, R a b → Reader.Agree name S (f a) (g b)) :
    Reader.Agree name S (r >>= f) (s >>= g) := by
  intro c d hcd
  refine (h c d hcd).bind fun p q hpq => ?_
  obtain ⟨hR, hrest, hleft, hright⟩ := hpq
  refine (hfg p.1 q.1 hR p.2 q.2 hrest).mono fun p' q' hpq' => ?_
  obtain ⟨hS, hrest', hleft', hright'⟩ := hpq'
  exact ⟨hS, hrest', hleft'.trans hleft, hright'.trans hright⟩

lemma lift {x : Except ε α} {y : Except δ β} (h : Wire.Agree name R x y) :
    Reader.Agree name R (Reader.lift x) (Reader.lift y) := by
  intro c d hcd
  cases x with
  | error e =>
    cases y with
    | error _ => exact h
    | ok _ => exact h.elim
  | ok a =>
    cases y with
    | error _ => exact h.elim
    | ok b => exact ⟨h, hcd, rfl, rfl⟩

lemma guard_bind {p q : Prop} [Decidable p] [Decidable q] {e : ε} {d : δ} (hpq : p ↔ q)
    (he : name e = d) (h : p → Reader.Agree name R r s) :
    Reader.Agree name R (Reader.guard e p >>= fun _ => r) (Reader.guard d q >>= fun _ => s) := by
  intro c c' hcc'
  by_cases hp : p
  · rw [Reader.guard, Reader.guard, Wire.ensure, Wire.ensure, if_pos hp, if_pos (hpq.mp hp)]
    exact h hp c c' hcc'
  · rw [Reader.guard, Reader.guard, Wire.ensure, Wire.ensure, if_neg hp, if_neg (mt hpq.mpr hp)]
    exact he

lemma ite {p q : Prop} [Decidable p] [Decidable q] (hpq : p ↔ q) {r' : Reader ε α}
    {s' : Reader δ β} (h : p → Reader.Agree name R r s) (h' : ¬p → Reader.Agree name R r' s') :
    Reader.Agree name R (if p then r else r') (if q then s else s') := by
  by_cases hp : p
  · rw [if_pos hp, if_pos (hpq.mp hp)]
    exact h hp
  · rw [if_neg hp, if_neg (mt hpq.mpr hp)]
    exact h' hp

lemma take {e : ε} {d : δ} (he : name e = d) (n : Nat) :
    Reader.Agree name Eq (Reader.take e n) (Reader.take d n) := by
  intro c c' hcc'
  have hlen : c.offset + n ≤ c.bytes.length ↔ c'.offset + n ≤ c'.bytes.length := by
    have h₁ := c.le
    have h₂ := c'.le
    have h₃ := congrArg List.length hcc'
    rw [Cursor.length_rest, Cursor.length_rest] at h₃
    omega
  unfold Reader.take
  by_cases h : c.offset + n ≤ c.bytes.length
  · rw [dif_pos h, dif_pos (hlen.mp h)]
    refine ⟨by rw [hcc'], ?_, rfl, rfl⟩
    rw [Cursor.rest_advance, Cursor.rest_advance, hcc']
  · rw [dif_neg h, dif_neg (mt hlen.mpr h)]
    exact he

lemma word {e : ε} {d : δ} (he : name e = d) (α : Type) [Word α] :
    Reader.Agree name Eq (Reader.word e α) (Reader.word d α) := by
  refine (take he _).bind fun v w hvw => ?_
  exact pure (congrArg fromLeBytes hvw)

lemma count {e : ε} {d : δ} (he : name e = d) (minimum : Nat) :
    Reader.Agree name Eq (Reader.count e minimum) (Reader.count d minimum) := by
  refine (word he UInt32).bind fun n m hnm => ?_
  subst hnm
  intro c c' hcc'
  have hlen : c.bytes.length - c.offset = c'.bytes.length - c'.offset := by
    rw [← Cursor.length_rest, ← Cursor.length_rest, hcc']
  dsimp only
  rw [hlen]
  split_ifs with h
  · exact he
  · exact ⟨rfl, hcc', rfl, rfl⟩

lemma replicate (h : Reader.Agree name R r s) (n : Nat) :
    Reader.Agree name (List.Forall₂ R) (Reader.replicate n r) (Reader.replicate n s) := by
  induction n with
  | zero => exact pure List.Forall₂.nil
  | succ n ih =>
    refine h.bind fun a b hab => ih.bind fun as bs habs => ?_
    exact pure (List.Forall₂.cons hab habs)

end Reader.Agree

end Wire
