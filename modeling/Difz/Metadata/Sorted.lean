import Difz.Metadata.Canonical

/-!
# Canonical lists

The lists of a canonical record, seen as a whole: every item passes its own check and the keys
strictly increase (for holes: the extents are separated). The item-by-item check against the
predecessor says the same, so a part of a canonical list is canonical.
-/

namespace Difz

open Wire

namespace Metadata

/-! ### Checks against the predecessor -/

/-- When the relation asked of neighbours is transitive, it holds of every pair. -/
lemma forPrevious_eq_ok {ε α : Type} {R : α → α → Prop}
    (htrans : ∀ a b c, R a b → R b c → R a c) {item : α → Prop}
    {check : Option α → α → Except ε Unit}
    (hcheck : ∀ p x, check p x = .ok () ↔ item x ∧ ∀ q ∈ p, R q x) {p : Option α} {xs : List α} :
    forPrevious check p xs = .ok () ↔ (∀ x ∈ xs, item x) ∧ (p.toList ++ xs).Pairwise R := by
  induction xs generalizing p with
  | nil => cases p <;> simp [forPrevious]
  | cons x xs ih =>
    rw [forPrevious_cons_eq_ok, hcheck, ih, List.forall_mem_cons]
    cases p with
    | none => simp [and_assoc]
    | some q =>
      simp only [Option.mem_def, Option.some.injEq, forall_eq', Option.toList_some,
        List.cons_append, List.nil_append, List.pairwise_cons, List.forall_mem_cons]
      constructor
      · intro h
        obtain ⟨⟨hx, hqx⟩, hxs, hlt, hpair⟩ := h
        exact ⟨⟨hx, hxs⟩, ⟨hqx, fun y hy => htrans q x y hqx (hlt y hy)⟩, hlt, hpair⟩
      · intro h
        obtain ⟨⟨hx, hxs⟩, ⟨hqx, -⟩, hlt, hpair⟩ := h
        exact ⟨⟨hx, hqx⟩, hxs, hlt, hpair⟩

/-! ### Order by key -/

/-- Keys strictly increase along the list. -/
def Increasing {α : Type} (key : α → List UInt8) (xs : List α) : Prop :=
  xs.Pairwise fun a b => compare (key a) (key b) = .lt

lemma compare_lt_trans {a b c : List UInt8} (hab : compare a b = .lt) (hbc : compare b c = .lt) :
    compare a c = .lt :=
  Std.TransCmp.lt_trans hab hbc

lemma checkOrder_eq_ok {α : Type} {key : α → List UInt8} {duplicate : Error} {p : Option α}
    {x : α} : checkOrder key duplicate p x = .ok () ↔
      ∀ q ∈ p, compare (key q) (key x) = .lt := by
  cases p with
  | none => simp [checkOrder]
  | some q =>
    simp only [checkOrder, ite_error_eq_ok, not_not, and_true, Option.mem_def, Option.some.injEq,
      forall_eq']
    constructor
    · exact fun h => h.2
    · intro h
      refine ⟨fun heq => ?_, h⟩
      rw [heq, Std.compare_self] at h
      exact absurd h (by decide)

/-- What an attribute must meet by itself. -/
def Xattr.check (x : Xattr) : Except Error Unit := do
  validateXattrName x.class_ x.name
  wireLength x.value.length

/-- What an entry of an access list must meet by itself. -/
def Ace.check (a : Ace) : Except Error Unit := do
  validateAceName a.tag a.name
  wireLength a.name.length

lemma xattrs_eq_ok {xs : List Xattr} : forPrevious checkXattr none xs = .ok () ↔
    (∀ x ∈ xs, x.check = .ok ()) ∧ Increasing Xattr.key xs := by
  refine forPrevious_eq_ok (p := none) ?_ fun p x => ?_
  · exact fun _ _ _ => compare_lt_trans
  · simp only [checkXattr, Xattr.check, seq_eq_ok, checkOrder_eq_ok, and_assoc]

lemma aces_eq_ok {xs : List Ace} : forPrevious checkAce none xs = .ok () ↔
    (∀ a ∈ xs, a.check = .ok ()) ∧ Increasing Ace.key xs := by
  refine forPrevious_eq_ok (p := none) ?_ fun p a => ?_
  · exact fun _ _ _ => compare_lt_trans
  · simp only [checkAce, Ace.check, seq_eq_ok, checkOrder_eq_ok, and_assoc]

/-! ### Separated extents -/

/-- The position right behind an extent. -/
def Hole.end_ (h : Hole) : Nat := h.offset.toNat + h.length.toNat

/-- What an extent must meet by itself. -/
def Hole.Proper (h : Hole) : Prop := h.length ≠ 0 ∧ h.end_ < 2 ^ 64

/-- The extent `a` ends before `b` begins, with something between them. -/
def Hole.Before (a b : Hole) : Prop := a.end_ < b.offset.toNat

lemma Hole.Before.trans {a b c : Hole} (hab : a.Before b) (hbc : b.Before c) : a.Before c := by
  simp only [Hole.Before, Hole.end_] at *
  omega

lemma holes_eq_ok {xs : List Hole} : forPrevious checkHole none xs = .ok () ↔
    (∀ h ∈ xs, h.Proper) ∧ xs.Pairwise Hole.Before := by
  refine forPrevious_eq_ok (p := none) ?_ fun p h => ?_
  · exact fun _ _ _ => Hole.Before.trans
  · cases p with
    | none => simp [checkHole, ite_error_eq_ok, Hole.Proper, Hole.end_]
    | some q =>
      simp [checkHole, ite_error_eq_ok, Hole.Proper, Hole.Before, Hole.end_, and_assoc]

/-! ### Parts of canonical lists -/

lemma xattrs_sublist {xs ys : List Xattr} (h : forPrevious checkXattr none xs = .ok ())
    (hsub : ys.Sublist xs) : forPrevious checkXattr none ys = .ok () := by
  obtain ⟨hitem, hpair⟩ := xattrs_eq_ok.mp h
  exact xattrs_eq_ok.mpr ⟨fun x hx => hitem x (hsub.subset hx), hpair.sublist hsub⟩

end Metadata

end Difz
