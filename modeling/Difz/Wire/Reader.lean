import Mathlib.Data.Vector.Defs
import Difz.Wire.LittleEndian

/-!
# Exact readers

A `Cursor` is a byte string with a position that never passes its end. A `Reader` moves a cursor
forward and may fail. `Step c w c'` says that going from `c` to `c'` consumes exactly the bytes
`w`.

`Exact r enc P` is the specification every decoder of a wire format should meet: `r` accepts at
a cursor exactly when the input there starts with `enc x` for some `x` satisfying `P`, and then
it returns that `x` and stops right behind it. One statement covers both directions of a round
trip, and it is closed under sequencing and under counted repetition, so the specification of a
record is assembled from those of its fields.
-/

namespace Wire

variable {ε α β γ : Type}

/-! ### Fallible computations -/

lemma ok_bind (a : α) (f : α → Except ε β) : ((Except.ok a : Except ε α) >>= f) = f a := rfl

lemma error_bind (e : ε) (f : α → Except ε β) :
    ((Except.error e : Except ε α) >>= f) = Except.error e := rfl

lemma bind_eq_ok {x : Except ε α} {f : α → Except ε β} {b : β} :
    (x >>= f) = .ok b ↔ ∃ a, x = .ok a ∧ f a = .ok b := by
  cases x with
  | error e => simp [error_bind]
  | ok a => simp [ok_bind]

lemma seq_eq_ok {x : Except ε Unit} {y : Except ε β} {b : β} :
    (x >>= fun _ => y) = .ok b ↔ x = .ok () ∧ y = .ok b := by
  cases x with
  | error e => simp [error_bind]
  | ok a => simp [ok_bind]

lemma forM_eq_ok {f : α → Except ε Unit} {xs : List α} :
    xs.forM f = .ok () ↔ ∀ x ∈ xs, f x = .ok () := by
  induction xs with
  | nil => simp; rfl
  | cons x xs ih =>
    change (f x >>= fun _ => xs.forM f) = _ ↔ _
    rw [seq_eq_ok, ih, List.forall_mem_cons]

lemma mapM_eq_ok {f : α → Except ε β} {xs : List α} {ys : List β} :
    xs.mapM f = .ok ys ↔ List.Forall₂ (fun x y => f x = .ok y) xs ys := by
  constructor
  · intro h
    induction xs generalizing ys with
    | nil =>
      obtain rfl := Except.ok.inj h
      exact .nil
    | cons x xs ih =>
      simp only [List.mapM_cons, bind_eq_ok, pure, Except.pure, Except.ok.injEq] at h
      obtain ⟨y, hy, ys, hys, rfl⟩ := h
      exact .cons hy (ih hys)
  · intro h
    induction h with
    | nil => rfl
    | cons hx _ ih =>
      rw [List.mapM_cons, hx, ok_bind, ih]
      rfl

lemma mem_of_mapM {f : α → Except ε β} {xs : List α} {ys : List β} (h : xs.mapM f = .ok ys)
    {y : β} : y ∈ ys ↔ ∃ x ∈ xs, f x = .ok y := by
  induction mapM_eq_ok.mp h with
  | nil => simp
  | cons hx hxs ih =>
    rw [List.mem_cons, ih (mapM_eq_ok.mpr hxs), List.exists_mem_cons_iff, hx, Except.ok.injEq]
    exact or_congr_left eq_comm

/-- What the results keep of the items. -/
lemma map_of_mapM {γ : Type} {f : α → Except ε β} {xs : List α} {ys : List β} {g : β → γ}
    {k : α → γ} (h : xs.mapM f = .ok ys) (hkeep : ∀ x y, f x = .ok y → g y = k x) :
    ys.map g = xs.map k := by
  induction mapM_eq_ok.mp h with
  | nil => rfl
  | cons hx hxs ih => rw [List.map_cons, List.map_cons, ih (mapM_eq_ok.mpr hxs), hkeep _ _ hx]

/-- A run over a list ends with all results or with the error of some item. -/
lemma mapM_cases (f : α → Except ε β) (xs : List α) :
    (∀ x ∈ xs, ∃ y, f x = .ok y) ∧ (∃ ys, xs.mapM f = .ok ys) ∨
      ∃ x ∈ xs, ∃ e, f x = .error e ∧ xs.mapM f = .error e := by
  induction xs with
  | nil => exact .inl ⟨by simp, [], rfl⟩
  | cons x xs ih =>
    rw [List.mapM_cons]
    cases hx : f x with
    | error e => exact .inr ⟨x, List.mem_cons_self, e, hx, rfl⟩
    | ok y =>
      rcases ih with ⟨hall, ys, hys⟩ | ⟨x', hx', e, he, hrun⟩
      · exact .inl ⟨List.forall_mem_cons.mpr ⟨⟨y, hx⟩, hall⟩, y :: ys, by rw [ok_bind, hys]; rfl⟩
      · exact .inr ⟨x', List.mem_cons_of_mem _ hx', e, he, by rw [ok_bind, hrun]; rfl⟩

lemma ite_error_eq_ok {p : Prop} [Decidable p] {e : ε} {x : Except ε α} {a : α} :
    (if p then .error e else x) = .ok a ↔ ¬p ∧ x = .ok a := by
  split_ifs with h <;> simp [h]

lemma mapError_eq_ok {ε' : Type} {f : ε → ε'} {x : Except ε α} {a : α} :
    x.mapError f = .ok a ↔ x = .ok a := by
  cases x <;> simp [Except.mapError]

/-- Fail with `e` unless `p` holds. -/
def ensure (p : Prop) [Decidable p] (e : ε) : Except ε Unit := if p then .ok () else .error e

lemma ensure_eq_ok {p : Prop} [Decidable p] {e : ε} {u : Unit} : ensure p e = .ok u ↔ p := by
  rw [ensure]
  split_ifs with h <;> simp [h]

/-! ### Fields at fixed offsets -/

/-- `bytes[from..to]`. -/
def field (bytes : List UInt8) (i j : Nat) : List UInt8 := (bytes.take j).drop i

lemma length_field {bytes : List UInt8} {i j : Nat} (h : j ≤ bytes.length) :
    (field bytes i j).length = j - i := by
  simp [field, Nat.min_eq_left h]

lemma field_append_field {bytes : List UInt8} {i j k : Nat} (hij : i ≤ j) (hjk : j ≤ k) :
    field bytes i j ++ field bytes j k = field bytes i k := by
  have htake : bytes.take j = (bytes.take k).take j := by
    rw [List.take_take, Nat.min_eq_left hjk]
  have hdrop : (bytes.take k).drop j = ((bytes.take k).drop i).drop (j - i) := by
    rw [List.drop_drop, Nat.add_sub_cancel' hij]
  rw [field, field, field, htake, List.drop_take, hdrop, List.take_append_drop]

lemma field_zero (bytes : List UInt8) (j : Nat) : field bytes 0 j = bytes.take j := rfl

/-- The field behind a prefix of known length. -/
lemma field_append (pre w rest : List UInt8) {i j : Nat} (hi : pre.length = i)
    (hj : i + w.length = j) : field (pre ++ (w ++ rest)) i j = w := by
  subst hi hj
  rw [field, ← List.append_assoc, List.take_left' (by simp), List.drop_left]

/-- An integer field holds the bytes of its value. -/
lemma toLeBytes_eq_field [Word α] {bytes : List UInt8} {i j : Nat} {x : α}
    (hij : i + Word.width α = j) (hj : j ≤ bytes.length) :
    toLeBytes x = field bytes i j ↔ fromLeBytes (field bytes i j) = x := by
  constructor
  · intro h
    rw [← h, fromLeBytes_toLeBytes]
  · rintro rfl
    exact toLeBytes_fromLeBytes (by rw [length_field hj]; omega)

/-- `bytes.try_into()` for a fixed-size array. -/
def tryInto (e : ε) (n : Nat) (bytes : List UInt8) : Except ε (List.Vector UInt8 n) :=
  if h : bytes.length = n then .ok ⟨bytes, h⟩ else .error e

lemma tryInto_eq_ok {e : ε} {n : Nat} {bytes : List UInt8} {v : List.Vector UInt8 n} :
    tryInto e n bytes = .ok v ↔ bytes = v.toList := by
  rw [tryInto]
  split_ifs with h
  · constructor
    · intro hv
      exact congrArg List.Vector.toList (Except.ok.inj hv)
    · rintro rfl
      rfl
  · constructor
    · intro hc
      exact absurd hc (by simp)
    · rintro rfl
      exact absurd v.toList_length h

/-! ### Cursors -/

/-- A position in a byte string. The bound is part of the type, so the remaining length is never
computed from a position past the end. -/
structure Cursor where
  bytes : List UInt8
  offset : Nat
  le : offset ≤ bytes.length

namespace Cursor

/-- The input still to be read. -/
def rest (c : Cursor) : List UInt8 := c.bytes.drop c.offset

/-- The cursor at the start of `bytes`. -/
def start (bytes : List UInt8) : Cursor := ⟨bytes, 0, Nat.zero_le _⟩

@[simp] lemma rest_start (bytes : List UInt8) : (start bytes).rest = bytes := rfl

@[simp] lemma bytes_start (bytes : List UInt8) : (start bytes).bytes = bytes := rfl

lemma length_rest (c : Cursor) : c.rest.length = c.bytes.length - c.offset := by
  simp [rest]

lemma offset_eq (c : Cursor) : c.offset = c.bytes.length - c.rest.length := by
  have := c.le
  rw [length_rest]
  omega

/-- A cursor is determined by its input and what remains of it. -/
lemma ext_rest {c d : Cursor} (hb : c.bytes = d.bytes) (hr : c.rest = d.rest) : c = d := by
  have ho : c.offset = d.offset := by rw [offset_eq c, offset_eq d, hb, hr]
  cases c
  cases d
  simp_all

lemma rest_advance (c : Cursor) (n : Nat) (h : c.offset + n ≤ c.bytes.length) :
    (⟨c.bytes, c.offset + n, h⟩ : Cursor).rest = c.rest.drop n := by
  rw [rest, rest, List.drop_drop]

lemma rest_eq_nil_iff (c : Cursor) : c.rest = [] ↔ c.offset = c.bytes.length := by
  have := c.le
  rw [rest, List.drop_eq_nil_iff]
  omega

end Cursor

/-- Moving from `c` to `c'` consumes exactly `w`. -/
def Step (c : Cursor) (w : List UInt8) (c' : Cursor) : Prop :=
  c'.bytes = c.bytes ∧ c.rest = w ++ c'.rest

namespace Step

variable {c c' c'' : Cursor} {v w : List UInt8}

lemma nil_iff : Step c [] c' ↔ c' = c := by
  constructor
  · intro h
    obtain ⟨hb, hr⟩ := h
    exact Cursor.ext_rest hb (by simpa using hr.symm)
  · rintro rfl
    exact ⟨rfl, rfl⟩

lemma append_iff : Step c (v ++ w) c'' ↔ ∃ c', Step c v c' ∧ Step c' w c'' := by
  constructor
  · intro h
    obtain ⟨hb, hr⟩ := h
    have hlen := congrArg List.length hr
    simp only [List.length_append, Cursor.length_rest] at hlen
    have hle := c.le
    -- the cursor in between stands `v.length` bytes further
    refine ⟨⟨c.bytes, c.offset + v.length, by omega⟩, ⟨rfl, ?_⟩, hb, ?_⟩
    · rw [Cursor.rest_advance, hr, List.append_assoc, List.drop_left]
    · rw [Cursor.rest_advance, hr, List.append_assoc, List.drop_left]
  · intro h
    obtain ⟨c', ⟨hb, hr⟩, hb', hr'⟩ := h
    exact ⟨hb'.trans hb, by rw [hr, hr', List.append_assoc]⟩

lemma length_le (h : Step c w c') : w.length ≤ c.rest.length := by
  simp [h.2]

lemma exists_start (w u : List UInt8) :
    ∃ c', Step (Cursor.start (w ++ u)) w c' ∧ c'.rest = u := by
  refine ⟨⟨w ++ u, w.length, by simp⟩, ⟨rfl, ?_⟩, ?_⟩
  · simp [Cursor.rest, Cursor.start]
  · simp [Cursor.rest]

/-- Reading all of `bytes` from its start leaves nothing. -/
lemma start_iff {bytes : List UInt8} (hc : c'.rest = []) :
    Step (Cursor.start bytes) w c' ↔ c'.bytes = bytes ∧ bytes = w := by
  simp [Step, hc]

end Step

/-! ### Readers -/

/-- A computation that advances a cursor or fails. -/
abbrev Reader (ε α : Type) := StateT Cursor (Except ε) α

namespace Reader

lemma bind_eq_ok {r : Reader ε α} {f : α → Reader ε β} {c c'' : Cursor} {y : β} :
    (r >>= f) c = .ok (y, c'') ↔ ∃ x c', r c = .ok (x, c') ∧ f x c' = .ok (y, c'') := by
  change (r c >>= fun p => f p.1 p.2) = _ ↔ _
  rw [Wire.bind_eq_ok, Prod.exists]

lemma pure_eq_ok {x y : α} {c c' : Cursor} :
    (pure x : Reader ε α) c = .ok (y, c') ↔ y = x ∧ c' = c := by
  change Except.ok (x, c) = _ ↔ _
  simp [eq_comm]

/-- The next `n` bytes, or the error `e` when fewer remain. -/
def take (e : ε) (n : Nat) : Reader ε (List UInt8) := fun c =>
  if h : c.offset + n ≤ c.bytes.length then
    .ok (c.rest.take n, ⟨c.bytes, c.offset + n, h⟩)
  else .error e

lemma take_eq_ok {e : ε} {n : Nat} {c c' : Cursor} {w : List UInt8} :
    take e n c = .ok (w, c') ↔ w.length = n ∧ Step c w c' := by
  have hle := c.le
  unfold take
  split_ifs with h
  · simp only [Except.ok.injEq, Prod.mk.injEq]
    constructor
    · intro hx
      obtain ⟨rfl, rfl⟩ := hx
      refine ⟨by rw [List.length_take, Cursor.length_rest]; omega, rfl, ?_⟩
      rw [Cursor.rest_advance, List.take_append_drop]
    · intro hx
      obtain ⟨hn, hb, hr⟩ := hx
      have hw : c.rest.take n = w := by rw [hr, List.take_left' hn]
      refine ⟨hw, Cursor.ext_rest hb.symm ?_⟩
      rw [Cursor.rest_advance, hr, List.drop_left' hn]
  · constructor
    · intro hc
      exact absurd hc (by simp)
    · intro hx
      obtain ⟨hn, hs⟩ := hx
      have := hs.length_le
      rw [Cursor.length_rest] at this
      omega

/-- A fixed-width integer. -/
def word (e : ε) (α : Type) [Word α] : Reader ε α := do
  let bytes ← take e (Word.width α)
  pure (fromLeBytes bytes)

/-- An array of `n` bytes. -/
def array (e : ε) (n : Nat) : Reader ε (List.Vector UInt8 n) := fun c =>
  match take e n c with
  | .error e => .error e
  | .ok (bytes, c') => if h : bytes.length = n then .ok (⟨bytes, h⟩, c') else .error e

/-- A byte string behind its 32-bit length. -/
def blob (e : ε) : Reader ε (List UInt8) := do
  let length ← word e UInt32
  take e length.toNat

/-- A 32-bit item count, refused when items of at least `minimum` bytes could not fit. -/
def count (e : ε) (minimum : Nat) : Reader ε Nat := do
  let n ← word e UInt32
  fun c => if n.toNat > (c.bytes.length - c.offset) / minimum then .error e else .ok (n.toNat, c)

/-- A check that does not look at the input. -/
def lift (x : Except ε α) : Reader ε α := fun c => x.map fun a => (a, c)

lemma lift_eq_ok {x : Except ε α} {c c' : Cursor} {y : α} :
    lift x c = .ok (y, c') ↔ x = .ok y ∧ c' = c := by
  cases x <;> simp [lift, Except.map, eq_comm]

/-- Fail with `e` unless `p` holds. -/
def guard (e : ε) (p : Prop) [Decidable p] : Reader ε Unit :=
  lift (ensure p e)

/-- A fixed value, refused with `e` when another one stands there. -/
def expect (short e : ε) [Word α] [DecidableEq α] (value : α) : Reader ε Unit := do
  let found ← word short α
  guard e (found = value)

/-- Read an item and check it. -/
def checked (r : Reader ε α) (check : α → Except ε Unit) : Reader ε α := do
  let x ← r
  lift (check x)
  pure x

/-- `n` items one after the other. -/
def replicate (n : Nat) (r : Reader ε α) : Reader ε (List α) :=
  match n with
  | 0 => pure []
  | n + 1 => do
    let x ← r
    let xs ← replicate n r
    pure (x :: xs)

/-- Items behind their 32-bit count. -/
def counted (e : ε) (minimum : Nat) (r : Reader ε α) : Reader ε (List α) := do
  let n ← count e minimum
  replicate n r

end Reader

/-- Items of at least `minimum` bytes take at least that much each. -/
lemma mul_le_length_flatMap {enc : α → List UInt8} {minimum : Nat} {xs : List α}
    (h : ∀ x ∈ xs, minimum ≤ (enc x).length) :
    xs.length * minimum ≤ (xs.flatMap enc).length := by
  induction xs with
  | nil => simp
  | cons x xs ih =>
    have h₁ := h x (by simp)
    have h₂ := ih fun y hy => h y (List.mem_cons_of_mem _ hy)
    simp only [List.length_cons, List.flatMap_cons, List.length_append, Nat.succ_mul]
    omega

/-! ### The specification of a reader -/

/-- `r` reads exactly the encodings `enc x` of the values `x` with `P x`. -/
def Exact (r : Reader ε α) (enc : α → List UInt8) (P : α → Prop) : Prop :=
  ∀ c x c', r c = .ok (x, c') ↔ P x ∧ Step c (enc x) c'

namespace Exact

variable {r : Reader ε α} {enc : α → List UInt8} {P : α → Prop}

lemma congr {enc' : α → List UInt8} {P' : α → Prop} (h : Exact r enc P)
    (hP : ∀ x, P' x ↔ P x) (henc : ∀ x, P x → enc' x = enc x) : Exact r enc' P' := by
  intro c x c'
  rw [h c x c', hP]
  constructor
  · intro h'
    obtain ⟨hx, hs⟩ := h'
    exact ⟨hx, by rwa [henc x hx]⟩
  · intro h'
    obtain ⟨hx, hs⟩ := h'
    exact ⟨hx, by rwa [← henc x hx]⟩

lemma take (e : ε) (n : Nat) : Exact (Reader.take e n) id (fun w => w.length = n) :=
  fun _ _ _ => Reader.take_eq_ok

/-- The end of a record: everything read so far determines the result. -/
lemma pure {I : α → Prop} (x : α) (hI : ∀ y, I y ↔ y = x) :
    Exact (Pure.pure x : Reader ε α) (fun _ => []) (fun y => I y ∧ True) := by
  intro c y c'
  simp only [Reader.pure_eq_ok, hI, Step.nil_iff, and_true]

/-- Sequencing. The value read first is a component `π` of the final result. The condition `I`
collects what is known of the result from earlier fields; it grows by one equation per field. -/
lemma bind {f : α → Reader ε β} (π : β → α) {t : β → List UInt8} {I Q : β → Prop}
    (hr : Exact r enc P)
    (hf : ∀ a, P a → Exact (f a) t (fun b => (I b ∧ π b = a) ∧ Q b)) :
    Exact (r >>= f) (fun b => enc (π b) ++ t b) (fun b => I b ∧ P (π b) ∧ Q b) := by
  intro c y c''
  rw [Reader.bind_eq_ok, Step.append_iff]
  constructor
  · intro h
    obtain ⟨x, c', hx, hy⟩ := h
    obtain ⟨hP, hs⟩ := (hr c x c').mp hx
    obtain ⟨⟨⟨hI, rfl⟩, hQ⟩, hs'⟩ := (hf x hP c' y c'').mp hy
    exact ⟨⟨hI, hP, hQ⟩, c', hs, hs'⟩
  · intro h
    obtain ⟨⟨hI, hP, hQ⟩, c', hs, hs'⟩ := h
    exact ⟨π y, c', (hr c _ c').mpr ⟨hP, hs⟩, (hf _ hP c' y c'').mpr ⟨⟨⟨hI, rfl⟩, hQ⟩, hs'⟩⟩

/-- Fixed bytes between two fields. -/
lemma skip_bind {r : Reader ε Unit} {w : List UInt8} {f : Unit → Reader ε β}
    {t : β → List UInt8} {I Q : β → Prop} (hr : Exact r (fun _ => w) (fun _ => True))
    (hf : Exact (f ()) t (fun b => I b ∧ Q b)) :
    Exact (r >>= f) (fun b => w ++ t b) (fun b => I b ∧ Q b) := by
  refine (Exact.bind (I := I) (Q := Q) (fun _ => ()) hr fun _ _ =>
    hf.congr (fun b => ?_) (fun _ _ => rfl)).congr (fun b => ?_) (fun _ _ => rfl)
  · simp
  · simp

/-- A check between two fields. -/
lemma lift_bind {x : Except ε α} {f : α → Reader ε β} {t : β → List UInt8} {I Q : β → Prop}
    (hf : ∀ a, x = .ok a → Exact (f a) t (fun b => I b ∧ Q b)) :
    Exact (Reader.lift x >>= f) t (fun b => I b ∧ (∃ a, x = .ok a) ∧ Q b) := by
  intro c y c''
  rw [Reader.bind_eq_ok]
  cases x with
  | error e => simp [Reader.lift, Except.map]
  | ok a =>
    simp only [Reader.lift, Except.map, Except.ok.injEq, Prod.mk.injEq, exists_eq', true_and,
      ← hf a rfl c y c'']
    constructor
    · intro h
      obtain ⟨_, _, ⟨rfl, rfl⟩, hy⟩ := h
      exact hy
    · exact fun hy => ⟨a, c, ⟨rfl, rfl⟩, hy⟩

lemma guard_bind {q : Prop} [Decidable q] {e : ε} {f : Unit → Reader ε β}
    {t : β → List UInt8} {I Q : β → Prop} (hf : q → Exact (f ()) t (fun b => I b ∧ Q b)) :
    Exact (Reader.guard e q >>= f) t (fun b => I b ∧ q ∧ Q b) := by
  by_cases hq : q
  · simp only [Reader.guard, ensure, hq, if_true, true_and]
    have := lift_bind (x := (.ok () : Except ε Unit)) (f := f) fun _ _ => hf hq
    simpa [Reader.guard] using this
  · intro c y c''
    rw [Reader.bind_eq_ok]
    simp [Reader.guard, ensure, hq, Reader.lift, Except.map]

/-- A check of what was read, stated for the result. -/
lemma check_bind {q : Prop} [Decidable q] {e : ε} {f : Unit → Reader ε β} {t : β → List UInt8}
    {I Q p : β → Prop} (hq : ∀ b, I b → (p b ↔ q))
    (hf : q → Exact (f ()) t (fun b => I b ∧ Q b)) :
    Exact (Reader.guard e q >>= f) t (fun b => I b ∧ p b ∧ Q b) := by
  refine (Exact.guard_bind hf).congr (fun b => ?_) (fun _ _ => rfl)
  constructor
  · intro hx
    obtain ⟨hI, hq', hQ⟩ := hx
    exact ⟨hI, (hq b hI).mp hq', hQ⟩
  · intro hx
    obtain ⟨hI, h, hQ⟩ := hx
    exact ⟨hI, (hq b hI).mpr h, hQ⟩

/-- As many bytes as an earlier field says the component `π` has. -/
lemma take_bind {e : ε} {n : Nat} {f : List UInt8 → Reader ε β} (π : β → List UInt8)
    {t : β → List UInt8} {I Q : β → Prop} (hn : ∀ b, I b → (π b).length = n)
    (hf : ∀ w, w.length = n → Exact (f w) t (fun b => (I b ∧ π b = w) ∧ Q b)) :
    Exact (Reader.take e n >>= f) (fun b => π b ++ t b) (fun b => I b ∧ Q b) := by
  refine (Exact.bind π (Exact.take e n) hf).congr (fun b => ?_) (fun _ _ => rfl)
  constructor
  · intro h
    obtain ⟨hI, hQ⟩ := h
    exact ⟨hI, hn b hI, hQ⟩
  · intro h
    obtain ⟨hI, -, hQ⟩ := h
    exact ⟨hI, hQ⟩

/-- A conversion of what was read, whose result is the component `π`. -/
lemma convert_bind {x : Except ε α} {f : α → Reader ε β} (π : β → α) {t : β → List UInt8}
    {I Q : β → Prop} (hx : ∀ b, I b → ∀ a, x = .ok a ↔ π b = a)
    (hf : ∀ a, x = .ok a → Exact (f a) t (fun b => (I b ∧ π b = a) ∧ Q b)) :
    Exact (Reader.lift x >>= f) t (fun b => I b ∧ Q b) := by
  refine (Exact.lift_bind (I := I) (Q := Q) fun a ha =>
    (hf a ha).congr (fun b => ?_) (fun _ _ => rfl)).congr (fun b => ?_) (fun _ _ => rfl)
  · constructor
    · intro h
      obtain ⟨hI, hQ⟩ := h
      exact ⟨⟨hI, (hx b hI a).mp ha⟩, hQ⟩
    · intro h
      obtain ⟨⟨hI, -⟩, hQ⟩ := h
      exact ⟨hI, hQ⟩
  · constructor
    · intro h
      obtain ⟨hI, hQ⟩ := h
      exact ⟨hI, ⟨π b, (hx b hI _).mpr rfl⟩, hQ⟩
    · intro h
      obtain ⟨hI, -, hQ⟩ := h
      exact ⟨hI, hQ⟩

lemma fail (e : ε) : Exact (Reader.lift (.error e)) enc (fun _ => False) := by
  intro c x c'
  simp [Reader.lift, Except.map]

/-- An optional field that is absent. -/
lemma none :
    Exact (Pure.pure none : Reader ε (Option α)) (fun o => o.elim [] enc) (fun o => o = none) := by
  refine (Exact.pure Option.none fun _ => Iff.rfl).congr (fun o => by simp) ?_
  intro o h
  obtain ⟨rfl, -⟩ := h
  rfl

/-- An optional field that is present. -/
lemma some (hr : Exact r enc P) : Exact (r >>= fun x => Pure.pure (Option.some x))
    (fun o => o.elim [] enc) (fun o => ∃ x, o = Option.some x ∧ P x) := by
  intro c o c'
  simp only [Reader.bind_eq_ok, Reader.pure_eq_ok]
  constructor
  · intro h
    obtain ⟨x, d, hx, rfl, rfl⟩ := h
    obtain ⟨hP, hs⟩ := (hr c x c').mp hx
    exact ⟨⟨x, rfl, hP⟩, hs⟩
  · intro h
    obtain ⟨⟨x, rfl, hP⟩, hs⟩ := h
    exact ⟨x, c', (hr c x c').mpr ⟨hP, hs⟩, rfl, rfl⟩

lemma checked {check : α → Except ε Unit} (hr : Exact r enc P) :
    Exact (Reader.checked r check) enc (fun x => P x ∧ check x = .ok ()) := by
  intro c x c'
  simp only [Reader.checked, Reader.bind_eq_ok, Reader.pure_eq_ok, Reader.lift_eq_ok]
  constructor
  · intro h
    obtain ⟨y, d, hy, u, d', ⟨hc, rfl⟩, rfl, rfl⟩ := h
    obtain ⟨hP, hs⟩ := (hr c x c').mp hy
    exact ⟨⟨hP, hc⟩, hs⟩
  · intro h
    obtain ⟨⟨hP, hc⟩, hs⟩ := h
    exact ⟨x, c', (hr c x c').mpr ⟨hP, hs⟩, (), c', ⟨hc, rfl⟩, rfl, rfl⟩

/-- Items read in a row form the concatenation of their encodings. -/
lemma replicate (hr : Exact r enc P) (n : Nat) :
    Exact (Reader.replicate n r) (fun xs => xs.flatMap enc)
      (fun xs => xs.length = n ∧ ∀ x ∈ xs, P x) := by
  induction n with
  | zero =>
    refine (Exact.pure [] fun xs => Iff.rfl).congr (fun xs => ?_) (fun xs hxs => ?_)
    · constructor
      · intro h'
        obtain ⟨h, -⟩ := h'
        exact ⟨List.length_eq_zero_iff.mp h, trivial⟩
      · intro h'
        obtain ⟨rfl, -⟩ := h'
        simp
    · simp [hxs.1]
  | succ n ih =>
    intro c xs c''
    rw [Reader.replicate, Reader.bind_eq_ok]
    simp only [Reader.bind_eq_ok, Reader.pure_eq_ok]
    constructor
    · intro h'
      obtain ⟨x, c', hx, ys, d, hys, rfl, rfl⟩ := h'
      obtain ⟨hP, hs⟩ := (hr c x c').mp hx
      obtain ⟨⟨hlen, hPs⟩, hs'⟩ := (ih c' ys c'').mp hys
      refine ⟨⟨by simp [hlen], by simpa using ⟨hP, hPs⟩⟩, ?_⟩
      rw [List.flatMap_cons, Step.append_iff]
      exact ⟨c', hs, hs'⟩
    · intro h'
      obtain ⟨⟨hlen, hPs⟩, hs⟩ := h'
      obtain ⟨x, ys, rfl⟩ := List.exists_cons_of_length_eq_add_one hlen
      rw [List.flatMap_cons, Step.append_iff] at hs
      obtain ⟨c', hs, hs'⟩ := hs
      simp only [List.length_cons, Nat.add_right_cancel_iff] at hlen
      refine ⟨x, c', (hr c x c').mpr ⟨hPs x (by simp), hs⟩, ys, c'', ?_, rfl, rfl⟩
      exact (ih c' ys c'').mpr ⟨⟨hlen, fun y hy => hPs y (List.mem_cons_of_mem _ hy)⟩, hs'⟩

/-- Reading through a partial conversion `f` that accepts exactly the images of `π`. -/
lemma filterMap {f : α → Except ε β} (π : β → α) {Q : β → Prop} (hr : Exact r enc P)
    (hf : ∀ a b, f a = .ok b ↔ Q b ∧ a = π b) :
    Exact (r >>= fun a => Reader.lift (f a)) (fun b => enc (π b)) (fun b => P (π b) ∧ Q b) := by
  intro c y c''
  rw [Reader.bind_eq_ok]
  simp only [Reader.lift_eq_ok, hf]
  constructor
  · intro h
    obtain ⟨a, c', ha, ⟨hQ, rfl⟩, rfl⟩ := h
    obtain ⟨hP, hs⟩ := (hr c _ _).mp ha
    exact ⟨⟨hP, hQ⟩, hs⟩
  · intro h
    obtain ⟨⟨hP, hQ⟩, hs⟩ := h
    exact ⟨π y, c'', (hr c _ c'').mpr ⟨hP, hs⟩, ⟨hQ, rfl⟩, rfl⟩

lemma word (e : ε) (α : Type) [Word α] :
    Exact (Reader.word e α) toLeBytes (fun _ => True) := by
  refine (Exact.bind (I := fun _ => True) toLeBytes (Exact.take e _) fun a ha =>
    Exact.pure (fromLeBytes a) fun b => ?_).congr (fun x => by simp) (fun x _ => by simp)
  rw [true_and]
  constructor
  · rintro rfl
    rw [fromLeBytes_toLeBytes]
  · rintro rfl
    exact toLeBytes_fromLeBytes ha

lemma byte (e : ε) : Exact (Reader.word e UInt8) (fun b => [b]) (fun _ => True) :=
  (Exact.word e UInt8).congr (fun _ => Iff.rfl) fun b _ => (toLeBytes_uint8 b).symm

lemma expect (short e : ε) [Word α] [DecidableEq α] (value : α) :
    Exact (Reader.expect short e value) (fun _ => toLeBytes value) (fun _ => True) := by
  refine (Exact.bind (I := fun _ => True) (Q := fun _ => True) (fun _ => value)
    (Exact.word short α) (t := fun _ => []) fun found _ => ?_).congr (fun _ => by simp)
    (fun _ _ => by simp)
  intro c u c'
  by_cases h : found = value
  · simp [Reader.guard, ensure, h, Reader.lift, Except.map, Step.nil_iff, eq_comm]
  · simp [Reader.guard, ensure, h, Reader.lift, Except.map, Ne.symm h]

lemma array (e : ε) (n : Nat) :
    Exact (Reader.array e n) List.Vector.toList (fun _ => True) := by
  intro c x c'
  have htake : Reader.take e n c = .ok (x.toList, c') ↔ True ∧ Step c x.toList c' := by
    rw [Reader.take_eq_ok]
    simp
  rw [← htake, Reader.array]
  cases h : Reader.take e n c with
  | error e => simp
  | ok p =>
    obtain ⟨w, d⟩ := p
    have hw := (Reader.take_eq_ok.mp h).1
    simp only [hw, dite_true, Except.ok.injEq, Prod.mk.injEq]
    constructor
    · intro hx
      obtain ⟨⟩ := hx
      exact ⟨rfl, rfl⟩
    · intro hx
      obtain ⟨rfl, rfl⟩ := hx
      rfl

lemma blob (e : ε) : Exact (Reader.blob e)
    (fun w => toLeBytes (UInt32.ofNat w.length) ++ w) (fun w => w.length < 2 ^ 32) := by
  refine (Exact.bind (I := fun _ => True) (Q := fun w => w.length < 2 ^ 32)
    (fun w => UInt32.ofNat w.length) (Exact.word e UInt32) (t := id) fun n _ => ?_).congr
    (fun w => by simp) (fun _ _ => rfl)
  refine (Exact.take e n.toNat).congr (fun w => ?_) (fun _ _ => rfl)
  constructor
  · intro h
    obtain ⟨⟨-, rfl⟩, hw⟩ := h
    exact (UInt32.toNat_ofNat_of_lt' hw).symm
  · intro hw
    exact ⟨⟨trivial, by simp [hw]⟩, hw ▸ n.toNat_lt⟩

/-- A count and then that many items. Because an item never takes fewer than `minimum` bytes, the
bound checked in advance excludes nothing. -/
lemma count_bind {f : Nat → Reader ε (List α)} {Q : List α → Prop} (e : ε) {minimum : Nat}
    (hf : ∀ n, Exact (f n) (fun xs => xs.flatMap enc) (fun xs => xs.length = n ∧ Q xs))
    (hpos : 0 < minimum) (hmin : ∀ xs, Q xs → ∀ x ∈ xs, minimum ≤ (enc x).length) :
    Exact (Reader.count e minimum >>= f)
      (fun xs => toLeBytes (UInt32.ofNat xs.length) ++ xs.flatMap enc)
      (fun xs => xs.length < 2 ^ 32 ∧ Q xs) := by
  intro c xs c''
  rw [Reader.count, Reader.bind_eq_ok]
  simp only [Reader.bind_eq_ok, Exact.word e UInt32 _ _ _, true_and, ite_error_eq_ok,
    Except.ok.injEq, Prod.mk.injEq]
  constructor
  · intro h
    obtain ⟨k, d, ⟨n, c', hs, hle, rfl, rfl⟩, hxs⟩ := h
    obtain ⟨⟨hn, hQ⟩, hs'⟩ := (hf _ c' xs c'').mp hxs
    refine ⟨⟨hn ▸ n.toNat_lt, hQ⟩, ?_⟩
    rw [Step.append_iff]
    exact ⟨c', by rwa [hn, UInt32.ofNat_toNat], hs'⟩
  · intro h
    obtain ⟨⟨hn, hQ⟩, hs⟩ := h
    obtain ⟨c', hs, hs'⟩ := Step.append_iff.mp hs
    have hnat : (UInt32.ofNat xs.length).toNat = xs.length := UInt32.toNat_ofNat_of_lt' hn
    refine ⟨xs.length, c', ⟨UInt32.ofNat xs.length, c', hs, ?_, hnat, rfl⟩, ?_⟩
    · have h₁ := mul_le_length_flatMap (hmin xs hQ)
      have h₂ := hs'.length_le
      rw [Cursor.length_rest] at h₂
      rw [hnat, not_lt, Nat.le_div_iff_mul_le hpos]
      omega
    · exact (hf _ c' xs c'').mpr ⟨⟨rfl, hQ⟩, hs'⟩

/-- A counted list. -/
lemma counted (hr : Exact r enc P) (e : ε) {minimum : Nat} (hpos : 0 < minimum)
    (hmin : ∀ x, P x → minimum ≤ (enc x).length) :
    Exact (Reader.counted e minimum r)
      (fun xs => toLeBytes (UInt32.ofNat xs.length) ++ xs.flatMap enc)
      (fun xs => xs.length < 2 ^ 32 ∧ ∀ x ∈ xs, P x) :=
  Exact.count_bind e hr.replicate hpos fun _ hP x hx => hmin x (hP x hx)

/-- What an exact reader accepts is prefix-free: two readings of overlapping input agree. -/
lemma prefix_free (hr : Exact r enc P) {x y : α} (hx : P x) (hy : P y) {s t : List UInt8}
    (h : enc x ++ s = enc y ++ t) : x = y ∧ s = t := by
  obtain ⟨c₁, hs₁, hr₁⟩ := Step.exists_start (enc x) s
  obtain ⟨c₂, hs₂, hr₂⟩ := Step.exists_start (enc y) t
  rw [← h] at hs₂
  have h₁ := (hr _ x c₁).mpr ⟨hx, hs₁⟩
  have h₂ := (hr _ y c₂).mpr ⟨hy, hs₂⟩
  obtain ⟨rfl, rfl⟩ := Prod.mk.inj (Except.ok.inj (h₁.symm.trans h₂))
  exact ⟨rfl, hr₁.symm.trans hr₂⟩

end Exact

/-! ### Cancelling encodings -/

/-- Integers of one width cancel from the front. -/
lemma toLeBytes_cancel [Word α] {x y : α} {s t : List UInt8}
    (h : toLeBytes x ++ s = toLeBytes y ++ t) : x = y ∧ s = t := by
  obtain ⟨hx, ht⟩ := List.append_inj h (by simp)
  exact ⟨toLeBytes_injective hx, ht⟩

/-- Byte strings of one length cancel from the front. -/
lemma vector_cancel {n : Nat} {x y : List.Vector UInt8 n} {s t : List UInt8}
    (h : x.toList ++ s = y.toList ++ t) : x = y ∧ s = t := by
  obtain ⟨hx, ht⟩ := List.append_inj h (by simp)
  exact ⟨List.Vector.eq x y hx, ht⟩

/-- Lists of equally many items cancel when their items do. -/
lemma flatMap_cancel {enc : α → List UInt8} {xs ys : List α} {s t : List UInt8}
    (hlen : xs.length = ys.length)
    (hcancel : ∀ x ∈ xs, ∀ y ∈ ys, ∀ s t, enc x ++ s = enc y ++ t → x = y ∧ s = t)
    (h : xs.flatMap enc ++ s = ys.flatMap enc ++ t) : xs = ys ∧ s = t := by
  induction xs generalizing ys with
  | nil =>
    obtain rfl := List.length_eq_zero_iff.mp hlen.symm
    exact ⟨rfl, h⟩
  | cons x xs ih =>
    obtain ⟨y, ys, rfl⟩ := List.exists_cons_of_length_eq_add_one hlen.symm
    rw [List.flatMap_cons, List.flatMap_cons, List.append_assoc, List.append_assoc] at h
    obtain ⟨rfl, h'⟩ := hcancel x (by simp) y (by simp) _ _ h
    obtain ⟨rfl, hst⟩ := ih (by simpa using hlen)
      (fun a ha b hb => hcancel a (List.mem_cons_of_mem _ ha) b (List.mem_cons_of_mem _ hb)) h'
    exact ⟨rfl, hst⟩

end Wire
