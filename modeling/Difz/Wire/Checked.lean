import Difz.Program.Action
import Difz.Wire.Reader

/-!
# Checked programs

Programs with the checks of the machine left in. An index or a slice out of range and an integer
that leaves its type stop a `Checked` computation with a panic, which is not one of its errors. An
`Allocating` program also keeps a record of the storage it asks for, and a `Scanner` reads from a
position that nothing ties to the length of the input.

Such programs are compared with total ones, where there is nothing to check. `Computes` and
`Refines` say that the checked program ends as the total one does, so that it never panics, and
that each of its reservations satisfies a given condition. Both are closed under sequencing.
-/

namespace Wire

open Difz.Program (Action)

variable {ε δ α β : Type}

/-- How a computation stops before its end: with an error that it returns, or with a panic. -/
inductive Halt (ε : Type)
  | error (e : ε)
  | panic
  deriving DecidableEq, Repr

def Halt.map (f : ε → δ) : Halt ε → Halt δ
  | error e => error (f e)
  | panic => panic

/-! ### Checked computations -/

abbrev Checked (ε α : Type) := Except (Halt ε) α

namespace Checked

def fail (e : ε) : Checked ε α := .error (.error e)

/-- A computation without checks. -/
def ofExcept (x : Except ε α) : Checked ε α := x.mapError .error

/-- `x.map_err(f)`. -/
def mapError (f : ε → δ) (x : Checked ε α) : Checked δ α := Except.mapError (Halt.map f) x

/-- `xs[i]`. -/
def index (xs : List α) (i : Nat) : Checked ε α :=
  match xs[i]? with
  | some x => .ok x
  | none => .error .panic

/-- `xs[i..j]`. -/
def slice (xs : List α) (i j : Nat) : Checked ε (List α) :=
  if i ≤ j ∧ j ≤ xs.length then .ok ((xs.take j).drop i) else .error .panic

/-- `xs.get(i..j)`. -/
def get? (xs : List α) (i j : Nat) : Option (List α) :=
  if i ≤ j ∧ j ≤ xs.length then some ((xs.take j).drop i) else none

/-- `xs[i..j].try_into()` for a fixed-size array. -/
def array (e : ε) (n : Nat) (xs : List UInt8) (i j : Nat) : Checked ε (List.Vector UInt8 n) := do
  let bytes ← slice xs i j
  (tryInto e n bytes).mapError .error

/-- `xs[i] = x`. -/
def store (xs : List α) (i : Nat) (x : α) : Checked ε (List α) :=
  if i < xs.length then .ok (xs.set i x) else .error .panic

/-- The items at some indices, such as `[xs[4], xs[5], xs[6], xs[7]]`. -/
def indices (xs : List α) (is : List Nat) : Checked ε (List α) := is.mapM (index xs)

/-- `a + b` in an unsigned type of that many bits. -/
def add (bits a b : Nat) : Checked ε Nat := if a + b < 2 ^ bits then .ok (a + b) else .error .panic

def mul (bits a b : Nat) : Checked ε Nat := if a * b < 2 ^ bits then .ok (a * b) else .error .panic

/-- `a - b` in an unsigned type. -/
def sub (a b : Nat) : Checked ε Nat := if b ≤ a then .ok (a - b) else .error .panic

/-- An intermediate value of a signed type of that many bits. -/
def signed (bits : Nat) (x : Int) : Checked ε Int :=
  if -2 ^ (bits - 1) ≤ x ∧ x < 2 ^ (bits - 1) then .ok x else .error .panic

/-- A conversion to an unsigned type of that many bits. -/
def unsigned (bits : Nat) (x : Int) : Checked ε Nat :=
  if 0 ≤ x ∧ x < 2 ^ bits then .ok x.toNat else .error .panic

def div (a b : Nat) : Checked ε Nat := if b = 0 then .error .panic else .ok (a / b)

/-- `a && b`: the second operand is evaluated only when the first one holds. -/
def and (a : Bool) (b : Checked ε Bool) : Checked ε Bool := if a then b else .ok false

def or (a : Bool) (b : Checked ε Bool) : Checked ε Bool := if a then .ok true else b

/-- A value that needs the check behind it to exist. -/
def certify (x : Checked ε Unit) (value : x = .ok () → α) : Checked ε α :=
  match x, value with
  | .error e, _ => .error e
  | .ok (), value => .ok (value rfl)

@[simp] lemma ofExcept_ok (a : α) : ofExcept (.ok a : Except ε α) = .ok a := rfl

@[simp] lemma ofExcept_error (e : ε) : ofExcept (.error e : Except ε α) = fail e := rfl

lemma ofExcept_bind (x : Except ε α) (f : α → Except ε β) :
    ofExcept (x >>= f) = ofExcept x >>= fun a => ofExcept (f a) := by
  cases x <;> rfl

lemma ofExcept_ite {p : Prop} {_ : Decidable p} (x y : Except ε α) :
    ofExcept (if p then x else y) = if p then ofExcept x else ofExcept y := by
  split_ifs <;> rfl

lemma ofExcept_eq_ok {x : Except ε α} {a : α} : ofExcept x = .ok a ↔ x = .ok a :=
  mapError_eq_ok

/-- The same check in a total function. -/
lemma certify_eq {x : Checked ε Unit} {y : Except ε Unit} {z : Except ε α}
    {value : x = .ok () → α} (h : x = ofExcept y) (hok : ∀ hx, z = .ok (value hx))
    (herror : ∀ e, y = .error e → z = .error e) : certify x value = ofExcept z := by
  subst h
  cases y with
  | error e =>
    rw [herror e rfl]
    rfl
  | ok u =>
    rw [hok rfl]
    rfl

lemma ofExcept_ensure {p : Prop} {_ : Decidable p} (e : ε) :
    ofExcept (ensure p e) = ensure p (.error e) := by
  rw [ensure, ensure]
  split_ifs <;> rfl

lemma mapError_ofExcept (f : ε → δ) (x : Except ε α) :
    mapError f (ofExcept x) = ofExcept (x.mapError f) := by
  cases x <;> rfl

lemma ofExcept_ne_panic (x : Except ε α) : ofExcept x ≠ .error .panic := by
  cases x with
  | ok a => simp
  | error e => simp [fail]

lemma index_of_lt {xs : List α} {i : Nat} (h : i < xs.length) :
    (index xs i : Checked ε α) = .ok xs[i] := by
  rw [index, List.getElem?_eq_getElem h]

lemma slice_of_le {xs : List α} {i j : Nat} (hij : i ≤ j) (hj : j ≤ xs.length) :
    (slice xs i j : Checked ε (List α)) = .ok ((xs.take j).drop i) :=
  if_pos ⟨hij, hj⟩

lemma slice_take {xs : List α} {j : Nat} (hj : j ≤ xs.length) :
    (slice xs 0 j : Checked ε (List α)) = .ok (xs.take j) :=
  slice_of_le (Nat.zero_le j) hj

lemma slice_drop {xs : List α} {i : Nat} (hi : i ≤ xs.length) :
    (slice xs i xs.length : Checked ε (List α)) = .ok (xs.drop i) := by
  rw [slice_of_le hi le_rfl, List.take_length]

/-- A slice of the length of an array is one. -/
lemma array_of_le (e : ε) {n : Nat} {xs : List UInt8} {i j : Nat} (hn : i + n = j)
    (hj : j ≤ xs.length) : ∃ v, array e n xs i j = .ok v ∧ v.toList = field xs i j := by
  have hlen : (field xs i j).length = n := by
    rw [length_field hj]
    omega
  refine ⟨⟨field xs i j, hlen⟩, ?_, rfl⟩
  rw [array, slice_of_le (by omega) hj, ok_bind, ← field, tryInto, dif_pos hlen]
  rfl

lemma store_of_lt {xs : List α} {i : Nat} (h : i < xs.length) (x : α) :
    (store xs i x : Checked ε (List α)) = .ok (xs.set i x) :=
  if_pos h

/-- Neighbouring items form a slice. -/
lemma indices_range {xs : List α} {i n : Nat} (h : i + n ≤ xs.length) :
    (indices xs (List.range' i n) : Checked ε (List α)) = .ok ((xs.take (i + n)).drop i) := by
  induction n generalizing i with
  | zero => simp [indices, pure, Except.pure]
  | succ n ih =>
    have hslice : (xs.take (i + (n + 1))).drop i
        = xs[i] :: (xs.take (i + 1 + n)).drop (i + 1) := by
      rw [List.drop_eq_getElem_cons (by rw [List.length_take]; omega), List.getElem_take]
      congr 3
      omega
    have hrest := ih (i := i + 1) (by omega)
    unfold indices at hrest ⊢
    rw [List.range'_succ, List.mapM_cons, index_of_lt (by omega), ok_bind, hrest, ok_bind, hslice]
    rfl

lemma add_of_lt {bits a b : Nat} (h : a + b < 2 ^ bits) :
    (add bits a b : Checked ε Nat) = .ok (a + b) :=
  if_pos h

lemma mul_of_lt {bits a b : Nat} (h : a * b < 2 ^ bits) :
    (mul bits a b : Checked ε Nat) = .ok (a * b) :=
  if_pos h

lemma sub_of_le {a b : Nat} (h : b ≤ a) : (sub a b : Checked ε Nat) = .ok (a - b) := if_pos h

lemma signed_of_mem {bits : Nat} {x : Int} (hlow : -2 ^ (bits - 1) ≤ x) (hhigh : x < 2 ^ (bits - 1)) :
    (signed bits x : Checked ε Int) = .ok x :=
  if_pos ⟨hlow, hhigh⟩

lemma unsigned_of_mem {bits : Nat} {x : Int} (hlow : 0 ≤ x) (hhigh : x < 2 ^ bits) :
    (unsigned bits x : Checked ε Nat) = .ok x.toNat :=
  if_pos ⟨hlow, hhigh⟩

lemma div_of_pos {a b : Nat} (h : 0 < b) : (div a b : Checked ε Nat) = .ok (a / b) :=
  if_neg (by omega)

@[simp] lemma and_ok (a b : Bool) : and a (.ok b : Checked ε Bool) = .ok (a && b) := by
  cases a <;> rfl

@[simp] lemma or_ok (a b : Bool) : or a (.ok b : Checked ε Bool) = .ok (a || b) := by
  cases a <;> rfl

/-! Loops over the items of a list, item by item. -/

lemma forM_eq_ofExcept {f : α → Checked ε Unit} {g : α → Except ε Unit} {xs : List α}
    (h : ∀ x ∈ xs, f x = ofExcept (g x)) : xs.forM f = ofExcept (xs.forM g) := by
  induction xs with
  | nil => rfl
  | cons x xs ih =>
    change (f x >>= fun _ => xs.forM f) = ofExcept (g x >>= fun _ => xs.forM g)
    rw [ofExcept_bind, h x (by simp), ih fun y hy => h y (List.mem_cons_of_mem _ hy)]

lemma foldlM_eq_ofExcept {f : β → α → Checked ε β} {g : β → α → Except ε β} {xs : List α}
    (h : ∀ b, ∀ x ∈ xs, f b x = ofExcept (g b x)) (b : β) :
    xs.foldlM f b = ofExcept (xs.foldlM g b) := by
  induction xs generalizing b with
  | nil => rfl
  | cons x xs ih =>
    rw [List.foldlM_cons, List.foldlM_cons, ofExcept_bind, h b x (by simp)]
    congr 1
    funext b'
    exact ih (fun b y hy => h b y (List.mem_cons_of_mem _ hy)) b'

lemma mapM_eq_ofExcept {f : α → Checked ε β} {g : α → Except ε β} {xs : List α}
    (h : ∀ x ∈ xs, f x = ofExcept (g x)) : xs.mapM f = ofExcept (xs.mapM g) := by
  induction xs with
  | nil => rfl
  | cons x xs ih =>
    rw [List.mapM_cons, List.mapM_cons, h x (by simp), ih fun y hy => h y (List.mem_cons_of_mem _ hy)]
    simp only [ofExcept_bind]
    rfl

end Checked

/-! ### Storage -/

/-- Storage for `count` items of at least `minimum` bytes, asked for when `remaining` bytes of the
input had not been read. -/
structure Reservation where
  count : Nat
  remaining : Nat
  minimum : Nat
  deriving DecidableEq

/-- The items could all stand in the rest of the input. -/
def Reservation.Bounded (r : Reservation) : Prop := r.count ≤ r.remaining / r.minimum

instance (r : Reservation) : Decidable r.Bounded := inferInstanceAs (Decidable (_ ≤ _))

/-- A checked program with the storage it asked for so far. -/
abbrev Allocating (ε α : Type) := Action (List Reservation) (Halt ε) α

namespace Allocating

def reserve (count remaining minimum : Nat) : Allocating ε Unit :=
  Action.modify (· ++ [⟨count, remaining, minimum⟩])

def mapError (f : ε → δ) (x : Allocating ε α) : Allocating δ α := Action.mapError (Halt.map f) x

end Allocating

/-- The program does not panic, and what it reserves satisfies `P`. -/
def Allocating.Safe (P : Reservation → Prop) (x : Allocating ε α) : Prop :=
  (x []).1 ≠ .error .panic ∧ ∀ r ∈ (x []).2, P r

/-- The program ends as `y` does, and what it reserves on the way satisfies `P`. -/
def Computes (P : Reservation → Prop) (x : Allocating ε α) (y : Except ε α) : Prop :=
  ∀ log, ∃ extra, (∀ r ∈ extra, P r) ∧ x log = (Checked.ofExcept y, log ++ extra)

namespace Computes

variable {P P' : Reservation → Prop} {x : Allocating ε α} {y : Except ε α}

lemma lift {z : Checked ε α} (h : z = Checked.ofExcept y) : Computes P (Action.lift z) y := by
  intro log
  exact ⟨[], by simp, by simp [Action.lift, h]⟩

lemma reserve {count remaining minimum : Nat} (h : P ⟨count, remaining, minimum⟩) :
    Computes P (Allocating.reserve count remaining minimum : Allocating ε Unit) (.ok ()) := by
  intro log
  exact ⟨[⟨count, remaining, minimum⟩], by simpa using h, rfl⟩

/-- Sequencing, when the rest depends on how the first part came out. -/
lemma bind {f : α → Allocating ε β} {g : α → Except ε β} (hx : Computes P x y)
    (hf : ∀ a, y = .ok a → Computes P (f a) (g a)) : Computes P (x >>= f) (y >>= g) := by
  intro log
  obtain ⟨extra, hP, hrun⟩ := hx log
  rw [Difz.Program.bind_apply, hrun]
  cases y with
  | error e => exact ⟨extra, hP, rfl⟩
  | ok a =>
    obtain ⟨more, hmore, hrest⟩ := hf a rfl (log ++ extra)
    refine ⟨extra ++ more, ?_, ?_⟩
    · intro r hr
      rcases List.mem_append.mp hr with h | h
      · exact hP r h
      · exact hmore r h
    · rw [← List.append_assoc]
      exact hrest

lemma mapError (f : ε → δ) (h : Computes P x y) :
    Computes P (Allocating.mapError f x) (y.mapError f) := by
  intro log
  obtain ⟨extra, hP, hrun⟩ := h log
  refine ⟨extra, hP, ?_⟩
  rw [Allocating.mapError, Action.mapError, hrun]
  cases y <;> rfl

lemma mono (h : Computes P x y) (hP : ∀ r, P r → P' r) : Computes P' x y := by
  intro log
  obtain ⟨extra, hextra, hrun⟩ := h log
  exact ⟨extra, fun r hr => hP r (hextra r hr), hrun⟩

/-- A total function does not panic. -/
lemma safe (h : Computes P x y) : Allocating.Safe P x := by
  obtain ⟨extra, hP, hrun⟩ := h []
  rw [Allocating.Safe, hrun]
  exact ⟨Checked.ofExcept_ne_panic y, hP⟩

end Computes

/-! ### Scanners -/

/-- A byte string, a position and the storage asked for so far. -/
structure ScanState where
  bytes : List UInt8
  offset : Nat
  reserved : List Reservation

/-- The scan that stands where a cursor does. -/
def ScanState.at_ (c : Cursor) (log : List Reservation) : ScanState := ⟨c.bytes, c.offset, log⟩

abbrev Scanner (ε α : Type) := Action ScanState (Halt ε) α

namespace Scanner

def fail (e : ε) : Scanner ε α := Action.lift (Checked.fail e)

def guard (e : ε) (p : Prop) [Decidable p] : Scanner ε Unit := Action.lift (ensure p (.error e))

/-- The end is computed with `checked_add`, and the slice taken with `get`. -/
def take (e : ε) (n : Nat) : Scanner ε (List UInt8) := fun s =>
  if s.offset + n < 2 ^ 64 ∧ s.offset + n ≤ s.bytes.length then
    (.ok (field s.bytes s.offset (s.offset + n)), ⟨s.bytes, s.offset + n, s.reserved⟩)
  else (.error (.error e), s)

def array (e : ε) (n : Nat) : Scanner ε (List.Vector UInt8 n) := do
  let bytes ← take e n
  Action.lift (Checked.ofExcept (tryInto e n bytes))

/-- The next byte is the first of the next slice of one byte. -/
def byte (e : ε) : Scanner ε UInt8 := do
  let bytes ← take e 1
  Action.lift (Checked.index bytes 0)

def word (e : ε) (α : Type) [Word α] : Scanner ε α := do
  let bytes ← array e (Word.width α)
  pure (fromLeBytes bytes.toList)

def blob (e : ε) : Scanner ε (List UInt8) := do
  let length ← word e UInt32
  take e length.toNat

/-- `self.bytes.len() - self.offset`. -/
def remaining : Scanner ε Nat := fun s => (Checked.sub s.bytes.length s.offset, s)

def position : Scanner ε Nat := Action.gets ScanState.offset

/-- The slice of the input from `i` to the position. -/
def since (i : Nat) : Scanner ε (List UInt8) := fun s => (Checked.slice s.bytes i s.offset, s)

/-- Nothing is left of the input. -/
def atEnd (e : ε) : Scanner ε Unit := fun s => (ensure (s.offset = s.bytes.length) (.error e), s)

def reserve (count minimum : Nat) : Scanner ε Unit :=
  Action.modify fun s =>
    { s with reserved := s.reserved ++ [⟨count, s.bytes.length - s.offset, minimum⟩] }

/-- A count is compared with what remains before storage is asked for. -/
def count (e : ε) (minimum : Nat) : Scanner ε Nat := do
  let n ← word e UInt32
  let remaining ← remaining
  let most ← Action.lift (Checked.div remaining minimum)
  guard e (¬n.toNat > most)
  reserve n.toNat minimum
  pure n.toNat

def replicate (n : Nat) (x : Scanner ε α) : Scanner ε (List α) :=
  match n with
  | 0 => pure []
  | n + 1 => do
    let a ← x
    let as ← replicate n x
    pure (a :: as)

def counted (e : ε) (minimum : Nat) (x : Scanner ε α) : Scanner ε (List α) := do
  let n ← count e minimum
  replicate n x

def checked (x : Scanner ε α) (check : α → Checked ε Unit) : Scanner ε α := do
  let a ← x
  Action.lift (check a)
  pure a

/-- Another program, with an input of its own. -/
def call (x : Allocating ε α) : Scanner ε α := fun s =>
  match x s.reserved with
  | (a, log) => (a, { s with reserved := log })

/-- Scan a byte string from its start. -/
def run (x : Scanner ε α) (bytes : List UInt8) : Allocating ε α := fun log =>
  match x ⟨bytes, 0, log⟩ with
  | (a, s) => (a, s.reserved)

end Scanner

/-- At the cursor the scanner does what the reader does, and what it reserves satisfies `P`. The
length of the input is a machine integer. -/
def Refines (P : Reservation → Prop) (c : Cursor) (x : Scanner ε α) (r : Reader ε α) : Prop :=
  c.bytes.length < 2 ^ 64 → ∀ log, ∃ extra, (∀ q ∈ extra, P q) ∧ match r c with
    | .ok (a, c') => c'.bytes = c.bytes ∧ x (.at_ c log) = (.ok a, .at_ c' (log ++ extra))
    | .error e => ∃ s, x (.at_ c log) = (.error (.error e), s) ∧ s.reserved = log ++ extra

namespace Refines

variable {P P' : Reservation → Prop} {c : Cursor} {x : Scanner ε α} {r : Reader ε α}

/-- A step that returns at once and reserves nothing. -/
lemma of_ok {a : α} {c' : Cursor} (hr : r c = .ok (a, c')) (hb : c'.bytes = c.bytes)
    (hx : ∀ log, x (.at_ c log) = (.ok a, .at_ c' log)) : Refines P c x r := by
  intro _ log
  refine ⟨[], by simp, ?_⟩
  rw [hr, List.append_nil]
  exact ⟨hb, hx log⟩

lemma of_error {e : ε} (hr : r c = .error e)
    (hx : ∀ log, x (.at_ c log) = (.error (.error e), .at_ c log)) : Refines P c x r := by
  intro _ log
  refine ⟨[], by simp, ?_⟩
  rw [hr, List.append_nil]
  exact ⟨_, hx log, rfl⟩

lemma pure (a : α) : Refines P c (pure a : Scanner ε α) (pure a) :=
  of_ok rfl rfl fun _ => rfl

lemma lift {z : Checked ε α} {y : Except ε α} (h : z = Checked.ofExcept y) :
    Refines P c (Action.lift z) (Reader.lift y) := by
  subst h
  cases y with
  | ok a => exact of_ok rfl rfl fun _ => rfl
  | error e => exact of_error rfl fun _ => rfl

lemma guard (e : ε) (p : Prop) [Decidable p] :
    Refines P c (Scanner.guard e p) (Reader.guard e p) := by
  refine lift ?_
  rw [ensure, ensure]
  split_ifs <;> rfl

/-- Sequencing, when the rest depends on what the first part returned and on where it stopped. -/
lemma bind_of_ok {f : α → Scanner ε β} {g : α → Reader ε β} (hx : Refines P c x r)
    (hf : ∀ a c', r c = .ok (a, c') → c'.bytes = c.bytes → Refines P c' (f a) (g a)) :
    Refines P c (x >>= f) (r >>= g) := by
  intro hfits log
  obtain ⟨extra, hP, hrun⟩ := hx hfits log
  have hread : (r >>= g) c = (r c >>= fun p => g p.1 p.2) := rfl
  rw [Difz.Program.bind_apply, hread]
  cases hr : r c with
  | error e =>
    rw [hr] at hrun
    obtain ⟨s, hs, hlog⟩ := hrun
    rw [hs]
    exact ⟨extra, hP, s, rfl, hlog⟩
  | ok p =>
    obtain ⟨a, c'⟩ := p
    rw [hr] at hrun
    obtain ⟨hb, hs⟩ := hrun
    rw [hs, ok_bind]
    obtain ⟨more, hmore, hrest⟩ := hf a c' hr hb (by rwa [hb]) (log ++ extra)
    refine ⟨extra ++ more, ?_, ?_⟩
    · intro q hq
      rcases List.mem_append.mp hq with h | h
      · exact hP q h
      · exact hmore q h
    · rw [← List.append_assoc, ← hb]
      exact hrest

lemma bind {f : α → Scanner ε β} {g : α → Reader ε β} (hx : Refines P c x r)
    (hf : ∀ a c', Refines P c' (f a) (g a)) : Refines P c (x >>= f) (r >>= g) :=
  hx.bind_of_ok fun a c' _ _ => hf a c'

lemma ite {p : Prop} [Decidable p] {x' : Scanner ε α} {r' : Reader ε α} (h : Refines P c x r)
    (h' : Refines P c x' r') : Refines P c (if p then x else x') (if p then r else r') := by
  split_ifs
  · exact h
  · exact h'

lemma mono (h : Refines P c x r) (hP : ∀ q, P q → P' q) : Refines P' c x r := by
  intro hfits log
  obtain ⟨extra, hextra, hrun⟩ := h hfits log
  exact ⟨extra, fun q hq => hP q (hextra q hq), hrun⟩

lemma take (e : ε) (n : Nat) : Refines P c (Scanner.take e n) (Reader.take e n) := by
  intro hfits
  by_cases h : c.offset + n ≤ c.bytes.length
  · have hfield : field c.bytes c.offset (c.offset + n) = c.rest.take n := by
      rw [field, List.drop_take, Nat.add_sub_cancel_left, Cursor.rest]
    have hread : Reader.take e n c = .ok (_, ⟨c.bytes, c.offset + n, h⟩) := dif_pos h
    refine of_ok hread rfl (fun log => ?_) hfits
    rw [← hfield]
    exact if_pos ⟨lt_of_le_of_lt h hfits, h⟩
  · exact of_error (dif_neg h) (fun log => if_neg fun h' => h h'.2) hfits

/-- The bytes of a slice fit as the whole input does. -/
lemma take_bind {e : ε} {n : Nat} {f : List UInt8 → Scanner ε β} {g : List UInt8 → Reader ε β}
    (hf : ∀ w c', w.length ≤ c.bytes.length → w.length = n → Refines P c' (f w) (g w)) :
    Refines P c (Scanner.take e n >>= f) (Reader.take e n >>= g) := by
  refine (take e n).bind_of_ok fun w c' hr _ => ?_
  obtain ⟨hn, hs⟩ := Reader.take_eq_ok.mp hr
  refine hf w c' (hs.length_le.trans ?_) hn
  rw [Cursor.length_rest]
  omega

lemma array (e : ε) (n : Nat) : Refines P c (Scanner.array e n) (Reader.array e n) := by
  have hread : Reader.array e n = (Reader.take e n >>= fun w => Reader.lift (tryInto e n w)) := by
    funext c
    change _ = (Reader.take e n c >>= fun p => Reader.lift (tryInto e n p.1) p.2)
    rw [Reader.array]
    cases h : Reader.take e n c with
    | error d => rfl
    | ok p =>
      obtain ⟨w, c'⟩ := p
      have hw : w.length = n := (Reader.take_eq_ok.mp h).1
      rw [ok_bind, tryInto, dif_pos hw]
      exact dif_pos hw
  rw [hread]
  exact (take e n).bind fun w _ => lift rfl

lemma word (e : ε) (α : Type) [Word α] : Refines P c (Scanner.word e α) (Reader.word e α) := by
  -- the reader takes the bytes without making an array of them
  have hread : Reader.word e α = (Reader.array e (Word.width α) >>= fun w =>
      Pure.pure (fromLeBytes w.toList)) := by
    funext c
    change (Reader.take e (Word.width α) c >>= fun p => Except.ok (fromLeBytes p.1, p.2))
      = (Reader.array e (Word.width α) c >>= fun p => Except.ok (fromLeBytes p.1.toList, p.2))
    rw [Reader.array]
    cases h : Reader.take e (Word.width α) c with
    | error d => rfl
    | ok p =>
      obtain ⟨w, c'⟩ := p
      have hw : w.length = Word.width α := (Reader.take_eq_ok.mp h).1
      dsimp only
      rw [dif_pos hw]
      rfl
  rw [hread]
  exact (array e _).bind fun w _ => pure _

lemma byte (e : ε) : Refines P c (Scanner.byte e) (Reader.word e UInt8) := by
  refine (take e 1).bind_of_ok fun w c' hr _ => ?_
  obtain ⟨b, rfl⟩ := List.length_eq_one_iff.mp (Reader.take_eq_ok.mp hr).1
  have hb : (fromLeBytes [b] : UInt8) = b := by
    rw [← toLeBytes_uint8 b, fromLeBytes_toLeBytes]
  rw [hb]
  exact of_ok rfl rfl fun _ => rfl

lemma blob (e : ε) : Refines P c (Scanner.blob e) (Reader.blob e) :=
  (word e UInt32).bind fun n _ => take e n.toNat

/-- A reservation between two steps. -/
lemma reserve_bind {count minimum : Nat} {f : Unit → Scanner ε α}
    (hP : P ⟨count, c.bytes.length - c.offset, minimum⟩) (hf : Refines P c (f ()) r) :
    Refines P c (Scanner.reserve count minimum >>= f) r := by
  intro hfits log
  obtain ⟨extra, hextra, hrun⟩ := hf hfits (log ++ [⟨count, c.bytes.length - c.offset, minimum⟩])
  refine ⟨⟨count, c.bytes.length - c.offset, minimum⟩ :: extra, ?_, ?_⟩
  · simpa using ⟨hP, hextra⟩
  · rw [List.append_assoc] at hrun
    exact hrun

/-- A check that passes is no step of the reader. -/
lemma eval_bind {z : Checked ε β} {b : β} {f : β → Scanner ε α} (hz : z = .ok b)
    (hf : Refines P c (f b) r) : Refines P c (Action.lift z >>= f) r := by
  subst hz
  exact hf

lemma remaining_bind {f : Nat → Scanner ε α} (hf : Refines P c (f (c.bytes.length - c.offset)) r) :
    Refines P c (Scanner.remaining >>= f) r := by
  have hsub : ∀ log, (Scanner.remaining >>= f) (.at_ c log)
      = f (c.bytes.length - c.offset) (.at_ c log) := by
    intro log
    rw [Difz.Program.bind_apply, Scanner.remaining, ScanState.at_, Checked.sub_of_le c.le]
  intro hfits log
  rw [hsub]
  exact hf hfits log

lemma position_bind {f : Nat → Scanner ε α} (hf : Refines P c (f c.offset) r) :
    Refines P c (Scanner.position >>= f) r :=
  hf

/-- The slice that was read since an earlier cursor. -/
lemma since_bind {d : Cursor} {w : List UInt8} {f : List UInt8 → Scanner ε α} (hs : Step d w c)
    (hf : Refines P c (f w) r) : Refines P c (Scanner.since d.offset >>= f) r := by
  have hlen := congrArg List.length hs.2
  rw [List.length_append, Cursor.length_rest, Cursor.length_rest, hs.1] at hlen
  have hle := c.le
  have hbefore := d.le
  rw [hs.1] at hle
  have hslice : (d.bytes.take c.offset).drop d.offset = w := by
    have hoffset : c.offset - d.offset = w.length := by omega
    rw [List.drop_take, hoffset, ← Cursor.rest, hs.2, List.take_left]
  have hsince : ∀ log, (Scanner.since d.offset >>= f) (.at_ c log) = f w (.at_ c log) := by
    intro log
    rw [Difz.Program.bind_apply, Scanner.since, ScanState.at_, hs.1,
      Checked.slice_of_le (by omega) hle, hslice]
  intro hfits log
  rw [hsince]
  exact hf hfits log

lemma count (e : ε) {minimum : Nat} (hpos : 0 < minimum)
    (hP : ∀ n remaining, n ≤ remaining / minimum → P ⟨n, remaining, minimum⟩) :
    Refines P c (Scanner.count e minimum) (Reader.count e minimum) := by
  refine (word e UInt32).bind fun n c' => remaining_bind (eval_bind (Checked.div_of_pos hpos) ?_)
  by_cases hle : n.toNat > (c'.bytes.length - c'.offset) / minimum
  · refine of_error (if_pos hle) fun log => ?_
    rw [Difz.Program.bind_apply, Scanner.guard, ensure, if_neg (not_not.mpr hle)]
    rfl
  · refine eval_bind (if_pos hle) (reserve_bind (hP _ _ (Nat.le_of_not_lt hle)) ?_)
    exact of_ok (if_neg hle) rfl fun _ => rfl

lemma replicate (h : ∀ c, Refines P c x r) (n : Nat) :
    Refines P c (Scanner.replicate n x) (Reader.replicate n r) := by
  induction n generalizing c with
  | zero => exact pure []
  | succ n ih => exact (h c).bind fun a c' => ih.bind fun as c'' => pure _

lemma counted (h : ∀ c, Refines P c x r) (e : ε) {minimum : Nat} (hpos : 0 < minimum)
    (hP : ∀ n remaining, n ≤ remaining / minimum → P ⟨n, remaining, minimum⟩) :
    Refines P c (Scanner.counted e minimum x) (Reader.counted e minimum r) :=
  (count e hpos hP).bind fun n _ => replicate h n

/-- A check of what was read. -/
lemma checked {check : α → Checked ε Unit} {check' : α → Except ε Unit} (h : Refines P c x r)
    (hcheck : ∀ a c', c.bytes.length < 2 ^ 64 → r c = .ok (a, c') →
      check a = Checked.ofExcept (check' a)) :
    Refines P c (Scanner.checked x check) (Reader.checked r check') := by
  intro hfits
  refine (h.bind_of_ok fun a c' hr _ => ?_) hfits
  exact (lift (hcheck a c' hfits hr)).bind fun _ _ => pure a

/-- A program with an input of its own. -/
lemma call {z : Allocating ε α} {y : Except ε α} (h : Computes P z y) :
    Refines P c (Scanner.call z) (Reader.lift y) := by
  intro _ log
  obtain ⟨extra, hextra, hrun⟩ := h log
  refine ⟨extra, hextra, ?_⟩
  have hcall : Scanner.call z (.at_ c log)
      = (Checked.ofExcept y, ⟨c.bytes, c.offset, log ++ extra⟩) := by
    rw [Scanner.call]
    change (match z log with | (a, log) => (a, (⟨c.bytes, c.offset, log⟩ : ScanState))) = _
    rw [hrun]
  rw [hcall]
  cases y with
  | ok a => exact ⟨rfl, rfl⟩
  | error e => exact ⟨_, rfl, rfl⟩

/-- A scan that must use up a byte string, and what is made of its result. -/
lemma run_atEnd {bytes : List UInt8} (hfits : bytes.length < 2 ^ 64)
    (h : Refines P (Cursor.start bytes) x r) {e : ε} {finish : α → Checked ε β}
    {finish' : α → Except ε β} (hfinish : ∀ a c', r (Cursor.start bytes) = .ok (a, c') →
      finish a = Checked.ofExcept (finish' a)) :
    Computes P (Scanner.run (do
        let a ← x
        Scanner.atEnd e
        Action.lift (finish a)) bytes)
      (r (Cursor.start bytes) >>= fun p =>
        ensure (p.2.offset = bytes.length) e >>= fun _ => finish' p.1) := by
  intro log
  obtain ⟨extra, hextra, hrun⟩ := h hfits log
  refine ⟨extra, hextra, ?_⟩
  have hstart : ScanState.at_ (Cursor.start bytes) log = ⟨bytes, 0, log⟩ := rfl
  rw [Scanner.run, ← hstart, Difz.Program.bind_apply]
  cases hr : r (Cursor.start bytes) with
  | error d =>
    rw [hr] at hrun
    obtain ⟨s, hs, hlog⟩ := hrun
    rw [hs, ← hlog]
    rfl
  | ok p =>
    obtain ⟨a, c'⟩ := p
    rw [hr] at hrun
    obtain ⟨hb, hs⟩ := hrun
    have hbytes : c'.bytes = bytes := hb
    rw [hs, ok_bind, ← hbytes]
    dsimp only
    rw [Difz.Program.bind_apply, Scanner.atEnd, ScanState.at_]
    by_cases hend : c'.offset = c'.bytes.length
    · rw [ensure, ensure, if_pos hend, if_pos hend]
      dsimp only
      rw [ok_bind, Action.lift, hfinish a c' hr]
    · rw [ensure, ensure, if_neg hend, if_neg hend]
      rfl

end Refines

end Wire
