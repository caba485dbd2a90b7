import Difz.Metadata.Basic
import Difz.Platform.Reader

/-!
# Enumeration of a directory

The iterator `Names` of `rust/platform/src/names.rs` over a stream that may return anything. It
yields the names ahead of the first result that stops it, and then at most one error,
`next_exact`.
-/

namespace Difz

open Wire

namespace Platform

/-- What `readdir` returns, with the error number that it leaves. -/
inductive Readdir
  | entry (name : List UInt8)
  | null (errno : Int)
  deriving DecidableEq, Repr

/-- The iterator. A stream whose results have all been read is at its end; only the account of the
calls of `readdir` is not a field of the source. -/
structure Names where
  stream : List Readdir
  calls : Nat
  remaining : Nat
  maximumNameBytes : Nat
  finished : Bool

/-- The names that are not yielded. -/
def isDot (name : List UInt8) : Bool := name == utf8 "." || name == utf8 ".."

/-- Whether there is memory for a name, which may change with every call of `readdir`. -/
abbrev NameAllocator := Nat → Nat → Bool

variable (allocates : NameAllocator) (maximumNameBytes : Nat)

/-- The loop of `next`. Every result but a name that is yielded leaves the iterator finished. -/
def nextLoop (remaining : Nat) :
    List Readdir → Nat → Option (Except Error (List UInt8)) × Names
  | [], calls => (none, ⟨[], calls + 1, remaining, maximumNameBytes, true⟩)
  | .null errno :: stream, calls =>
    (if errno = 0 then none else some (.error (.io (.os errno))),
      ⟨stream, calls + 1, remaining, maximumNameBytes, true⟩)
  | .entry name :: stream, calls =>
    if isDot name then nextLoop remaining stream (calls + 1)
    else if remaining = 0 ∨ name.length > maximumNameBytes then
      (some (.error .limitExceeded), ⟨stream, calls + 1, remaining, maximumNameBytes, true⟩)
    else if ¬allocates calls name.length then
      (some (.error .outOfMemory), ⟨stream, calls + 1, remaining, maximumNameBytes, true⟩)
    else (some (.ok name), ⟨stream, calls + 1, remaining - 1, maximumNameBytes, false⟩)

def Names.next (names : Names) : Option (Except Error (List UInt8)) × Names :=
  if names.finished then (none, names)
  else nextLoop allocates names.maximumNameBytes names.remaining names.stream names.calls

/-- The iterator after some calls of `next`. -/
def Names.after : Nat → Names → Names
  | 0, names => names
  | n + 1, names => Names.after n (names.next allocates).2

/-- The result of a call of `next`, counted from zero. -/
def Names.item (names : Names) (n : Nat) : Option (Except Error (List UInt8)) :=
  ((names.after allocates n).next allocates).1

def Names.start (stream : List Readdir) (maximumEntries : Nat) : Names :=
  ⟨stream, 0, maximumEntries, maximumNameBytes, false⟩

/-! ### Runs -/

/-- The names among some results, without the dot entries. -/
def visible (results : List Readdir) : List (List UInt8) :=
  results.filterMap fun
    | .entry name => if isDot name then none else some name
    | .null _ => none

/-- Results that do not stop the iterator, from a call on: dot entries, and names within the
limits for which there is memory. -/
structure Passes (calls remaining : Nat) (results : List Readdir) : Prop where
  count : (visible results).length ≤ remaining
  entries : ∀ i result, results[i]? = some result → ∃ name, result = .entry name ∧
    (isDot name ∨ name.length ≤ maximumNameBytes ∧ allocates (calls + i) name.length)

/-- How the first of the results stops the iterator at a call, and the error it makes. -/
inductive Stops (calls remaining : Nat) : List Readdir → Option Error → Prop
  | nil : Stops calls remaining [] none
  | null (rest : List Readdir) : Stops calls remaining (.null 0 :: rest) none
  | failed {errno : Int} (rest : List Readdir) : errno ≠ 0 →
    Stops calls remaining (.null errno :: rest) (some (.io (.os errno)))
  | limit {name : List UInt8} (rest : List Readdir) : ¬isDot name →
    remaining = 0 ∨ maximumNameBytes < name.length →
    Stops calls remaining (.entry name :: rest) (some .limitExceeded)
  | memory {name : List UInt8} (rest : List Readdir) : ¬isDot name → remaining ≠ 0 →
    name.length ≤ maximumNameBytes → ¬allocates calls name.length →
    Stops calls remaining (.entry name :: rest) (some .outOfMemory)

/-- All that is yielded. -/
def yielded (names : List (List UInt8)) (error : Option Error) :
    List (Except Error (List UInt8)) :=
  names.map .ok ++ error.toList.map .error

/-- What an iterator yields with all its calls, and the calls of `readdir` that it makes for it. The
last of them is made by the first call behind the names. -/
structure Yields (names : Names) (found : List (List UInt8)) (error : Option Error) (calls : Nat) :
    Prop where
  item : ∀ n, names.item allocates n = (yielded found error)[n]?
  calls : ∀ n > found.length, (names.after allocates n).calls = calls

variable {allocates maximumNameBytes}

lemma after_succ (n : Nat) (names : Names) :
    names.after allocates (n + 1) = (names.next allocates).2.after allocates n := rfl

lemma item_zero (names : Names) : names.item allocates 0 = (names.next allocates).1 := rfl

lemma item_succ (n : Nat) (names : Names) :
    names.item allocates (n + 1) = (names.next allocates).2.item allocates n := rfl

/-- A finished iterator does not change any more. -/
lemma after_finished {names : Names} (h : names.finished) (n : Nat) :
    names.after allocates n = names := by
  induction n with
  | zero => rfl
  | succ n ih =>
    have hnext : names.next allocates = (none, names) := if_pos h
    rw [after_succ, hnext, ih]

lemma item_finished {names : Names} (h : names.finished) (n : Nat) :
    names.item allocates n = none := by
  rw [Names.item, after_finished h, Names.next, if_pos h]

namespace Yields

variable {names names' : Names} {found : List (List UInt8)} {error : Option Error} {calls : Nat}

lemma of_finished (h : names.next allocates = (error.map .error, names')) (hn : names'.finished)
    (hcalls : names'.calls = calls) : Yields allocates names [] error calls := by
  subst hcalls
  refine ⟨fun n => ?_, fun n hn => ?_⟩
  · cases n with
    | zero =>
      rw [item_zero, h]
      cases error <;> rfl
    | succ n =>
      rw [item_succ, h, item_finished hn]
      cases error <;> rfl
  · cases n with
    | zero => exact absurd hn (lt_irrefl 0)
    | succ n => rw [after_succ, h, after_finished (by assumption)]

/-- A result that is skipped makes no difference. -/
lemma of_next_eq (h : names.next allocates = names'.next allocates)
    (hn : Yields allocates names' found error calls) :
    Yields allocates names found error calls := by
  refine ⟨fun n => ?_, fun n hlt => ?_⟩
  · rw [← hn.item]
    cases n with
    | zero => rw [item_zero, item_zero, h]
    | succ n => rw [item_succ, item_succ, h]
  · rw [← hn.calls n hlt]
    cases n with
    | zero => exact absurd hlt (Nat.not_lt_zero _)
    | succ n => rw [after_succ, after_succ, h]

lemma cons {name : List UInt8} (h : names.next allocates = (some (.ok name), names'))
    (hn : Yields allocates names' found error calls) :
    Yields allocates names (name :: found) error calls := by
  refine ⟨fun n => ?_, fun n hlt => ?_⟩
  · cases n with
    | zero =>
      rw [item_zero, h]
      rfl
    | succ n =>
      rw [item_succ, h, hn.item]
      rfl
  · cases n with
    | zero => exact absurd hlt (Nat.not_lt_zero _)
    | succ n =>
      rw [after_succ, h]
      exact hn.calls n (Nat.lt_of_succ_lt_succ hlt)

end Yields

lemma Passes.nil (calls remaining : Nat) :
    Passes allocates maximumNameBytes calls remaining [] := ⟨Nat.zero_le _, by simp⟩

lemma visible_dot {name : List UInt8} (hdot : isDot name) (results : List Readdir) :
    visible (.entry name :: results) = visible results := by
  simp [visible, hdot]

lemma visible_name {name : List UInt8} (hdot : ¬isDot name) (results : List Readdir) :
    visible (.entry name :: results) = name :: visible results := by
  simp [visible, hdot]

lemma Passes.dot {calls remaining : Nat} {name : List UInt8} {results : List Readdir}
    (h : Passes allocates maximumNameBytes (calls + 1) remaining results) (hdot : isDot name) :
    Passes allocates maximumNameBytes calls remaining (.entry name :: results) := by
  refine ⟨?_, fun i result hi => ?_⟩
  · rw [visible_dot hdot]
    exact h.count
  · cases i with
    | zero =>
      obtain rfl := Option.some.inj hi
      exact ⟨name, rfl, .inl hdot⟩
    | succ i =>
      have hentry := h.entries i result hi
      rwa [Nat.add_right_comm] at hentry

lemma Passes.name {calls remaining : Nat} {name : List UInt8} {results : List Readdir}
    (h : Passes allocates maximumNameBytes (calls + 1) remaining results) (hdot : ¬isDot name)
    (hlength : name.length ≤ maximumNameBytes) (hmemory : allocates calls name.length) :
    Passes allocates maximumNameBytes calls (remaining + 1) (.entry name :: results) := by
  refine ⟨?_, fun i result hi => ?_⟩
  · rw [visible_name hdot, List.length_cons]
    exact Nat.succ_le_succ h.count
  · cases i with
    | zero =>
      obtain rfl := Option.some.inj hi
      exact ⟨name, rfl, .inr ⟨hlength, hmemory⟩⟩
    | succ i =>
      have hentry := h.entries i result hi
      rwa [Nat.add_right_comm] at hentry

/-- The next result only decides about itself: it is skipped, it is yielded, or it is the last
one. -/
lemma exists_yields (stream : List Readdir) (calls remaining : Nat) :
    ∃ before rest error, stream = before ++ rest ∧
      Passes allocates maximumNameBytes calls remaining before ∧
      Stops allocates maximumNameBytes (calls + before.length)
        (remaining - (visible before).length) rest error ∧
      Yields allocates ⟨stream, calls, remaining, maximumNameBytes, false⟩ (visible before) error
        (calls + before.length + 1) := by
  induction stream generalizing calls remaining with
  | nil => exact ⟨[], [], none, rfl, .nil _ _, .nil, .of_finished rfl rfl rfl⟩
  | cons result stream ih =>
    cases result with
    | null errno =>
      by_cases hzero : errno = 0
      · subst hzero
        exact ⟨[], _, none, rfl, .nil _ _, .null _, .of_finished rfl rfl rfl⟩
      · have hnext : (Names.mk (.null errno :: stream) calls remaining maximumNameBytes false).next
            allocates = (some (.error (.io (.os errno))),
              ⟨stream, calls + 1, remaining, maximumNameBytes, true⟩) := by
          rw [Names.next, if_neg Bool.false_ne_true, nextLoop, if_neg hzero]
        exact ⟨[], _, _, rfl, .nil _ _, .failed _ hzero, .of_finished hnext rfl rfl⟩
    | entry name =>
      by_cases hdot : isDot name = true
      · obtain ⟨before, rest, error, rfl, hpasses, hstops, hyields⟩ := ih (calls + 1) remaining
        refine ⟨.entry name :: before, rest, error, rfl, hpasses.dot hdot, ?_, ?_⟩
        · rwa [visible_dot hdot, List.length_cons, ← Nat.add_assoc, Nat.add_right_comm]
        · rw [visible_dot hdot, List.length_cons, ← Nat.add_assoc, Nat.add_right_comm calls]
          refine hyields.of_next_eq ?_
          exact if_pos hdot
      · by_cases hlimit : remaining = 0 ∨ maximumNameBytes < name.length
        · have hnext : (Names.mk (.entry name :: stream) calls remaining maximumNameBytes
              false).next allocates = (some (.error .limitExceeded),
                ⟨stream, calls + 1, remaining, maximumNameBytes, true⟩) := by
            rw [Names.next, if_neg Bool.false_ne_true, nextLoop, if_neg hdot, if_pos hlimit]
          exact ⟨[], _, _, rfl, .nil _ _, .limit _ hdot hlimit, .of_finished hnext rfl rfl⟩
        · obtain ⟨hremaining, hlength⟩ := not_or.mp hlimit
          by_cases hmemory : allocates calls name.length = true
          · obtain ⟨remaining, rfl⟩ := Nat.exists_eq_succ_of_ne_zero hremaining
            obtain ⟨before, rest, error, rfl, hpasses, hstops, hyields⟩ := ih (calls + 1) remaining
            refine ⟨.entry name :: before, rest, error, rfl,
              hpasses.name hdot (not_lt.mp hlength) hmemory, ?_, ?_⟩
            · rwa [visible_name hdot, List.length_cons, List.length_cons, ← Nat.add_assoc,
                Nat.add_right_comm, Nat.succ_sub_succ]
            · rw [visible_name hdot, List.length_cons, ← Nat.add_assoc, Nat.add_right_comm calls]
              refine hyields.cons ?_
              rw [Names.next, if_neg Bool.false_ne_true, nextLoop, if_neg hdot, if_neg hlimit,
                if_neg (not_not.mpr hmemory)]
              rfl
          · have hnext : (Names.mk (.entry name :: stream) calls remaining maximumNameBytes
                false).next allocates = (some (.error .outOfMemory),
                  ⟨stream, calls + 1, remaining, maximumNameBytes, true⟩) := by
              rw [Names.next, if_neg Bool.false_ne_true, nextLoop, if_neg hdot, if_neg hlimit,
                if_pos hmemory]
            exact ⟨[], _, _, rfl, .nil _ _,
              .memory _ hdot hremaining (not_lt.mp hlength) hmemory, .of_finished hnext rfl rfl⟩

/-- Only the end of the stream is not an error. -/
lemma Stops.error_eq_none {calls remaining : Nat} {rest : List Readdir} {error : Option Error}
    (h : Stops allocates maximumNameBytes calls remaining rest error) :
    error = none ↔ rest = [] ∨ ∃ tail, rest = .null 0 :: tail := by
  cases h <;> simp_all

/-- For a directory of any content, the iterator yields the names up to the first result that
stops it, then the error that it makes, if it does, and nothing after that. -/
theorem next_exact (allocates : NameAllocator) (maximumNameBytes maximumEntries : Nat)
    (stream : List Readdir) :
    ∃ before rest error, stream = before ++ rest ∧
      Passes allocates maximumNameBytes 0 maximumEntries before ∧
      Stops allocates maximumNameBytes before.length
        (maximumEntries - (visible before).length) rest error ∧
      (error = none ↔ rest = [] ∨ ∃ tail, rest = .null 0 :: tail) ∧
      Yields allocates (.start maximumNameBytes stream maximumEntries) (visible before) error
        (before.length + 1) := by
  obtain ⟨before, rest, error, hstream, hpasses, hstops, hyields⟩ :=
    @exists_yields allocates maximumNameBytes stream 0 maximumEntries
  rw [Nat.zero_add] at hstops hyields
  exact ⟨before, rest, error, hstream, hpasses, hstops, hstops.error_eq_none, hyields⟩

-- A dot entry is not one name too many.
example : (List.range 3).map ((Names.start 255 [.entry (utf8 "."), .entry (utf8 "a"),
    .entry (utf8 "..")] 1).item fun _ _ => true) = [some (.ok (utf8 "a")), none, none] := by
  decide

end Platform

end Difz
