import Difz.Program.Loop
import Difz.Wire.Checked

/-!
# Bounded reads

`read_limited` of `rust/platform/src/lib.rs` over any reader. A reader may fail, may be
interrupted, may write anything into the buffer and may return any count, even one that is larger
than the buffer. The loop asks for one byte more than it still accepts, so that a file that is too
long is told from one that is not, `readLimited_exact`.
-/

namespace Difz

open Wire

namespace Platform

/-! ### Errors -/

inductive ErrorKind
  | interrupted
  | invalidData
  | other
  deriving DecidableEq, Repr

/-- An error number of the system, or an error that the program makes. -/
inductive IoError
  | os (code : Int)
  | custom (kind : ErrorKind) (message : String)
  deriving DecidableEq, Repr

namespace IoError

/-- `EINTR`. -/
def eintr : Int := 4

def kind : IoError → ErrorKind
  | os code => if code = eintr then .interrupted else .other
  | custom kind _ => kind

def rawOsError : IoError → Option Int
  | os code => some code
  | custom _ _ => none

end IoError

inductive Error
  | io (error : IoError)
  | invalidBasename
  | outOfMemory
  | limitExceeded
  deriving DecidableEq, Repr

def invalidData (message : String) : Error := .io (.custom .invalidData message)

/-! ### Readers -/

/-- A reader fills a buffer, whose length it cannot change, and returns a count. -/
structure Reader (σ : Type) where
  read : σ → List UInt8 → Except IoError Nat × List UInt8 × σ
  length_read : ∀ s output, (read s output).2.1.length = output.length

/-- How much memory there is: whether a list of some length can grow by a number of bytes. -/
abbrev Allocator := Nat → Nat → Bool

/-- The state at the start of a round. Only the account of the bytes that were read is not a
variable of the source. -/
structure Reading (σ : Type) where
  reader : σ
  buffer : List UInt8
  bytes : List UInt8
  consumed : Nat

structure Outcome where
  result : Checked Error (List UInt8)
  consumed : Nat

/-- The largest `usize`. -/
def usizeMax : Nat := 2 ^ 64 - 1

def saturatingAdd (a b : Nat) : Nat := min (a + b) usizeMax

/-- The length of the next read. -/
def request (remaining : Nat) (buffer : List UInt8) : Nat :=
  min (saturatingAdd remaining 1) buffer.length

variable {σ : Type} (reader : Reader σ) (reserves : Allocator) (maximum : UInt64)

open Loop (Round)

def readRound (s : Reading σ) : Round (Reading σ) Outcome :=
  match Checked.sub maximum.toNat s.bytes.length with
  | .error halt => .done ⟨.error halt, s.consumed⟩
  | .ok remaining =>
    match Checked.slice s.buffer 0 (request remaining s.buffer) with
    | .error halt => .done ⟨.error halt, s.consumed⟩
    | .ok output =>
      let answer := reader.read s.reader output
      let buffer := answer.2.1 ++ s.buffer.drop (request remaining s.buffer)
      match answer.1 with
      | .error error =>
        if error.kind = .interrupted then .again ⟨answer.2.2, buffer, s.bytes, s.consumed⟩
        else .done ⟨Checked.fail (.io error), s.consumed⟩
      | .ok count =>
        if count > request remaining s.buffer then
          .done ⟨Checked.fail (invalidData "reader exceeded requested length"), s.consumed⟩
        else if count = 0 then .done ⟨.ok s.bytes, s.consumed⟩
        else if count > remaining then
          .done ⟨Checked.fail .limitExceeded, s.consumed + count⟩
        else if ¬reserves s.bytes.length count then
          .done ⟨Checked.fail .outOfMemory, s.consumed + count⟩
        else
          match Checked.slice buffer 0 count with
          | .error halt => .done ⟨.error halt, s.consumed + count⟩
          | .ok chunk => .again ⟨answer.2.2, buffer, s.bytes ++ chunk, s.consumed + count⟩

def Reading.start (s : σ) : Reading σ := ⟨s, List.replicate 65536 0, [], 0⟩

def readLimited (fuel : Nat) (s : σ) : Option Outcome :=
  Loop.run (readRound reader reserves maximum) fuel (.start s)

/-! ### Rounds -/

/-- The bytes so far are as many as were read, and they are not too many. -/
structure Reading.Valid (s : Reading σ) : Prop where
  buffer : s.buffer.length = 65536
  bytes : s.bytes.length ≤ maximum.toNat
  consumed : s.consumed = s.bytes.length

lemma Reading.valid_start (s : σ) : (Reading.start s).Valid maximum :=
  ⟨List.length_replicate, Nat.zero_le _, rfl⟩

/-- How many bytes the next read asks for. -/
def Reading.requested (s : Reading σ) : Nat := min (maximum.toNat - s.bytes.length + 1) 65536

@[simp] lemma Reading.bytes_start (s : σ) : (Reading.start s).bytes = [] := rfl

/-- The part of the buffer that the next read may write to. -/
def Reading.output (s : Reading σ) : List UInt8 := s.buffer.take (s.requested maximum)

variable {reader reserves maximum} {s t : Reading σ}

lemma Reading.requested_le (s : Reading σ) : s.requested maximum ≤ 65536 := Nat.min_le_right _ _

lemma Reading.Valid.length_output (h : s.Valid maximum) :
    (s.output maximum).length = s.requested maximum := by
  rw [Reading.output, List.length_take, h.buffer, Nat.min_eq_left s.requested_le]

lemma Reading.requested_pos (s : Reading σ) : 0 < s.requested maximum := by
  rw [Reading.requested]
  omega

variable (reader reserves) in
/-- The subtraction and the slices of a round are in range. -/
lemma readRound_eq (h : s.Valid maximum) : readRound reader reserves maximum s =
    let answer := reader.read s.reader (s.output maximum)
    let buffer := answer.2.1 ++ s.buffer.drop (s.requested maximum)
    match answer.1 with
    | .error error =>
      if error.kind = .interrupted then .again ⟨answer.2.2, buffer, s.bytes, s.consumed⟩
      else .done ⟨Checked.fail (.io error), s.consumed⟩
    | .ok count =>
      if s.requested maximum < count then
        .done ⟨Checked.fail (invalidData "reader exceeded requested length"), s.consumed⟩
      else if count = 0 then .done ⟨.ok s.bytes, s.consumed⟩
      else if maximum.toNat - s.bytes.length < count then
        .done ⟨Checked.fail .limitExceeded, s.consumed + count⟩
      else if ¬reserves s.bytes.length count then
        .done ⟨Checked.fail .outOfMemory, s.consumed + count⟩
      else
        .again ⟨answer.2.2, buffer, s.bytes ++ answer.2.1.take count, s.consumed + count⟩ := by
  have hrequest : request (maximum.toNat - s.bytes.length) s.buffer = s.requested maximum := by
    rw [request, saturatingAdd, usizeMax, h.buffer, Reading.requested]
    omega
  have hle : s.requested maximum ≤ s.buffer.length := h.buffer ▸ s.requested_le
  have hslice : (Checked.slice s.buffer 0 (s.requested maximum) : Checked Error _) =
      .ok (s.output maximum) := Checked.slice_take hle
  rw [readRound, Checked.sub_of_le h.bytes]
  simp only [hrequest, hslice]
  cases hanswer : (reader.read s.reader (s.output maximum)).1 with
  | error e => rfl
  | ok count =>
    dsimp only
    split_ifs with hlong hzero hlimit hmemory
    · rfl
    · rfl
    · rfl
    · have hlen := reader.length_read s.reader (s.output maximum)
      rw [h.length_output] at hlen
      rw [Checked.slice_take (by rw [List.length_append]; omega),
        List.take_append_of_le_length (by omega)]
    · rfl

variable (reader reserves) in
/-- A round keeps the invariant or ends the loop, in either case without a panic. -/
lemma readRound_cases (h : s.Valid maximum) :
    (∃ t, readRound reader reserves maximum s = .again t ∧ t.Valid maximum) ∨
    ∃ outcome, readRound reader reserves maximum s = .done outcome ∧
      outcome.result ≠ .error .panic ∧ outcome.consumed ≤ maximum.toNat + 1 := by
  have hbytes := h.bytes
  have hconsumed := h.consumed
  have hlen := reader.length_read s.reader (s.output maximum)
  rw [h.length_output] at hlen
  have hbuffer : ((reader.read s.reader (s.output maximum)).2.1 ++
      s.buffer.drop (s.requested maximum)).length = 65536 := by
    rw [List.length_append, hlen, List.length_drop, h.buffer, Reading.requested]
    omega
  rw [readRound_eq reader reserves h]
  dsimp only
  cases hanswer : (reader.read s.reader (s.output maximum)).1 with
  | error e =>
    dsimp only
    split_ifs
    · exact .inl ⟨_, rfl, hbuffer, hbytes, hconsumed⟩
    · exact .inr ⟨_, rfl, by simp [Checked.fail], by dsimp only; omega⟩
  | ok count =>
    dsimp only
    have hrequested : s.requested maximum ≤ maximum.toNat - s.bytes.length + 1 :=
      Nat.min_le_left _ _
    split_ifs with hlong hzero hlimit hmemory
    · exact .inr ⟨_, rfl, by simp [Checked.fail], by dsimp only; omega⟩
    · exact .inr ⟨_, rfl, by simp, by dsimp only; omega⟩
    · exact .inr ⟨_, rfl, by simp [Checked.fail], by dsimp only; omega⟩
    · have htake : ((reader.read s.reader (s.output maximum)).2.1.take count).length = count := by
        rw [List.length_take, hlen]
        omega
      refine .inl ⟨_, rfl, hbuffer, ?_, ?_⟩
      · rw [List.length_append, htake]
        omega
      · rw [List.length_append, htake, hconsumed]
    · exact .inr ⟨_, rfl, by simp [Checked.fail], by dsimp only; omega⟩

lemma Reading.Valid.again (h : s.Valid maximum)
    (hround : readRound reader reserves maximum s = .again t) : t.Valid maximum := by
  obtain ⟨t', ht', hvalid⟩ | ⟨outcome, hdone, -⟩ := readRound_cases reader reserves h
  · obtain rfl := Round.again.inj (hround.symm.trans ht')
    exact hvalid
  · exact absurd (hround.symm.trans hdone) (by simp)

/-! ### Readers that deliver some content -/

/-- The answer is an interruption, or the next bytes of the content; it counts no bytes only where
there are none. -/
def Answers (content output : List UInt8) : Except IoError Nat × List UInt8 × σ → Prop
  | (.error e, _, _) => e.kind = .interrupted
  | (.ok count, written, _) => count ≤ output.length ∧ count ≤ content.length ∧
    written.take count = content.take count ∧ (count = 0 → content = [])

/-- From the state on, the reader delivers the content and then its end, in chunks of any sizes.
Being inductive, this says that there are finitely many interruptions. -/
inductive Reader.Delivers (reader : Reader σ) : σ → List UInt8 → Prop
  | step {s : σ} {content : List UInt8}
    (answers : ∀ output, output ≠ [] → Answers content output (reader.read s output))
    (interrupted : ∀ output e, output ≠ [] → (reader.read s output).1 = .error e →
      Delivers reader (reader.read s output).2.2 content)
    (chunk : ∀ output count, output ≠ [] → (reader.read s output).1 = .ok count → 0 < count →
      Delivers reader (reader.read s output).2.2 (content.drop count)) : Delivers reader s content

variable (maximum) in
/-- What the loop returns for the content that is left. -/
def limited (bytes content : List UInt8) : Checked Error (List UInt8) :=
  if bytes.length + content.length ≤ maximum.toNat then .ok (bytes ++ content)
  else Checked.fail .limitExceeded

lemma limited_append {bytes chunk content : List UInt8} :
    limited maximum (bytes ++ chunk) content =
      limited maximum bytes (chunk ++ content) := by
  simp only [limited, List.length_append, List.append_assoc, Nat.add_assoc]

/-- Each round takes its bytes off the content, until one of them is past the maximum. -/
lemma exists_run_of_delivers {r : σ} {content : List UInt8} (hcontent : reader.Delivers r content)
    (h : s.Valid maximum) (hr : s.reader = r)
    (hreserves : ∀ length count, length + count ≤ s.bytes.length + content.length →
      reserves length count) :
    ∃ fuel outcome, Loop.run (readRound reader reserves maximum) fuel s = some outcome ∧
      outcome.result = limited maximum s.bytes content := by
  induction hcontent generalizing s with
  | @step r content answers _ _ ihinterrupted ihchunk =>
    subst hr
    have hne : s.output maximum ≠ [] := by
      rw [← List.length_pos_iff, h.length_output]
      exact s.requested_pos
    have hanswers := answers _ hne
    have hround := readRound_eq reader reserves h
    have hinterrupted := fun e => ihinterrupted _ e hne
    have hchunk := fun count => ihchunk _ count hne
    obtain ⟨result, written, next, hanswer⟩ : ∃ result written next,
        reader.read s.reader (s.output maximum) = (result, written, next) := ⟨_, _, _, rfl⟩
    rw [hanswer] at hanswers hround
    simp only [hanswer] at hinterrupted hchunk
    cases result with
    | error e =>
      have hkind : e.kind = .interrupted := hanswers
      dsimp only at hround
      rw [if_pos hkind] at hround
      obtain ⟨fuel, outcome, hrun, hresult⟩ :=
        hinterrupted e rfl (h.again hround) rfl hreserves
      exact ⟨fuel + 1, outcome, (Loop.run_again hround).trans hrun, hresult⟩
    | ok count =>
      obtain ⟨houtput, hcount, htake, hend⟩ := hanswers
      rw [h.length_output] at houtput
      dsimp only at hround
      rw [if_neg (not_lt.mpr houtput)] at hround
      split_ifs at hround with hzero hlimit hmemory
      · obtain rfl := hend hzero
        refine ⟨1, _, Loop.run_done hround, ?_⟩
        rw [limited, List.length_nil, Nat.add_zero, if_pos h.bytes, List.append_nil]
      · refine ⟨1, _, Loop.run_done hround, ?_⟩
        have hbytes := h.bytes
        rw [limited, if_neg (by omega)]
      · have hlength : (content.take count).length = count := by
          rw [List.length_take, Nat.min_eq_left hcount]
        obtain ⟨fuel, outcome, hrun, hresult⟩ := hchunk count rfl (Nat.pos_of_ne_zero hzero)
          (h.again hround) rfl fun length count' hle => by
            rw [List.length_append, htake, hlength, List.length_drop] at hle
            exact hreserves length count' (by omega)
        refine ⟨fuel + 1, outcome, (Loop.run_again hround).trans hrun, ?_⟩
        rw [hresult, htake, limited_append, List.take_append_drop]
      · exact absurd (hreserves s.bytes.length count (by omega)) hmemory

/-- The whole content is returned exactly when it is within the maximum, however it is delivered.
A read never takes more than one byte past the maximum, and what a reader does wrong is an error
that returns none of the bytes. -/
theorem readLimited_exact {σ : Type} (reader : Reader σ) (reserves : Allocator) (maximum : UInt64)
    (s : σ) :
    (∀ content, reader.Delivers s content →
      (∀ length count, length + count ≤ content.length → reserves length count) →
      ∃ fuel outcome, readLimited reader reserves maximum fuel s = some outcome ∧
        outcome.result = if content.length ≤ maximum.toNat then .ok content
          else Checked.fail .limitExceeded) ∧
    (∀ fuel outcome, readLimited reader reserves maximum fuel s = some outcome →
      outcome.result ≠ .error .panic ∧ outcome.consumed ≤ maximum.toNat + 1) ∧
    ∀ t, Loop.Reaches (readRound reader reserves maximum) (.start s) t →
      (∀ e, (reader.read t.reader (t.output maximum)).1 = .error e → e.kind ≠ .interrupted →
        ∃ fuel outcome, readLimited reader reserves maximum fuel s = some outcome ∧
          outcome.result = Checked.fail (.io e)) ∧
      ∀ count, (reader.read t.reader (t.output maximum)).1 = .ok count →
        t.requested maximum < count →
        ∃ fuel outcome, readLimited reader reserves maximum fuel s = some outcome ∧
          outcome.result = Checked.fail (invalidData "reader exceeded requested length") := by
  have hstart := Reading.valid_start maximum s
  have hvalid : ∀ t, Loop.Reaches (readRound reader reserves maximum) (.start s) t →
      t.Valid maximum := fun t ht => ht.preserves (fun _ _ h => h.again) hstart
  refine ⟨fun content hcontent hreserves => ?_, fun fuel outcome hrun => ?_, fun t ht => ?_⟩
  · obtain ⟨fuel, outcome, hrun, hresult⟩ := exists_run_of_delivers hcontent hstart rfl
      fun length count hle => hreserves length count (by
        rwa [Reading.bytes_start, List.length_nil, Nat.zero_add] at hle)
    refine ⟨fuel, outcome, hrun, hresult.trans ?_⟩
    rw [limited, Reading.start, List.length_nil, Nat.zero_add, List.nil_append]
  · obtain ⟨t, ht, hdone⟩ := Loop.exists_reaches hrun
    obtain ⟨u, hu, -⟩ | ⟨outcome', hdone', hfacts⟩ :=
      readRound_cases reader reserves (hvalid t ht)
    · exact absurd (hdone.symm.trans hu) (by simp)
    · obtain rfl := Round.done.inj (hdone.symm.trans hdone')
      exact hfacts
  · have hround := readRound_eq reader reserves (hvalid t ht)
    dsimp only at hround
    refine ⟨fun e he hkind => ?_, fun count hcount hlong => ?_⟩
    · rw [he] at hround
      dsimp only at hround
      rw [if_neg hkind] at hround
      obtain ⟨fuel, hrun⟩ := ht.exists_run_done hround
      exact ⟨fuel, _, hrun, rfl⟩
    · rw [hcount] at hround
      dsimp only at hround
      rw [if_pos hlong] at hround
      obtain ⟨fuel, hrun⟩ := ht.exists_run_done hround
      exact ⟨fuel, _, hrun, rfl⟩

/-- Some bytes of a content at the start of a buffer. -/
def fill (content output : List UInt8) (count : Nat) : List UInt8 :=
  content.take (min count (min output.length content.length)) ++
    output.drop (min count (min output.length content.length))

lemma length_fill (content output : List UInt8) (count : Nat) :
    (fill content output count).length = output.length := by
  rw [fill, List.length_append, List.length_take, List.length_drop]
  omega

/-- A reader of some content with a schedule: interruptions, and chunks that are at most so much
longer than one byte. After the schedule the chunks are as long as possible. -/
def scheduled : Reader (List UInt8 × List (Option Nat)) where
  read
    | (content, none :: schedule), output => (.error (.os IoError.eintr), output, content, schedule)
    | (content, some n :: schedule), output =>
      let count := min (n + 1) (min output.length content.length)
      (.ok count, fill content output (n + 1), content.drop count, schedule)
    | (content, []), output =>
      let count := min output.length (min output.length content.length)
      (.ok count, fill content output output.length, content.drop count, [])
  length_read := by
    rintro ⟨content, _ | ⟨_ | n, schedule⟩⟩ output
    · exact length_fill _ _ _
    · rfl
    · exact length_fill _ _ _

lemma answers_fill {σ : Type} {content output : List UInt8} (houtput : output ≠ []) {n : Nat}
    (hn : 0 < n) (s : σ) : Answers content output
      (.ok (min n (min output.length content.length)), fill content output n, s) := by
  have hpos := List.length_pos_iff.mpr houtput
  refine ⟨by omega, by omega, ?_, fun hzero => ?_⟩
  · rw [fill, List.take_left' (by rw [List.length_take]; omega)]
  · rw [← List.length_eq_zero_iff]
    omega

lemma scheduled_delivers (content : List UInt8) (schedule : List (Option Nat)) :
    scheduled.Delivers (content, schedule) content := by
  induction schedule generalizing content with
  | nil =>
    induction hlength : content.length using Nat.strong_induction_on generalizing content with
    | _ length ih =>
      refine .step (fun output hne => answers_fill hne (List.length_pos_iff.mpr hne) _)
        (fun output e hne he => ?_) fun output count hne hcount hpos => ?_
      · exact absurd he (by simp [scheduled])
      · obtain rfl := Except.ok.inj hcount
        have hlt := List.length_drop (l := content)
          (i := min output.length (min output.length content.length))
        exact ih _ (by omega) _ rfl
  | cons chunk schedule ih =>
    cases chunk with
    | none =>
      refine .step (fun output hne => ?_) (fun output e hne he => ih content)
        fun output count hne hcount hpos => ?_
      · exact rfl
      · exact absurd hcount (by simp [scheduled])
    | some n =>
      refine .step (fun output hne => answers_fill hne (Nat.succ_pos n) _)
        (fun output e hne he => ?_) fun output count hne hcount hpos => ?_
      · exact absurd he (by simp [scheduled])
      · obtain rfl := Except.ok.inj hcount
        exact ih _

theorem readLimited_scheduled : ∃ fuel outcome,
    readLimited scheduled (fun _ _ => true) 2 fuel ([0, 255], [none]) = some outcome ∧
      outcome.result = .ok [0, 255] := by
  obtain ⟨hcontent, -⟩ := readLimited_exact scheduled (fun _ _ => true) 2 ([0, 255], [none])
  obtain ⟨fuel, outcome, hrun, hresult⟩ := hcontent _ (scheduled_delivers [0, 255] [none])
    fun _ _ _ => rfl
  exact ⟨fuel, outcome, hrun, hresult.trans (if_pos (by decide))⟩

end Platform

end Difz
