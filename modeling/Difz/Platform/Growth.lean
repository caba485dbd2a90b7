import Difz.Directory.Structure
import Difz.Platform.Reader

/-!
# Buffers that grow

The loops that fetch an attribute or the target of a symbolic link, whose lengths are not known
beforehand (`read_buffer` of `rust/platform/src/xattr.rs` and `Directory::read_symlink` of
`rust/platform/src/entry.rs`). A buffer that was too small is replaced by one of twice its size, up
to one byte more than the maximum. That an attribute did not fit is an error of the kernel; that a
link did not fit shows in a buffer without room to spare.
-/

namespace Difz

open Wire
open Loop (Round)

namespace Platform

/-- `ERANGE`. -/
def erange : Int := 34

def saturatingMul (a b : Nat) : Nat := min (a * b) usizeMax

/-- The next capacity. -/
def grow (ceiling capacity : Nat) : Nat := min (saturatingMul capacity 2) ceiling

/-- `maximum.checked_add(1)`. -/
def checkedCeiling (maximum : UInt64) : Except Error Nat :=
  if maximum.toNat + 1 ≤ usizeMax then .ok (maximum.toNat + 1) else .error .limitExceeded

/-- The state at the start of a round. Only the account of the requested capacities is not a
variable of the source. -/
structure Growing (σ : Type) where
  kernel : σ
  capacity : Nat
  requests : List Nat

structure Fetched where
  result : Except Error (List UInt8)
  requests : List Nat

variable {σ : Type} (kernel : Reader σ) (allocates : Nat → Bool) (maximum : UInt64)

def Growing.start (s : σ) (ceiling : Nat) : Growing σ := ⟨s, min 256 ceiling, []⟩

def readBufferRound (ceiling : Nat) (s : Growing σ) : Round (Growing σ) Fetched :=
  let requests := s.requests ++ [s.capacity]
  if ¬allocates s.capacity then .done ⟨.error .outOfMemory, requests⟩
  else
    let answer := kernel.read s.kernel (List.replicate s.capacity 0)
    match answer.1 with
    | .error error =>
      if error.rawOsError = some erange then
        if s.capacity = ceiling then .done ⟨.error .limitExceeded, requests⟩
        else .again ⟨answer.2.2, grow ceiling s.capacity, requests⟩
      else .done ⟨.error (.io error), requests⟩
    | .ok count =>
      if count > s.capacity then
        .done ⟨.error (invalidData "attribute reader exceeded capacity"), requests⟩
      else if count > maximum.toNat then .done ⟨.error .limitExceeded, requests⟩
      else .done ⟨.ok (answer.2.1.take count), requests⟩

def readBuffer (fuel : Nat) (s : σ) : Option Fetched :=
  match checkedCeiling maximum with
  | .error e => some ⟨.error e, []⟩
  | .ok ceiling =>
    Loop.run (readBufferRound kernel allocates maximum ceiling) fuel (.start s ceiling)

/-- The name with a terminator. -/
def basename (name : List UInt8) : Except Error (List UInt8) := do
  (Directory.validatePath name).mapError fun _ => .invalidBasename
  ensure (0x2f ∉ name) .invalidBasename
  ensure (allocates (name.length + 1)) .outOfMemory
  .ok (name ++ [0])

def readSymlinkRound (ceiling : Nat) (s : Growing σ) : Round (Growing σ) Fetched :=
  let requests := s.requests ++ [s.capacity]
  if ¬allocates s.capacity then .done ⟨.error .outOfMemory, requests⟩
  else
    let answer := kernel.read s.kernel (List.replicate s.capacity 0)
    match answer.1 with
    | .error error => .done ⟨.error (.io error), requests⟩
    | .ok count =>
      if count > s.capacity then
        .done ⟨.error (invalidData "link reader exceeded capacity"), requests⟩
      else if count > maximum.toNat then .done ⟨.error .limitExceeded, requests⟩
      else if count < s.capacity then .done ⟨.ok (answer.2.1.take count), requests⟩
      else .again ⟨answer.2.2, grow ceiling s.capacity, requests⟩

/-- The kernel that is asked is the one for the terminated name. -/
def readSymlink (kernelOf : List UInt8 → Reader σ) (name : List UInt8) (fuel : Nat) (s : σ) :
    Option Fetched :=
  match (do
    let name ← basename allocates name
    let ceiling ← checkedCeiling maximum
    .ok (name, ceiling)) with
  | .error e => some ⟨.error e, []⟩
  | .ok (name, ceiling) =>
    Loop.run (readSymlinkRound (kernelOf name) allocates maximum ceiling) fuel (.start s ceiling)

/-! ### Growth -/

lemma lt_grow {ceiling capacity : Nat} (hpos : 1 ≤ capacity) (hlt : capacity < ceiling)
    (hceiling : ceiling ≤ usizeMax) : capacity < grow ceiling capacity := by
  rw [grow, saturatingMul]
  omega

lemma grow_le (ceiling capacity : Nat) : grow ceiling capacity ≤ ceiling := Nat.min_le_right _ _

lemma grow_le_double (ceiling capacity : Nat) : grow ceiling capacity ≤ capacity * 2 := by
  rw [grow, saturatingMul]
  omega

/-- A round that asks for the capacity of its state, and goes on only below the ceiling, with the
next capacity. -/
structure Grows (ceiling : Nat) (round : Growing σ → Round (Growing σ) Fetched) : Prop where
  again : ∀ s t, s.capacity ≤ ceiling → round s = .again t → s.capacity < ceiling ∧
    t.capacity = grow ceiling s.capacity ∧ t.requests = s.requests ++ [s.capacity]
  done : ∀ s fetched, round s = .done fetched → fetched.requests = s.requests ++ [s.capacity]

/-- The next capacity is within the bounds and larger than those before. -/
structure Growing.Valid (ceiling : Nat) (s : Growing σ) : Prop where
  pos : 1 ≤ s.capacity
  le : s.capacity ≤ ceiling
  below : ∀ r ∈ s.requests, 1 ≤ r ∧ r < s.capacity
  ascending : s.requests.Pairwise (· < ·)

/-- Capacities within the bounds, each larger than the one before. -/
structure Ascends (ceiling : Nat) (requests : List Nat) : Prop where
  ascending : requests.Pairwise (· < ·)
  bounds : ∀ r ∈ requests, 1 ≤ r ∧ r ≤ ceiling

lemma Growing.valid_start (s : σ) {ceiling : Nat} (h : 1 ≤ ceiling) :
    (Growing.start s ceiling).Valid ceiling where
  pos := Nat.le_min.mpr ⟨by norm_num, h⟩
  le := Nat.min_le_right _ _
  below := by simp [Growing.start]
  ascending := .nil

lemma Growing.Valid.ascends {ceiling : Nat} {s : Growing σ} (h : s.Valid ceiling) :
    Ascends ceiling (s.requests ++ [s.capacity]) where
  ascending := List.pairwise_append.mpr ⟨h.ascending, List.pairwise_singleton _ _,
    fun r hr c hc => List.mem_singleton.mp hc ▸ (h.below r hr).2⟩
  bounds r hr := by
    rcases List.mem_append.mp hr with hr | hr
    · obtain ⟨hpos, hlt⟩ := h.below r hr
      exact ⟨hpos, hlt.le.trans h.le⟩
    · rw [List.mem_singleton.mp hr]
      exact ⟨h.pos, h.le⟩

namespace Grows

variable {ceiling : Nat} {round : Growing σ → Round (Growing σ) Fetched} {s t : Growing σ}

lemma valid_again (h : Grows ceiling round) (hceiling : ceiling ≤ usizeMax) (hs : s.Valid ceiling)
    (hround : round s = .again t) :
    t.Valid ceiling ∧ ceiling - t.capacity < ceiling - s.capacity := by
  obtain ⟨hlt, hcapacity, hrequests⟩ := h.again s t hs.le hround
  have hpos := hs.pos
  have hgrow := lt_grow hpos hlt hceiling
  have hgrow' := grow_le ceiling s.capacity
  rw [← hcapacity] at hgrow hgrow'
  refine ⟨⟨by omega, hgrow', ?_, hrequests ▸ hs.ascends.ascending⟩, by omega⟩
  rw [hrequests]
  intro r hr
  rcases List.mem_append.mp hr with hr | hr
  · obtain ⟨hr, hbelow⟩ := hs.below r hr
    exact ⟨hr, hbelow.trans hgrow⟩
  · rw [List.mem_singleton.mp hr]
    exact ⟨hpos, hgrow⟩

/-- The capacity reaches the ceiling after finitely many rounds. -/
lemma exists_run (h : Grows ceiling round) (hceiling : ceiling ≤ usizeMax) (hpos : 1 ≤ ceiling)
    (s : σ) : ∃ fetched, Loop.run round ceiling (.start s ceiling) = some fetched := by
  have hvalid := Growing.valid_start s hpos
  have hcapacity := hvalid.pos
  exact Loop.exists_run (fun t => ceiling - t.capacity)
    (fun t u ht hround => h.valid_again hceiling ht hround) hvalid (by omega)

lemma ascends_run (h : Grows ceiling round) (hceiling : ceiling ≤ usizeMax) (hpos : 1 ≤ ceiling)
    {s : σ} {fuel : Nat} {fetched : Fetched}
    (hrun : Loop.run round fuel (.start s ceiling) = some fetched) :
    Ascends ceiling fetched.requests := by
  obtain ⟨t, ht, hdone⟩ := Loop.exists_reaches hrun
  have hvalid := ht.preserves (fun u v hu hround => (h.valid_again hceiling hu hround).1)
    (Growing.valid_start s hpos)
  rw [h.done t fetched hdone]
  exact hvalid.ascends

end Grows

variable {kernel allocates maximum}

/-- Only an attribute that does not fit makes the loop go on. -/
lemma grows_readBufferRound (kernel : Reader σ) (allocates : Nat → Bool) (maximum : UInt64)
    (ceiling : Nat) : Grows ceiling (readBufferRound kernel allocates maximum ceiling) := by
  constructor
  · intro s t hle hround
    rw [readBufferRound] at hround
    dsimp only at hround
    split at hround
    · exact absurd hround (by simp)
    · split at hround
      · split_ifs at hround with herange hceiling
        obtain rfl := Round.again.inj hround
        exact ⟨by omega, rfl, rfl⟩
      · split_ifs at hround
  · intro s fetched hround
    rw [readBufferRound] at hround
    dsimp only at hround
    split at hround
    · rw [← Round.done.inj hround]
    · split at hround
      · split_ifs at hround <;> rw [← Round.done.inj hround]
      · split_ifs at hround <;> rw [← Round.done.inj hround]

/-- Only a link that fills the buffer makes the loop go on. -/
lemma grows_readSymlinkRound (kernel : Reader σ) (allocates : Nat → Bool) {maximum : UInt64}
    {ceiling : Nat} (hceiling : ceiling = maximum.toNat + 1) :
    Grows ceiling (readSymlinkRound kernel allocates maximum ceiling) := by
  constructor
  · intro s t hle hround
    rw [readSymlinkRound] at hround
    dsimp only at hround
    split at hround
    · exact absurd hround (by simp)
    · split at hround
      · exact absurd hround (by simp)
      · split_ifs at hround with hlong hlimit hshort
        obtain rfl := Round.again.inj hround
        exact ⟨by omega, rfl, rfl⟩
  · intro s fetched hround
    rw [readSymlinkRound] at hround
    dsimp only at hround
    split at hround
    · rw [← Round.done.inj hround]
    · split at hround
      · rw [← Round.done.inj hround]
      · split_ifs at hround <;> rw [← Round.done.inj hround]

/-! ### Content that stays the same -/

/-- A kernel with one attribute: it writes the whole value, or says that it does not fit. -/
def Reader.HasAttribute (kernel : Reader σ) (content : List UInt8) : Prop :=
  ∀ s output, output ≠ [] →
    if content.length ≤ output.length then
      (kernel.read s output).1 = .ok content.length ∧
        (kernel.read s output).2.1.take content.length = content
    else ∃ e, (kernel.read s output).1 = .error e ∧ e.rawOsError = some erange

/-- A kernel with one link: it writes as much of the target as fits. -/
def Reader.HasLink (kernel : Reader σ) (content : List UInt8) : Prop :=
  ∀ s output, output ≠ [] →
    (kernel.read s output).1 = .ok (min content.length output.length) ∧
      (kernel.read s output).2.1.take (min content.length output.length) =
        content.take output.length

/-- What is to be fetched, when it is not too long. -/
def wanted (maximum : UInt64) (content : List UInt8) : Except Error (List UInt8) :=
  if content.length ≤ maximum.toNat then .ok content else .error .limitExceeded

/-- A buffer is at most twice as large as it has to be. -/
def Growing.Fits (content : List UInt8) (s : Growing σ) : Prop :=
  1 ≤ s.capacity ∧ s.capacity ≤ 2 * content.length + 256

lemma replicate_ne_nil {capacity : Nat} (h : 1 ≤ capacity) :
    List.replicate capacity (0 : UInt8) ≠ [] := by
  rw [← List.length_pos_iff, List.length_replicate]
  exact h

lemma Growing.Fits.of_le {content : List UInt8} {s t : Growing σ} (hs : s.Fits content)
    (hle : s.capacity ≤ content.length) (hlt : s.capacity < t.capacity)
    (hgrow : t.capacity ≤ s.capacity * 2) : t.Fits content := by
  obtain ⟨hpos, -⟩ := hs
  exact ⟨by omega, by omega⟩

/-- A round for an attribute. -/
lemma readBufferRound_eq {content : List UInt8} (hcontent : kernel.HasAttribute content)
    {s : Growing σ} (hs : s.Fits content)
    (hallocates : ∀ n ≤ 2 * content.length + 256, allocates n) :
    (s.capacity ≤ content.length ∧
      ∃ t, readBufferRound kernel allocates maximum (maximum.toNat + 1) s = .again t) ∨
    readBufferRound kernel allocates maximum (maximum.toNat + 1) s =
      .done ⟨wanted maximum content, s.requests ++ [s.capacity]⟩ := by
  obtain ⟨hpos, hle⟩ := hs
  have hanswer := hcontent s.kernel _ (replicate_ne_nil hpos)
  rw [List.length_replicate] at hanswer
  rw [readBufferRound, if_neg (not_not.mpr (hallocates _ hle))]
  dsimp only
  split_ifs at hanswer with hfits
  · obtain ⟨hcount, htake⟩ := hanswer
    rw [hcount]
    dsimp only
    rw [if_neg (not_lt.mpr hfits), htake, wanted]
    split_ifs with hlimit hlimit'
    · omega
    · exact .inr rfl
    · exact .inr rfl
    · omega
  · obtain ⟨e, he, herange⟩ := hanswer
    rw [he]
    dsimp only
    rw [if_pos herange]
    split_ifs with hceiling
    · rw [wanted, if_neg (by omega)]
      exact .inr rfl
    · exact .inl ⟨by omega, _, rfl⟩

/-- A round for a link. -/
lemma readSymlinkRound_eq {content : List UInt8} (hcontent : kernel.HasLink content)
    {s : Growing σ} (hs : s.Fits content)
    (hallocates : ∀ n ≤ 2 * content.length + 256, allocates n) {ceiling : Nat} :
    (s.capacity ≤ content.length ∧
      ∃ t, readSymlinkRound kernel allocates maximum ceiling s = .again t) ∨
    readSymlinkRound kernel allocates maximum ceiling s =
      .done ⟨wanted maximum content, s.requests ++ [s.capacity]⟩ := by
  obtain ⟨hpos, hle⟩ := hs
  obtain ⟨hcount, htake⟩ := hcontent s.kernel _ (replicate_ne_nil hpos)
  rw [List.length_replicate] at hcount htake
  rw [readSymlinkRound, if_neg (not_not.mpr (hallocates _ hle))]
  dsimp only
  rw [hcount]
  dsimp only
  rw [if_neg (by omega), htake, wanted]
  rcases Nat.lt_or_ge content.length s.capacity with hlt | hge
  · rw [Nat.min_eq_left hlt.le, List.take_of_length_le hlt.le]
    split_ifs with hlimit hlimit'
    · omega
    · exact .inr rfl
    · exact .inr rfl
    · omega
  · rw [Nat.min_eq_right hge]
    split_ifs with hlimit hlimit' hshort
    · omega
    · exact .inr rfl
    · omega
    · omega
    · exact .inl ⟨hge, _, rfl⟩

/-- The loop ends with what is wanted when each round that does not go on does. -/
lemma Grows.exists_wanted {ceiling : Nat} {round : Growing σ → Round (Growing σ) Fetched}
    (h : Grows ceiling round) (hceiling : ceiling ≤ usizeMax) (hpos : 1 ≤ ceiling)
    {content : List UInt8} (hround : ∀ s : Growing σ, s.Fits content →
      (s.capacity ≤ content.length ∧ ∃ t, round s = .again t) ∨
      round s = .done ⟨wanted maximum content, s.requests ++ [s.capacity]⟩) (s : σ) :
    ∃ fuel fetched, Loop.run round fuel (.start s ceiling) = some fetched ∧
      fetched.result = wanted maximum content := by
  obtain ⟨fetched, hrun⟩ := h.exists_run hceiling hpos s
  obtain ⟨t, ht, hdone⟩ := Loop.exists_reaches hrun
  have hstart := Growing.valid_start s hpos
  have hfits : t.Valid ceiling ∧ t.Fits content := by
    refine ht.preserves (I := fun u => u.Valid ceiling ∧ u.Fits content)
      (fun u v hu huv => ?_) ⟨hstart, hstart.pos, ?_⟩
    · obtain ⟨hlt, hcapacity, -⟩ := h.again u v hu.1.le huv
      obtain ⟨hle, -⟩ | hdone := hround u hu.2
      · refine ⟨(h.valid_again hceiling hu.1 huv).1, hu.2.of_le hle ?_ ?_⟩
        · exact hcapacity ▸ lt_grow hu.1.pos hlt hceiling
        · exact hcapacity ▸ grow_le_double _ _
      · exact absurd (huv.symm.trans hdone) (by simp)
    · exact (Nat.min_le_left _ _).trans (Nat.le_add_left _ _)
  obtain ⟨-, u, hu⟩ | hdone' := hround t hfits.2
  · exact absurd (hdone.symm.trans hu) (by simp)
  · obtain rfl := Round.done.inj (hdone.symm.trans hdone')
    exact ⟨ceiling, _, hrun, rfl⟩

/-! ### The two loops -/

/-- A loop that ends, and asks for larger and larger capacities up to one more than the maximum. -/
structure Bounded (maximum : Nat) (fetch : Nat → Option Fetched) : Prop where
  terminates : ∃ fetched, ∀ fuel > maximum, fetch fuel = some fetched
  requests : ∀ fuel fetched, fetch fuel = some fetched → Ascends (maximum + 1) fetched.requests

lemma Bounded.const {maximum : Nat} (e : Error) : Bounded maximum fun _ => some ⟨.error e, []⟩ where
  terminates := ⟨_, fun _ _ => rfl⟩
  requests fuel fetched h := by
    obtain rfl := Option.some.inj h
    exact ⟨.nil, by simp⟩

lemma Grows.bounded {round : Growing σ → Round (Growing σ) Fetched}
    (h : Grows (maximum.toNat + 1) round) (hceiling : maximum.toNat + 1 ≤ usizeMax) (s : σ) :
    Bounded maximum.toNat fun fuel => Loop.run round fuel (.start s (maximum.toNat + 1)) where
  terminates := by
    obtain ⟨fetched, hrun⟩ := h.exists_run hceiling (Nat.le_add_left _ _) s
    exact ⟨fetched, fun fuel hfuel => Loop.run_of_le hfuel hrun⟩
  requests fuel fetched hrun := h.ascends_run hceiling (Nat.le_add_left _ _) hrun

lemma readBuffer_eq (kernel : Reader σ) (allocates : Nat → Bool) (maximum : UInt64) (fuel : Nat)
    (s : σ) : readBuffer kernel allocates maximum fuel s =
      if maximum.toNat + 1 ≤ usizeMax then
        Loop.run (readBufferRound kernel allocates maximum (maximum.toNat + 1)) fuel
          (.start s (maximum.toNat + 1))
      else some ⟨.error .limitExceeded, []⟩ := by
  rw [readBuffer, checkedCeiling]
  split_ifs <;> rfl

lemma readSymlink_eq (allocates : Nat → Bool) (maximum : UInt64) (kernelOf : List UInt8 → Reader σ)
    {name terminated : List UInt8} (hname : basename allocates name = .ok terminated) (fuel : Nat)
    (s : σ) : readSymlink allocates maximum kernelOf name fuel s =
      if maximum.toNat + 1 ≤ usizeMax then
        Loop.run (readSymlinkRound (kernelOf terminated) allocates maximum (maximum.toNat + 1)) fuel
          (.start s (maximum.toNat + 1))
      else some ⟨.error .limitExceeded, []⟩ := by
  rw [readSymlink, hname, ok_bind, checkedCeiling]
  split_ifs <;> rfl

lemma readSymlink_of_error (allocates : Nat → Bool) (maximum : UInt64)
    (kernelOf : List UInt8 → Reader σ) {name : List UInt8} {e : Error}
    (hname : basename allocates name = .error e) (fuel : Nat) (s : σ) :
    readSymlink allocates maximum kernelOf name fuel s = some ⟨.error e, []⟩ := by
  rw [readSymlink, hname]
  rfl

/-- Whatever the kernel answers, both loops end after requests that grow. Content that stays the
same is returned as a whole, or not at all where it is longer than the maximum. -/
theorem growth_exact {σ : Type} (allocates : Nat → Bool) (maximum : UInt64) (s : σ) :
    (∀ kernel : Reader σ,
      Bounded maximum.toNat (fun fuel => readBuffer kernel allocates maximum fuel s) ∧
      ∀ content, kernel.HasAttribute content →
        (∀ n ≤ 2 * content.length + 256, allocates n) →
        ∃ fuel fetched, readBuffer kernel allocates maximum fuel s = some fetched ∧
          fetched.result =
            if content.length ≤ maximum.toNat ∧ maximum.toNat < usizeMax then .ok content
            else .error .limitExceeded) ∧
    ∀ (kernelOf : List UInt8 → Reader σ) (name : List UInt8),
      Bounded maximum.toNat (fun fuel => readSymlink allocates maximum kernelOf name fuel s) ∧
      ∀ terminated content, basename allocates name = .ok terminated →
        (kernelOf terminated).HasLink content →
        (∀ n ≤ 2 * content.length + 256, allocates n) →
        ∃ fuel fetched, readSymlink allocates maximum kernelOf name fuel s = some fetched ∧
          fetched.result =
            if content.length ≤ maximum.toNat ∧ maximum.toNat < usizeMax then .ok content
            else .error .limitExceeded := by
  have hwanted : ∀ content, maximum.toNat + 1 ≤ usizeMax → wanted maximum content =
      if content.length ≤ maximum.toNat ∧ maximum.toNat < usizeMax then .ok content
      else .error .limitExceeded :=
    fun content hceiling => if_congr (iff_self_and.mpr fun _ => hceiling) rfl rfl
  refine ⟨fun kernel => ⟨?_, fun content hcontent hallocates => ?_⟩,
    fun kernelOf name => ⟨?_, fun terminated content hname hcontent hallocates => ?_⟩⟩
  · simp only [readBuffer_eq]
    split_ifs with hceiling
    · exact (grows_readBufferRound kernel allocates maximum _).bounded hceiling s
    · exact .const .limitExceeded
  · by_cases hceiling : maximum.toNat + 1 ≤ usizeMax
    · simp only [readBuffer_eq, if_pos hceiling, ← hwanted content hceiling]
      exact (grows_readBufferRound kernel allocates maximum _).exists_wanted hceiling
        (Nat.le_add_left _ _) (fun t ht => readBufferRound_eq hcontent ht hallocates) s
    · refine ⟨0, _, (readBuffer_eq kernel allocates maximum 0 s).trans (if_neg hceiling), ?_⟩
      rw [if_neg fun h => hceiling h.2]
  · cases hname : basename allocates name with
    | error e =>
      simp only [readSymlink_of_error allocates maximum kernelOf hname]
      exact .const e
    | ok terminated =>
      simp only [readSymlink_eq allocates maximum kernelOf hname]
      split_ifs with hceiling
      · exact (grows_readSymlinkRound _ allocates rfl).bounded hceiling s
      · exact .const .limitExceeded
  · by_cases hceiling : maximum.toNat + 1 ≤ usizeMax
    · simp only [readSymlink_eq allocates maximum kernelOf hname, if_pos hceiling,
        ← hwanted content hceiling]
      exact (grows_readSymlinkRound _ allocates rfl).exists_wanted hceiling (Nat.le_add_left _ _)
        (fun t ht => readSymlinkRound_eq hcontent ht hallocates) s
    · refine ⟨0, _, (readSymlink_eq allocates maximum kernelOf hname 0 s).trans
        (if_neg hceiling), ?_⟩
      rw [if_neg fun h => hceiling h.2]

/-- A kernel with one link. -/
def linkTo (content : List UInt8) : Reader Unit where
  read _ output := (.ok (min content.length output.length),
    content.take output.length ++ output.drop content.length, ())
  length_read _ output := by
    rw [List.length_append, List.length_take, List.length_drop]
    omega

lemma linkTo_hasLink (content : List UInt8) : (linkTo content).HasLink content := by
  intro s output _
  refine ⟨rfl, ?_⟩
  rw [linkTo, Nat.min_comm, List.take_left' List.length_take]

/-- A target that does not fit in the first buffer. -/
def longTarget : List UInt8 := List.replicate 300 0x61

theorem growth_linkTo :
    (∃ fuel fetched, readSymlink (fun _ => true) 4096 (fun _ => linkTo longTarget) (utf8 "link") fuel
      () = some fetched ∧ fetched.result = .ok longTarget) ∧
    (readSymlink (fun _ => true) 4096 (fun _ => linkTo longTarget) (utf8 "link") 2 ()).map
      Fetched.requests = some [256, 512] := by
  have hname : basename (fun _ => true) (utf8 "link") = .ok (utf8 "link" ++ [0]) := by decide
  obtain ⟨-, hlink⟩ := growth_exact (fun _ => true) 4096 ()
  obtain ⟨-, hcontent⟩ := hlink (fun _ => linkTo longTarget) (utf8 "link")
  obtain ⟨fuel, fetched, hrun, hresult⟩ :=
    hcontent _ _ hname (linkTo_hasLink _) fun _ _ => rfl
  exact ⟨⟨fuel, fetched, hrun, hresult.trans (if_pos (by decide +kernel))⟩, by decide +kernel⟩

end Platform

end Difz
