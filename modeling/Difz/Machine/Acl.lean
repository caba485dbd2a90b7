import Difz.Acl.Portable
import Difz.Machine.Metadata

/-!
# Access control lists on the machine

`PosixAcl::new`, `PosixAcl::portable` and `LinuxAcl::decode` (`rust/src/linux_acl.rs`), with the
index, slice and integer operations of the source left in. A list that passed the check has its
version word, so the slices behind it are in range, and ten places are enough for the digits of a
32-bit number.
-/

namespace Difz

open Wire

namespace Machine

open Program (Action)

namespace LinuxAcl

open Difz.LinuxAcl (Error PosixAcl Record Scan chunksExact)
open Difz.Metadata (Ace AceTag Permissions)

/-! ### The check -/

/-- The fields of an entry, byte by byte. -/
def readRecord (entry : List UInt8) : Checked Error Record := do
  let tag ← Checked.indices entry [0, 1]
  let permission ← Checked.indices entry [2, 3]
  let id ← Checked.indices entry [4, 5, 6, 7]
  .ok ⟨fromLeBytes tag, fromLeBytes permission, fromLeBytes id⟩

def scanEntry (s : Scan) (entry : List UInt8) : Checked Error Scan := do
  let r ← readRecord entry
  Checked.ofExcept (s.step r)

def validate (bytes : List UInt8) : Checked Error Unit :=
  if bytes.isEmpty then .ok ()
  else do
    let invalid ← Checked.or (bytes.length < 4) do
      let rest ← Checked.sub bytes.length 4
      Checked.or (rest % 8 != 0) do
        let version ← Checked.slice bytes 0 4
        pure (version != toLeBytes (2 : UInt32))
    if invalid then Checked.fail .invalidAcl
    else do
      let entries ← Checked.slice bytes 4 bytes.length
      let s ← (chunksExact 8 entries).foldlM scanEntry Scan.start
      Checked.ofExcept s.finish

lemma length_of_mem_chunksExact {size : Nat} {bytes chunk : List UInt8}
    (h : chunk ∈ chunksExact size bytes) : chunk.length = size := by
  obtain ⟨i, hi, rfl⟩ := List.mem_map.mp h
  have hlt : i < bytes.length / size := List.mem_range.mp hi
  have hmul : size * (i + 1) ≤ bytes.length :=
    (Nat.mul_le_mul_left size hlt).trans (Nat.mul_div_le _ _)
  rw [Nat.mul_add_one] at hmul
  rw [List.length_take, List.length_drop]
  omega

lemma readRecord_eq {entry : List UInt8} (h : entry.length = 8) :
    readRecord entry = .ok (Record.ofChunk entry) := by
  have htag := @Checked.indices_range Error _ entry 0 2 (by omega)
  have hpermission := @Checked.indices_range Error _ entry 2 2 (by omega)
  have hid := @Checked.indices_range Error _ entry 4 4 (by omega)
  simp only [List.range'_succ, List.range'_zero, Nat.reduceAdd] at htag hpermission hid
  rw [readRecord, htag, ok_bind, hpermission, ok_bind, hid, ok_bind, Record.ofChunk,
    List.drop_zero, List.drop_take, List.take_of_length_le (by omega : entry.length ≤ 8)]

lemma scanEntry_eq {bytes entry : List UInt8} (h : entry ∈ chunksExact 8 bytes) (s : Scan) :
    scanEntry s entry = Checked.ofExcept (s.step (Record.ofChunk entry)) := by
  rw [scanEntry, readRecord_eq (length_of_mem_chunksExact h), ok_bind]

lemma validate_eq (bytes : List UInt8) :
    validate bytes = Checked.ofExcept (Difz.LinuxAcl.validate bytes) := by
  rw [validate, Difz.LinuxAcl.validate, Checked.ofExcept_ite]
  by_cases hempty : bytes.isEmpty = true
  · rw [if_pos hempty, if_pos hempty]
    rfl
  rw [if_neg hempty, if_neg hempty, Checked.ofExcept_ite]
  by_cases hshort : bytes.length < 4
  · simp [Checked.or, hshort, ok_bind]
  rw [Checked.sub_of_le (by omega), Checked.slice_take (by omega), Checked.slice_drop (by omega),
    ok_bind, ok_bind]
  have hloop : (chunksExact 8 (bytes.drop 4)).foldlM scanEntry Scan.start = Checked.ofExcept
      (((chunksExact 8 (bytes.drop 4)).map Record.ofChunk).foldlM Scan.step Scan.start) := by
    rw [List.foldlM_map]
    exact Checked.foldlM_eq_ofExcept (fun s entry h => scanEntry_eq h s) _
  simp only [pure, Except.pure, Checked.or_ok, ok_bind, hloop, Checked.ofExcept_bind, Bool.or_assoc]
  rfl

/-- `PosixAcl::new`. -/
def new (bytes : List UInt8) : Checked Error PosixAcl :=
  Checked.certify (validate bytes) fun h =>
    ⟨bytes, Checked.ofExcept_eq_ok.mp ((validate_eq bytes).symm.trans h)⟩

lemma new_eq (bytes : List UInt8) : new bytes = Checked.ofExcept (PosixAcl.new bytes) := by
  refine Checked.certify_eq (validate_eq bytes) (fun _ => PosixAcl.new_eq_ok.mpr rfl) ?_
  intro e he
  unfold PosixAcl.new
  split
  · next h => exact absurd (he.symm.trans h) (by simp)
  · next e' h => exact congrArg _ (Except.error.inj (h.symm.trans he))

/-! ### Portable entries -/

/-- The loop of `decimal` writes into a buffer from its end. With no place left, `begin -= 1`
underflows. -/
def decimalLoop : Nat → UInt32 → List UInt8 → Checked Error (Nat × List UInt8)
  | 0, _, _ => .error .panic
  | begin_ + 1, value, digits => do
    let digit ← Checked.add 8 48 (value % 10).toNat
    let digits ← Checked.store digits begin_ (UInt8.ofNat digit)
    if value / 10 = 0 then .ok (begin_, digits) else decimalLoop begin_ (value / 10) digits

def decimal (value : UInt32) : Checked Error (List UInt8) := do
  let (begin_, digits) ← decimalLoop 10 value (List.replicate 10 0)
  let _ ← Checked.sub digits.length begin_
  Checked.slice digits begin_ digits.length

def portableName (kind : AceTag) (entry : List UInt8) : Checked Error (List UInt8) :=
  match kind with
  | .namedUser | .namedGroup => do
    let id ← Checked.indices entry [4, 5, 6, 7]
    decimal (fromLeBytes id)
  | .owner | .group | .mask | .everyone => .ok []

def portableEntry (entry : List UInt8) : Checked Error Ace := do
  let tag ← Checked.indices entry [0, 1]
  let kind ← Checked.ofExcept (Difz.LinuxAcl.tag (fromLeBytes tag))
  let permission ← Checked.index entry 2
  let name ← portableName kind entry
  let permissions ← Checked.ofExcept ((Permissions.fromBits
    (Difz.LinuxAcl.portablePermission permission)).mapError fun _ => Error.invalidAcl)
  .ok ⟨kind, permissions, name⟩

def portable (acl : PosixAcl) : Allocating Error (List Ace) :=
  if acl.bytes.isEmpty then pure []
  else do
    let rest ← Action.lift (Checked.sub acl.bytes.length 4)
    Allocating.reserve (rest / 8) rest 8
    let entries ← Action.lift (Checked.slice acl.bytes 4 acl.bytes.length)
    Action.lift ((chunksExact 8 entries).mapM portableEntry)

/-- The digits stand at the end of the buffer. -/
lemma decimalLoop_eq {begin_ : Nat} {value : UInt32} {digits : List UInt8}
    (hvalue : value.toNat < 10 ^ begin_) (hlt : 0 < begin_) (hle : begin_ ≤ digits.length) :
    ∃ i written, decimalLoop begin_ value digits = .ok (i, written) ∧ i ≤ written.length ∧
      written.drop i = Difz.LinuxAcl.decimalLoop begin_ value (digits.drop begin_) := by
  induction begin_ generalizing value digits with
  | zero => omega
  | succ begin_ ih =>
    have hdigit : (value % 10).toNat < 10 := by
      rw [UInt32.toNat_mod]
      exact Nat.mod_lt _ (by decide)
    have hbyte : UInt8.ofNat (48 + (value % 10).toNat) = 48 + (value % 10).toUInt8 := by
      apply UInt8.toNat_inj.mp
      simp [UInt8.toNat_ofNat', UInt8.toNat_add]
    have hdrop : (digits.set begin_ (48 + (value % 10).toUInt8)).drop begin_
        = (48 + (value % 10).toUInt8) :: digits.drop (begin_ + 1) := by
      rw [List.drop_eq_getElem_cons (by rw [List.length_set]; omega), List.getElem_set_self,
        List.drop_set_of_lt (by omega)]
    rw [decimalLoop, Difz.LinuxAcl.decimalLoop, Checked.add_of_lt (by omega), ok_bind,
      Checked.store_of_lt (by omega), ok_bind, hbyte]
    by_cases hzero : value / 10 = 0
    · rw [if_pos hzero, if_pos hzero]
      exact ⟨begin_, _, rfl, by rw [List.length_set]; omega, hdrop⟩
    · have hsmaller : (value / 10).toNat < 10 ^ begin_ := by
        rw [pow_succ, Nat.mul_comm] at hvalue
        rw [UInt32.toNat_div]
        exact Nat.div_lt_of_lt_mul hvalue
      have hpos : 0 < begin_ := by
        rcases Nat.eq_zero_or_pos begin_ with rfl | h
        · refine absurd (UInt32.toNat_inj.mp ?_) hzero
          rw [pow_zero] at hsmaller
          exact Nat.lt_one_iff.mp hsmaller
        · exact h
      rw [if_neg hzero, if_neg hzero, ← hdrop]
      exact ih hsmaller hpos (by rw [List.length_set]; omega)

lemma decimal_eq (value : UInt32) : decimal value = .ok (Difz.LinuxAcl.decimal value) := by
  have hvalue : value.toNat < 10 ^ 10 := value.toNat_lt.trans (by norm_num)
  obtain ⟨i, written, hloop, hi, hdrop⟩ :=
    @decimalLoop_eq _ _ (List.replicate 10 0) hvalue (by norm_num) (by simp)
  rw [decimal, hloop, ok_bind]
  dsimp only
  rw [Checked.sub_of_le hi, ok_bind, Checked.slice_drop hi, hdrop]
  rfl

/-- The low byte of a little-endian word comes first. -/
lemma toUInt8_fromLeBytes (a b : UInt8) : (fromLeBytes [a, b] : UInt16).toUInt8 = a := by
  have hword : (toLeBytes (fromLeBytes [a, b] : UInt16)) = [a, b] := toLeBytes_fromLeBytes rfl
  have hlow : ∀ w : UInt16, (toLeBytes w).head? = some w.toUInt8 := by
    intro w
    rfl
  have := hlow (fromLeBytes [a, b])
  rw [hword] at this
  exact (Option.some.inj this).symm

lemma portableEntry_eq {entry : List UInt8} (h : entry.length = 8) :
    portableEntry entry
      = Checked.ofExcept (Difz.LinuxAcl.portableEntry (Record.ofChunk entry)) := by
  obtain ⟨t₀, t₁, p₀, p₁, i₀, i₁, i₂, i₃, rfl⟩ :
      ∃ t₀ t₁ p₀ p₁ i₀ i₁ i₂ i₃, entry = [t₀, t₁, p₀, p₁, i₀, i₁, i₂, i₃] := by
    match entry, h with
    | [t₀, t₁, p₀, p₁, i₀, i₁, i₂, i₃], _ => exact ⟨_, _, _, _, _, _, _, _, rfl⟩
  have hchunk : Record.ofChunk [t₀, t₁, p₀, p₁, i₀, i₁, i₂, i₃]
      = ⟨fromLeBytes [t₀, t₁], fromLeBytes [p₀, p₁], fromLeBytes [i₀, i₁, i₂, i₃]⟩ := rfl
  rw [hchunk, portableEntry, Difz.LinuxAcl.portableEntry, toUInt8_fromLeBytes]
  have htag : Checked.indices [t₀, t₁, p₀, p₁, i₀, i₁, i₂, i₃] [0, 1]
      = (.ok [t₀, t₁] : Checked Error _) := rfl
  have hpermission : Checked.index [t₀, t₁, p₀, p₁, i₀, i₁, i₂, i₃] 2
      = (.ok p₀ : Checked Error _) := rfl
  have hid : Checked.indices [t₀, t₁, p₀, p₁, i₀, i₁, i₂, i₃] [4, 5, 6, 7]
      = (.ok [i₀, i₁, i₂, i₃] : Checked Error _) := rfl
  have hname : ∀ kind, portableName kind [t₀, t₁, p₀, p₁, i₀, i₁, i₂, i₃]
      = .ok (Difz.LinuxAcl.portableName kind (fromLeBytes [i₀, i₁, i₂, i₃])) := by
    intro kind
    unfold portableName
    rw [hid, ok_bind, decimal_eq]
    cases kind <;> rfl
  simp only [htag, hpermission, hname, ok_bind, Checked.ofExcept_bind, Checked.ofExcept_ok]

lemma length_of_posixAcl {acl : PosixAcl} (h : ¬acl.bytes.isEmpty = true) :
    4 ≤ acl.bytes.length := by
  have hvalid := acl.valid
  rw [Difz.LinuxAcl.validate, if_neg h, ite_error_eq_ok] at hvalid
  simp only [Bool.or_eq_true, decide_eq_true_eq, not_or, not_lt] at hvalid
  exact hvalid.1.1.1

/-- The storage that an access list may ask for. -/
def Reserves (r : Reservation) : Prop := r.minimum = 8 ∧ r.Bounded

lemma portable_computes (acl : PosixAcl) :
    Computes Reserves (portable acl) (PosixAcl.portable acl) := by
  rw [portable, PosixAcl.portable]
  by_cases hempty : acl.bytes.isEmpty = true
  · rw [if_pos hempty, if_pos hempty]
    exact Computes.lift rfl
  rw [if_neg hempty, if_neg hempty]
  have hlen := length_of_posixAcl hempty
  have hloop : (chunksExact 8 (acl.bytes.drop 4)).mapM portableEntry = Checked.ofExcept
      (((chunksExact 8 (acl.bytes.drop 4)).map Record.ofChunk).mapM
        Difz.LinuxAcl.portableEntry) := by
    rw [List.mapM_map]
    exact Checked.mapM_eq_ofExcept fun entry h => portableEntry_eq (length_of_mem_chunksExact h)
  rw [Checked.sub_of_le hlen, Checked.slice_drop hlen]
  have hreserve : Reserves ⟨(acl.bytes.length - 4) / 8, acl.bytes.length - 4, 8⟩ := ⟨rfl, le_rfl⟩
  exact (Computes.reserve hreserve).bind fun _ _ => Computes.lift hloop

/-! ### The container -/

/-- `LinuxAcl::decode`. -/
def decode (bytes : List UInt8) : Checked Error Difz.LinuxAcl := do
  let invalid ← Checked.or (bytes.length < 16) do
    let magic ← Checked.slice bytes 0 8
    pure (magic != Difz.LinuxAcl.magic)
  if invalid then Checked.fail .invalidAcl
  else do
    let access ← Checked.array .invalidAcl 4 bytes 8 12
    let default ← Checked.array .invalidAcl 4 bytes 12 16
    let access : UInt32 := fromLeBytes access.toList
    let default : UInt32 := fromLeBytes default.toList
    let lengths ← Checked.add 64 access.toNat default.toNat
    let rest ← Checked.sub bytes.length 16
    if lengths ≠ rest then Checked.fail .invalidAcl
    else do
      let boundary ← Checked.add 64 16 access.toNat
      let access ← Checked.slice bytes 16 boundary
      let access ← new access
      let default ← Checked.slice bytes boundary bytes.length
      let default ← new default
      .ok ⟨access, default⟩

lemma decode_eq (bytes : List UInt8) :
    decode bytes = Checked.ofExcept (Difz.LinuxAcl.decode bytes) := by
  rw [decode, Difz.LinuxAcl.decode, Checked.ofExcept_ite]
  by_cases hshort : bytes.length < 16
  · simp [Checked.or, hshort, ok_bind]
  obtain ⟨access, haccess, htoList⟩ := Checked.array_of_le (n := 4) (i := 8) (j := 12)
    Error.invalidAcl rfl (by omega : 12 ≤ bytes.length)
  obtain ⟨default, hdefault, htoList'⟩ := Checked.array_of_le (n := 4) (i := 12) (j := 16)
    Error.invalidAcl rfl (by omega : 16 ≤ bytes.length)
  rw [Checked.slice_take (by omega), ok_bind, haccess, ok_bind, hdefault, ok_bind]
  dsimp only
  rw [htoList, htoList']
  have hsmall := (fromLeBytes (field bytes 8 12) : UInt32).toNat_lt
  have hsmall' := (fromLeBytes (field bytes 12 16) : UInt32).toNat_lt
  rw [Checked.add_of_lt (by omega), ok_bind, Checked.sub_of_le (by omega), ok_bind,
    Checked.ofExcept_ite]
  generalize (fromLeBytes (field bytes 8 12) : UInt32).toNat = accessLength at *
  generalize (fromLeBytes (field bytes 12 16) : UInt32).toNat = defaultLength at *
  simp only [pure, Except.pure, Checked.or_ok, ok_bind]
  by_cases hlengths : accessLength + defaultLength = bytes.length - 16
  · rw [if_neg (not_not.mpr hlengths), if_neg (not_not.mpr hlengths), Checked.add_of_lt (by omega),
      ok_bind, Checked.slice_of_le (by omega) (by omega), ok_bind, Checked.slice_drop (by omega)]
    simp only [ok_bind, new_eq, Checked.ofExcept_bind]
    rfl
  · rw [if_pos hlengths, if_pos hlengths]
    rfl

end LinuxAcl

end Machine

end Difz
