import Difz.Acl.Container
import Difz.Acl.Portable
import Difz.Zig.Normalize

/-!
# Access control lists of the native program

The part of `src/native_acl.zig` for Linux: the container of the two lists, their portable entries
and the way back, with the integer parser of the standard library that the native program uses on
principals. They do what `rust/src/linux_acl.rs` does, with one difference. The native decoder adds
the length of the first list to that of the header in 32 bits, so a container of 4 GiB ends in an
overflow there.
-/

namespace Difz

open Wire
open Metadata (Ace AceTag Permissions Sorter)

namespace Zig

open LinuxAcl (PosixAcl Record noId magic)

/-- How these functions end other than well: the first three are errors they return, the others are
checks of the language. -/
inductive AclError
  | invalidAcl
  | unrepresentableAcl
  | outOfMemory
  | validation
  | castTruncated
  | overflow
  | reachedUnreachable
  deriving DecidableEq, Repr

def AclError.ofFault : AclFault → AclError
  | .invalidAcl => .invalidAcl
  | .outOfBounds | .nullUnwrapped => .validation

/-- The errors of the Rust crate have the same names here. -/
def AclError.of : LinuxAcl.Error → AclError
  | .invalidAcl => .invalidAcl
  | .unrepresentableAcl => .unrepresentableAcl
  | .outOfMemory => .outOfMemory

def checkLinux (bytes : List UInt8) : Except AclError Unit :=
  (validateLinux bytes).mapError AclError.ofFault

/-! ### The container -/

/-- `LinuxAcl` of the native program, whose lists need not be valid. -/
structure LinuxLists where
  access : List UInt8
  default : List UInt8
  deriving DecidableEq

/-- `@intCast` to 32 bits. -/
def intCast (length : Nat) : Except AclError UInt32 := do
  ensure (length < 2 ^ 32) .castTruncated
  .ok (UInt32.ofNat length)

def encodeLinux (acl : LinuxLists) : Except AclError (List UInt8) := do
  checkLinux acl.access
  checkLinux acl.default
  let access ← intCast acl.access.length
  let default ← intCast acl.default.length
  .ok (utf8 "DIFZACL\x01" ++ toLeBytes access ++ toLeBytes default ++ acl.access ++ acl.default)

def decodeLinux (bytes : List UInt8) : Except AclError LinuxLists :=
  if bytes.length < 16 ∨ bytes.take 8 ≠ utf8 "DIFZACL\x01" then .error .invalidAcl
  else
    let accessLen : UInt32 := fromLeBytes (field bytes 8 12)
    let defaultLen : UInt32 := fromLeBytes (field bytes 12 16)
    if accessLen.toNat + defaultLen.toNat ≠ bytes.length - 16 then .error .invalidAcl
    else do
      -- `16 + access_len` is a sum of 32 bits
      ensure (16 + accessLen.toNat < 2 ^ 32) .overflow
      let acl : LinuxLists :=
        ⟨field bytes 16 (16 + accessLen.toNat), bytes.drop (16 + accessLen.toNat)⟩
      checkLinux acl.access
      checkLinux acl.default
      .ok acl

/-! ### Portable entries -/

def portableTag : UInt16 → Except AclError AceTag
  | 1 => .ok .owner
  | 2 => .ok .namedUser
  | 4 => .ok .group
  | 8 => .ok .namedGroup
  | 16 => .ok .mask
  | 32 => .ok .everyone
  | _ => .error .reachedUnreachable

def portableAce (r : Record) : Except AclError Ace := do
  let tag ← portableTag r.tag
  let perm := r.permission
  let name := if tag = .namedUser ∨ tag = .namedGroup then utf8 r.id.toNat.repr else []
  .ok ⟨tag, permissions (perm &&& 4 != 0) (perm &&& 2 != 0) (perm &&& 1 != 0), name⟩

def portableLinux (bytes : List UInt8) : Except AclError (List Ace) := do
  checkLinux bytes
  if bytes.length = 0 then .ok []
  else (List.range ((bytes.length - 4) / 8)).mapM fun i =>
    portableAce (Record.ofChunk ((bytes.drop (4 + 8 * i)).take 8))

/-! ### Integers -/

inductive ParseIntError
  | overflow
  | invalidCharacter
  deriving DecidableEq, Repr

inductive Sign
  | pos
  | neg
  deriving DecidableEq, Repr

/-- `std.fmt.charToDigit` for the base ten. -/
def charToDigit (c : UInt8) : Except ParseIntError UInt8 :=
  let value :=
    if 48 ≤ c ∧ c ≤ 57 then c - 48
    else if 65 ≤ c ∧ c ≤ 90 then c - 65 + 10
    else if 97 ≤ c ∧ c ≤ 122 then c - 97 + 10
    else 10
  if value ≥ 10 then .error .invalidCharacter else .ok value

/-- `math.mul`, `math.add` and `math.sub` on `u32`, with the exact value. -/
def checked (value : Int) : Except ParseIntError UInt32 :=
  if 0 ≤ value ∧ value < 2 ^ 32 then .ok (UInt32.ofNat value.toNat) else .error .overflow

/-- One turn of the loop over the characters behind the sign. -/
def accumulateDigit (sign : Sign) (accumulate : UInt32) (c : UInt8) :
    Except ParseIntError UInt32 :=
  if c = 0x5f then .ok accumulate
  else do
    let digit ← charToDigit c
    if accumulate ≠ 0 then
      let scaled ← checked (accumulate.toNat * 10)
      checked (match sign with
        | .pos => scaled.toNat + digit.toNat
        | .neg => scaled.toNat - digit.toNat)
    else
      match sign with
      | .neg => checked (-digit.toNat)
      | .pos => checked (accumulate.toNat + digit.toNat)

def parseIntWithSign (sign : Sign) (buf : List UInt8) : Except ParseIntError UInt32 :=
  if buf.length = 0 then .error .invalidCharacter
  else if buf.head? = some 0x5f ∨ buf.getLast? = some 0x5f then .error .invalidCharacter
  else buf.foldlM (accumulateDigit sign) 0

/-- `std.fmt.parseInt(u32, buf, 10)` -/
def parseInt (buf : List UInt8) : Except ParseIntError UInt32 :=
  match buf with
  | [] => .error .invalidCharacter
  | 0x2b :: digits => parseIntWithSign .pos digits
  | 0x2d :: digits => parseIntWithSign .neg digits
  | digits => parseIntWithSign .pos digits

/-! ### Kernel entries -/

def kernelTag : AceTag → UInt16
  | .owner => 1
  | .namedUser => 2
  | .group => 4
  | .namedGroup => 8
  | .mask => 16
  | .everyone => 32

def flag (b : Bool) : UInt16 := if b then 1 else 0

def kernelEntry (ace : Ace) : Except AclError Record := do
  let perm := (flag (canRead ace.permissions) <<< 2) ||| (flag (canWrite ace.permissions) <<< 1)
    ||| flag (canExecute ace.permissions)
  let id ←
    if ace.tag = .namedUser ∨ ace.tag = .namedGroup then
      (parseInt ace.name).mapError fun _ => AclError.unrepresentableAcl
    else .ok noId
  .ok ⟨kernelTag ace.tag, perm, id⟩

/-- `less` of `encodePortableLinux`. -/
def entryLess (a b : Record) : Bool := a.tag < b.tag || (a.tag == b.tag && a.id < b.id)

def encodePortableLinux (aces : List Ace) : Except AclError (List UInt8) :=
  if aces.length = 0 then .ok []
  else do
    let entries ← aces.mapM kernelEntry
    let entries := entries.mergeSort fun a b => !entryLess b a
    let bytes := toLeBytes (2 : UInt32) ++ entries.flatMap Record.wire
    checkLinux bytes
    .ok bytes

/-! ### Validation -/

lemma scan_cases (s : LinuxAcl.Scan) (records : List Record) :
    (records.foldlM LinuxAcl.Scan.step s >>= LinuxAcl.Scan.finish) = .ok () ∨
      (records.foldlM LinuxAcl.Scan.step s >>= LinuxAcl.Scan.finish) = .error .invalidAcl := by
  induction records generalizing s with
  | nil =>
    change s.finish = .ok () ∨ s.finish = .error .invalidAcl
    rw [LinuxAcl.Scan.finish]
    split_ifs
    · exact .inr rfl
    · exact .inl rfl
  | cons r records ih =>
    rw [List.foldlM_cons, bind_assoc]
    have hstep : s.step r = .error .invalidAcl ∨ ∃ s', s.step r = .ok s' := by
      rw [LinuxAcl.Scan.step_eq]
      split_ifs <;> simp
    rcases hstep with hs | ⟨s', hs⟩
    · rw [hs, error_bind]
      exact .inr rfl
    · rw [hs, ok_bind]
      exact ih s'

/-- There is one way for the bytes of a list to be wrong. -/
lemma validate_cases (bytes : List UInt8) :
    LinuxAcl.validate bytes = .ok () ∨ LinuxAcl.validate bytes = .error .invalidAcl := by
  by_cases hempty : bytes = []
  · rw [hempty]
    exact .inl rfl
  by_cases hframe : ∃ records : List Record,
      bytes = toLeBytes (2 : UInt32) ++ records.flatMap Record.wire
  · obtain ⟨records, rfl⟩ := hframe
    rw [LinuxAcl.validate_framed]
    exact scan_cases _ records
  · exact .inr (validate_unframed hempty hframe).1

lemma checkLinux_eq (bytes : List UInt8) :
    checkLinux bytes = (LinuxAcl.validate bytes).mapError AclError.of := by
  rw [checkLinux, validateLinux_eq]
  rcases validate_cases bytes with h | h
  · rw [h]
    rfl
  · rw [h]
    rfl

@[simp] lemma checkLinux_bytes (acl : PosixAcl) : checkLinux acl.bytes = .ok () := by
  rw [checkLinux_eq, acl.valid]
  rfl

lemma new_error {bytes : List UInt8} (h : LinuxAcl.validate bytes = .error .invalidAcl) :
    PosixAcl.new bytes = .error .invalidAcl := by
  unfold PosixAcl.new
  split
  · next hok => exact absurd (hok.symm.trans h) (by simp)
  · next e he => rw [Except.error.inj (he.symm.trans h)]

/-- Validation alone, where the Rust crate keeps the bytes with it. -/
lemma checkLinux_new (bytes : List UInt8) :
    (∃ acl : PosixAcl, acl.bytes = bytes ∧ PosixAcl.new bytes = .ok acl ∧
      checkLinux bytes = .ok ()) ∨
    PosixAcl.new bytes = .error .invalidAcl ∧ checkLinux bytes = .error .invalidAcl := by
  rw [checkLinux_eq]
  rcases validate_cases bytes with h | h
  · exact .inl ⟨⟨bytes, h⟩, rfl, LinuxAcl.PosixAcl.new_eq_ok.mpr rfl, by rw [h]; rfl⟩
  · exact .inr ⟨new_error h, by rw [h]; rfl⟩

/-! ### Containers -/

/-- The two lists of a container, with their validity forgotten. -/
def LinuxLists.of (acl : LinuxAcl) : LinuxLists := ⟨acl.access.bytes, acl.default.bytes⟩

lemma encodeLinux_of {acl : LinuxAcl} (h : acl.Encodable) :
    encodeLinux (LinuxLists.of acl) = .ok acl.wire := by
  rw [encodeLinux, LinuxLists.of]
  simp only [checkLinux_bytes, ok_bind]
  rw [intCast, ensure_pos h.1, ok_bind, intCast, ensure_pos h.2, ok_bind, LinuxAcl.wire,
    LinuxAcl.magic]
  simp only [ok_bind, List.append_assoc]

/-- Two lists have a container when both are valid and short enough. -/
lemma encodeLinux_eq_ok {lists : LinuxLists} {bytes : List UInt8} :
    encodeLinux lists = .ok bytes ↔
      ∃ acl : LinuxAcl, lists = LinuxLists.of acl ∧ acl.encode = .ok bytes := by
  constructor
  · intro h
    have hparts := h
    rw [encodeLinux, seq_eq_ok, seq_eq_ok, checkLinux_eq, checkLinux_eq, mapError_eq_ok,
      mapError_eq_ok] at hparts
    simp only [intCast, Wire.bind_eq_ok, ensure_eq_ok, exists_const] at hparts
    obtain ⟨haccess, hdefault, _, ⟨ha, -⟩, _, ⟨hd, -⟩, -⟩ := hparts
    let acl : LinuxAcl := ⟨⟨lists.access, haccess⟩, ⟨lists.default, hdefault⟩⟩
    have hencodable : acl.Encodable := ⟨ha, hd⟩
    have hlists : lists = LinuxLists.of acl := rfl
    rw [hlists, encodeLinux_of hencodable] at h
    exact ⟨acl, hlists, LinuxAcl.encode_eq_ok.mpr ⟨hencodable, (Except.ok.inj h).symm⟩⟩
  · rintro ⟨acl, rfl, h⟩
    obtain ⟨hencodable, rfl⟩ := LinuxAcl.encode_eq_ok.mp h
    exact encodeLinux_of hencodable

/-- The same lists are read where the end of the first one fits 32 bits. -/
lemma decodeLinux_eq {bytes : List UInt8} (h : bytes.length < 2 ^ 32) :
    decodeLinux bytes = ((LinuxAcl.decode bytes).map LinuxLists.of).mapError AclError.of := by
  have hmagic : (decide (bytes.length < 16) || bytes.take 8 != LinuxAcl.magic) = true ↔
      bytes.length < 16 ∨ bytes.take 8 ≠ utf8 "DIFZACL\x01" := by
    simp [LinuxAcl.magic]
  rw [decodeLinux, LinuxAcl.decode]
  by_cases hhead : bytes.length < 16 ∨ bytes.take 8 ≠ utf8 "DIFZACL\x01"
  · rw [if_pos hhead, if_pos (hmagic.mpr hhead)]
    rfl
  rw [if_neg hhead, if_neg (mt hmagic.mp hhead)]
  dsimp only
  split_ifs with hlength
  · rfl
  have hboundary : 16 + (fromLeBytes (field bytes 8 12) : UInt32).toNat < 2 ^ 32 := by omega
  rw [ensure_pos hboundary, ok_bind]
  rcases checkLinux_new (field bytes 16 (16 + (fromLeBytes (field bytes 8 12) : UInt32).toNat))
    with ⟨access, haccess, hnew, hcheck⟩ | ⟨hnew, hcheck⟩
  · rw [hnew, hcheck, ok_bind, ok_bind]
    rcases checkLinux_new (bytes.drop (16 + (fromLeBytes (field bytes 8 12) : UInt32).toNat))
      with ⟨default, hdefault, hnew, hcheck⟩ | ⟨hnew, hcheck⟩
    · rw [hnew, hcheck, ← haccess, ← hdefault]
      rfl
    · rw [hnew, hcheck]
      rfl
  · rw [hnew, hcheck]
    rfl

/-! ### Entries of an accepted list -/

lemma portableTag_kernelTag (kind : AceTag) :
    portableTag (LinuxAcl.kernelTag kind) = .ok kind := by
  cases kind <;> rfl

lemma permissions_portable (permission : UInt16) (h : permission ≤ 7) :
    permissionBits (permission &&& 4 != 0) (permission &&& 2 != 0) (permission &&& 1 != 0)
      = LinuxAcl.portablePermission permission.toUInt8 := by
  have hall : ∀ n : Fin 8, permissionBits (UInt16.ofNat n.val &&& 4 != 0)
      (UInt16.ofNat n.val &&& 2 != 0) (UInt16.ofNat n.val &&& 1 != 0)
        = LinuxAcl.portablePermission (UInt16.ofNat n.val).toUInt8 := by decide
  have hlt : permission.toNat < 8 := Nat.lt_succ_of_le (UInt16.le_iff_toNat_le.mp h)
  have heq : UInt16.ofNat permission.toNat = permission := UInt16.ofNat_toNat
  have := hall ⟨permission.toNat, hlt⟩
  rwa [heq] at this

/-- An entry that was accepted has its portable form in both programs. -/
lemma portableAce_eq {r : Record} (h : r.Proper) : portableAce r = .ok (LinuxAcl.aceOf r) := by
  obtain ⟨kind, hkind⟩ := LinuxAcl.mem_tags_iff.mp h.tag
  have hkindOf : LinuxAcl.kindOf r = kind := by
    rw [LinuxAcl.kindOf, LinuxAcl.tag_eq_ok.mpr hkind]
    rfl
  rw [portableAce, hkind, portableTag_kernelTag, ok_bind, LinuxAcl.aceOf, hkindOf]
  refine congrArg Except.ok ?_
  rw [Metadata.Ace.mk.injEq]
  refine ⟨rfl, ?_, ?_⟩
  · rw [permissions, LinuxAcl.permissionsOf, Permissions.mk.injEq]
    exact permissions_portable r.permission h.permission
  · rw [← LinuxAcl.decimal_eq]
    cases kind <;> rfl

lemma portableLinux_framed {records : List Record} (h : LinuxAcl.WellFormed records) :
    portableLinux (toLeBytes (2 : UInt32) ++ records.flatMap Record.wire)
      = .ok (records.map LinuxAcl.aceOf) := by
  have hvalid : LinuxAcl.validate (toLeBytes (2 : UInt32) ++ records.flatMap Record.wire) = .ok () :=
    LinuxAcl.validate_eq_ok.mpr (.inr ⟨records, rfl, h⟩)
  have hlength := LinuxAcl.length_flatMap_wire records
  have hversion : (toLeBytes (2 : UInt32)).length = 4 := rfl
  have hcount : ((toLeBytes (2 : UInt32) ++ records.flatMap Record.wire).length - 4) / 8
      = records.length := by
    rw [List.length_append, hlength, hversion]
    omega
  have hchunks := LinuxAcl.chunksExact_flatMap records
  rw [LinuxAcl.chunksExact, hlength, Nat.mul_div_cancel_left _ (by norm_num), List.map_map]
    at hchunks
  have hnonempty : ¬(toLeBytes (2 : UInt32) ++ records.flatMap Record.wire).length = 0 := by simp
  have haces : records.map LinuxAcl.aceOf = (List.range records.length).map fun i =>
      LinuxAcl.aceOf (Record.ofChunk (((records.flatMap Record.wire).drop (8 * i)).take 8)) := by
    conv_lhs => rw [← hchunks, List.map_map]
    rfl
  rw [portableLinux, checkLinux_eq, hvalid, mapError_ok, ok_bind, if_neg hnonempty, hcount, haces]
  refine LinuxAcl.mapM_eq_map fun i hi => ?_
  have hmem : Record.ofChunk (((records.flatMap Record.wire).drop (8 * i)).take 8) ∈ records := by
    have hi := List.mem_map_of_mem (f := Record.ofChunk ∘ fun i =>
      ((records.flatMap Record.wire).drop (8 * i)).take 8) hi
    rwa [hchunks] at hi
  rw [← List.drop_drop, List.drop_left' hversion]
  exact portableAce_eq (h.proper _ hmem)

/-- Both programs find the same portable entries. -/
lemma portableLinux_eq (bytes : List UInt8) : portableLinux bytes
    = (PosixAcl.new bytes >>= fun acl => acl.portable).mapError AclError.of := by
  rcases checkLinux_new bytes with ⟨acl, rfl, hnew, hcheck⟩ | ⟨hnew, hcheck⟩
  · rw [hnew, ok_bind]
    rcases LinuxAcl.validate_eq_ok.mp acl.valid with hempty | ⟨records, hbytes, hrecords⟩
    · rw [portableLinux, hcheck, ok_bind, PosixAcl.portable, hempty]
      rfl
    · rw [LinuxAcl.portable_framed hbytes hrecords, hbytes, portableLinux_framed hrecords]
      rfl
  · rw [hnew, portableLinux, hcheck]
    rfl

/-! ### Principals -/

lemma charToDigit_eq (c : UInt8) :
    charToDigit c = if 48 ≤ c && c ≤ 57 then .ok (c - 48) else .error .invalidCharacter := by
  obtain ⟨v⟩ := c
  revert v
  decide +kernel

lemma checked_eq_ok {value : Int} {v : UInt32} : checked value = .ok v ↔ (v.toNat : Int) = value := by
  have hlt := v.toNat_lt
  rw [checked]
  split_ifs with h
  · have hvalue : (UInt32.ofNat value.toNat).toNat = value.toNat :=
      UInt32.toNat_ofNat_of_lt' (by change value.toNat < 4294967296; omega)
    rw [Except.ok.injEq, ← UInt32.toNat_inj, hvalue]
    omega
  · exact iff_of_false (by simp) (by omega)

/-- A digit is taken as the Rust crate takes it, while a negative number is still zero. -/
lemma accumulateDigit_eq_ok {sign : Sign} {v v' : UInt32} {c : UInt8} (hc : c ≠ 0x5f)
    (h : sign = .neg → v = 0) : accumulateDigit sign v c = .ok v' ↔
      (LinuxAcl.IsDigit c ∧ (sign = .neg → c = 48)) ∧
        v'.toNat = v.toNat * 10 + (c - 48).toNat := by
  rw [accumulateDigit, if_neg hc, charToDigit_eq]
  by_cases hdigit : (48 ≤ c && c ≤ 57) = true
  · have hisDigit : LinuxAcl.IsDigit c := by simpa [LinuxAcl.IsDigit] using hdigit
    have hzero : c = 48 ↔ (c - 48).toNat = 0 := by
      obtain ⟨b⟩ := c
      revert b
      decide +kernel
    rw [if_pos hdigit, ok_bind]
    by_cases hv : v = 0
    · rw [if_neg (not_not.mpr hv), hv]
      cases sign with
      | neg =>
        simp only [checked_eq_ok, hisDigit, hzero, true_and, true_implies]
        change (v'.toNat : Int) = -((c - 48).toNat : Int) ↔ (c - 48).toNat = 0 ∧
          v'.toNat = 0 * 10 + (c - 48).toNat
        omega
      | pos =>
        simp only [checked_eq_ok, hisDigit, true_and, reduceCtorEq, false_implies]
        change (v'.toNat : Int) = ((0 : Nat) : Int) + ((c - 48).toNat : Int) ↔
          v'.toNat = 0 * 10 + (c - 48).toNat
        omega
    · obtain rfl : sign = .pos := by
        cases sign with
        | neg => exact absurd (h rfl) hv
        | pos => rfl
      simp only [if_pos hv, Wire.bind_eq_ok, checked_eq_ok, hisDigit, true_and, reduceCtorEq,
        false_implies]
      constructor
      · rintro ⟨scaled, hscaled, hsum⟩
        omega
      · intro hsum
        have hlt := v'.toNat_lt
        have hscaled : (UInt32.ofNat (v.toNat * 10)).toNat = v.toNat * 10 :=
          UInt32.toNat_ofNat_of_lt' (by change v.toNat * 10 < 4294967296; omega)
        exact ⟨UInt32.ofNat (v.toNat * 10), by omega, by omega⟩
  · have hisDigit : ¬LinuxAcl.IsDigit c := by simpa [LinuxAcl.IsDigit] using hdigit
    rw [if_neg hdigit, error_bind]
    exact iff_of_false (by simp) (fun h => hisDigit h.1.1)

lemma foldlM_accumulateDigit {sign : Sign} {v v' : UInt32} {digits : List UInt8}
    (h : sign = .neg → v = 0) : digits.foldlM (accumulateDigit sign) v = .ok v' ↔
      digits.foldlM (LinuxAcl.principalStep (decide (sign = .neg))) v = .ok v' := by
  induction digits generalizing v with
  | nil => simp [pure, Except.pure]
  | cons c digits ih =>
    rw [List.foldlM_cons, List.foldlM_cons]
    by_cases hc : c = 0x5f
    · have hstep : accumulateDigit sign v c = .ok v := if_pos hc
      have hstep' : LinuxAcl.principalStep (decide (sign = .neg)) v c = .ok v := if_pos hc
      rw [hstep, hstep', ok_bind, ok_bind]
      exact ih h
    · rw [Wire.bind_eq_ok, Wire.bind_eq_ok]
      refine exists_congr fun next => ?_
      rw [accumulateDigit_eq_ok hc h, LinuxAcl.principalStep_eq_ok hc, decide_eq_true_eq]
      refine and_congr_right fun hnext => ih fun hsign => ?_
      -- behind the sign of a negative number only zeros are read
      have hvalue := hnext.2
      rw [hnext.1.2 hsign, h hsign] at hvalue
      exact UInt32.toNat_inj.mp hvalue

lemma parseIntWithSign_eq_ok {sign : Sign} {digits : List UInt8} {v : UInt32} :
    parseIntWithSign sign digits = .ok v ↔
      (¬(digits.isEmpty || digits.head? == some 0x5f || digits.getLast? == some 0x5f) = true) ∧
        digits.foldlM (LinuxAcl.principalStep (decide (sign = .neg))) 0 = .ok v := by
  rw [parseIntWithSign, ite_error_eq_ok, ite_error_eq_ok, foldlM_accumulateDigit fun _ => rfl]
  simp [and_assoc]

/-- The integer parser reads the principals that the Rust crate reads, as the same numbers. -/
lemma parseInt_eq_ok {name : List UInt8} {v : UInt32} :
    parseInt name = .ok v ↔ LinuxAcl.principal name = .ok v := by
  rw [LinuxAcl.principal]
  unfold parseInt
  split
  · exact iff_of_false (by simp) (by simp [LinuxAcl.splitSign])
  · rw [parseIntWithSign_eq_ok, ite_error_eq_ok]
    rfl
  · rw [parseIntWithSign_eq_ok, ite_error_eq_ok]
    rfl
  · next hplus hminus =>
    have hsplit : LinuxAcl.splitSign name = (false, name) := by
      unfold LinuxAcl.splitSign
      split
      · exact absurd rfl (hplus _)
      · exact absurd rfl (hminus _)
      · rfl
    rw [parseIntWithSign_eq_ok, ite_error_eq_ok, hsplit]
    rfl

lemma principal_cases (name : List UInt8) : (∃ v, LinuxAcl.principal name = .ok v) ∨
    LinuxAcl.principal name = .error .unrepresentableAcl := by
  have hfold : ∀ (negative : Bool) (digits : List UInt8) (v : UInt32),
      (∃ v', digits.foldlM (LinuxAcl.principalStep negative) v = .ok v') ∨
        digits.foldlM (LinuxAcl.principalStep negative) v = .error .unrepresentableAcl := by
    intro negative digits
    induction digits with
    | nil => exact fun v => .inl ⟨v, rfl⟩
    | cons c digits ih =>
      intro v
      have hstep : (∃ next, LinuxAcl.principalStep negative v c = .ok next) ∨
          LinuxAcl.principalStep negative v c = .error .unrepresentableAcl := by
        rw [LinuxAcl.principalStep]
        split_ifs <;> simp
      rw [List.foldlM_cons]
      rcases hstep with ⟨next, h⟩ | h
      · rw [h, ok_bind]
        exact ih next
      · rw [h, error_bind]
        exact .inr rfl
  rw [LinuxAcl.principal]
  split_ifs
  · exact .inr rfl
  · exact hfold _ _ _

lemma parseInt_eq (name : List UInt8) :
    (parseInt name).mapError (fun _ => AclError.unrepresentableAcl)
      = (LinuxAcl.principal name).mapError AclError.of := by
  rcases principal_cases name with ⟨v, h⟩ | h
  · rw [h, parseInt_eq_ok.mpr h]
    rfl
  · rw [h]
    cases hparse : parseInt name with
    | error e => rfl
    | ok v => exact absurd ((parseInt_eq_ok.mp hparse).symm.trans h) (by simp)

/-! ### Kernel entries -/

lemma kernelTag_eq (kind : AceTag) : kernelTag kind = LinuxAcl.kernelTag kind := by
  cases kind <;> rfl

lemma kernelPermission_eq (p : Permissions) :
    (flag (canRead p) <<< 2) ||| (flag (canWrite p) <<< 1) ||| flag (canExecute p)
      = LinuxAcl.kernelPermission p := by
  obtain ⟨b, h⟩ := p
  revert h
  obtain ⟨v⟩ := b
  revert v
  decide +kernel

lemma kernelEntry_eq (a : Ace) :
    kernelEntry a = (LinuxAcl.kernelEntry a).mapError AclError.of := by
  rw [kernelEntry, LinuxAcl.kernelEntry, kernelPermission_eq, kernelTag_eq, LinuxAcl.entryId]
  cases a.tag with
  | owner | group | everyone | mask => rfl
  | namedUser | namedGroup =>
    rw [if_pos (by simp), parseInt_eq]
    cases LinuxAcl.principal a.name <;> rfl

lemma mapM_mapError {ε ε' α β : Type} {f : α → Except ε β} {g : α → Except ε' β} {name : ε → ε'}
    (h : ∀ x, g x = (f x).mapError name) (xs : List α) :
    xs.mapM g = (xs.mapM f).mapError name := by
  induction xs with
  | nil => rfl
  | cons x xs ih =>
    rw [List.mapM_cons, List.mapM_cons, h, ih]
    cases f x with
    | error e => rfl
    | ok b => cases xs.mapM f <;> rfl

lemma entryLess_iff (a b : Record) : entryLess a b = true ↔ a.Before b := by
  simp [entryLess, Record.Before]

/-- The sort of the standard library keeps the order of equal entries. -/
def entrySorter : Sorter Record.Le :=
  .merge (fun a b => !entryLess b a)
    (fun a b c hab hbc => by
      rw [Bool.not_eq_true', ← Bool.not_eq_true, entryLess_iff] at *
      simp only [Record.Before, UInt16.lt_iff_toNat_lt, UInt32.lt_iff_toNat_lt,
        ← UInt16.toNat_inj] at *
      omega)
    (fun a b => by
      rw [Bool.or_eq_true, Bool.not_eq_true', Bool.not_eq_true', ← Bool.not_eq_true,
        ← Bool.not_eq_true, entryLess_iff, entryLess_iff]
      simp only [Record.Before, UInt16.lt_iff_toNat_lt, UInt32.lt_iff_toNat_lt,
        ← UInt16.toNat_inj]
      omega)
    (fun a b h => by
      rwa [Bool.not_eq_true', ← Bool.not_eq_true, entryLess_iff] at h)

/-- A list that passes is strictly ordered, so nothing depends on how it was sorted. -/
lemma validate_sorted (sort sort' : Sorter Record.Le) (entries : List Record) :
    LinuxAcl.validate (toLeBytes (2 : UInt32) ++ (sort.run entries).flatMap Record.wire) = .ok () ∧
        sort'.run entries = sort.run entries ∨
      LinuxAcl.validate (toLeBytes (2 : UInt32) ++ (sort.run entries).flatMap Record.wire)
          = .error .invalidAcl ∧
        LinuxAcl.validate (toLeBytes (2 : UInt32) ++ (sort'.run entries).flatMap Record.wire)
          = .error .invalidAcl := by
  have hsame : ∀ s s' : Sorter Record.Le,
      LinuxAcl.validate (toLeBytes (2 : UInt32) ++ (s.run entries).flatMap Record.wire) = .ok () →
        s'.run entries = s.run entries := by
    intro s s' h
    rw [LinuxAcl.validate_framed, LinuxAcl.scan_eq_ok] at h
    exact LinuxAcl.sort_eq s' (s.perm entries).symm h.ordered
  rcases validate_cases (toLeBytes (2 : UInt32) ++ (sort.run entries).flatMap Record.wire)
    with h | h
  · exact .inl ⟨h, hsame sort sort' h⟩
  · refine .inr ⟨h, (validate_cases _).resolve_left fun h' => ?_⟩
    rw [hsame sort' sort h'] at h
    exact absurd (h.symm.trans h') (by simp)

/-- Portable entries in canonical form are encoded alike. -/
lemma encodePortableLinux_eq (sort : Sorter Record.Le) (c : CanonicalMetadata) :
    encodePortableLinux c.metadata.aces
      = (LinuxAcl.encodePortable sort c).mapError AclError.of := by
  rw [encodePortableLinux, LinuxAcl.encodePortable]
  by_cases hempty : c.metadata.aces = []
  · rw [hempty]
    rfl
  have hisEmpty : c.metadata.aces.isEmpty = false := by simpa using hempty
  rw [if_neg (by simpa using hempty), hisEmpty, mapM_mapError kernelEntry_eq]
  dsimp only
  cases hentries : c.metadata.aces.mapM LinuxAcl.kernelEntry with
  | error e => rfl
  | ok entries =>
    have hlength : (sort.run entries).length * 8 + 4 < 2 ^ 64 := by
      have hcount := c.isValid.aceCount
      rw [(sort.perm entries).length_eq, ← (mapM_eq_ok.mp hentries).length_eq]
      omega
    have hzig : (entries.mergeSort fun a b => !entryLess b a) = entrySorter.run entries := rfl
    rw [mapError_ok, ok_bind, hzig, if_neg Bool.false_ne_true, ok_bind, ensure_pos hlength,
      ok_bind, checkLinux_eq]
    rcases validate_sorted sort entrySorter entries with ⟨hvalid, hsame⟩ | ⟨hbad, hbad'⟩
    · rw [hsame, hvalid]
      rfl
    · rw [hbad, hbad']
      rfl

/-! ### Both programs -/

/-- The functions on Linux lists are those of the Rust crate: a container is encoded exactly where
the crate encodes the same valid lists, and to the same bytes; below 4 GiB it is decoded to the same
lists or refused with the same error; a list has the same portable entries, and portable entries in
canonical form the same list, whatever the crate's sort does with equal ones. -/
theorem linuxAcl_agree (sort : Sorter Record.Le) :
    (∀ lists bytes, encodeLinux lists = .ok bytes ↔
      ∃ acl : LinuxAcl, lists = LinuxLists.of acl ∧ acl.encode = .ok bytes) ∧
    (∀ bytes : List UInt8, bytes.length < 2 ^ 32 →
      decodeLinux bytes = ((LinuxAcl.decode bytes).map LinuxLists.of).mapError AclError.of) ∧
    (∀ bytes, portableLinux bytes
      = (PosixAcl.new bytes >>= fun acl => acl.portable).mapError AclError.of) ∧
    ∀ c : CanonicalMetadata, encodePortableLinux c.metadata.aces
      = (LinuxAcl.encodePortable sort c).mapError AclError.of :=
  ⟨fun _ _ => encodeLinux_eq_ok, fun _ => decodeLinux_eq, portableLinux_eq,
    encodePortableLinux_eq sort⟩

/-- Version 2, and the entries of the owner, one user, the group, the mask and everyone. -/
def fixture : List UInt8 :=
  [2, 0, 0, 0, 1, 0, 7, 0, 255, 255, 255, 255, 2, 0, 4, 0, 123, 0, 0, 0, 4, 0, 5, 0, 255, 255, 255,
    255, 16, 0, 5, 0, 255, 255, 255, 255, 32, 0, 0, 0, 255, 255, 255, 255]

theorem linuxAcl_agree_fixture :
    ∃ bytes, encodeLinux ⟨fixture, fixture⟩ = .ok bytes ∧
      decodeLinux bytes = ((LinuxAcl.decode bytes).map LinuxLists.of).mapError AclError.of := by
  obtain ⟨hencode, hdecode, -⟩ := linuxAcl_agree entrySorter
  have hvalid : LinuxAcl.validate fixture = .ok () := by decide
  have hlength : fixture.length < 2 ^ 32 := by decide
  let acl : LinuxAcl := ⟨⟨fixture, hvalid⟩, ⟨fixture, hvalid⟩⟩
  have hwire : acl.wire.length < 2 ^ 32 := by
    change (LinuxAcl.magic ++ (toLeBytes (UInt32.ofNat fixture.length)
      ++ (toLeBytes (UInt32.ofNat fixture.length) ++ (fixture ++ fixture)))).length < 2 ^ 32
    decide
  exact ⟨acl.wire, (hencode _ _).mpr
    ⟨acl, rfl, LinuxAcl.encode_eq_ok.mpr ⟨⟨hlength, hlength⟩, rfl⟩⟩, hdecode _ hwire⟩

end Zig

end Difz
