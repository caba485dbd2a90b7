import Difz.Acl.Posix
import Difz.Metadata.Normalize

/-!
# Kernel entries and portable ones

The two directions between the entries of a POSIX access control list and the portable entries of
a record (`PosixAcl::portable`, `encode_portable`, `principal` and `decimal` in
`rust/src/linux_acl.rs`). Principals become decimal numbers; read back, a principal may be spelled
with a sign, separators or leading zeros.
-/

namespace Difz

open Wire
open Metadata (Ace AceTag Permissions Sorter)

namespace LinuxAcl

/-! ### Principals -/

/-- The loop of `decimal`: the digits written so far, and how many places are left. -/
def decimalLoop : Nat → UInt32 → List UInt8 → List UInt8
  | 0, _, digits => digits
  | begin_ + 1, value, digits =>
    let digits := (48 + (value % 10).toUInt8) :: digits
    if value / 10 = 0 then digits else decimalLoop begin_ (value / 10) digits

def decimal (value : UInt32) : List UInt8 := decimalLoop 10 value []

/-- The sign of a name, and what stands behind it. -/
def splitSign : List UInt8 → Bool × List UInt8
  | 0x2b :: digits => (false, digits)
  | 0x2d :: digits => (true, digits)
  | name => (false, name)

/-- One byte of a principal. -/
def principalStep (negative : Bool) (value : UInt32) (byte : UInt8) : Except Error UInt32 :=
  if byte = 0x5f then .ok value
  else if !(48 ≤ byte && byte ≤ 57) || (negative && byte != 48) then .error .unrepresentableAcl
  else if value.toNat * 10 + (byte - 48).toNat < 2 ^ 32 then
    .ok (value * 10 + (byte - 48).toUInt32)
  else .error .unrepresentableAcl

def principal (name : List UInt8) : Except Error UInt32 :=
  let split := splitSign name
  if split.2.isEmpty || split.2.head? == some 0x5f || split.2.getLast? == some 0x5f then
    .error .unrepresentableAcl
  else split.2.foldlM (principalStep split.1) 0

lemma utf8_append (s t : String) : utf8 (s ++ t) = utf8 s ++ utf8 t := by
  simp [utf8]

lemma utf8_repr_of_lt {n : Nat} (h : n < 10) : utf8 n.repr = [UInt8.ofNat (48 + n)] := by
  have hall : ∀ k : Fin 10, utf8 k.val.repr = [UInt8.ofNat (48 + k.val)] := by decide
  exact hall ⟨n, h⟩

/-- The digits of a number are its usual spelling. -/
lemma decimalLoop_eq {begin_ : Nat} {value : UInt32} (h : value.toNat < 10 ^ (begin_ + 1))
    (digits : List UInt8) :
    decimalLoop (begin_ + 1) value digits = utf8 value.toNat.repr ++ digits := by
  have hdigit : ∀ v : UInt32, [48 + (v % 10).toUInt8] = utf8 (v.toNat % 10).repr := by
    intro v
    have hlt : v.toNat % 10 < 10 := Nat.mod_lt _ (by norm_num)
    rw [utf8_repr_of_lt hlt, List.cons.injEq]
    refine ⟨UInt8.toNat_inj.mp ?_, rfl⟩
    have hmod : (v % 10).toNat = v.toNat % 10 := UInt32.toNat_mod v 10
    rw [UInt8.toNat_add, UInt32.toNat_toUInt8, hmod, UInt8.toNat_ofNat']
    change (48 + v.toNat % 10 % 256) % 256 = _
    omega
  have hzero : ∀ v : UInt32, v / 10 = 0 ↔ v.toNat < 10 := by
    intro v
    have hdiv : (v / 10).toNat = v.toNat / 10 := UInt32.toNat_div v 10
    rw [← UInt32.toNat_inj, hdiv]
    change v.toNat / 10 = 0 ↔ _
    omega
  induction begin_ generalizing value digits with
  | zero =>
    have hlt : value.toNat < 10 := by simpa using h
    rw [decimalLoop, if_pos ((hzero value).mpr hlt), ← List.singleton_append, hdigit,
      Nat.mod_eq_of_lt hlt]
  | succ begin_ ih =>
    rw [decimalLoop]
    split_ifs with hq
    · have hlt := (hzero value).mp hq
      rw [← List.singleton_append, hdigit, Nat.mod_eq_of_lt hlt]
    · have hge : 10 ≤ value.toNat := not_lt.mp fun hlt => hq ((hzero value).mpr hlt)
      have hdiv : (value / 10).toNat = value.toNat / 10 := UInt32.toNat_div value 10
      have hrest : (value / 10).toNat < 10 ^ (begin_ + 1) := by
        rw [hdiv, Nat.div_lt_iff_lt_mul (by norm_num)]
        rwa [pow_succ] at h
      rw [ih hrest, hdiv, Nat.repr_eq_repr_append_repr hge, utf8_append, ← hdigit,
        List.append_assoc, List.singleton_append]

lemma decimal_eq (value : UInt32) : decimal value = utf8 value.toNat.repr := by
  have hlt : value.toNat < 10 ^ (9 + 1) := value.toNat_lt.trans (by norm_num)
  rw [decimal, decimalLoop_eq hlt, List.append_nil]

/-- A decimal digit. -/
def IsDigit (byte : UInt8) : Prop := 48 ≤ byte ∧ byte ≤ 57

instance (byte : UInt8) : Decidable (IsDigit byte) := inferInstanceAs (Decidable (_ ∧ _))

/-- The number that digits add to those before them. -/
def appendDigits (value : Nat) (digits : List UInt8) : Nat :=
  digits.foldl (fun value byte => value * 10 + (byte - 48).toNat) value

/-- A principal: a sign, digits with separators between them, and the number they stand for. Only
zero can be negative. -/
structure Denotes (name : List UInt8) (value : Nat) : Prop where
  spelled : ∃ sign digits, name = sign ++ digits ∧ sign ∈ [[], utf8 "+", utf8 "-"] ∧ digits ≠ [] ∧
    digits.head? ≠ some 0x5f ∧ digits.getLast? ≠ some 0x5f ∧
    (∀ b ∈ digits, b = 0x5f ∨ (IsDigit b ∧ (sign = utf8 "-" → b = 48))) ∧
    value = appendDigits 0 (digits.filter (· ≠ 0x5f))

lemma le_appendDigits (value : Nat) (digits : List UInt8) : value ≤ appendDigits value digits := by
  induction digits generalizing value with
  | nil => exact le_rfl
  | cons b digits ih =>
    have h := ih (value * 10 + (b - 48).toNat)
    change value ≤ appendDigits (value * 10 + (b - 48).toNat) digits
    omega

lemma principalStep_eq_ok {negative : Bool} {value value' : UInt32} {byte : UInt8}
    (h : byte ≠ 0x5f) : principalStep negative value byte = .ok value' ↔
      (IsDigit byte ∧ (negative = true → byte = 48)) ∧
        value'.toNat = value.toNat * 10 + (byte - 48).toNat := by
  rw [principalStep, if_neg h, ite_error_eq_ok]
  have hcheck : ¬ (!(48 ≤ byte && byte ≤ 57) || (negative && byte != 48)) = true ↔
      IsDigit byte ∧ (negative = true → byte = 48) := by
    simp [IsDigit]
  rw [hcheck]
  refine and_congr_right fun _ => ?_
  have hbyte : (byte - 48).toUInt32.toNat = (byte - 48).toNat := UInt8.toNat_toUInt32 _
  have hten : (10 : UInt32).toNat = 10 := rfl
  split_ifs with hfits
  · rw [Except.ok.injEq, ← UInt32.toNat_inj, UInt32.toNat_add, UInt32.toNat_mul, hbyte, hten]
    omega
  · have hlt := value'.toNat_lt
    exact iff_of_false (by simp) (by omega)

/-- The loop reads the digits as a number, and stops at one that does not fit. -/
lemma foldlM_principalStep {negative : Bool} {value value' : UInt32} {digits : List UInt8} :
    digits.foldlM (principalStep negative) value = .ok value' ↔
      (∀ b ∈ digits, b = 0x5f ∨ (IsDigit b ∧ (negative = true → b = 48))) ∧
        value'.toNat = appendDigits value.toNat (digits.filter (· ≠ 0x5f)) := by
  induction digits generalizing value with
  | nil =>
    simp only [List.foldlM_nil, List.not_mem_nil, false_implies, implies_true, List.filter_nil,
      true_and]
    rw [appendDigits, List.foldl_nil, UInt32.toNat_inj]
    exact ⟨fun h => (Except.ok.inj h).symm, fun h => congrArg Except.ok h.symm⟩
  | cons b digits ih =>
    rw [List.foldlM_cons, List.forall_mem_cons]
    by_cases hb : b = 0x5f
    · have hstep : principalStep negative value b = .ok value := if_pos hb
      rw [hstep, ok_bind, ih, List.filter_cons_of_neg (by simp [hb])]
      simp [hb]
    · rw [bind_eq_ok, List.filter_cons_of_pos (by simpa using hb)]
      change _ ↔ _ ∧ _ = appendDigits (value.toNat * 10 + (b - 48).toNat) _
      constructor
      · intro h
        obtain ⟨next, hnext, hrest⟩ := h
        obtain ⟨hdigit, hvalue⟩ := (principalStep_eq_ok hb).mp hnext
        obtain ⟨hdigits, hresult⟩ := ih.mp hrest
        exact ⟨⟨.inr hdigit, hdigits⟩, hvalue ▸ hresult⟩
      · intro h
        obtain ⟨⟨hdigit, hdigits⟩, hresult⟩ := h
        have hle := le_appendDigits (value.toNat * 10 + (b - 48).toNat) (digits.filter (· ≠ 0x5f))
        have hfits : value.toNat * 10 + (b - 48).toNat < 2 ^ 32 :=
          (hresult ▸ hle).trans_lt value'.toNat_lt
        have hnext : (UInt32.ofNat (value.toNat * 10 + (b - 48).toNat)).toNat
            = value.toNat * 10 + (b - 48).toNat := UInt32.toNat_ofNat_of_lt' hfits
        refine ⟨UInt32.ofNat (value.toNat * 10 + (b - 48).toNat),
          (principalStep_eq_ok hb).mpr ⟨hdigit.resolve_left hb, hnext⟩, ih.mpr ⟨hdigits, ?_⟩⟩
        rw [hnext, hresult]

lemma splitSign_append {sign digits : List UInt8} (hsign : sign ∈ [[], utf8 "+", utf8 "-"])
    (hdigits : digits.head? ≠ some 0x2b ∧ digits.head? ≠ some 0x2d) :
    splitSign (sign ++ digits) = (decide (sign = utf8 "-"), digits) := by
  simp only [List.mem_cons, List.not_mem_nil, or_false] at hsign
  rcases hsign with rfl | rfl | rfl
  · rw [List.nil_append]
    unfold splitSign
    split
    · simp at hdigits
    · simp at hdigits
    · rfl
  · rfl
  · rfl

/-- Every name splits into a sign and the rest. -/
lemma exists_splitSign (name : List UInt8) : ∃ sign ∈ [[], utf8 "+", utf8 "-"],
    name = sign ++ (splitSign name).2 ∧ (splitSign name).1 = decide (sign = utf8 "-") := by
  unfold splitSign
  split
  · exact ⟨utf8 "+", by simp, rfl, rfl⟩
  · exact ⟨utf8 "-", by simp, rfl, rfl⟩
  · exact ⟨[], by simp, rfl, rfl⟩

lemma isDigit_of_head {digits : List UInt8} {b : UInt8} {p : UInt8 → Prop}
    (h : ∀ b ∈ digits, b = 0x5f ∨ (IsDigit b ∧ p b)) (hb : ¬ IsDigit b) (hne : b ≠ 0x5f) :
    digits.head? ≠ some b := by
  intro hhead
  rcases h b (List.mem_of_mem_head? hhead) with heq | hdigit
  · exact hne heq
  · exact hb hdigit.1

/-- A principal is read exactly when it denotes a number that fits, and as that number. -/
theorem principal_eq_ok {name : List UInt8} {value : UInt32} :
    principal name = .ok value ↔ Denotes name value.toNat := by
  rw [principal, ite_error_eq_ok, foldlM_principalStep]
  constructor
  · intro h
    obtain ⟨hframe, hdigits, hvalue⟩ := h
    obtain ⟨sign, hsign, hname, hnegative⟩ := exists_splitSign name
    simp only [Bool.or_eq_true, not_or, List.isEmpty_iff, beq_iff_eq] at hframe
    refine ⟨sign, _, hname, hsign, hframe.1.1, hframe.1.2, hframe.2, fun b hb => ?_, hvalue⟩
    refine (hdigits b hb).imp_right (And.imp_right fun hzero hminus => hzero ?_)
    rw [hnegative, decide_eq_true hminus]
  · rintro ⟨sign, digits, rfl, hsign, hne, hhead, hlast, hdigits, hvalue⟩
    have hsplit := splitSign_append hsign
      ⟨isDigit_of_head hdigits (by decide) (by decide),
        isDigit_of_head hdigits (by decide) (by decide)⟩
    rw [hsplit]
    refine ⟨by simpa using ⟨⟨hne, hhead⟩, hlast⟩, fun b hb => ?_, hvalue⟩
    exact (hdigits b hb).imp_right (And.imp_right fun hzero hminus => hzero (by simpa using hminus))

lemma appendDigits_append (value : Nat) (xs ys : List UInt8) :
    appendDigits value (xs ++ ys) = appendDigits (appendDigits value xs) ys := List.foldl_append

/-- The usual spelling has only digits and denotes its number. -/
lemma digits_repr (n : Nat) : (∀ b ∈ utf8 n.repr, IsDigit b) ∧ utf8 n.repr ≠ [] ∧
    appendDigits 0 (utf8 n.repr) = n := by
  have hdigit : ∀ k : Fin 10, IsDigit (UInt8.ofNat (48 + k.val)) ∧
      (UInt8.ofNat (48 + k.val) - 48).toNat = k.val := by decide
  induction n using Nat.strong_induction_on with
  | _ n ih =>
    by_cases hlt : n < 10
    · obtain ⟨h, hvalue⟩ := hdigit ⟨n, hlt⟩
      rw [utf8_repr_of_lt hlt]
      refine ⟨by simpa using h, by simp, ?_⟩
      change 0 * 10 + (UInt8.ofNat (48 + n) - 48).toNat = n
      rw [hvalue, Nat.zero_mul, Nat.zero_add]
    · have hge : 10 ≤ n := not_lt.mp hlt
      have hmod : n % 10 < 10 := Nat.mod_lt n (by norm_num)
      obtain ⟨h, hvalue⟩ := hdigit ⟨n % 10, hmod⟩
      obtain ⟨hdigits, hne, hrest⟩ := ih (n / 10) (by omega)
      rw [Nat.repr_eq_repr_append_repr hge, utf8_append, utf8_repr_of_lt hmod]
      refine ⟨fun b hb => ?_, by simp, ?_⟩
      · rcases List.mem_append.mp hb with hb | hb
        · exact hdigits b hb
        · rw [List.mem_singleton.mp hb]
          exact h
      · rw [appendDigits_append, hrest]
        change n / 10 * 10 + (UInt8.ofNat (48 + n % 10) - 48).toNat = n
        rw [hvalue]
        exact Nat.div_add_mod' n 10

lemma isDigit_ne_separator {b : UInt8} (h : IsDigit b) : b ≠ 0x5f := by
  rintro rfl
  exact absurd h (by decide)

/-- A number is read back from its spelling. -/
lemma principal_decimal (value : UInt32) : principal (decimal value) = .ok value := by
  obtain ⟨hdigits, hne, hvalue⟩ := digits_repr value.toNat
  rw [principal_eq_ok, decimal_eq]
  have hplain : (utf8 value.toNat.repr).filter (· ≠ 0x5f) = utf8 value.toNat.repr :=
    List.filter_eq_self.mpr fun b hb => by simpa using isDigit_ne_separator (hdigits b hb)
  refine ⟨[], utf8 value.toNat.repr, rfl, by simp, hne, fun h => ?_, fun h => ?_, fun b hb => ?_, ?_⟩
  · exact isDigit_ne_separator (hdigits _ (List.mem_of_mem_head? h)) rfl
  · exact isDigit_ne_separator (hdigits _ (List.mem_of_mem_getLast? h)) rfl
  · exact .inr ⟨hdigits b hb, fun h => absurd h (by decide)⟩
  · rw [hplain, hvalue]

lemma decimal_injective : Function.Injective decimal := by
  intro a b h
  exact Except.ok.inj ((principal_decimal a).symm.trans (h ▸ principal_decimal b))

lemma validateAceName_decimal {kind : AceTag} (h : kind = .namedUser ∨ kind = .namedGroup)
    (value : UInt32) : Metadata.validateAceName kind (decimal value) = .ok () := by
  obtain ⟨hdigits, hne, -⟩ := digits_repr value.toNat
  have htext : isUtf8 (decimal value) = true := isUtf8_iff.mpr ⟨_, decimal_eq value⟩
  have hplain : ∀ b, ¬ IsDigit b → b ∉ decimal value := by
    intro b hb hmem
    rw [decimal_eq] at hmem
    exact hb (hdigits b hmem)
  have hslash := hplain 0x2f (by decide)
  have hnul := hplain 0 (by decide)
  rw [← decimal_eq] at hne
  rcases h with rfl | rfl
  all_goals simp [Metadata.validateAceName, htext, hslash, hnul, hne]

/-! ### The two conversions -/

/-- The principal of an entry, where it has one. -/
def entryId (a : Ace) : Except Error UInt32 :=
  match a.tag with
  | .owner | .group | .everyone | .mask => .ok noId
  | .namedUser | .namedGroup => principal a.name

/-- `permissions.contains(..)` for a single bit, shifted into its place. -/
def permissionBit (permissions : Permissions) (bit shift : UInt8) : UInt16 :=
  (if permissions.bits &&& bit = bit then 1 else 0) <<< shift.toUInt16

def kernelPermission (permissions : Permissions) : UInt16 :=
  permissionBit permissions 1 2 ||| permissionBit permissions 2 1 ||| permissionBit permissions 4 0

def kernelEntry (a : Ace) : Except Error Record := do
  let id ← entryId a
  .ok ⟨kernelTag a.tag, kernelPermission a.permissions, id⟩

/-- The order of `sort_unstable_by_key`. -/
def Record.Le (a b : Record) : Prop := ¬ b.Before a

def encodePortable (sort : Sorter Record.Le) (m : CanonicalMetadata) : Except Error (List UInt8) :=
  if m.metadata.aces.isEmpty then .ok []
  else do
    let entries ← m.metadata.aces.mapM kernelEntry
    let entries := sort.run entries
    ensure (entries.length * 8 + 4 < 2 ^ 64) .invalidAcl
    let bytes := toLeBytes (2 : UInt32) ++ entries.flatMap Record.wire
    validate bytes
    .ok bytes

/-- The low byte of the permissions, its bits in the other order. -/
def portablePermission (permission : UInt8) : UInt8 :=
  ((permission &&& 4) >>> (2 : UInt8)) ||| (permission &&& 2) ||| ((permission &&& 1) <<< (2 : UInt8))

def portableName (kind : AceTag) (id : UInt32) : List UInt8 :=
  match kind with
  | .namedUser | .namedGroup => decimal id
  | .owner | .group | .mask | .everyone => []

def portableEntry (r : Record) : Except Error Ace := do
  let kind ← tag r.tag
  let permissions ← (Permissions.fromBits (portablePermission r.permission.toUInt8)).mapError
    fun _ => Error.invalidAcl
  .ok ⟨kind, permissions, portableName kind r.id⟩

def PosixAcl.portable (acl : PosixAcl) : Except Error (List Ace) :=
  if acl.bytes.isEmpty then .ok []
  else ((chunksExact 8 (acl.bytes.drop 4)).map Record.ofChunk).mapM portableEntry

lemma portablePermission_valid (b : UInt8) : portablePermission b &&& ~~~7 = 0 := by
  have hall : ∀ n : Fin 256, portablePermission (UInt8.ofNat n.val) &&& ~~~7 = 0 := by decide +kernel
  have h := hall ⟨b.toNat, b.toNat_lt⟩
  rwa [UInt8.ofNat_toNat] at h

/-- The permissions of an entry. -/
def permissionsOf (r : Record) : Permissions :=
  ⟨portablePermission r.permission.toUInt8, portablePermission_valid _⟩

lemma kernelPermission_permissionsOf {r : Record} (h : r.permission ≤ 7) :
    kernelPermission (permissionsOf r) = r.permission := by
  have hall : ∀ n : Fin 8, kernelPermission ⟨portablePermission (UInt16.ofNat n.val).toUInt8,
      portablePermission_valid _⟩ = UInt16.ofNat n.val := by decide
  have hlt : r.permission.toNat < 8 := Nat.lt_succ_of_le (UInt16.le_iff_toNat_le.mp h)
  have hn := hall ⟨r.permission.toNat, hlt⟩
  simp only [UInt16.ofNat_toNat] at hn
  exact hn

lemma kernelPermission_spec (p : Permissions) :
    portablePermission (kernelPermission p).toUInt8 = p.bits ∧ kernelPermission p ≤ 7 := by
  have hall : ∀ n : Fin 256, ∀ h : UInt8.ofNat n.val &&& ~~~7 = 0,
      portablePermission (kernelPermission ⟨UInt8.ofNat n.val, h⟩).toUInt8 = UInt8.ofNat n.val ∧
        kernelPermission ⟨UInt8.ofNat n.val, h⟩ ≤ 7 := by decide +kernel
  have hn := hall ⟨p.bits.toNat, p.bits.toNat_lt⟩ (by simpa using p.valid)
  simp only [UInt8.ofNat_toNat] at hn
  exact hn

/-! ### From the kernel and back -/

/-- The portable tag of an entry that has one. -/
def kindOf (r : Record) : AceTag := (tag r.tag).toOption.getD .owner

def aceOf (r : Record) : Ace := ⟨kindOf r, permissionsOf r, portableName (kindOf r) r.id⟩

lemma Record.Proper.kernelTag_kindOf {r : Record} (h : r.Proper) : kernelTag (kindOf r) = r.tag := by
  obtain ⟨kind, hkind⟩ := mem_tags_iff.mp h.tag
  rw [kindOf, tag_eq_ok.mpr hkind, hkind]
  rfl

lemma portableEntry_eq {r : Record} (h : r.Proper) : portableEntry r = .ok (aceOf r) := by
  have htag : tag r.tag = .ok (kindOf r) := tag_eq_ok.mpr h.kernelTag_kindOf.symm
  have hpermissions : Permissions.fromBits (portablePermission r.permission.toUInt8)
      = .ok (permissionsOf r) := Permissions.fromBits_eq_ok.mpr rfl
  rw [portableEntry, htag, ok_bind, hpermissions]
  rfl

lemma named_iff (r : Record) (h : r.Proper) :
    r.Named ↔ kindOf r = .namedUser ∨ kindOf r = .namedGroup := by
  rw [Record.Named, ← h.kernelTag_kindOf]
  generalize kindOf r = kind
  cases kind <;> simp [kernelTag]

lemma entryId_aceOf {r : Record} (h : r.Proper) : entryId (aceOf r) = .ok r.id := by
  have hnamed := named_iff r h
  have hunnamed := h.unnamed
  rw [entryId, aceOf]
  cases hkind : kindOf r with
  | owner | group | everyone | mask =>
    rw [hunnamed (by simp [hnamed, hkind])]
  | namedUser | namedGroup => exact principal_decimal r.id

/-- An entry is found again behind its portable form. -/
lemma kernelEntry_aceOf {r : Record} (h : r.Proper) : kernelEntry (aceOf r) = .ok r := by
  rw [kernelEntry, entryId_aceOf h, ok_bind]
  change Except.ok (Record.mk (kernelTag (kindOf r)) (kernelPermission (permissionsOf r)) r.id) = _
  rw [h.kernelTag_kindOf, kernelPermission_permissionsOf h.permission]

lemma mapM_eq_map {ε α β : Type} {f : α → Except ε β} {g : α → β} {xs : List α}
    (h : ∀ x ∈ xs, f x = .ok (g x)) : xs.mapM f = .ok (xs.map g) := by
  rw [mapM_eq_ok, List.forall₂_map_right_iff, List.forall₂_same]
  exact h

/-- Every accepted list converts. -/
lemma portable_framed {acl : PosixAcl} {records : List Record}
    (hbytes : acl.bytes = toLeBytes (2 : UInt32) ++ records.flatMap Record.wire)
    (h : WellFormed records) : acl.portable = .ok (records.map aceOf) := by
  have hempty : acl.bytes.isEmpty = false := by
    rw [hbytes]
    rfl
  have hversion : (toLeBytes (2 : UInt32)).length = 4 := rfl
  rw [PosixAcl.portable, hempty, hbytes, List.drop_left' hversion, chunksExact_flatMap]
  exact mapM_eq_map fun r hr => portableEntry_eq (h.proper r hr)

lemma length_decimalLoop_le (begin_ : Nat) (value : UInt32) (digits : List UInt8) :
    (decimalLoop begin_ value digits).length ≤ begin_ + digits.length := by
  induction begin_ generalizing value digits with
  | zero => simp [decimalLoop]
  | succ begin_ ih =>
    rw [decimalLoop]
    split_ifs
    · rw [List.length_cons]
      omega
    · refine (ih _ _).trans ?_
      rw [List.length_cons]
      omega

lemma aceOf_valid (r : Record) :
    Metadata.validateAceName (aceOf r).tag (aceOf r).name = .ok () ∧
      (aceOf r).name.length < 2 ^ 32 := by
  have hlength := length_decimalLoop_le 10 r.id []
  rw [aceOf]
  cases hkind : kindOf r with
  | owner | group | everyone | mask => exact ⟨rfl, by simp [portableName]⟩
  | namedUser => exact ⟨validateAceName_decimal (.inl rfl) r.id, hlength.trans_lt (by norm_num)⟩
  | namedGroup => exact ⟨validateAceName_decimal (.inr rfl) r.id, hlength.trans_lt (by norm_num)⟩

/-- Different entries have different portable keys. -/
lemma aceOf_key_ne {a b : Record} (ha : a.Proper) (hb : b.Proper) (hab : a.Before b) :
    ((aceOf a).tag, (aceOf a).name) ≠ ((aceOf b).tag, (aceOf b).name) := by
  intro heq
  obtain ⟨hkind, hname⟩ := Prod.mk.inj heq
  have hkind : kindOf a = kindOf b := hkind
  have htag : a.tag = b.tag := by rw [← ha.kernelTag_kindOf, ← hb.kernelTag_kindOf, hkind]
  have hid : a.id = b.id := by
    by_cases hnamed : a.Named
    · have hdecimal : decimal a.id = decimal b.id := by
        change portableName (kindOf a) a.id = portableName (kindOf b) b.id at hname
        rw [← hkind] at hname
        rcases (named_iff a ha).mp hnamed with h | h <;> rw [h] at hname <;> exact hname
      exact decimal_injective hdecimal
    · have hnamed' : ¬ b.Named := by rwa [Record.Named, ← htag]
      rw [ha.unnamed hnamed, hb.unnamed hnamed']
  rcases hab with hlt | ⟨-, hlt⟩
  · rw [htag] at hlt
    exact absurd hlt (UInt16.lt_irrefl _)
  · rw [hid] at hlt
    exact absurd hlt (UInt32.lt_irrefl _)

lemma Record.Before.le {a b : Record} (h : a.Before b) : a.Le b := by
  simp only [Record.Le, Record.Before, UInt16.lt_iff_toNat_lt, UInt32.lt_iff_toNat_lt,
    ← UInt16.toNat_inj] at *
  omega

/-- Entries in strict order are what any sort makes of them. -/
lemma sort_eq (sort : Sorter Record.Le) {entries records : List Record}
    (hperm : entries.Perm records) (hordered : records.Pairwise Record.Before) :
    sort.run entries = records := by
  have hsame := (sort.perm entries).trans hperm
  have hsymm : Std.Symm fun a b : Record => a.Before b ∨ b.Before a := ⟨fun _ _ => Or.symm⟩
  have htotal := (hordered.imp fun h => .inl h : records.Pairwise
    fun a b => a.Before b ∨ b.Before a).forall
  refine hsame.eq_of_pairwise (fun a b ha hb hab hba => ?_) (sort.sorted entries)
    (hordered.imp Record.Before.le)
  by_contra hne
  rcases htotal (hsame.subset ha) hb hne with hlt | hlt
  · exact hba hlt
  · exact hab hlt

/-- The portable entries of an accepted list can be normalized together with any other families. -/
lemma normalizable_aces {m : Metadata} {records : List Record}
    (hm : { m with aces := [] }.Normalizable) (h : WellFormed records)
    (hcount : records.length < 2 ^ 32) :
    { m with aces := records.map aceOf }.Normalizable :=
  { hm with
    aceCount := by simpa using hcount
    aces := by
      intro a ha
      obtain ⟨r, -, rfl⟩ := List.mem_map.mp ha
      exact aceOf_valid r
    acesDistinct := by
      rw [List.map_map]
      refine List.pairwise_map.mpr (List.Pairwise.imp_of_mem ?_ h.ordered)
      exact fun ha hb hab => aceOf_key_ne (h.proper _ ha) (h.proper _ hb) hab }

/-- Whatever the order of the portable entries, encoding them gives the list back. -/
lemma encodePortable_of_perm {sort : Sorter Record.Le} {c : CanonicalMetadata}
    {records : List Record} (h : WellFormed records)
    (hperm : c.metadata.aces.Perm (records.map aceOf)) :
    encodePortable sort c = .ok (toLeBytes (2 : UInt32) ++ records.flatMap Record.wire) := by
  have hentries : List.Forall₂ (fun a r => kernelEntry a = .ok r) (records.map aceOf) records := by
    rw [List.forall₂_map_left_iff, List.forall₂_same]
    exact fun r hr => kernelEntry_aceOf (h.proper r hr)
  obtain ⟨entries, hmap, hsame⟩ := List.perm_comp_forall₂ hperm hentries
  have hsorted := sort_eq sort hsame h.ordered
  have hne : c.metadata.aces.isEmpty = false := by
    obtain ⟨r, hr, -⟩ := h.owner
    have hmem := hperm.mem_iff.mpr (List.mem_map_of_mem hr)
    cases haces : c.metadata.aces with
    | nil => simp [haces] at hmem
    | cons a aces => rfl
  have hlength : records.length * 8 + 4 < 2 ^ 64 := by
    have hcount := c.isValid.aceCount
    rw [hperm.length_eq, List.length_map] at hcount
    omega
  have hvalid : validate (toLeBytes (2 : UInt32) ++ records.flatMap Record.wire) = .ok () :=
    validate_eq_ok.mpr (.inr ⟨records, rfl, h⟩)
  rw [encodePortable, hne, mapM_eq_ok.mpr hmap]
  dsimp only
  rw [ok_bind, hsorted, (ensure_eq_ok.mpr hlength : ensure _ _ = .ok ()),
    ok_bind, hvalid]
  rfl

/-! ### From portable entries and back -/

/-- The same entry, its principal spelled as a plain decimal number. -/
structure Respelled (a a' : Ace) : Prop where
  tag : a'.tag = a.tag
  permissions : a'.permissions = a.permissions
  named : a.tag = .namedUser ∨ a.tag = .namedGroup →
    ∃ id : UInt32, Denotes a.name id.toNat ∧ a'.name = utf8 id.toNat.repr
  unnamed : ¬ (a.tag = .namedUser ∨ a.tag = .namedGroup) → a'.name = a.name

lemma kindOf_kernelTag {kind : AceTag} {permission : UInt16} {id : UInt32} :
    kindOf ⟨kernelTag kind, permission, id⟩ = kind := by
  rw [kindOf, tag_eq_ok.mpr rfl]
  rfl

lemma respelled_aceOf {a : Ace} {r : Record} (hvalid : Metadata.validateAceName a.tag a.name = .ok ())
    (h : kernelEntry a = .ok r) : Respelled a (aceOf r) := by
  obtain ⟨id, hid, hr⟩ := bind_eq_ok.mp h
  obtain rfl := Except.ok.inj hr
  obtain ⟨hbits, -⟩ := kernelPermission_spec a.permissions
  have hpermissions : permissionsOf ⟨kernelTag a.tag, kernelPermission a.permissions, id⟩
      = a.permissions := by
    cases hp : a.permissions
    simp only [permissionsOf, Permissions.mk.injEq]
    rwa [hp] at hbits
  refine ⟨kindOf_kernelTag, hpermissions, fun hnamed => ?_, fun hunnamed => ?_⟩
  · have hprincipal : principal a.name = .ok id := by
      rw [entryId] at hid
      rcases hnamed with htag | htag <;> rw [htag] at hid <;> exact hid
    refine ⟨id, principal_eq_ok.mp hprincipal, ?_⟩
    change portableName (kindOf _) id = _
    rw [kindOf_kernelTag, ← decimal_eq]
    rcases hnamed with htag | htag <;> rw [htag] <;> rfl
  · change portableName (kindOf _) id = _
    rw [kindOf_kernelTag]
    cases htag : a.tag <;> simp_all [portableName, Metadata.validateAceName]

/-- What encoding returns is an accepted list, and its portable entries are those of the record. -/
lemma portable_of_encodePortable {sort : Sorter Record.Le} {m : CanonicalMetadata}
    {bytes : List UInt8} (h : encodePortable sort m = .ok bytes) :
    ∃ acl aces respelled, PosixAcl.new bytes = .ok acl ∧ acl.portable = .ok aces ∧
      respelled.Perm aces ∧ List.Forall₂ Respelled m.metadata.aces respelled := by
  rw [encodePortable] at h
  split_ifs at h with hempty
  · obtain rfl := Except.ok.inj h
    rw [List.isEmpty_iff.mp hempty]
    exact ⟨⟨[], rfl⟩, [], [], PosixAcl.new_eq_ok.mpr rfl, rfl, .refl _, .nil⟩
  · obtain ⟨entries, hentries, h⟩ := bind_eq_ok.mp h
    obtain ⟨_, -, h⟩ := bind_eq_ok.mp h
    obtain ⟨_, hvalid, h⟩ := bind_eq_ok.mp h
    obtain rfl := Except.ok.inj h
    have hwellFormed : WellFormed (sort.run entries) := by
      rw [validate_framed] at hvalid
      exact scan_eq_ok.mp hvalid
    refine ⟨⟨_, hvalid⟩, (sort.run entries).map aceOf, entries.map aceOf,
      PosixAcl.new_eq_ok.mpr rfl, portable_framed rfl hwellFormed,
      (sort.perm entries).symm.map aceOf, ?_⟩
    rw [List.forall₂_map_right_iff]
    have hnames : ∀ a ∈ m.metadata.aces, Metadata.validateAceName a.tag a.name = .ok () :=
      fun a ha => (m.isValid.normalizable.aces a ha).1
    refine List.Forall₂.imp ?_
      ((List.forall₂_and_left _ _).mpr ⟨hnames, mapM_eq_ok.mp hentries⟩)
    exact fun a r h => respelled_aceOf h.1 h.2

/-- Converting between kernel entries and portable ones loses nothing, in either direction. -/
theorem portable_lossless (sorts : Metadata.Sorts) (sort : Sorter Record.Le) :
    (∀ bytes acl, PosixAcl.new bytes = .ok acl → ∃ aces, acl.portable = .ok aces ∧
      ∀ m : Metadata, aces.length < 2 ^ 32 → { m with aces := [] }.Normalizable →
        ∃ c, CanonicalMetadata.normalize sorts { m with aces } Metadata.Omit.default = .ok c ∧
          encodePortable sort c = .ok bytes) ∧
    (∀ (m : CanonicalMetadata) bytes, encodePortable sort m = .ok bytes →
      ∃ acl aces respelled, PosixAcl.new bytes = .ok acl ∧ acl.portable = .ok aces ∧
        respelled.Perm aces ∧ List.Forall₂ Respelled m.metadata.aces respelled) := by
  refine ⟨fun bytes acl hacl => ?_, fun m bytes h => portable_of_encodePortable h⟩
  obtain rfl := PosixAcl.new_eq_ok.mp hacl
  rcases validate_eq_ok.mp acl.valid with hempty | ⟨records, hbytes, hrecords⟩
  · have hportable : acl.portable = .ok [] := by
      rw [PosixAcl.portable, hempty]
      rfl
    refine ⟨[], hportable, fun m _ hm => ?_⟩
    obtain ⟨c, hc, hnormalized⟩ := CanonicalMetadata.exists_normalized sorts hm
    refine ⟨c, hc, ?_⟩
    have hnone : c.metadata.aces = [] := hnormalized.aces.eq_nil
    rw [encodePortable, hnone, hempty]
    rfl
  · refine ⟨records.map aceOf, portable_framed hbytes hrecords, fun m hcount hm => ?_⟩
    rw [List.length_map] at hcount
    obtain ⟨c, hc, hnormalized⟩ :=
      CanonicalMetadata.exists_normalized sorts (normalizable_aces hm hrecords hcount)
    refine ⟨c, hc, ?_⟩
    rw [hbytes]
    exact encodePortable_of_perm hrecords hnormalized.aces

end LinuxAcl

end Difz
