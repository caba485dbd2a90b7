import Difz.Metadata.Decode
import Difz.Metadata.Sorted
import Difz.Wire.Simulation
import Difz.Zig.Metadata

/-!
# Metadata records of the native program

The checks, the reader and the decoder of `src/metadata.zig`. They are written field by field and
check by check, in another order of fields and with other tests than those of the Rust crate;
`decodeCanonical_eq` shows that nothing comes of the difference.
-/

namespace Difz

open Wire Metadata

/-! ### Checks with one error -/

/-- A loop that stops at the first offending item with an error that does not depend on it. -/
lemma forM_ite_error {ε α : Type} {e : ε} {p : α → Prop} [DecidablePred p] (xs : List α) :
    (xs.forM fun x => if p x then .error e else .ok ())
      = (if ∃ x ∈ xs, p x then .error e else .ok () : Except ε Unit) := by
  induction xs with
  | nil => rfl
  | cons x xs ih =>
    change ((if p x then Except.error e else Except.ok ()) >>= fun _ => xs.forM _) = _
    rw [ih]
    by_cases hx : p x
    · have hex : ∃ y ∈ x :: xs, p y := ⟨x, by simp, hx⟩
      rw [if_pos hx, if_pos hex, error_bind]
    · rw [if_neg hx, ok_bind]
      simp [hx]

lemma ite_error_bind {ε α : Type} {e : ε} {p : Prop} [Decidable p] {x : Except ε Unit}
    {y : Except ε α} : ((if p then .error e else x) >>= fun _ => y)
      = if p then .error e else x >>= fun _ => y := by
  split_ifs <;> rfl

namespace Zig

/-- `value orelse return e`. -/
def orReturn {ε α : Type} (value : Option α) (e : ε) : Except ε α :=
  match value with
  | some x => .ok x
  | none => .error e

/-! ### Names -/

/-- `std.ascii.startsWithIgnoreCase`. -/
def startsWithIgnoreCase (haystack needle : List UInt8) : Bool :=
  if needle.length > haystack.length then false
  else eqIgnoreAsciiCase (haystack.take needle.length) needle

def validateLogical (name : List UInt8) : Except Metadata.Error Unit :=
  if name.length = 0 then .error .emptyName
  else if name.length > 127 then .error .invalidLogicalName
  else do
    name.forM fun byte =>
      if byte < 0x20 ∨ byte = 0x7f then .error .invalidLogicalName
      else if forbidden.contains byte then .error .invalidLogicalName
      else .ok ()
    if !isUtf8 name then .error .invalidLogicalName
    else if name.head? = some 0x20 ∨ name.getLast? = some 0x20 ∨ name.getLast? = some 0x2e then
      .error .invalidLogicalName
    else if startsWithIgnoreCase name (utf8 "user.") then .error .invalidLogicalName
    else if startsWithIgnoreCase name (utf8 "com.apple.") then .error .invalidLogicalName
    else if startsWithIgnoreCase name (utf8 "$") then .error .invalidLogicalName
    else if eqIgnoreAsciiCase name (utf8 "zone.identifier") then .error .invalidLogicalName
    else .ok ()

def validateRaw (name : List UInt8) : Except Metadata.Error Unit :=
  if name.length = 0 then .error .emptyName
  else if name.length > 255 then .error .invalidRawName
  else if name.contains 0 then .error .invalidRawName
  else if name.contains 0x2f ∨ name.contains 0x5c then .error .invalidRawName
  else .ok ()

def validateHardlink (path : List UInt8) : Except Metadata.Error Unit :=
  if path.length = 0 ∨ path.length > 4096 then .error .invalidHardlink
  else if !isUtf8 path then .error .invalidHardlink
  else if path.head? = some 0x2f ∨ path.contains 0x5c then .error .invalidHardlink
  else if path.contains 0 then .error .invalidHardlink
  else if path.length ≥ 2 ∧ path.head?.any isAsciiAlphabetic ∧ path[1]? = some 0x3a then
    .error .invalidHardlink
  else (path.splitOn 0x2f).forM fun part =>
    if part.length = 0 ∨ part = utf8 "." ∨ part = utf8 ".." then .error .invalidHardlink
    else .ok ()

def validateAce (ace : Ace) : Except Metadata.Error Unit :=
  if ace.tag = .namedUser ∨ ace.tag = .namedGroup then
    if ace.name.length = 0 ∨ !isUtf8 ace.name then .error .invalidAceName
    else if ace.name.contains 0x2f ∨ ace.name.contains 0 then .error .invalidAceName
    else .ok ()
  else if ace.name.length ≠ 0 then .error .invalidAceName
  else .ok ()

lemma startsWithIgnoreCase_eq (name pre : List UInt8) : startsWithIgnoreCase name pre
    = (pre.length ≤ name.length && eqIgnoreAsciiCase (name.take pre.length) pre) := by
  rw [startsWithIgnoreCase]
  by_cases h : pre.length ≤ name.length
  · simp [h]
  · simp [h, not_le.mp h]

lemma validateLogical_eq (name : List UInt8) :
    validateLogical name = Metadata.validateLogicalName name := by
  simp only [validateLogical, validateLogicalName, ← ite_or, forM_ite_error, ite_error_bind,
    ok_bind, startsWithIgnoreCase_eq]
  refine if_congr ?_ rfl (if_congr ?_ rfl rfl)
  · simp
  · simp [or_assoc]

lemma validateRaw_eq (name : List UInt8) : validateRaw name
    = if name.isEmpty then .error .emptyName
      else if name.length > 255 || name.any (fun byte => byte == 0 || byte == 0x2f || byte == 0x5c)
      then .error .invalidRawName else .ok () := by
  simp only [validateRaw, ← ite_or]
  refine if_congr ?_ rfl (if_congr ?_ rfl rfl)
  · simp
  · simp [and_or_left, exists_or, or_assoc]

lemma validateHardlink_eq (path : List UInt8) :
    validateHardlink path = Metadata.validateHardlink path := by
  simp only [validateHardlink, Metadata.validateHardlink, ← ite_or, forM_ite_error]
  refine if_congr ?_ rfl rfl
  have hhead : path.head? = some 0x2f ↔ (utf8 "/").isPrefixOf path = true := by
    rw [show utf8 "/" = [0x2f] from rfl]
    cases path with
    | nil => simp
    | cons b rest =>
      rw [List.head?_cons, Option.some.injEq, List.isPrefixOf_cons_cons, Bool.and_eq_true, beq_iff_eq,
        eq_comm]
      simp
  rw [hhead]
  simp [or_assoc, and_assoc]

lemma validateAce_eq (ace : Ace) : validateAce ace = Metadata.validateAceName ace.tag ace.name := by
  obtain ⟨tag, permissions, name⟩ := ace
  cases tag <;> simp [validateAce, validateAceName, ← ite_or, or_assoc]

/-! ### Order -/

def xattrLess (left right : Xattr) : Bool :=
  if left.class_ ≠ right.class_ then left.class_.tag < right.class_.tag
  else compare left.name right.name == .lt

def aceLess (left right : Ace) : Bool :=
  if left.tag ≠ right.tag then left.tag.tag < right.tag.tag
  else compare left.name right.name == .lt

/-- Comparing tags and then names is comparing keys. -/
lemma tagLess_eq {τ : Type} [DecidableEq τ] {tag : τ → UInt8} (hinj : Function.Injective tag)
    (s t : τ) (m n : List UInt8) :
    (if s ≠ t then decide (tag s < tag t) else compare m n == .lt)
      = (compare (tag s :: m) (tag t :: n) == .lt) := by
  rw [List.compare_cons_cons]
  by_cases h : s = t
  · subst h
    simp
  · rw [if_pos h, Bool.eq_iff_iff, decide_eq_true_eq, beq_iff_eq, Ordering.then_eq_lt,
      Std.compare_eq_lt]
    refine (or_iff_left fun hx => h (hinj ?_)).symm
    exact Std.compare_eq_iff_eq.mp hx.1

lemma xattrLess_eq (left right : Xattr) :
    xattrLess left right = (compare left.key right.key == .lt) :=
  tagLess_eq XattrClass.tag_injective _ _ _ _

lemma aceLess_eq (left right : Ace) :
    aceLess left right = (compare left.key right.key == .lt) :=
  tagLess_eq AceTag.tag_injective _ _ _ _

/-! ### Validation -/

/-- The name of an attribute under the rules of its class. -/
def validateName (x : Xattr) : Except Metadata.Error Unit :=
  if isTransportName x.name then .error .reservedTransportName
  else match x.class_ with
    | .logical => validateLogical x.name
    | .raw => validateRaw x.name

def checkXattr (previous : Option Xattr) (x : Xattr) : Except Metadata.Error Unit := do
  validateName x
  match previous with
  | none => .ok ()
  | some p =>
    if p.class_ = x.class_ ∧ p.name = x.name then .error .duplicateXattr
    else if !xattrLess p x then .error .badMetadata
    else .ok ()

def checkAce (previous : Option Ace) (a : Ace) : Except Metadata.Error Unit := do
  validateAce a
  match previous with
  | none => .ok ()
  | some p =>
    if p.tag = a.tag ∧ p.name = a.name then .error .duplicateAce
    else if !aceLess p a then .error .badMetadata
    else .ok ()

def checkNativeAcl (nativeAcl : Option NativeAcl) : Except Metadata.Error Unit :=
  match nativeAcl with
  | some acl => if acl.bytes.length = 0 then .error .emptyNativeAcl else .ok ()
  | none => .ok ()

def checkHardlinkTo (hardlinkTo : Option (List UInt8)) : Except Metadata.Error Unit :=
  match hardlinkTo with
  | some path => validateHardlink path
  | none => .ok ()

/-- The loop over the extents carries the end of the one before. -/
def validateHoles (previousEnd : Option Nat) : List Hole → Except Metadata.Error Unit
  | [] => .ok ()
  | hole :: holes =>
    if hole.length = 0 then .error .zeroLengthHole
    else if hole.offset.toNat + hole.length.toNat ≥ 2 ^ 64 then .error .holeOverflow
    else if previousEnd.any (fun value => hole.offset.toNat ≤ value) then .error .badMetadata
    else validateHoles (some (hole.offset.toNat + hole.length.toNat)) holes

def validateCanonical (m : Metadata) : Except Metadata.Error Unit := do
  forPrevious checkXattr none m.xattrs
  forPrevious checkAce none m.aces
  checkNativeAcl m.nativeAcl
  validateHoles none m.holes
  checkHardlinkTo m.hardlinkTo

lemma validateName_eq (x : Xattr) : validateName x = validateXattrName x.class_ x.name := by
  obtain ⟨class_, name, value⟩ := x
  refine if_congr Iff.rfl rfl ?_
  cases class_ with
  | logical =>
    dsimp only
    rw [validateLogical_eq, validateLogicalName]
    split_ifs <;> rfl
  | raw => exact validateRaw_eq name

lemma checkXattr_eq (previous : Option Xattr) {x : Xattr} (hx : x.value.length < 2 ^ 32) :
    checkXattr previous x = Metadata.checkXattr previous x := by
  unfold checkXattr Metadata.checkXattr
  rw [wireLength_eq_ok.mpr hx, ok_bind, validateName_eq]
  refine congrArg _ (funext fun _ => ?_)
  cases previous with
  | none => rfl
  | some p =>
    refine if_congr ?_ rfl (if_congr ?_ rfl rfl)
    · simp [Xattr.key, XattrClass.tag_injective.eq_iff]
    · simp [xattrLess_eq]

lemma checkAce_eq (previous : Option Ace) {a : Ace} (ha : a.name.length < 2 ^ 32) :
    checkAce previous a = Metadata.checkAce previous a := by
  unfold checkAce Metadata.checkAce
  rw [wireLength_eq_ok.mpr ha, ok_bind, validateAce_eq]
  refine congrArg _ (funext fun _ => ?_)
  cases previous with
  | none => rfl
  | some p =>
    refine if_congr ?_ rfl (if_congr ?_ rfl rfl)
    · simp [Ace.key, AceTag.tag_injective.eq_iff]
    · simp [aceLess_eq]

lemma validateHoles_eq (previous : Option Hole) (holes : List Hole) :
    validateHoles (previous.map Hole.end_) holes = forPrevious Metadata.checkHole previous holes := by
  induction holes generalizing previous with
  | nil => rfl
  | cons hole holes ih =>
    unfold validateHoles forPrevious Metadata.checkHole
    rw [ite_error_bind, ite_error_bind]
    refine if_congr Iff.rfl rfl (if_congr Iff.rfl rfl ?_)
    have ih' := ih (some hole)
    rw [Option.map_some, Hole.end_] at ih'
    cases previous with
    | none => exact ih'
    | some p =>
      dsimp only
      rw [ite_error_bind, ok_bind, ih']
      exact if_congr (by simp [Hole.end_]) rfl rfl

lemma forPrevious_congr {ε α : Type} {check check' : Option α → α → Except ε Unit} {p : Option α}
    {xs : List α} (h : ∀ q, ∀ x ∈ xs, check q x = check' q x) :
    forPrevious check p xs = forPrevious check' p xs := by
  induction xs generalizing p with
  | nil => rfl
  | cons x xs ih =>
    rw [forPrevious, forPrevious, h p x (by simp), ih fun q y hy => h q y (by simp [hy])]

/-- What is left of validation after reading is the same in both programs. -/
lemma validateCanonical_eq {m : Metadata} (h : m.Fits) : validateCanonical m = m.validate := by
  have hxattrs : forPrevious checkXattr none m.xattrs
      = forPrevious Metadata.checkXattr none m.xattrs :=
    forPrevious_congr fun q x hx => checkXattr_eq q (h.xattrs.2 x hx).2
  have haces : forPrevious checkAce none m.aces = forPrevious Metadata.checkAce none m.aces :=
    forPrevious_congr fun q a ha => checkAce_eq q (h.aces.2 a ha)
  have hacl : checkNativeAcl m.nativeAcl = Metadata.checkNativeAcl m.nativeAcl := by
    cases hm : m.nativeAcl with
    | none => rfl
    | some acl =>
      rw [Metadata.checkNativeAcl, wireLength_eq_ok.mpr (h.nativeAcl acl hm)]
      exact if_congr (by simp) rfl rfl
  have htimes : checkTimes m.times = .ok () := by
    simp only [checkTimes, ite_error_eq_ok, List.any_eq_true, decide_eq_true_eq, not_exists,
      not_and, ge_iff_le, UInt32.not_le, and_true]
    exact h.times
  have hholes : validateHoles none m.holes = forPrevious Metadata.checkHole none m.holes :=
    validateHoles_eq none m.holes
  have hlink : checkHardlinkTo m.hardlinkTo = Metadata.checkHardlink m.hardlinkTo := by
    cases m.hardlinkTo with
    | none => rfl
    | some path => exact validateHardlink_eq path
  rw [validateCanonical, validate, wireLength_eq_ok.mpr h.xattrs.1, wireLength_eq_ok.mpr h.aces.1,
    wireLength_eq_ok.mpr h.holes, htimes, hxattrs, haces, hacl, hholes, hlink]
  rfl

/-! ### The reader -/

namespace Cursor

def take (len : Nat) : Reader Metadata.Error (List UInt8) := Reader.take .truncatedMetadata len

def int (α : Type) [Word α] : Reader Metadata.Error α := Reader.word .truncatedMetadata α

def count (minimumRecordBytes : Nat) : Reader Metadata.Error Nat :=
  Reader.count .truncatedMetadata minimumRecordBytes

end Cursor

open Zig.Cursor (take int)

/-- `std.enums.fromInt(XattrClass, _)`, and so for the other enumerations. -/
def xattrClassFromInt : UInt8 → Option XattrClass
  | 1 => some .logical
  | 2 => some .raw
  | _ => none

def aceTagFromInt : UInt8 → Option AceTag
  | 1 => some .owner
  | 2 => some .group
  | 3 => some .everyone
  | 4 => some .namedUser
  | 5 => some .namedGroup
  | 6 => some .mask
  | _ => none

def aclOriginFromInt : UInt8 → Option Os
  | 1 => some .linux
  | 2 => some .macos
  | 3 => some .mswin
  | _ => none

def readXattr : Reader Metadata.Error Xattr := do
  let classRaw ← int UInt8
  let class_ ← Reader.lift (orReturn (xattrClassFromInt classRaw) .badMetadata)
  let nameLength ← int UInt32
  let name ← take nameLength.toNat
  let valueLength ← int UInt32
  let value ← take valueLength.toNat
  pure ⟨class_, name, value⟩

def readAce : Reader Metadata.Error Ace := do
  let tagRaw ← int UInt8
  let tag ← Reader.lift (orReturn (aceTagFromInt tagRaw) .badMetadata)
  let bits ← int UInt8
  Reader.guard .badMetadata (bits &&& ~~~7 = 0)
  let nameLength ← int UInt32
  let name ← take nameLength.toNat
  pure ⟨tag, permissions (bits &&& 1 != 0) (bits &&& 2 != 0) (bits &&& 4 != 0), name⟩

def readNativeAcl : Reader Metadata.Error (Option NativeAcl) := do
  let originRaw ← int UInt8
  if originRaw = 0 then pure none
  else
    let origin ← Reader.lift (orReturn (aclOriginFromInt originRaw) .badMetadata)
    let length ← int UInt32
    let blob ← take length.toNat
    pure (some ⟨origin, blob⟩)

def readTime : Reader Metadata.Error Time := do
  let sec ← int Int64
  let nsec ← int UInt32
  Reader.guard .invalidNsec (nsec < 1000000000)
  pure ⟨sec, nsec⟩

/-- A timestamp whose presence bit is set. -/
def readTimeIf (present : Prop) [Decidable present] : Reader Metadata.Error (Option Time) :=
  if present then do
    let time ← readTime
    pure (some time)
  else pure none

def readTimes : Reader Metadata.Error Times := do
  let timeFlags ← int UInt8
  Reader.guard .badMetadata (timeFlags &&& ~~~7 = 0)
  let mtime ← readTimeIf (timeFlags &&& 1 ≠ 0)
  let atime ← readTimeIf (timeFlags &&& 2 ≠ 0)
  let btime ← readTimeIf (timeFlags &&& 4 ≠ 0)
  pure ⟨mtime, atime, btime⟩

def readFinderInfo : Reader Metadata.Error (Option (List.Vector UInt8 32)) := do
  match ← int UInt8 with
  | 0 => pure none
  | 1 =>
    let raw ← Reader.array .truncatedMetadata 32
    pure (some raw)
  | _ => Reader.lift (.error .badMetadata)

def readHole : Reader Metadata.Error Hole := do
  let offset ← int UInt64
  let length ← int UInt64
  pure ⟨offset, length⟩

def readHardlinkTo : Reader Metadata.Error (Option (List UInt8)) := do
  match ← int UInt8 with
  | 0 => pure none
  | 1 =>
    let length ← int UInt32
    let path ← take length.toNat
    pure (some path)
  | _ => Reader.lift (.error .badMetadata)

def readCanonical : Reader Metadata.Error Metadata := do
  let xattrCount ← Cursor.count 9
  let xattrs ← Reader.replicate xattrCount readXattr
  let aceCount ← Cursor.count 6
  let aces ← Reader.replicate aceCount readAce
  let nativeAcl ← readNativeAcl
  let times ← readTimes
  let finderFlags ← int UInt32
  let finderInfo ← readFinderInfo
  let holeCount ← Cursor.count 16
  let holes ← Reader.replicate holeCount readHole
  let hardlinkTo ← readHardlinkTo
  pure ⟨xattrs, aces, nativeAcl, times, finderFlags, finderInfo, holes, hardlinkTo⟩

def decodeCanonical (bytes : List UInt8) : Except Metadata.Error Metadata := do
  let (m, cursor) ← readCanonical (Wire.Cursor.start bytes)
  if cursor.offset ≠ bytes.length then .error .trailingMetadata
  else do
    validateCanonical m
    .ok m

/-! ### Both readers are the same function -/

lemma orReturn_xattrClass (b : UInt8) :
    orReturn (xattrClassFromInt b) Metadata.Error.badMetadata = XattrClass.tryFrom b := by
  obtain ⟨v⟩ := b
  revert v
  decide +kernel

lemma orReturn_aceTag (b : UInt8) :
    orReturn (aceTagFromInt b) Metadata.Error.badMetadata = AceTag.tryFrom b := by
  obtain ⟨v⟩ := b
  revert v
  decide +kernel

lemma orReturn_aclOrigin (b : UInt8) :
    orReturn (aclOriginFromInt b) Metadata.Error.badMetadata = Os.tryFrom b := by
  obtain ⟨v⟩ := b
  revert v
  decide +kernel

lemma readXattr_eq : readXattr = Metadata.readXattr := by
  simp only [readXattr, Metadata.readXattr, orReturn_xattrClass, Metadata.Cursor.blob, Reader.blob,
    bind_assoc]
  rfl

lemma readAce_eq : readAce = Metadata.readAce := by
  simp only [readAce, Metadata.readAce, orReturn_aceTag, Metadata.Cursor.blob, Reader.blob,
    bind_assoc]
  refine congrArg _ (funext fun _ => congrArg _ (funext fun tag => congrArg _ (funext fun b => ?_)))
  by_cases hb : b &&& ~~~7 = 0
  · have hperm : permissions (b &&& 1 != 0) (b &&& 2 != 0) (b &&& 4 != 0) = ⟨b, hb⟩ := by
      simp only [permissions, permissionBits_of_valid b hb]
    rw [Reader.guard, ensure, if_pos hb, Permissions.fromBits, dif_pos hb, Reader.lift_ok_bind,
      Reader.lift_ok_bind, hperm]
    rfl
  · rw [Reader.guard, ensure, if_neg hb, Permissions.fromBits, dif_neg hb, Reader.lift_error_bind,
      Reader.lift_error_bind]

lemma readNativeAcl_eq : readNativeAcl = Metadata.readNativeAcl := by
  simp only [readNativeAcl, Metadata.readNativeAcl, orReturn_aclOrigin, Metadata.Cursor.blob,
    Reader.blob, bind_assoc]
  rfl

/-- Two integers in a row are the twelve bytes of a timestamp. -/
lemma readTime_eq : readTime = Metadata.Cursor.time := by
  have hsplit : Metadata.Cursor.take 12 = (Reader.take .truncatedMetadata 8 >>= fun v =>
      Reader.take .truncatedMetadata 4 >>= fun w => pure (v ++ w)) :=
    Reader.take_add _ 8 4
  rw [Metadata.Cursor.time, hsplit]
  simp only [readTime, Cursor.int, Reader.word, bind_assoc, pure_bind]
  refine Reader.take_bind_congr fun v hv => Reader.take_bind_congr fun w hw => ?_
  have hv : v.length = 8 := hv
  have hw : w.length = 4 := hw
  rw [Time.decode, if_neg (by simp [hv, hw]), List.take_left' hv, List.drop_left' hv, Reader.guard,
    ensure]
  by_cases hn : (fromLeBytes w : UInt32) < 1000000000
  · rw [if_pos hn, if_neg (UInt32.not_le.mpr hn)]
    rfl
  · rw [if_neg hn, if_pos (UInt32.not_lt.mp hn)]
    rfl

lemma readTimes_eq : readTimes = Metadata.readTimes := by
  have htime : ∀ flags bit : UInt8, readTimeIf (flags &&& bit ≠ 0) = Metadata.readTime flags bit := by
    intro flags bit
    rw [readTimeIf, Metadata.readTime, readTime_eq]
  simp only [readTimes, Metadata.readTimes, readTimesAfter, htime]
  rfl

/-- A switch over a presence byte. -/
lemma readOption_eq {α : Type} (field : Reader Metadata.Error α) :
    (int UInt8 >>= fun present => match present with
      | 0 => pure none
      | 1 => field >>= fun x => pure (some x)
      | _ => Reader.lift (.error .badMetadata)) = readOption field := by
  rw [readOption]
  refine congrArg _ (funext fun present => ?_)
  by_cases h₀ : present = 0
  · subst h₀
    rfl
  · by_cases h₁ : present = 1
    · subst h₁
      rfl
    · rw [if_neg h₀, if_neg h₁]
      split
      · contradiction
      · contradiction
      · rfl

lemma readFinderInfo_eq :
    readFinderInfo = readOption (Metadata.Cursor.array 32) :=
  readOption_eq _

lemma readHardlinkTo_eq : readHardlinkTo = readOption Metadata.Cursor.blob := by
  rw [← readOption_eq, readHardlinkTo]
  simp only [Metadata.Cursor.blob, Reader.blob, bind_assoc]
  rfl

lemma readCanonical_eq : readCanonical = readMetadata := by
  simp only [readCanonical, readMetadata, Metadata.Cursor.vector, Reader.counted, bind_assoc,
    readXattr_eq, readAce_eq, readNativeAcl_eq, readTimes_eq, readFinderInfo_eq,
    readHardlinkTo_eq]
  rfl

lemma map_new (m : Metadata) : (CanonicalMetadata.new m).map CanonicalMetadata.metadata
    = (m.validate >>= fun _ => .ok m) := by
  cases hn : CanonicalMetadata.new m with
  | ok c =>
    obtain rfl := CanonicalMetadata.new_eq_ok.mp hn
    rw [c.valid]
    rfl
  | error e =>
    unfold CanonicalMetadata.new at hn
    split at hn
    · next e' h =>
      rw [h, ← Except.error.inj hn]
      rfl
    · exact absurd hn (by simp)

/-- The decoders of both programs are one function. -/
theorem decodeCanonical_eq (bytes : List UInt8) :
    decodeCanonical bytes = (CanonicalMetadata.decode bytes).map CanonicalMetadata.metadata := by
  rw [decodeCanonical, CanonicalMetadata.decode, readCanonical_eq]
  cases hr : readMetadata (Wire.Cursor.start bytes) with
  | error e => rfl
  | ok p =>
    obtain ⟨m, cursor⟩ := p
    obtain ⟨hfits, -⟩ := (exact_metadata _ _ _).mp hr
    rw [ok_bind]
    dsimp only
    rw [validateCanonical_eq hfits]
    split_ifs with hend
    · rfl
    · exact (map_new m).symm

end Zig

end Difz
