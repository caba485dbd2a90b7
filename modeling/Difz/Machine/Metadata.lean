import Difz.Metadata.Decode
import Difz.Metadata.Override
import Difz.Wire.Checked

/-!
# Metadata on the machine

`CanonicalMetadata::decode` and what it calls (`rust/src/metadata_decode.rs`,
`rust/src/metadata_canonical.rs`, `rust/src/metadata.rs`), with the index, slice and integer
operations of the source left in. Each function computes what its total counterpart computes, and
the decoder asks for storage only within the bounds of `Reserves`.
-/

namespace Difz

open Wire

namespace Machine

open Program (Action)

/-- `x.len() >= 2 && x[0].is_ascii_alphabetic() && x[1] == b':'`. -/
def drivePrefix {ε : Type} (bytes : List UInt8) : Checked ε Bool :=
  Checked.and (bytes.length ≥ 2) do
    let letter ← Checked.index bytes 0
    Checked.and (isAsciiAlphabetic letter) do
      let colon ← Checked.index bytes 1
      pure (colon == 0x3a)

lemma drivePrefix_eq {ε : Type} (bytes : List UInt8) : (drivePrefix bytes : Checked ε Bool)
    = .ok (bytes.length ≥ 2 && bytes.head?.any isAsciiAlphabetic && bytes[1]? == some 0x3a) := by
  match bytes with
  | [] => rfl
  | [a] => rfl
  | a :: b :: rest => simp [drivePrefix, Checked.index, ok_bind, pure, Except.pure]

/-- `index.checked_sub(1).map(|i| &xs[i])`. -/
def previousOf {ε α : Type} (xs : List α) : Nat → Checked ε (Option α)
  | 0 => .ok none
  | i + 1 => do
    let previous ← Checked.index xs i
    pure (some previous)

/-- The loop over `xs.iter().enumerate()`, from a position on. -/
def enumerate {ε α : Type} (body : Nat → α → Checked ε Unit) : Nat → List α → Checked ε Unit
  | _, [] => .ok ()
  | i, x :: xs => do
    body i x
    enumerate body (i + 1) xs

/-- Looking back by index is carrying the last item along. The body looks only when it comes to
it. -/
lemma enumerate_eq_forPrevious {ε α : Type} {body : Checked ε (Option α) → α → Checked ε Unit}
    {check : Option α → α → Except ε Unit}
    (h : ∀ p x, body (.ok p) x = Checked.ofExcept (check p x)) (xs : List α) :
    enumerate (fun i => body (previousOf xs i)) 0 xs
      = Checked.ofExcept (Metadata.forPrevious check none xs) := by
  have hfrom : ∀ before rest, xs = before ++ rest →
      enumerate (fun i => body (previousOf xs i)) before.length rest
        = Checked.ofExcept (Metadata.forPrevious check before.getLast? rest) := by
    intro before rest
    induction rest generalizing before with
    | nil => exact fun _ => rfl
    | cons x rest ih =>
      intro hxs
      have hprevious : (previousOf xs before.length : Checked ε (Option α))
          = .ok before.getLast? := by
        rcases List.eq_nil_or_concat' before with rfl | ⟨init, last, rfl⟩
        · rfl
        · have hlast : xs[init.length]? = some last := by simp [hxs]
          rw [List.length_append, List.length_singleton, previousOf, Checked.index, hlast]
          simp [ok_bind, pure, Except.pure]
      have hrest := ih (before ++ [x]) (by simp [hxs])
      rw [List.length_append, List.length_singleton, List.getLast?_concat] at hrest
      rw [enumerate, Metadata.forPrevious, Checked.ofExcept_bind, hprevious, h, hrest]
  exact hfrom [] xs rfl

namespace Metadata

open Difz.Metadata (AceTag Error NativeAcl Omit Os Permissions Time Times Xattr Ace Hole XattrClass)

/-! ### Validation -/

def validateLogicalName (name : List UInt8) : Checked Error Unit :=
  if name.isEmpty then Checked.fail .emptyName
  else do
    let invalid ← Checked.or (name.length > 127) <|
      Checked.or (name.any (fun byte =>
        byte < 0x20 || byte == 0x7f || Difz.Metadata.forbidden.contains byte)) <|
      Checked.or (!isUtf8 name) do
        let first ← Checked.index name 0
        pure (first == 0x20
          || name.getLast? == some 0x20
          || name.getLast? == some 0x2e
          || [utf8 "user.", utf8 "com.apple.", utf8 "$"].any (fun pre =>
              pre.length ≤ name.length && eqIgnoreAsciiCase (name.take pre.length) pre)
          || eqIgnoreAsciiCase name (utf8 "zone.identifier"))
    if invalid then Checked.fail .invalidLogicalName else .ok ()

def validateXattrName (class_ : XattrClass) (name : List UInt8) : Checked Error Unit :=
  if Difz.Metadata.isTransportName name then Checked.fail .reservedTransportName
  else if name.isEmpty then Checked.fail .emptyName
  else match class_ with
    | .logical => validateLogicalName name
    | .raw =>
      if name.length > 255 || name.any (fun byte => byte == 0 || byte == 0x2f || byte == 0x5c) then
        Checked.fail .invalidRawName
      else .ok ()

def validateHardlink (path : List UInt8) : Checked Error Unit := do
  let invalid ← Checked.or path.isEmpty <| Checked.or (path.length > 4096) <|
    Checked.or (!isUtf8 path) <| Checked.or ((utf8 "/").isPrefixOf path) <|
    Checked.or (path.contains 0x5c) <| Checked.or (path.contains 0) do
      let drive ← drivePrefix path
      pure (drive || (path.splitOn 0x2f).any (fun part =>
        part.isEmpty || part == utf8 "." || part == utf8 ".."))
  if invalid then Checked.fail .invalidHardlink else .ok ()

lemma validateLogicalName_eq (name : List UInt8) :
    validateLogicalName name = Checked.ofExcept (Difz.Metadata.validateLogicalName name) := by
  cases name with
  | nil => rfl
  | cons a rest =>
    rw [validateLogicalName, Difz.Metadata.validateLogicalName,
      Checked.index_of_lt (by simp : 0 < (a :: rest).length)]
    simp only [List.isEmpty_cons, Bool.false_eq_true, if_false, ok_bind, pure, Except.pure,
      Checked.or_ok, Checked.ofExcept_ite]
    simp [Bool.or_assoc]

lemma validateXattrName_eq (class_ : XattrClass) (name : List UInt8) :
    validateXattrName class_ name
      = Checked.ofExcept (Difz.Metadata.validateXattrName class_ name) := by
  unfold validateXattrName Difz.Metadata.validateXattrName
  rw [Checked.ofExcept_ite, Checked.ofExcept_ite]
  cases class_ with
  | logical =>
    rw [validateLogicalName_eq]
    rfl
  | raw =>
    simp only [Checked.ofExcept_ite]
    rfl

lemma validateHardlink_eq (path : List UInt8) :
    validateHardlink path = Checked.ofExcept (Difz.Metadata.validateHardlink path) := by
  simp only [validateHardlink, Difz.Metadata.validateHardlink, drivePrefix_eq, ok_bind, pure,
    Except.pure, Checked.or_ok, Checked.ofExcept_ite]
  simp only [Bool.or_assoc]
  rfl

def checkXattr (previous : Checked Error (Option Xattr)) (x : Xattr) : Checked Error Unit := do
  validateXattrName x.class_ x.name
  Checked.ofExcept (Difz.Metadata.wireLength x.value.length)
  let previous ← previous
  Checked.ofExcept (Difz.Metadata.checkOrder Xattr.key .duplicateXattr previous x)

def checkAce (previous : Checked Error (Option Ace)) (a : Ace) : Checked Error Unit := do
  Checked.ofExcept (Difz.Metadata.validateAceName a.tag a.name)
  Checked.ofExcept (Difz.Metadata.wireLength a.name.length)
  let previous ← previous
  Checked.ofExcept (Difz.Metadata.checkOrder Ace.key .duplicateAce previous a)

/-- The loop over the extents carries the end of the last one along and indexes nothing. -/
def validate (m : Difz.Metadata) : Checked Error Unit := do
  Checked.ofExcept (Difz.Metadata.wireLength m.xattrs.length)
  enumerate (fun i => checkXattr (previousOf m.xattrs i)) 0 m.xattrs
  Checked.ofExcept (Difz.Metadata.wireLength m.aces.length)
  enumerate (fun i => checkAce (previousOf m.aces i)) 0 m.aces
  Checked.ofExcept (Difz.Metadata.checkNativeAcl m.nativeAcl)
  Checked.ofExcept (Difz.Metadata.checkTimes m.times)
  Checked.ofExcept (Difz.Metadata.wireLength m.holes.length)
  Checked.ofExcept (Difz.Metadata.forPrevious Difz.Metadata.checkHole none m.holes)
  match m.hardlinkTo with
  | none => .ok ()
  | some path => validateHardlink path

lemma validate_eq (m : Difz.Metadata) : validate m = Checked.ofExcept m.validate := by
  have hxattr : ∀ p x, checkXattr (.ok p) x = Checked.ofExcept (Difz.Metadata.checkXattr p x) := by
    intro p x
    rw [checkXattr, Difz.Metadata.checkXattr, validateXattrName_eq]
    simp only [Checked.ofExcept_bind, ok_bind]
  have hace : ∀ p a, checkAce (.ok p) a = Checked.ofExcept (Difz.Metadata.checkAce p a) := by
    intro p a
    rw [checkAce, Difz.Metadata.checkAce]
    simp only [Checked.ofExcept_bind, ok_bind]
  have hhardlink : (match m.hardlinkTo with
      | none => .ok ()
      | some path => validateHardlink path)
      = Checked.ofExcept (Difz.Metadata.checkHardlink m.hardlinkTo) := by
    cases m.hardlinkTo with
    | none => rfl
    | some path => exact validateHardlink_eq path
  rw [validate, Difz.Metadata.validate, enumerate_eq_forPrevious hxattr,
    enumerate_eq_forPrevious hace, hhardlink]
  simp only [Checked.ofExcept_bind]

/-- `CanonicalMetadata::new`. -/
def new (m : Difz.Metadata) : Checked Error CanonicalMetadata :=
  Checked.certify (validate m) fun h =>
    ⟨m, Checked.ofExcept_eq_ok.mp ((validate_eq m).symm.trans h)⟩

lemma new_eq (m : Difz.Metadata) : new m = Checked.ofExcept (CanonicalMetadata.new m) := by
  refine Checked.certify_eq (validate_eq m) (fun _ => CanonicalMetadata.new_eq_ok.mpr rfl) ?_
  intro e he
  unfold CanonicalMetadata.new
  split
  · next e' h => exact congrArg _ (Except.error.inj (h.symm.trans he))
  · next h => exact absurd (he.symm.trans h) (by simp)

/-! ### Timestamps -/

def Time.decode (bytes : List UInt8) : Checked Error Time :=
  if bytes.length ≠ 12 then Checked.fail .badMetadata
  else do
    let sec ← Checked.array .badMetadata 8 bytes 0 8
    let nsec ← Checked.array .badMetadata 4 bytes 8 bytes.length
    let nsec : UInt32 := fromLeBytes nsec.toList
    if nsec ≥ 1000000000 then Checked.fail .invalidNsec
    else .ok ⟨fromLeBytes sec.toList, nsec⟩

lemma Time.decode_eq (bytes : List UInt8) :
    Time.decode bytes = Checked.ofExcept (Difz.Metadata.Time.decode bytes) := by
  rw [Time.decode, Difz.Metadata.Time.decode, Checked.ofExcept_ite]
  by_cases hlen : bytes.length = 12
  · obtain ⟨sec, hsec, hlow⟩ := Checked.array_of_le (n := 8) (i := 0) Error.badMetadata rfl
      (by omega : 8 ≤ bytes.length)
    obtain ⟨nsec, hnsec, hhigh⟩ := Checked.array_of_le (n := 4) (i := 8) Error.badMetadata hlen.symm
      le_rfl
    have htail : field bytes 8 bytes.length = bytes.drop 8 := by
      rw [field, List.take_length]
    rw [if_neg (not_not.mpr hlen), if_neg (not_not.mpr hlen), hsec, ok_bind, hnsec, ok_bind, hlow,
      hhigh, field_zero, htail]
    dsimp only
    rw [Checked.ofExcept_ite]
    rfl
  · rw [if_pos hlen, if_pos hlen]
    rfl

def decodeTimeOverride (bytes : List UInt8) : Checked Error (Option Time) :=
  if bytes = [0] then .ok none
  else do
    let bad ← Checked.or (bytes.length ≠ 13) do
      let tag ← Checked.index bytes 0
      pure (tag != 1)
    if bad then Checked.fail .badMetadata
    else do
      let rest ← Checked.slice bytes 1 bytes.length
      let time ← Time.decode rest
      .ok (some time)

lemma decodeTimeOverride_eq (bytes : List UInt8) :
    decodeTimeOverride bytes = Checked.ofExcept (Difz.Metadata.decodeTimeOverride bytes) := by
  rw [decodeTimeOverride, Difz.Metadata.decodeTimeOverride, Checked.ofExcept_ite,
    Checked.ofExcept_ite]
  by_cases hzero : bytes = [0]
  · rw [if_pos hzero, if_pos hzero]
    rfl
  rw [if_neg hzero, if_neg hzero]
  cases bytes with
  | nil => rfl
  | cons tag rest =>
    have hmap : Checked.ofExcept ((Difz.Metadata.Time.decode rest).map some)
        = Checked.ofExcept (Difz.Metadata.Time.decode rest) >>= fun t => .ok (some t) := by
      cases Difz.Metadata.Time.decode rest <;> rfl
    rw [Checked.index_of_lt (by simp : 0 < (tag :: rest).length), Checked.slice_drop (by simp),
      ok_bind, List.drop_one, List.tail_cons, hmap]
    simp [ok_bind, pure, Except.pure, Time.decode_eq]

/-! ### The decoder -/

/-- The storage that decoding a record may ask for: attributes take nine bytes or more, entries of
an access list six, extents sixteen. -/
def Reserves (r : Reservation) : Prop := r.minimum ∈ [9, 6, 16] ∧ r.Bounded

namespace Cursor

def take (length : Nat) : Scanner Error (List UInt8) := Scanner.take .truncatedMetadata length

def array (n : Nat) : Scanner Error (List.Vector UInt8 n) := Scanner.array .truncatedMetadata n

def byte : Scanner Error UInt8 := Scanner.byte .truncatedMetadata

def u32 : Scanner Error UInt32 := Scanner.word .truncatedMetadata UInt32

def u64 : Scanner Error UInt64 := Scanner.word .truncatedMetadata UInt64

def blob : Scanner Error (List UInt8) := Scanner.blob .truncatedMetadata

def vector {α : Type} (minimumRecordBytes : Nat) (item : Scanner Error α) :
    Scanner Error (List α) :=
  Scanner.counted .truncatedMetadata minimumRecordBytes item

def time : Scanner Error Time := do
  let bytes ← take 12
  Action.lift (Time.decode bytes)

end Cursor

open Cursor

def readXattr : Scanner Error Xattr := do
  let class_ ← (do Action.lift (Checked.ofExcept (XattrClass.tryFrom (← byte))))
  let name ← blob
  let value ← blob
  pure ⟨class_, name, value⟩

def readAce : Scanner Error Ace := do
  let tag ← (do Action.lift (Checked.ofExcept (AceTag.tryFrom (← byte))))
  let permissions ← (do Action.lift (Checked.ofExcept (Permissions.fromBits (← byte))))
  let name ← blob
  pure ⟨tag, permissions, name⟩

def readNativeAcl : Scanner Error (Option NativeAcl) := do
  let origin ← byte
  if origin = 0 then pure none
  else
    let origin ← Action.lift (Checked.ofExcept (Os.tryFrom origin))
    let bytes ← blob
    pure (some ⟨origin, bytes⟩)

def readTime (flags bit : UInt8) : Scanner Error (Option Time) :=
  if flags &&& bit ≠ 0 then do
    let t ← time
    pure (some t)
  else pure none

def readTimes : Scanner Error Times := do
  let flags ← byte
  Scanner.guard .badMetadata (flags &&& ~~~7 = 0)
  let mtime ← readTime flags 1
  let atime ← readTime flags 2
  let btime ← readTime flags 4
  pure ⟨mtime, atime, btime⟩

def readOption {α : Type} (field : Scanner Error α) : Scanner Error (Option α) := do
  let present ← byte
  if present = 0 then pure none
  else if present = 1 then do
    let x ← field
    pure (some x)
  else Scanner.fail .badMetadata

def readHole : Scanner Error Hole := do
  let offset ← u64
  let length ← u64
  pure ⟨offset, length⟩

def readMetadata : Scanner Error Difz.Metadata := do
  let xattrs ← vector 9 readXattr
  let aces ← vector 6 readAce
  let nativeAcl ← readNativeAcl
  let times ← readTimes
  let finderFlags ← u32
  let finderInfo ← readOption (array 32)
  let holes ← vector 16 readHole
  let hardlinkTo ← readOption blob
  pure ⟨xattrs, aces, nativeAcl, times, finderFlags, finderInfo, holes, hardlinkTo⟩

/-- `CanonicalMetadata::decode`. -/
def decode (bytes : List UInt8) : Allocating Error CanonicalMetadata :=
  Scanner.run (do
    let m ← readMetadata
    Scanner.atEnd .trailingMetadata
    Action.lift (new m)) bytes

section Refinement

variable {P : Reservation → Prop} {c : Wire.Cursor}

lemma time_refines : Refines P c time Difz.Metadata.Cursor.time :=
  (Refines.take _ _).bind fun bytes _ => Refines.lift (Time.decode_eq bytes)

lemma readXattr_refines : Refines P c readXattr Difz.Metadata.readXattr :=
  ((Refines.byte _).bind fun _ _ => Refines.lift rfl).bind fun _ _ =>
    (Refines.blob _).bind fun _ _ => (Refines.blob _).bind fun _ _ => Refines.pure _

lemma readAce_refines : Refines P c readAce Difz.Metadata.readAce :=
  ((Refines.byte _).bind fun _ _ => Refines.lift rfl).bind fun _ _ =>
    ((Refines.byte _).bind fun _ _ => Refines.lift rfl).bind fun _ _ =>
      (Refines.blob _).bind fun _ _ => Refines.pure _

lemma readNativeAcl_refines : Refines P c readNativeAcl Difz.Metadata.readNativeAcl := by
  refine (Refines.byte _).bind fun origin c' => Refines.ite (Refines.pure none) ?_
  exact (Refines.lift rfl).bind fun _ _ => (Refines.blob _).bind fun _ _ => Refines.pure _

lemma readTime_refines (flags bit : UInt8) :
    Refines P c (readTime flags bit) (Difz.Metadata.readTime flags bit) :=
  Refines.ite (time_refines.bind fun _ _ => Refines.pure _) (Refines.pure none)

lemma readTimes_refines : Refines P c readTimes Difz.Metadata.readTimes := by
  refine (Refines.byte _).bind fun flags _ => (Refines.guard _ _).bind fun _ _ => ?_
  exact (readTime_refines flags 1).bind fun _ _ => (readTime_refines flags 2).bind fun _ _ =>
    (readTime_refines flags 4).bind fun _ _ => Refines.pure _

lemma readOption_refines {α : Type} {field : Scanner Error α} {field' : Reader Error α}
    (h : ∀ c, Refines P c field field') :
    Refines P c (readOption field) (Difz.Metadata.readOption field') := by
  refine (Refines.byte _).bind fun present c' => Refines.ite (Refines.pure none) ?_
  exact Refines.ite ((h c').bind fun _ _ => Refines.pure _) (Refines.lift rfl)

lemma readHole_refines : Refines P c readHole Difz.Metadata.readHole :=
  (Refines.word _ _).bind fun _ _ => (Refines.word _ _).bind fun _ _ => Refines.pure _

lemma readMetadata_refines : Refines Reserves c readMetadata Difz.Metadata.readMetadata := by
  have hbound : ∀ {minimum}, minimum ∈ [9, 6, 16] → ∀ n remaining, n ≤ remaining / minimum →
      Reserves ⟨n, remaining, minimum⟩ := fun hmem _ _ h => ⟨hmem, h⟩
  refine (Refines.counted (fun _ => readXattr_refines) _ (by norm_num)
    (hbound (by simp))).bind fun _ _ => ?_
  refine (Refines.counted (fun _ => readAce_refines) _ (by norm_num)
    (hbound (by simp))).bind fun _ _ => ?_
  refine readNativeAcl_refines.bind fun _ _ => readTimes_refines.bind fun _ _ => ?_
  refine (Refines.word _ _).bind fun _ _ => ?_
  refine (readOption_refines fun _ => Refines.array _ 32).bind fun _ _ => ?_
  refine (Refines.counted (fun _ => readHole_refines) _ (by norm_num)
    (hbound (by simp))).bind fun _ _ => ?_
  exact (readOption_refines fun _ => Refines.blob _).bind fun _ _ => Refines.pure _

end Refinement

lemma decode_computes {bytes : List UInt8} (hfits : bytes.length < 2 ^ 64) :
    Computes Reserves (decode bytes) (CanonicalMetadata.decode bytes) := by
  have hdecode : CanonicalMetadata.decode bytes
      = Difz.Metadata.readMetadata (Wire.Cursor.start bytes) >>= fun p =>
        ensure (p.2.offset = bytes.length) .trailingMetadata >>= fun _ =>
          CanonicalMetadata.new p.1 := by
    rw [CanonicalMetadata.decode]
    cases Difz.Metadata.readMetadata (Wire.Cursor.start bytes) with
    | error e => rfl
    | ok p =>
      rw [ok_bind, ensure]
      dsimp only
      by_cases h : p.2.offset = bytes.length
      · rw [if_neg (not_not.mpr h), if_pos h, ok_bind]
      · rw [if_pos h, if_neg h, error_bind]
  rw [hdecode]
  exact Refines.run_atEnd hfits readMetadata_refines fun m _ _ => new_eq m

end Metadata

end Machine

end Difz
