import Difz.Acl.Native
import Difz.Restore.Recapture

/-!
# Access control on Linux

`capture` and `restore` of `src/native_acl.zig` on Linux, where the lists of a path are two
attributes. What was captured is restored to any path exactly. A record of another system gives its
portable entries to the access list, and they are found again as they were when every principal in
them is a plain decimal number.

A kernel folds a list that says no more than the mode into the mode, and may refuse one. `kept` is
the predicate of the lists that it reports as attributes, and nothing is assumed of the others.
-/

namespace Difz

open Wire
open Metadata (Ace AceTag Os)
open Program
open Program.Action (lift handle)

namespace Zig

namespace NativeAcl

open LinuxAcl (PosixAcl)

/-! ### Attributes -/

/-- `system.posix_acl_access` and `system.posix_acl_default`. -/
inductive AttrName
  | access
  | default
  deriving DecidableEq, Repr

inductive AttrError
  | missing
  | unsupported
  | outOfMemory
  | failed
  deriving DecidableEq, Repr

/-- What `xattr.get` returns on a path. -/
abbrev Attributes := AttrName → Except AttrError (List UInt8)

inductive CallError
  | attribute (error : AttrError)
  | acl (error : AclError)
  deriving DecidableEq, Repr

/-- `xattr.set` and `xattr.remove`. -/
structure Kernel where
  set : AttrName → List UInt8 → Program.Action Attributes AttrError Unit
  remove : AttrName → Program.Action Attributes AttrError Unit

def readLinuxAttribute (attributes : Attributes) (name : AttrName) :
    Except CallError (List UInt8) :=
  match attributes name with
  | .ok bytes => .ok bytes
  | .error .missing | .error .unsupported => .ok []
  | .error e => .error (.attribute e)

/-- `capture` -/
def capture (attributes : Attributes) : Except CallError Metadata := do
  let access ← readLinuxAttribute attributes .access
  let default ← readLinuxAttribute attributes .default
  if access.length = 0 ∧ default.length = 0 then .ok Metadata.default
  else do
    let aces ← (portableLinux access).mapError CallError.acl
    let bytes ← (encodeLinux ⟨access, default⟩).mapError CallError.acl
    .ok { Metadata.default with aces, nativeAcl := some ⟨.linux, bytes⟩ }

variable (kernel : Kernel)

def setLinuxAttribute (name : AttrName) (bytes : List UInt8) :
    Program.Action Attributes CallError Unit :=
  if bytes.length ≠ 0 then (kernel.set name bytes).mapError CallError.attribute
  else handle ((kernel.remove name).mapError CallError.attribute) fun e =>
    if e = .attribute .missing ∨ e = .attribute .unsupported then pure ()
    else Program.Action.fail e

/-- The access list of a record that brings no list of this system. -/
def portableLists (desired : Metadata) : Except CallError LinuxLists := do
  let access ← (encodePortableLinux desired.aces).mapError CallError.acl
  .ok ⟨access, []⟩

def desiredLists (desired : Metadata) : Except CallError LinuxLists :=
  match desired.nativeAcl with
  | some native =>
    if native.origin = .linux then (decodeLinux native.bytes).mapError CallError.acl
    else portableLists desired
  | none => portableLists desired

/-- `restore` -/
def restore (desired : Metadata) : Program.Action Attributes CallError Unit := do
  let acl ← lift (desiredLists desired)
  setLinuxAttribute kernel .access acl.access
  setLinuxAttribute kernel .default acl.default

/-! ### What a kernel does -/

/-- A value that is reported as an attribute is valid, and stored when it is set; removing leaves
no attribute, with an error at most where there was none. -/
structure Kernel.Keeps (kept : AttrName → List UInt8 → Prop) : Prop where
  valid : ∀ name bytes, kept name bytes → LinuxAcl.validate bytes = .ok ()
  length : ∀ name bytes, kept name bytes → 0 < bytes.length ∧ bytes.length ≤ 65536
  set : ∀ name bytes s, kept name bytes →
    kernel.set name bytes s = (.ok (), Function.update s name (.ok bytes))
  remove : ∀ name s, ∃ result absent, (absent = .missing ∨ absent = .unsupported) ∧
    (∀ e, result = .error e → e = .missing ∨ e = .unsupported) ∧
    kernel.remove name s = (result, Function.update s name (.error absent))

/-- An attribute that is absent or holds what the kernel reports. -/
def Reported (kept : AttrName → List UInt8 → Prop) (s : Attributes) : Prop :=
  ∀ name, ∃ bytes, readLinuxAttribute s name = .ok bytes ∧ (bytes = [] ∨ kept name bytes)

variable {kernel} {kept : AttrName → List UInt8 → Prop}

lemma readLinuxAttribute_update {s : Attributes} {name : AttrName}
    {value : Except AttrError (List UInt8)} (other : AttrName) :
    readLinuxAttribute (Function.update s name value) other
      = if other = name then readLinuxAttribute (fun _ => value) name
        else readLinuxAttribute s other := by
  by_cases h : other = name
  · rw [if_pos h, h, readLinuxAttribute, Function.update_self]
    rfl
  · rw [if_neg h, readLinuxAttribute, Function.update_of_ne h]
    rfl

/-- Setting an attribute to what was reported of it, which may be nothing. -/
lemma setLinuxAttribute_run (hkernel : kernel.Keeps kept) {name : AttrName} {bytes : List UInt8}
    (hbytes : bytes = [] ∨ kept name bytes) (s : Attributes) :
    ∃ s', setLinuxAttribute kernel name bytes s = (.ok (), s') ∧
      readLinuxAttribute s' name = .ok bytes ∧
      ∀ other, other ≠ name → readLinuxAttribute s' other = readLinuxAttribute s other := by
  rcases hbytes with rfl | hkept
  · obtain ⟨result, absent, habsent, hresult, hremove⟩ := hkernel.remove name s
    refine ⟨Function.update s name (.error absent), ?_, ?_, fun other hother => ?_⟩
    · rw [setLinuxAttribute, if_neg (by simp)]
      simp only [handle, Program.Action.mapError, hremove]
      cases result with
      | ok _ => rfl
      | error e => rcases hresult e rfl with rfl | rfl <;> rfl
    · rw [readLinuxAttribute_update, if_pos rfl]
      rcases habsent with rfl | rfl <;> rfl
    · rw [readLinuxAttribute_update, if_neg hother]
  · have hlength := (hkernel.length name bytes hkept).1
    refine ⟨Function.update s name (.ok bytes), ?_, ?_, fun other hother => ?_⟩
    · rw [setLinuxAttribute, if_pos (by omega)]
      simp only [Program.Action.mapError, hkernel.set name bytes s hkept]
    · rw [readLinuxAttribute_update, if_pos rfl]
      rfl
    · rw [readLinuxAttribute_update, if_neg hother]

/-- Both lists are written, the one of the files below a directory last. -/
lemma restore_run (hkernel : kernel.Keeps kept) {desired : Metadata} {acl : LinuxLists}
    (hdesired : desiredLists desired = .ok acl) (haccess : acl.access = [] ∨ kept .access acl.access)
    (hdefault : acl.default = [] ∨ kept .default acl.default) (t : Attributes) :
    ∃ t', restore kernel desired t = (.ok (), t') ∧
      readLinuxAttribute t' .access = .ok acl.access ∧
      readLinuxAttribute t' .default = .ok acl.default := by
  obtain ⟨t₁, hset, hread, -⟩ := setLinuxAttribute_run hkernel haccess t
  obtain ⟨t₂, hset', hread', hother⟩ := setLinuxAttribute_run hkernel hdefault t₁
  refine ⟨t₂, ?_, ?_, hread'⟩
  · rw [restore, hdesired]
    exact bind_eq_ok.mpr ⟨acl, t, rfl, bind_eq_ok.mpr ⟨(), t₁, hset, hset'⟩⟩
  · rw [hother _ (by decide), hread]

/-- A record whose lists cannot be made leaves the path as it is. -/
lemma restore_error {desired : Metadata} {e : CallError} (h : desiredLists desired = .error e)
    (t : Attributes) : restore kernel desired t = (.error e, t) := by
  rw [restore, h]
  rfl

/-! ### Captures -/

/-- The portable entries of a valid list, which any record can take along. -/
lemma exists_aces {bytes : List UInt8} (hvalid : LinuxAcl.validate bytes = .ok ())
    (hlength : bytes.length ≤ 65536) :
    ∃ aces, portableLinux bytes = .ok aces ∧ aces.length < 2 ^ 32 ∧
      ∀ m : Metadata, { m with aces := [] }.Normalizable → { m with aces }.Normalizable := by
  rcases LinuxAcl.validate_eq_ok.mp hvalid with rfl | ⟨records, rfl, hrecords⟩
  · exact ⟨[], rfl, by norm_num, fun m hm => hm⟩
  · have hcount : records.length < 2 ^ 32 := by
      rw [List.length_append, LinuxAcl.length_flatMap_wire] at hlength
      omega
    refine ⟨records.map LinuxAcl.aceOf, portableLinux_framed hrecords, by simpa using hcount,
      fun m hm => ?_⟩
    exact LinuxAcl.normalizable_aces hm hrecords hcount

lemma normalizable_nativeAcl {native : Option Metadata.NativeAcl}
    (h : ∀ acl ∈ native, acl.bytes ≠ [] ∧ acl.bytes.length < 2 ^ 32) :
    (aclOnly [] native).Normalizable where
  xattrCount := by simp [aclOnly, Metadata.default]
  xattrs := by simp [aclOnly, Metadata.default]
  xattrsDistinct := List.nodup_nil
  aceCount := by simp [aclOnly, Metadata.default]
  aces := by simp [aclOnly, Metadata.default]
  acesDistinct := List.nodup_nil
  nativeAcl := h
  times := by simp [aclOnly, Metadata.default, Metadata.Times.default, Metadata.Times.present]
  holeCount := by simp [aclOnly, Metadata.default]
  holes := by simp [aclOnly, Metadata.default]
  hardlinkTo := by simp [aclOnly, Metadata.default]

/-- The record of a path with these lists. -/
def recordOf (acl : LinuxAcl) (aces : List Ace) : Metadata :=
  if acl.access.bytes = [] ∧ acl.default.bytes = [] then Metadata.default
  else aclOnly aces (some ⟨.linux, acl.wire⟩)

lemma aces_recordOf {acl : LinuxAcl} {aces : List Ace}
    (h : portableLinux acl.access.bytes = .ok aces) : (recordOf acl aces).aces = aces := by
  rw [recordOf]
  split_ifs with hempty
  · rw [hempty.1] at h
    exact Except.ok.inj h
  · rfl

lemma capture_eq {s : Attributes} {acl : LinuxAcl} {aces : List Ace} (hencodable : acl.Encodable)
    (haccess : readLinuxAttribute s .access = .ok acl.access.bytes)
    (hdefault : readLinuxAttribute s .default = .ok acl.default.bytes)
    (haces : portableLinux acl.access.bytes = .ok aces) : capture s = .ok (recordOf acl aces) := by
  have hencode : encodeLinux ⟨acl.access.bytes, acl.default.bytes⟩ = .ok acl.wire :=
    encodeLinux_of hencodable
  rw [capture, haccess, ok_bind, hdefault, ok_bind, recordOf, haces, hencode]
  simp only [List.length_eq_zero_iff]
  split_ifs <;> rfl

/-- Lists as attributes hold them, 64 KiB at most. -/
structure Short (acl : LinuxAcl) : Prop where
  access : acl.access.bytes.length ≤ 65536
  default : acl.default.bytes.length ≤ 65536

lemma Short.encodable {acl : LinuxAcl} (h : Short acl) : acl.Encodable :=
  ⟨h.access.trans_lt (by norm_num), h.default.trans_lt (by norm_num)⟩

lemma Short.length_wire {acl : LinuxAcl} (h : Short acl) :
    acl.wire ≠ [] ∧ acl.wire.length < 2 ^ 32 := by
  have haccess := h.access
  have hdefault := h.default
  have hlength : acl.wire.length
      = 16 + acl.access.bytes.length + acl.default.bytes.length := by
    simp only [LinuxAcl.wire, List.length_append, length_toLeBytes]
    change 8 + (4 + (4 + _)) = _
    omega
  refine ⟨?_, by omega⟩
  intro hempty
  rw [hempty, List.length_nil] at hlength
  omega

/-- The lists that the record of a path asks for are those of the path. -/
lemma desiredLists_recordOf {acl : LinuxAcl} {aces : List Ace} {desired : Metadata}
    (hshort : Short acl) (hnative : desired.nativeAcl = (recordOf acl aces).nativeAcl)
    (haces : desired.aces.Perm (recordOf acl aces).aces) :
    desiredLists desired = .ok (LinuxLists.of acl) := by
  rw [desiredLists, hnative]
  rw [recordOf] at haces ⊢
  by_cases hempty : acl.access.bytes = [] ∧ acl.default.bytes = []
  · rw [if_pos hempty] at haces ⊢
    have hdesired : desired.aces = [] := haces.eq_nil
    rw [LinuxLists.of, hempty.1, hempty.2]
    simp only [Metadata.default, portableLists, hdesired]
    rfl
  · rw [if_neg hempty]
    have hdecode : LinuxAcl.decode acl.wire = .ok acl :=
      LinuxAcl.decode_eq_ok.mpr (LinuxAcl.encode_eq_ok.mpr ⟨hshort.encodable, rfl⟩)
    simp only [aclOnly, if_true, decodeLinux_eq hshort.length_wire.2, hdecode]
    rfl

/-- What is captured has a canonical form, with the entries in another order at most. -/
lemma exists_canonical {acl : LinuxAcl} (hshort : Short acl) :
    ∃ aces, ∃ c : CanonicalMetadata, portableLinux acl.access.bytes = .ok aces ∧
      canonicalize (recordOf acl aces) (Omit.of Metadata.Omit.default) = .ok c.metadata ∧
      c.metadata.nativeAcl = (recordOf acl aces).nativeAcl ∧
      c.metadata.aces.Perm (recordOf acl aces).aces := by
  obtain ⟨aces, haces, hcount, hnormalizable⟩ := exists_aces acl.access.valid hshort.access
  have hrecord : (recordOf acl aces).Normalizable := by
    rw [recordOf]
    split_ifs
    · exact (normalizable_nativeAcl (by simp) : (aclOnly [] none).Normalizable)
    · refine hnormalizable (aclOnly [] (some ⟨.linux, acl.wire⟩)) (normalizable_nativeAcl ?_)
      rintro _ ⟨⟩
      exact hshort.length_wire
  have hclear : (recordOf acl aces).clear Metadata.Omit.default = recordOf acl aces := by
    rw [Metadata.clear_eq, Metadata.retain_default]
  obtain ⟨c, hc⟩ := CanonicalMetadata.exists_normalize Metadata.Sorts.merge Metadata.Omit.default
    (m := recordOf acl aces) (by rwa [hclear])
  have hsized : Sized ((recordOf acl aces).clear Metadata.Omit.default) := by
    rw [hclear]
    exact ⟨⟨hrecord.xattrCount, fun x hx => (hrecord.xattrs x hx).2⟩,
      ⟨hrecord.aceCount, fun a ha => (hrecord.aces a ha).2⟩,
      fun acl hacl => (hrecord.nativeAcl acl hacl).2, hrecord.holeCount⟩
  have hcanonical := (canonicalize_eq_ok_iff hsized).mpr ⟨c, hc, rfl⟩
  obtain ⟨-, hsorted, -, -, -, -, heq⟩ := canonicalize_eq_ok.mp hcanonical
  exact ⟨aces, c, haces, hcanonical, by rw [heq], perm_of_canonicalAces hsorted⟩

lemma capture_congr {s t : Attributes}
    (h : ∀ name, readLinuxAttribute s name = readLinuxAttribute t name) : capture s = capture t := by
  rw [capture, capture, h, h]

/-- A path that the kernel reports on has two valid lists. -/
lemma Reported.exists_lists {s : Attributes} (h : Reported kept s) (hkernel : kernel.Keeps kept) :
    ∃ acl : LinuxAcl, Short acl ∧ readLinuxAttribute s .access = .ok acl.access.bytes ∧
      readLinuxAttribute s .default = .ok acl.default.bytes ∧
      (acl.access.bytes = [] ∨ kept .access acl.access.bytes) ∧
      (acl.default.bytes = [] ∨ kept .default acl.default.bytes) := by
  have hvalid : ∀ name bytes, bytes = [] ∨ kept name bytes →
      LinuxAcl.validate bytes = .ok () ∧ bytes.length ≤ 65536 := by
    rintro name bytes (rfl | hkept)
    · exact ⟨rfl, by norm_num⟩
    · exact ⟨hkernel.valid name bytes hkept, (hkernel.length name bytes hkept).2⟩
  obtain ⟨access, haccess, haccessKept⟩ := h .access
  obtain ⟨default, hdefault, hdefaultKept⟩ := h .default
  obtain ⟨hva, hla⟩ := hvalid _ _ haccessKept
  obtain ⟨hvd, hld⟩ := hvalid _ _ hdefaultKept
  exact ⟨⟨⟨access, hva⟩, ⟨default, hvd⟩⟩, ⟨hla, hld⟩, haccess, hdefault, haccessKept, hdefaultKept⟩

/-! ### Records of another system -/

/-- A principal in its usual spelling. -/
def Plain (a : Ace) : Prop :=
  a.tag = .namedUser ∨ a.tag = .namedGroup → ∃ id : UInt32, a.name = utf8 id.toNat.repr

lemma plain_of_respelled {a a' : Ace} (h : LinuxAcl.Respelled a a') : Plain a' := by
  intro hnamed
  rw [h.tag] at hnamed
  obtain ⟨id, -, hname⟩ := h.named hnamed
  exact ⟨id, hname⟩

/-- A plain principal is spelled as it was. -/
lemma eq_of_respelled {a a' : Ace} (h : LinuxAcl.Respelled a a') (hplain : Plain a) : a' = a := by
  have hname : a'.name = a.name := by
    by_cases hnamed : a.tag = .namedUser ∨ a.tag = .namedGroup
    · obtain ⟨id, hdenotes, hname⟩ := h.named hnamed
      obtain ⟨id', hname'⟩ := hplain hnamed
      have hread : LinuxAcl.principal a.name = .ok id' := by
        rw [hname', ← LinuxAcl.decimal_eq]
        exact LinuxAcl.principal_decimal id'
      obtain rfl := Except.ok.inj ((LinuxAcl.principal_eq_ok.mpr hdenotes).symm.trans hread)
      rw [hname, hname']
    · exact h.unnamed hnamed
  have heq : a' = ⟨a'.tag, a'.permissions, a'.name⟩ := rfl
  rw [heq, h.tag, h.permissions, hname]

lemma forall_plain {xs ys : List Ace} (h : List.Forall₂ LinuxAcl.Respelled xs ys) :
    ∀ a ∈ ys, Plain a := by
  induction h with
  | nil => simp
  | cons hxy _ ih => exact List.forall_mem_cons.mpr ⟨plain_of_respelled hxy, ih⟩

lemma eq_of_forall_plain {xs ys : List Ace} (h : List.Forall₂ LinuxAcl.Respelled xs ys)
    (hplain : ∀ a ∈ xs, Plain a) : ys = xs := by
  induction h with
  | nil => rfl
  | cons hxy _ ih =>
    obtain ⟨hx, hxs⟩ := List.forall_mem_cons.mp hplain
    rw [eq_of_respelled hxy hx, ih hxs]

/-- Whether portable entries come back as they were. -/
lemma aces_eq_iff {c r : CanonicalMetadata} {respelled : List Ace}
    (hrespelled : List.Forall₂ LinuxAcl.Respelled c.metadata.aces respelled)
    (hperm : respelled.Perm r.metadata.aces) :
    r.metadata.aces = c.metadata.aces ↔ ∀ a ∈ c.metadata.aces, Plain a := by
  constructor
  · intro hsame a ha
    rw [← hsame] at ha
    exact forall_plain hrespelled a (hperm.symm.subset ha)
  · intro hplain
    rw [eq_of_forall_plain hrespelled hplain] at hperm
    exact (Metadata.aces_eq_ok.mp r.isValid.aces).2.eq_of_perm
      (Metadata.aces_eq_ok.mp c.isValid.aces).2 hperm.symm

lemma encodePortableLinux_eq_nil {aces : List Ace} {bytes : List UInt8}
    (h : encodePortableLinux aces = .ok bytes) : bytes = [] ↔ aces = [] := by
  rw [encodePortableLinux] at h
  split_ifs at h with hempty
  · exact iff_of_true (Except.ok.inj h).symm (List.length_eq_zero_iff.mp hempty)
  · obtain ⟨entries, -, h⟩ := Wire.bind_eq_ok.mp h
    obtain ⟨_, -, h⟩ := Wire.bind_eq_ok.mp h
    refine iff_of_false ?_ (mt List.length_eq_zero_iff.mpr hempty)
    rw [← Except.ok.inj h]
    exact List.append_ne_nil_of_left_ne_nil (by decide) _

/-- The access list made of portable entries, and what is captured behind it. -/
lemma restore_portable (hkernel : kernel.Keeps kept) {c : CanonicalMetadata} {bytes : List UInt8}
    (hforeign : ∀ native ∈ c.metadata.nativeAcl, native.origin ≠ .linux)
    (hbytes : encodePortableLinux c.metadata.aces = .ok bytes)
    (hkept : bytes = [] ∨ kept .access bytes) (t : Attributes) :
    ∃ t' m, ∃ r : CanonicalMetadata, restore kernel c.metadata t = (.ok (), t') ∧
      capture t' = .ok m ∧ canonicalize m (Omit.of Metadata.Omit.default) = .ok r.metadata ∧
      (r.metadata.aces = c.metadata.aces ↔ ∀ a ∈ c.metadata.aces, Plain a) ∧
      (r.metadata.nativeAcl = c.metadata.nativeAcl ↔
        c.metadata.aces = [] ∧ c.metadata.nativeAcl = none) := by
  have hencoded : LinuxAcl.encodePortable entrySorter c = .ok bytes := by
    rwa [encodePortableLinux_eq entrySorter, mapError_eq_ok] at hbytes
  obtain ⟨access, aces, respelled, hnew, hportable, hperm, hrespelled⟩ :=
    LinuxAcl.portable_of_encodePortable hencoded
  obtain rfl := LinuxAcl.PosixAcl.new_eq_ok.mp hnew
  have hdesired : desiredLists c.metadata = .ok ⟨access.bytes, []⟩ := by
    have hlists : portableLists c.metadata = .ok ⟨access.bytes, []⟩ := by
      rw [portableLists, hbytes]
      rfl
    rw [desiredLists]
    cases hnative : c.metadata.nativeAcl with
    | none => exact hlists
    | some native =>
      dsimp only
      rw [if_neg (hforeign native hnative), hlists]
  obtain ⟨t', hrestore, haccess, hdefault⟩ := restore_run hkernel hdesired hkept (.inl rfl) t
  let acl : LinuxAcl := ⟨access, ⟨[], rfl⟩⟩
  have hshort : Short acl := by
    refine ⟨?_, by simp [acl]⟩
    rcases hkept with hempty | hkept
    · simp [acl, hempty]
    · exact (hkernel.length _ _ hkept).2
  obtain ⟨aces', r, haces', hcanonical, hnative, hacesPerm⟩ := exists_canonical hshort
  have hcapture := capture_eq hshort.encodable haccess hdefault haces'
  refine ⟨t', _, r, hrestore, hcapture, hcanonical, ?_, ?_⟩
  · have hsame : portableLinux access.bytes = .ok aces := by
      rw [portableLinux_eq, hnew, ok_bind, hportable, mapError_ok]
    rw [aces_recordOf haces', Except.ok.inj (haces'.symm.trans hsame)] at hacesPerm
    exact aces_eq_iff hrespelled (hperm.trans hacesPerm.symm)
  · rw [hnative, recordOf]
    by_cases hempty : access.bytes = []
    · rw [if_pos ⟨hempty, rfl⟩]
      exact ⟨fun hnone => ⟨(encodePortableLinux_eq_nil hbytes).mp hempty, hnone.symm⟩,
        fun h => h.2.symm⟩
    · rw [if_neg fun h => hempty h.1]
      refine iff_of_false (fun hsome => ?_) fun h => ?_
      · exact hforeign _ hsome.symm rfl
      · exact hempty ((encodePortableLinux_eq_nil hbytes).mpr h.1)

/-! ### Both ways -/

/-- Access control on Linux. What was captured of a path has a canonical record, and restoring that
record to any path leaves both lists there as they were captured, so that they are captured again.
A record without a list of Linux is restored through its portable entries: they are captured as
they were exactly when all principals in them are plain, and the record of the path is then the same
unless there is something in it. A record whose lists cannot be made leaves a path alone. -/
theorem restore_capture (hkernel : kernel.Keeps kept) :
    (∀ s, Reported kept s → ∃ m c, capture s = .ok m ∧
      canonicalize m (Omit.of Metadata.Omit.default) = .ok c ∧
      ∀ desired t, desired.aces = c.aces → desired.nativeAcl = c.nativeAcl →
        ∃ t', restore kernel desired t = (.ok (), t') ∧
          (∀ name, readLinuxAttribute t' name = readLinuxAttribute s name) ∧
          capture t' = .ok m) ∧
    (∀ (c : CanonicalMetadata) bytes t, (∀ native ∈ c.metadata.nativeAcl, native.origin ≠ .linux) →
      encodePortableLinux c.metadata.aces = .ok bytes → bytes = [] ∨ kept .access bytes →
      ∃ t' m, ∃ r : CanonicalMetadata, restore kernel c.metadata t = (.ok (), t') ∧
        capture t' = .ok m ∧ canonicalize m (Omit.of Metadata.Omit.default) = .ok r.metadata ∧
        (r.metadata.aces = c.metadata.aces ↔ ∀ a ∈ c.metadata.aces, Plain a) ∧
        (r.metadata.nativeAcl = c.metadata.nativeAcl ↔
          c.metadata.aces = [] ∧ c.metadata.nativeAcl = none)) ∧
    ∀ desired e, desiredLists desired = .error e →
      ∀ t, restore kernel desired t = (.error e, t) := by
  refine ⟨fun s hs => ?_, fun c bytes t hforeign hbytes hkept =>
    restore_portable hkernel hforeign hbytes hkept t, fun desired e h t => restore_error h t⟩
  obtain ⟨acl, hshort, haccess, hdefault, haccessKept, hdefaultKept⟩ := hs.exists_lists hkernel
  obtain ⟨aces, c, haces, hcanonical, hnative, hperm⟩ := exists_canonical hshort
  have hcapture := capture_eq hshort.encodable haccess hdefault haces
  refine ⟨_, c.metadata, hcapture, hcanonical, fun desired t hdesired hdesiredNative => ?_⟩
  have hlists : desiredLists desired = .ok (LinuxLists.of acl) :=
    desiredLists_recordOf hshort (hdesiredNative.trans hnative) (hdesired ▸ hperm)
  obtain ⟨t', hrestore, haccess', hdefault'⟩ :=
    restore_run hkernel hlists haccessKept hdefaultKept t
  have hsame : ∀ name, readLinuxAttribute t' name = readLinuxAttribute s name := by
    rintro (_ | _)
    · exact haccess'.trans haccess.symm
    · exact hdefault'.trans hdefault.symm
  exact ⟨t', hrestore, hsame, (capture_congr hsame).trans hcapture⟩

/-- A kernel that holds every valid list. -/
def plainKernel : Kernel where
  set name bytes s := (.ok (), Function.update s name (.ok bytes))
  remove name s := (.ok (), Function.update s name (.error .missing))

/-- A path with an access list, and one without any. -/
def fixturePath : Attributes
  | .access => .ok fixture
  | .default => .error .missing

def barePath : Attributes := fun _ => .error .unsupported

theorem restore_capture_fixture : ∃ m c t', capture fixturePath = .ok m ∧
    restore plainKernel c barePath = (.ok (), t') ∧ capture t' = .ok m := by
  let kept : AttrName → List UInt8 → Prop := fun _ bytes =>
    LinuxAcl.validate bytes = .ok () ∧ 0 < bytes.length ∧ bytes.length ≤ 65536
  have hkernel : plainKernel.Keeps kept :=
    ⟨fun _ _ h => h.1, fun _ _ h => h.2, fun _ _ _ _ => rfl,
      fun _ _ => ⟨.ok (), .missing, .inl rfl, by simp, rfl⟩⟩
  have hreported : Reported kept fixturePath := by
    rintro (_ | _)
    · exact ⟨fixture, rfl, .inr ⟨by decide, by decide, by decide⟩⟩
    · exact ⟨[], rfl, .inl rfl⟩
  obtain ⟨hpath, -, -⟩ := restore_capture hkernel
  obtain ⟨m, c, hcapture, -, hrestore⟩ := hpath fixturePath hreported
  obtain ⟨t', hrun, -, hagain⟩ := hrestore c barePath rfl rfl
  exact ⟨m, c, t', hcapture, hrun, hagain⟩

end NativeAcl

end Zig

end Difz
