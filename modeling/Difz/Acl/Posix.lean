import Difz.Metadata.Sorted

/-!
# POSIX access control lists

The records the Linux kernel keeps for an access control list: a version word and entries of eight
bytes, ordered by tag and identifier. The validators of both programs (`PosixAcl::new` in
`rust/src/linux_acl.rs`, `validateLinux` in `src/native_acl.zig`) walk the entries with the last
tag and identifier in hand and collect the tags they meet; both accept exactly the lists of the
grammar, `Grammatical`.
-/

namespace Difz

open Wire
open Metadata (AceTag)

namespace LinuxAcl

inductive Error
  | invalidAcl
  | outOfMemory
  | unrepresentableAcl
  deriving DecidableEq, Repr

/-! ### Entries -/

/-- An entry of the kernel's list. -/
@[ext]
structure Record where
  tag : UInt16
  permission : UInt16
  id : UInt32
  deriving DecidableEq, Repr

/-- `u32::MAX`, the identifier of the entries without a principal. -/
def noId : UInt32 := 0xffffffff

/-- The whole chunks of a slice. -/
def chunksExact (size : Nat) (bytes : List UInt8) : List (List UInt8) :=
  (List.range (bytes.length / size)).map fun i => (bytes.drop (size * i)).take size

namespace Record

def ofChunk (entry : List UInt8) : Record :=
  ⟨fromLeBytes (entry.take 2), fromLeBytes ((entry.drop 2).take 2), fromLeBytes (entry.drop 4)⟩

def wire (r : Record) : List UInt8 := toLeBytes r.tag ++ (toLeBytes r.permission ++ toLeBytes r.id)

@[simp] lemma length_wire (r : Record) : r.wire.length = 8 := by simp [wire]

@[simp] lemma ofChunk_wire (r : Record) : ofChunk r.wire = r := by
  have htag : (toLeBytes r.tag).length = 2 := by simp
  have hpermission : (toLeBytes r.permission).length = 2 := by simp
  have hid : r.wire.drop 4 = toLeBytes r.id := by
    rw [show 4 = 2 + 2 from rfl, ← List.drop_drop, wire, List.drop_left' htag,
      List.drop_left' hpermission]
  rw [ofChunk, hid, wire, List.take_left' htag, List.drop_left' htag, List.take_left' hpermission]
  simp

lemma wire_ofChunk {entry : List UInt8} (h : entry.length = 8) : (ofChunk entry).wire = entry := by
  rw [wire, ofChunk, toLeBytes_fromLeBytes (by simp [h]), toLeBytes_fromLeBytes (by simp [h]),
    toLeBytes_fromLeBytes (by simp [h]), show entry.drop 4 = (entry.drop 2).drop 2 by simp,
    List.take_append_drop, List.take_append_drop]

end Record

lemma chunksExact_append {size : Nat} (hsize : 0 < size) {chunk bytes : List UInt8}
    (h : chunk.length = size) :
    chunksExact size (chunk ++ bytes) = chunk :: chunksExact size bytes := by
  have hcount : (chunk ++ bytes).length / size = bytes.length / size + 1 := by
    rw [List.length_append, h, Nat.add_comm, Nat.add_div_right _ hsize]
  rw [chunksExact, hcount, List.range_succ_eq_map, List.map_cons, List.map_map, chunksExact]
  congr 1
  · simp [List.take_left' h]
  · refine List.map_congr_left fun i _ => ?_
    rw [Function.comp_apply, Nat.succ_eq_add_one, Nat.mul_add_one, Nat.add_comm, ← List.drop_drop,
      List.drop_left' h]

lemma chunksExact_flatMap (records : List Record) :
    (chunksExact 8 (records.flatMap Record.wire)).map Record.ofChunk = records := by
  induction records with
  | nil => rfl
  | cons r records ih =>
    rw [List.flatMap_cons, chunksExact_append (by norm_num) r.length_wire, List.map_cons, ih,
      Record.ofChunk_wire]

/-- A slice whose length is a multiple of eight is made of entries. -/
lemma exists_records {bytes : List UInt8} (h : bytes.length % 8 = 0) :
    ∃ records : List Record, bytes = records.flatMap Record.wire := by
  obtain ⟨n, hn⟩ : ∃ n, bytes.length = 8 * n := ⟨bytes.length / 8, by omega⟩
  clear h
  induction n generalizing bytes with
  | zero => exact ⟨[], List.length_eq_zero_iff.mp (by omega)⟩
  | succ n ih =>
    have hrest : (bytes.drop 8).length = 8 * n := by
      rw [List.length_drop]
      omega
    obtain ⟨records, hrecords⟩ := ih hrest
    refine ⟨Record.ofChunk (bytes.take 8) :: records, ?_⟩
    rw [List.flatMap_cons, Record.wire_ofChunk (by rw [List.length_take]; omega), ← hrecords,
      List.take_append_drop]

/-! ### The grammar -/

namespace Record

def Named (r : Record) : Prop := r.tag = 2 ∨ r.tag = 8

instance (r : Record) : Decidable r.Named := inferInstanceAs (Decidable (_ ∨ _))

/-- What an entry must meet by itself. -/
structure Proper (r : Record) : Prop where
  tag : r.tag ∈ [1, 2, 4, 8, 16, 32]
  permission : r.permission ≤ 7
  named : r.Named → r.id ≠ noId
  unnamed : ¬ r.Named → r.id = noId

/-- The order of the kernel: by tag, then by identifier. -/
def Before (a b : Record) : Prop := a.tag < b.tag ∨ (a.tag = b.tag ∧ a.id < b.id)

end Record

/-- The lists of entries that the kernel accepts. -/
structure WellFormed (records : List Record) : Prop where
  proper : ∀ r ∈ records, r.Proper
  ordered : records.Pairwise Record.Before
  owner : ∃ r ∈ records, r.tag = 1
  group : ∃ r ∈ records, r.tag = 4
  everyone : ∃ r ∈ records, r.tag = 32
  mask : (∃ r ∈ records, r.Named) → ∃ r ∈ records, r.tag = 16

/-- Nothing, or the version and a list of entries. -/
def Grammatical (bytes : List UInt8) : Prop :=
  bytes = [] ∨ ∃ records, bytes = toLeBytes (2 : UInt32) ++ records.flatMap Record.wire ∧
    WellFormed records

/-! ### The validator of the Rust crate -/

/-- What the loop remembers. -/
structure Scan where
  base : UInt8
  lastTag : UInt16
  lastId : UInt32
  named : Bool

def Scan.start : Scan := ⟨0, 0, 0, false⟩

def tag : UInt16 → Except Error AceTag
  | 1 => .ok .owner
  | 2 => .ok .namedUser
  | 4 => .ok .group
  | 8 => .ok .namedGroup
  | 16 => .ok .mask
  | 32 => .ok .everyone
  | _ => .error .invalidAcl

/-- The bit of the entries that a list must have, or may have once. -/
def baseBit : AceTag → UInt8
  | .owner => 1
  | .group => 2
  | .mask => 4
  | .everyone => 8
  | .namedUser | .namedGroup => 0

def Scan.step (s : Scan) (r : Record) : Except Error Scan :=
  if r.permission > 7 || r.tag < s.lastTag then .error .invalidAcl
  else do
    let kind ← tag r.tag
    match kind with
    | .namedUser | .namedGroup =>
      if r.id == noId || (r.tag == s.lastTag && r.id ≤ s.lastId) then .error .invalidAcl
      else .ok { s with lastTag := r.tag, lastId := r.id, named := true }
    | .owner | .group | .mask | .everyone =>
      if r.id != noId || r.tag == s.lastTag then .error .invalidAcl
      else .ok { s with base := s.base ||| baseBit kind, lastTag := r.tag, lastId := r.id }

def Scan.finish (s : Scan) : Except Error Unit :=
  if s.base &&& 11 != 11 || (s.named && s.base &&& 4 == 0) then .error .invalidAcl else .ok ()

def validate (bytes : List UInt8) : Except Error Unit :=
  if bytes.isEmpty then .ok ()
  else if bytes.length < 4 || (bytes.length - 4) % 8 != 0
      || bytes.take 4 != toLeBytes (2 : UInt32) then
    .error .invalidAcl
  else do
    let s ← ((chunksExact 8 (bytes.drop 4)).map Record.ofChunk).foldlM Scan.step Scan.start
    s.finish

/-- The bytes of a list that passed the check. -/
structure PosixAcl where
  bytes : List UInt8
  valid : validate bytes = .ok ()

def PosixAcl.new (bytes : List UInt8) : Except Error PosixAcl :=
  match h : validate bytes with
  | .ok () => .ok ⟨bytes, h⟩
  | .error e => .error e

lemma PosixAcl.new_eq_ok {bytes : List UInt8} {acl : PosixAcl} :
    PosixAcl.new bytes = .ok acl ↔ acl.bytes = bytes := by
  unfold PosixAcl.new
  split
  · rw [Except.ok.injEq]
    constructor
    · rintro rfl
      rfl
    · intro h
      cases acl
      simp_all
  · next e h =>
    refine ⟨fun hc => absurd hc (by simp), ?_⟩
    rintro rfl
    exact absurd (h.symm.trans acl.valid) (by simp)

/-- `DIFZACL` and the version byte. -/
def magic : List UInt8 := utf8 "DIFZACL\x01"

end LinuxAcl

/-- The two lists of a file in their container. -/
structure LinuxAcl where
  access : LinuxAcl.PosixAcl
  default : LinuxAcl.PosixAcl

namespace LinuxAcl

def decode (bytes : List UInt8) : Except Error LinuxAcl :=
  if bytes.length < 16 || bytes.take 8 != magic then .error .invalidAcl
  else
    let access : UInt32 := fromLeBytes (field bytes 8 12)
    let default : UInt32 := fromLeBytes (field bytes 12 16)
    if access.toNat + default.toNat ≠ bytes.length - 16 then .error .invalidAcl
    else do
      let boundary := 16 + access.toNat
      let access ← PosixAcl.new (field bytes 16 boundary)
      let default ← PosixAcl.new (bytes.drop boundary)
      .ok ⟨access, default⟩

/-! ### One entry -/

/-- The tag the kernel uses. -/
def kernelTag : AceTag → UInt16
  | .owner => 1
  | .namedUser => 2
  | .group => 4
  | .namedGroup => 8
  | .mask => 16
  | .everyone => 32

lemma tag_eq_ok {value : UInt16} {kind : AceTag} : tag value = .ok kind ↔ value = kernelTag kind := by
  constructor
  · intro h
    unfold tag at h
    split at h
    all_goals first | (obtain rfl := Except.ok.inj h; rfl) | exact absurd h (by simp)
  · rintro rfl
    cases kind <;> rfl

lemma mem_tags_iff {value : UInt16} :
    value ∈ ([1, 2, 4, 8, 16, 32] : List UInt16) ↔ ∃ kind, value = kernelTag kind := by
  constructor
  · intro h
    simp only [List.mem_cons, List.not_mem_nil, or_false] at h
    rcases h with rfl | rfl | rfl | rfl | rfl | rfl
    exacts [⟨.owner, rfl⟩, ⟨.namedUser, rfl⟩, ⟨.group, rfl⟩, ⟨.namedGroup, rfl⟩, ⟨.mask, rfl⟩,
      ⟨.everyone, rfl⟩]
  · rintro ⟨kind, rfl⟩
    cases kind <;> decide

/-- The bit that an entry adds, whatever its tag. -/
def bitOf (value : UInt16) : UInt8 :=
  match tag value with
  | .ok kind => baseBit kind
  | .error _ => 0

/-- The state behind an entry that was accepted. -/
def Scan.push (s : Scan) (r : Record) : Scan :=
  ⟨s.base ||| bitOf r.tag, r.tag, r.id, s.named || decide r.Named⟩

/-- The state remembers the last entry; at the beginning its tag is below all others. -/
structure Scan.Follows (s : Scan) (last : Option Record) : Prop where
  tag : s.lastTag = last.elim 0 Record.tag
  id : s.lastId = last.elim 0 Record.id
  proper : ∀ q ∈ last, q.Proper

lemma Scan.follows_start : Scan.start.Follows none := ⟨rfl, rfl, by simp⟩

lemma Scan.follows_push (s : Scan) {r : Record} (h : r.Proper) : (s.push r).Follows (some r) := by
  refine ⟨rfl, rfl, ?_⟩
  rintro q ⟨⟩
  exact h

/-- Behind an entry without a principal the order is that of the tags. -/
lemma Record.before_iff_of_not_named {q r : Record} (hq : q.Proper) (hr : r.Proper)
    (h : ¬ r.Named) : q.Before r ↔ ¬ r.tag < q.tag ∧ r.tag ≠ q.tag := by
  have hid : q.tag = r.tag → q.id = r.id := by
    intro htag
    have hn : ¬ q.Named := by rwa [Record.Named, htag]
    rw [hq.unnamed hn, hr.unnamed h]
  simp only [Record.Before, UInt16.lt_iff_toNat_lt, UInt32.lt_iff_toNat_lt, ne_eq,
    ← UInt16.toNat_inj] at *
  by_cases htag : q.tag.toNat = r.tag.toNat
  · rw [hid htag]
    omega
  · omega

lemma Record.before_iff_of_named {q r : Record} :
    q.Before r ↔ ¬ r.tag < q.tag ∧ ¬ (r.tag = q.tag ∧ r.id ≤ q.id) := by
  simp only [Record.Before, UInt16.lt_iff_toNat_lt, UInt32.lt_iff_toNat_lt,
    UInt32.le_iff_toNat_le, ← UInt16.toNat_inj]
  omega

lemma Record.Proper.tag_ne_zero {r : Record} (h : r.Proper) : r.tag ≠ 0 := by
  intro hzero
  have := h.tag
  rw [hzero] at this
  exact absurd this (by decide)

/-- The comparison with the last entry is the order of the kernel. -/
lemma Scan.Follows.named_iff {s : Scan} {last : Option Record} (h : s.Follows last) {r : Record}
    (hr : r.Proper) : (¬ r.tag < s.lastTag ∧ ¬ (r.tag = s.lastTag ∧ r.id ≤ s.lastId)) ↔
      ∀ q ∈ last, q.Before r := by
  rw [h.tag, h.id]
  cases last with
  | none => simp [hr.tag_ne_zero]
  | some q =>
    simp only [Option.elim_some, Option.mem_def, Option.some.injEq, forall_eq']
    exact Record.before_iff_of_named.symm

lemma Scan.Follows.unnamed_iff {s : Scan} {last : Option Record} (h : s.Follows last) {r : Record}
    (hr : r.Proper) (hn : ¬ r.Named) :
    (¬ r.tag < s.lastTag ∧ r.tag ≠ s.lastTag) ↔ ∀ q ∈ last, q.Before r := by
  rw [h.tag]
  have hproper := h.proper
  cases last with
  | none => simp [hr.tag_ne_zero]
  | some q =>
    simp only [Option.elim_some, Option.mem_def, Option.some.injEq, forall_eq'] at hproper ⊢
    exact (Record.before_iff_of_not_named hproper hr hn).symm

/-- The step without the detour over the portable tags. -/
lemma Scan.step_eq (s : Scan) (r : Record) : s.step r =
    if r.permission > 7 ∨ r.tag < s.lastTag ∨ r.tag ∉ ([1, 2, 4, 8, 16, 32] : List UInt16) then
      .error .invalidAcl
    else if r.Named then
      if r.id = noId ∨ (r.tag = s.lastTag ∧ r.id ≤ s.lastId) then .error .invalidAcl
      else .ok (s.push r)
    else if r.id ≠ noId ∨ r.tag = s.lastTag then .error .invalidAcl
    else .ok (s.push r) := by
  cases hkind : tag r.tag with
  | error e =>
    have hnot : r.tag ∉ ([1, 2, 4, 8, 16, 32] : List UInt16) := by
      intro hmem
      obtain ⟨kind, htag⟩ := mem_tags_iff.mp hmem
      rw [tag_eq_ok.mpr htag] at hkind
      exact absurd hkind (by simp)
    have he : e = .invalidAcl := by
      unfold tag at hkind
      split at hkind
      all_goals simp_all
    rw [if_pos (.inr (.inr hnot)), Scan.step, hkind, he]
    split_ifs <;> rfl
  | ok kind =>
    have htag := tag_eq_ok.mp hkind
    have hmem := mem_tags_iff.mpr ⟨kind, htag⟩
    rw [Scan.step, hkind, ok_bind, Scan.push, bitOf, hkind]
    simp only [hmem, not_true_eq_false, or_false, Bool.or_eq_true, decide_eq_true_eq,
      Bool.and_eq_true, beq_iff_eq, bne_iff_ne]
    refine if_congr Iff.rfl rfl ?_
    cases kind with
    | namedUser | namedGroup =>
      have hnamed : r.Named := by simp [Record.Named, htag, kernelTag]
      simp [hnamed, baseBit]
    | owner | group | mask | everyone =>
      have hnamed : ¬ r.Named := by rw [Record.Named, htag]; decide
      simp [hnamed]

/-- An entry is accepted when it is proper and follows the last one. -/
lemma Scan.step_eq_ok {s s' : Scan} {last : Option Record} (h : s.Follows last) {r : Record} :
    s.step r = .ok s' ↔ r.Proper ∧ (∀ q ∈ last, q.Before r) ∧ s' = s.push r := by
  rw [Scan.step_eq, ite_error_eq_ok, not_or, not_or, not_not, gt_iff_lt, UInt16.not_lt]
  by_cases hnamed : r.Named
  · rw [if_pos hnamed, ite_error_eq_ok, not_or, Except.ok.injEq, eq_comm (a := s.push r)]
    constructor
    · intro hstep
      obtain ⟨⟨hpermission, hlast, htag⟩, ⟨hid, horder⟩, hpush⟩ := hstep
      have hr : r.Proper := ⟨htag, hpermission, fun _ => hid, fun hn => absurd hnamed hn⟩
      exact ⟨hr, (h.named_iff hr).mp ⟨hlast, horder⟩, hpush⟩
    · intro hstep
      obtain ⟨hr, horder, hpush⟩ := hstep
      obtain ⟨hlast, horder⟩ := (h.named_iff hr).mpr horder
      exact ⟨⟨hr.permission, hlast, hr.tag⟩, ⟨hr.named hnamed, horder⟩, hpush⟩
  · rw [if_neg hnamed, ite_error_eq_ok, not_or, not_not, Except.ok.injEq, eq_comm (a := s.push r)]
    constructor
    · intro hstep
      obtain ⟨⟨hpermission, hlast, htag⟩, ⟨hid, horder⟩, hpush⟩ := hstep
      have hr : r.Proper := ⟨htag, hpermission, fun hn => absurd hn hnamed, fun _ => hid⟩
      exact ⟨hr, (h.unnamed_iff hr hnamed).mp ⟨hlast, horder⟩, hpush⟩
    · intro hstep
      obtain ⟨hr, horder, hpush⟩ := hstep
      obtain ⟨hlast, horder⟩ := (h.unnamed_iff hr hnamed).mpr horder
      exact ⟨⟨hr.permission, hlast, hr.tag⟩, ⟨hr.unnamed hnamed, horder⟩, hpush⟩

/-! ### Whole lists -/

lemma Record.Before.trans {a b c : Record} (hab : a.Before b) (hbc : b.Before c) : a.Before c := by
  simp only [Record.Before, UInt16.lt_iff_toNat_lt, UInt32.lt_iff_toNat_lt,
    ← UInt16.toNat_inj] at *
  omega

/-- The loop accepts when every entry is proper and all of them are in order. -/
lemma Scan.foldlM_eq_ok {s s' : Scan} {last : Option Record} (h : s.Follows last)
    {records : List Record} : records.foldlM Scan.step s = .ok s' ↔
      (∀ r ∈ records, r.Proper) ∧ (last.toList ++ records).Pairwise Record.Before ∧
        s' = records.foldl Scan.push s := by
  induction records generalizing s last with
  | nil =>
    have hpair : (last.toList ++ []).Pairwise Record.Before := by cases last <;> simp
    simp only [List.foldlM_nil, List.not_mem_nil, false_implies, implies_true, hpair,
      List.foldl_nil, true_and]
    exact ⟨fun hs => (Except.ok.inj hs).symm, fun hs => congrArg Except.ok hs.symm⟩
  | cons r records ih =>
    rw [List.foldlM_cons, bind_eq_ok, List.forall_mem_cons, List.foldl_cons]
    constructor
    · intro hrun
      obtain ⟨t, hstep, hrest⟩ := hrun
      obtain ⟨hr, hlast, rfl⟩ := (Scan.step_eq_ok h).mp hstep
      obtain ⟨hrecords, hpair, hs⟩ := (ih (s.follows_push hr)).mp hrest
      refine ⟨⟨hr, hrecords⟩, ?_, hs⟩
      cases last with
      | none => exact hpair
      | some q =>
        have hqr : q.Before r := hlast q rfl
        refine List.pairwise_cons.mpr ⟨List.forall_mem_cons.mpr ⟨hqr, fun x hx => ?_⟩, hpair⟩
        exact hqr.trans ((List.pairwise_cons.mp hpair).1 x hx)
    · intro hall
      obtain ⟨⟨hr, hrecords⟩, hpair, hs⟩ := hall
      have hlast : ∀ q ∈ last, q.Before r := by
        rintro q ⟨⟩
        exact (List.pairwise_cons.mp hpair).1 r (by simp)
      refine ⟨s.push r, (Scan.step_eq_ok h).mpr ⟨hr, hlast, rfl⟩, ?_⟩
      refine (ih (s.follows_push hr)).mpr ⟨hrecords, ?_, hs⟩
      exact hpair.sublist (List.sublist_append_right _ _)

/-- The bits of the tags that were met. -/
def tagBits (owner group mask everyone : Bool) : UInt8 :=
  (if owner then 1 else 0) ||| (if group then 2 else 0) ||| (if mask then 4 else 0)
    ||| (if everyone then 8 else 0)

lemma bitOf_eq (value : UInt16) :
    bitOf value = tagBits (value == 1) (value == 4) (value == 16) (value == 32) := by
  cases hkind : tag value with
  | ok kind =>
    rw [bitOf, hkind, tag_eq_ok.mp hkind]
    cases kind <;> rfl
  | error e =>
    have hne : ∀ kind, value ≠ kernelTag kind := by
      intro kind htag
      rw [tag_eq_ok.mpr htag] at hkind
      exact absurd hkind (by simp)
    have howner := hne .owner
    have hgroup := hne .group
    have hmask := hne .mask
    have heveryone := hne .everyone
    rw [bitOf, hkind]
    simp_all [kernelTag, tagBits]

lemma tagBits_or (a b c d a' b' c' d' : Bool) : tagBits a b c d ||| tagBits a' b' c' d'
    = tagBits (a || a') (b || b') (c || c') (d || d') := by
  revert a b c d a' b' c' d'
  decide

lemma Scan.foldl_push (s : Scan) (records : List Record) :
    (records.foldl Scan.push s).base = s.base ||| tagBits (records.any (·.tag == 1))
        (records.any (·.tag == 4)) (records.any (·.tag == 16)) (records.any (·.tag == 32)) ∧
      (records.foldl Scan.push s).named = (s.named || records.any fun r => decide r.Named) := by
  induction records generalizing s with
  | nil => simp [tagBits]
  | cons r records ih =>
    obtain ⟨hbase, hnamed⟩ := ih (s.push r)
    rw [List.foldl_cons, hbase, hnamed, Scan.push, bitOf_eq, UInt8.or_assoc, tagBits_or]
    simp only [List.any_cons, Bool.or_assoc, and_self]

/-- The last check asks for the three tags, and for the mask where principals are named. -/
lemma Scan.finish_eq_ok {s : Scan} {owner group mask everyone : Bool}
    (h : s.base = tagBits owner group mask everyone) : s.finish = .ok () ↔
      owner = true ∧ group = true ∧ everyone = true ∧ (s.named = true → mask = true) := by
  rw [Scan.finish, ite_error_eq_ok, h]
  generalize s.named = named
  simp only [and_true]
  clear h
  revert owner group mask everyone named
  decide

lemma scan_eq_ok {records : List Record} :
    (records.foldlM Scan.step Scan.start >>= Scan.finish) = .ok () ↔ WellFormed records := by
  obtain ⟨hbase, hnamed⟩ := Scan.foldl_push Scan.start records
  have hbase : (records.foldl Scan.push Scan.start).base = tagBits (records.any (·.tag == 1))
      (records.any (·.tag == 4)) (records.any (·.tag == 16)) (records.any (·.tag == 32)) := by
    rw [hbase]
    exact UInt8.zero_or
  have hfinish := Scan.finish_eq_ok hbase
  rw [hnamed] at hfinish
  simp only [List.any_eq_true, beq_iff_eq, Scan.start, Bool.false_or, decide_eq_true_eq] at hfinish
  rw [bind_eq_ok]
  simp only [Scan.foldlM_eq_ok Scan.follows_start, Option.toList_none, List.nil_append]
  constructor
  · intro h
    obtain ⟨s, ⟨hproper, hpair, rfl⟩, hs⟩ := h
    obtain ⟨howner, hgroup, heveryone, hmask⟩ := hfinish.mp hs
    exact ⟨hproper, hpair, howner, hgroup, heveryone, hmask⟩
  · intro h
    exact ⟨_, ⟨h.proper, h.ordered, rfl⟩, hfinish.mpr ⟨h.owner, h.group, h.everyone, h.mask⟩⟩

lemma length_flatMap_wire (records : List Record) :
    (records.flatMap Record.wire).length = 8 * records.length := by
  induction records with
  | nil => rfl
  | cons r records ih =>
    rw [List.flatMap_cons, List.length_append, ih, Record.length_wire, List.length_cons]
    omega

/-- The bytes are a version word and entries: what the checks of the length establish. -/
lemma exists_framed {bytes : List UInt8} (hentries : (bytes.length - 4) % 8 = 0)
    (hversion : bytes.take 4 = toLeBytes (2 : UInt32)) :
    ∃ records : List Record, bytes = toLeBytes (2 : UInt32) ++ records.flatMap Record.wire := by
  have hrest : (bytes.drop 4).length % 8 = 0 := by rw [List.length_drop, hentries]
  obtain ⟨records, hrecords⟩ := exists_records hrest
  exact ⟨records, by rw [← hversion, ← hrecords, List.take_append_drop]⟩

/-- On a framed list the checks of the length pass and the loop runs over the entries. -/
lemma validate_framed (records : List Record) :
    validate (toLeBytes (2 : UInt32) ++ records.flatMap Record.wire)
      = (records.foldlM Scan.step Scan.start >>= Scan.finish) := by
  have hversion : (toLeBytes (2 : UInt32)).length = 4 := rfl
  have hlength := length_flatMap_wire records
  have hempty : (toLeBytes (2 : UInt32) ++ records.flatMap Record.wire).isEmpty = false := rfl
  rw [validate, hempty, if_neg (by simp), if_neg, List.drop_left' hversion, chunksExact_flatMap]
  simp [List.take_left' hversion, hlength]

theorem validate_eq_ok {bytes : List UInt8} : validate bytes = .ok () ↔ Grammatical bytes := by
  constructor
  · intro h
    by_cases hempty : bytes = []
    · exact .inl hempty
    · have hframe := h
      rw [validate, if_neg (by simpa using hempty), ite_error_eq_ok] at hframe
      simp only [Bool.or_eq_true, decide_eq_true_eq, bne_iff_ne, ne_eq, not_or, not_not] at hframe
      obtain ⟨⟨⟨-, hentries⟩, hversion⟩, -⟩ := hframe
      obtain ⟨records, rfl⟩ := exists_framed hentries hversion
      rw [validate_framed] at h
      exact .inr ⟨records, rfl, scan_eq_ok.mp h⟩
  · rintro (rfl | ⟨records, rfl, hrecords⟩)
    · rfl
    · rw [validate_framed]
      exact scan_eq_ok.mpr hrecords

end LinuxAcl

/-! ### The validator of the native program -/

namespace Zig

open LinuxAcl (Record Scan Grammatical WellFormed noId validate)

/-- How the validation ends other than well: with its error, or by a check of the language. -/
inductive AclFault
  | invalidAcl
  | outOfBounds
  | nullUnwrapped
  deriving DecidableEq, Repr

structure AclScan where
  base : UInt8
  lastTag : UInt16
  lastId : Option UInt32
  named : Bool

def AclScan.start : AclScan := ⟨0, 0, none, false⟩

/-- `last_id.?` -/
def unwrap (value : Option UInt32) : Except AclFault UInt32 :=
  match value with
  | some id => .ok id
  | none => .error .nullUnwrapped

/-- `tag == last_tag and id <= last_id.?` -/
def notAbove (z : AclScan) (r : Record) : Except AclFault Bool :=
  if r.tag == z.lastTag then (unwrap z.lastId).map fun last => decide (r.id ≤ last) else .ok false

/-- `id == std.math.maxInt(u32) or (..)` -/
def refused (z : AclScan) (r : Record) : Except AclFault Bool :=
  if r.id == noId then .ok true else notAbove z r

def aclBit : UInt16 → Except AclFault UInt8
  | 1 => .ok 1
  | 4 => .ok 2
  | 16 => .ok 4
  | 32 => .ok 8
  | _ => .error .invalidAcl

/-- The body of the loop, once the fields are read. -/
def AclScan.step (z : AclScan) (r : Record) : Except AclFault AclScan :=
  if r.permission > 7 || r.tag < z.lastTag then .error .invalidAcl
  else if r.tag == 2 || r.tag == 8 then do
    let refused ← refused z r
    if refused then .error .invalidAcl
    else .ok { z with lastTag := r.tag, lastId := some r.id, named := true }
  else if r.id != noId || r.tag == z.lastTag then .error .invalidAcl
  else do
    let bit ← aclBit r.tag
    .ok { z with base := z.base ||| bit, lastTag := r.tag, lastId := some r.id }

/-- `bytes[offset..][0..8]` -/
def aclEntry (bytes : List UInt8) (offset : Nat) : Except AclFault (List UInt8) :=
  if offset + 8 ≤ bytes.length then .ok ((bytes.drop offset).take 8) else .error .outOfBounds

/-- The offsets below the length, from four on in steps of eight. -/
def aclOffsets (length : Nat) : List Nat := (List.range ((length - 4 + 7) / 8)).map fun i => 4 + 8 * i

def AclScan.finish (z : AclScan) : Except AclFault Unit :=
  if z.base &&& 11 != 11 || (z.named && z.base &&& 4 == 0) then .error .invalidAcl else .ok ()

def validateLinux (bytes : List UInt8) : Except AclFault Unit :=
  if bytes.length = 0 then .ok ()
  else if bytes.length < 4 || (bytes.length - 4) % 8 != 0
      || (fromLeBytes (bytes.take 4) : UInt32) != 2 then
    .error .invalidAcl
  else do
    let z ← (aclOffsets bytes.length).foldlM
      (fun z offset => aclEntry bytes offset >>= fun entry => z.step (Record.ofChunk entry))
      AclScan.start
    z.finish

/-- The one error of the other program, here. -/
def AclFault.of (_ : LinuxAcl.Error) : AclFault := .invalidAcl

/-- The states agree, and the identifier is missing only at the beginning. -/
structure AclScan.Like (z : AclScan) (s : Scan) : Prop where
  base : z.base = s.base
  lastTag : z.lastTag = s.lastTag
  named : z.named = s.named
  lastId : z.lastId = some s.lastId ∨ (z.lastId = none ∧ s.lastTag = 0)

lemma aclBit_of_mem {value : UInt16} (hmem : value ∈ ([1, 2, 4, 8, 16, 32] : List UInt16))
    (hnamed : ¬ (value = 2 ∨ value = 8)) : aclBit value = .ok (LinuxAcl.bitOf value) := by
  simp only [List.mem_cons, List.not_mem_nil, or_false] at hmem
  rcases hmem with rfl | rfl | rfl | rfl | rfl | rfl
  all_goals first | rfl | exact absurd (by decide) hnamed

lemma aclBit_of_not_mem {value : UInt16}
    (hmem : value ∉ ([1, 2, 4, 8, 16, 32] : List UInt16)) : aclBit value = .error .invalidAcl := by
  unfold aclBit
  split
  all_goals simp_all

/-- The last identifier is only asked for behind an entry with the same tag. -/
lemma AclScan.Like.refused_eq {z : AclScan} {s : Scan} (h : z.Like s) {r : Record}
    (hnamed : r.Named) :
    refused z r = .ok (decide (r.id = noId ∨ (r.tag = s.lastTag ∧ r.id ≤ s.lastId))) := by
  rw [refused, notAbove, h.lastTag]
  by_cases htag : r.tag = s.lastTag
  · rcases h.lastId with hid | ⟨-, hzero⟩
    · by_cases hno : r.id = noId <;> simp [htag, hid, hno, unwrap, Except.map]
    · rw [Record.Named, htag, hzero] at hnamed
      exact absurd hnamed (by decide)
  · by_cases hno : r.id = noId <;> simp [htag, hno]

/-- Both accept an entry and go on alike, or both refuse it. -/
lemma AclScan.Like.step {z : AclScan} {s : Scan} (h : z.Like s) (r : Record) :
    (s.step r = .error .invalidAcl ∧ z.step r = .error .invalidAcl) ∨
      ∃ z' s', s.step r = .ok s' ∧ z.step r = .ok z' ∧ z'.Like s' := by
  have hlike : ∀ base named, base = (s.push r).base → named = (s.push r).named →
      (⟨base, r.tag, some r.id, named⟩ : AclScan).Like (s.push r) :=
    fun base named hb hn => ⟨hb, rfl, hn, .inl rfl⟩
  rw [Scan.step_eq, AclScan.step, h.lastTag]
  simp only [Bool.or_eq_true, decide_eq_true_eq, beq_iff_eq, bne_iff_ne]
  by_cases hfirst : r.permission > 7 ∨ r.tag < s.lastTag
  · rw [if_pos hfirst, if_pos (hfirst.imp_right .inl)]
    exact .inl ⟨rfl, rfl⟩
  rw [if_neg hfirst]
  by_cases hnamed : r.Named
  · have hmem : r.tag ∈ ([1, 2, 4, 8, 16, 32] : List UInt16) := by
      rcases hnamed with htag | htag <;> rw [htag] <;> decide
    rw [if_neg (by tauto), if_pos hnamed, if_pos (show r.tag = 2 ∨ r.tag = 8 from hnamed),
      h.refused_eq hnamed, ok_bind]
    by_cases hrefused : r.id = noId ∨ (r.tag = s.lastTag ∧ r.id ≤ s.lastId)
    · rw [if_pos hrefused, if_pos (decide_eq_true hrefused)]
      exact .inl ⟨rfl, rfl⟩
    · rw [if_neg hrefused, if_neg (by simpa using hrefused)]
      refine .inr ⟨_, _, rfl, rfl, hlike _ _ ?_ ?_⟩
      · rw [h.base, LinuxAcl.Scan.push]
        rcases hnamed with htag | htag <;> rw [htag] <;> exact UInt8.or_zero.symm
      · simp [LinuxAcl.Scan.push, hnamed]
  · rw [if_neg (show ¬ (r.tag = 2 ∨ r.tag = 8) from hnamed)]
    by_cases hid : r.id ≠ noId ∨ r.tag = s.lastTag
    · rw [if_pos hid, if_neg hnamed, if_pos hid, ite_self]
      exact .inl ⟨rfl, rfl⟩
    rw [if_neg hid, if_neg hnamed, if_neg hid]
    by_cases hmem : r.tag ∈ ([1, 2, 4, 8, 16, 32] : List UInt16)
    · rw [if_neg (by tauto), aclBit_of_mem hmem hnamed, ok_bind]
      refine .inr ⟨_, _, rfl, rfl, hlike _ _ ?_ ?_⟩
      · rw [h.base, LinuxAcl.Scan.push]
      · simp [LinuxAcl.Scan.push, hnamed, h.named]
    · rw [if_pos (.inr (.inr hmem)), aclBit_of_not_mem hmem]
      exact .inl ⟨rfl, rfl⟩

lemma AclScan.Like.run {z : AclScan} {s : Scan} (h : z.Like s) (records : List Record) :
    (records.foldlM AclScan.step z >>= AclScan.finish)
      = (records.foldlM Scan.step s >>= Scan.finish).mapError AclFault.of := by
  induction records generalizing z s with
  | nil =>
    change z.finish = s.finish.mapError AclFault.of
    rw [AclScan.finish, Scan.finish, h.base, h.named]
    split_ifs <;> rfl
  | cons r records ih =>
    rw [List.foldlM_cons, List.foldlM_cons]
    rcases h.step r with ⟨hs, hz⟩ | ⟨z', s', hs, hz, hnext⟩
    · rw [hs, hz]
      rfl
    · rw [hs, hz, ok_bind, ok_bind]
      exact ih hnext

lemma aclOffsets_framed (records : List Record) :
    aclOffsets (toLeBytes (2 : UInt32) ++ records.flatMap Record.wire).length
      = (List.range records.length).map fun i => 4 + 8 * i := by
  have hlength := LinuxAcl.length_flatMap_wire records
  rw [aclOffsets, List.length_append, hlength, length_toLeBytes, width_uint32]
  congr 2
  omega

lemma foldlM_congr {ε α β : Type} {f g : β → α → Except ε β} {xs : List α}
    (h : ∀ x ∈ xs, ∀ b, f b x = g b x) (b : β) : xs.foldlM f b = xs.foldlM g b := by
  induction xs generalizing b with
  | nil => rfl
  | cons x xs ih =>
    rw [List.foldlM_cons, List.foldlM_cons, h x (by simp) b]
    congr 1
    funext c
    exact ih (fun y hy => h y (by simp [hy])) c

/-- The loop over the offsets sees the entries one by one and never leaves the slice. -/
lemma foldlM_aclOffsets (records : List Record) (z : AclScan) :
    (aclOffsets (toLeBytes (2 : UInt32) ++ records.flatMap Record.wire).length).foldlM
        (fun z offset => aclEntry (toLeBytes (2 : UInt32) ++ records.flatMap Record.wire) offset
          >>= fun entry => z.step (Record.ofChunk entry)) z
      = records.foldlM AclScan.step z := by
  have hlength := LinuxAcl.length_flatMap_wire records
  have hcount : (records.flatMap Record.wire).length / 8 = records.length := by omega
  have hversion : (toLeBytes (2 : UInt32)).length = 4 := rfl
  conv_rhs => rw [← LinuxAcl.chunksExact_flatMap records]
  rw [aclOffsets_framed, LinuxAcl.chunksExact, hcount, List.map_map, List.foldlM_map,
    List.foldlM_map]
  refine foldlM_congr (fun i hi z => ?_) z
  have hi : i < records.length := List.mem_range.mp hi
  rw [aclEntry, if_pos (by rw [List.length_append, hlength, hversion]; omega), ok_bind,
    ← List.drop_drop, List.drop_left' hversion]
  rfl

lemma AclScan.like_start : AclScan.start.Like Scan.start := ⟨rfl, rfl, rfl, .inr ⟨rfl, rfl⟩⟩

lemma validateLinux_framed (records : List Record) :
    validateLinux (toLeBytes (2 : UInt32) ++ records.flatMap Record.wire)
      = (records.foldlM AclScan.step AclScan.start >>= AclScan.finish) := by
  have hversion : (toLeBytes (2 : UInt32)).length = 4 := rfl
  have hlength := LinuxAcl.length_flatMap_wire records
  rw [validateLinux, if_neg (by simp), if_neg, foldlM_aclOffsets]
  simp [List.take_left' hversion, hlength]

/-- Whatever is framed otherwise is refused by both. -/
lemma validate_unframed {bytes : List UInt8} (hempty : bytes ≠ [])
    (hframe : ¬ ∃ records : List Record,
      bytes = toLeBytes (2 : UInt32) ++ records.flatMap Record.wire) :
    validate bytes = .error .invalidAcl ∧ validateLinux bytes = .error .invalidAcl := by
  have hbad : bytes.length < 4 ∨ (bytes.length - 4) % 8 ≠ 0 ∨
      bytes.take 4 ≠ toLeBytes (2 : UInt32) := by
    by_contra hgood
    rw [not_or, not_or, not_not, not_not] at hgood
    exact hframe (LinuxAcl.exists_framed hgood.2.1 hgood.2.2)
  have hword : bytes.length < 4 ∨ (bytes.length - 4) % 8 ≠ 0 ∨
      (fromLeBytes (bytes.take 4) : UInt32) ≠ 2 := by
    by_cases hshort : bytes.length < 4
    · exact .inl hshort
    · refine .inr ((hbad.resolve_left hshort).imp_right fun hne heq => hne ?_)
      rw [← heq, toLeBytes_fromLeBytes (by rw [List.length_take]; simp; omega)]
  constructor
  · rw [validate, if_neg (by simpa using hempty), if_pos (by simpa [or_assoc] using hbad)]
  · rw [validateLinux, if_neg (by simpa using hempty), if_pos (by simpa [or_assoc] using hword)]

/-- The native validator ends as the one of the Rust crate does. -/
theorem validateLinux_eq (bytes : List UInt8) :
    validateLinux bytes = (validate bytes).mapError AclFault.of := by
  by_cases hempty : bytes = []
  · rw [hempty]
    rfl
  by_cases hframe : ∃ records : List Record,
      bytes = toLeBytes (2 : UInt32) ++ records.flatMap Record.wire
  · obtain ⟨records, rfl⟩ := hframe
    rw [validateLinux_framed, LinuxAcl.validate_framed]
    exact AclScan.like_start.run records
  · obtain ⟨hrust, hzig⟩ := validate_unframed hempty hframe
    rw [hrust, hzig]
    rfl

/-- Both validators accept exactly the grammar, and the native one never unwraps a missing
identifier or leaves the slice. -/
theorem posixAcl_grammar (bytes : List UInt8) :
    ((∃ acl, LinuxAcl.PosixAcl.new bytes = .ok acl) ↔ Grammatical bytes) ∧
    (validateLinux bytes = .ok () ↔ Grammatical bytes) ∧
    (∀ fault, validateLinux bytes = .error fault → fault = .invalidAcl) := by
  refine ⟨?_, ?_, fun fault h => ?_⟩
  · rw [← LinuxAcl.validate_eq_ok]
    constructor
    · rintro ⟨acl, hacl⟩
      rw [← LinuxAcl.PosixAcl.new_eq_ok.mp hacl]
      exact acl.valid
    · exact fun h => ⟨⟨bytes, h⟩, LinuxAcl.PosixAcl.new_eq_ok.mpr rfl⟩
  · rw [← LinuxAcl.validate_eq_ok, validateLinux_eq, mapError_eq_ok]
  · rw [validateLinux_eq] at h
    cases hv : validate bytes with
    | ok u =>
      rw [hv] at h
      exact absurd h (by simp [Except.mapError])
    | error e =>
      rw [hv] at h
      exact (Except.error.inj h).symm

end Zig

end Difz
