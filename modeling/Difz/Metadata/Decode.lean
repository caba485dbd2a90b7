import Difz.Metadata.Canonical

/-!
# Decoding canonical metadata

`CanonicalMetadata::decode` (`rust/src/metadata_decode.rs`) and the proof that it inverts the
encoder exactly: the decoder accepts a byte string if and only if it is the wire form of a
canonical record, and returns that record. Each family's reader is exact for the family's part
of the wire form; the record reader is assembled from them.
-/

namespace Difz

open Wire

namespace Metadata

/-! ### The cursor -/

namespace Cursor

def take (length : Nat) : Reader Error (List UInt8) := Reader.take .truncatedMetadata length

def array (n : Nat) : Reader Error (List.Vector UInt8 n) := Reader.array .truncatedMetadata n

def byte : Reader Error UInt8 := Reader.word .truncatedMetadata UInt8

def u32 : Reader Error UInt32 := Reader.word .truncatedMetadata UInt32

def u64 : Reader Error UInt64 := Reader.word .truncatedMetadata UInt64

def blob : Reader Error (List UInt8) := Reader.blob .truncatedMetadata

/-- `vector` together with the loop that fills it. -/
def vector {α : Type} (minimumRecordBytes : Nat) (item : Reader Error α) :
    Reader Error (List α) :=
  Reader.counted .truncatedMetadata minimumRecordBytes item

def time : Reader Error Time := do
  let bytes ← take 12
  Reader.lift (Time.decode bytes)

end Cursor

open Cursor

/-! ### Family readers -/

def readXattr : Reader Error Xattr := do
  let class_ ← (do Reader.lift (XattrClass.tryFrom (← byte)))
  let name ← blob
  let value ← blob
  pure ⟨class_, name, value⟩

def readAce : Reader Error Ace := do
  let tag ← (do Reader.lift (AceTag.tryFrom (← byte)))
  let permissions ← (do Reader.lift (Permissions.fromBits (← byte)))
  let name ← blob
  pure ⟨tag, permissions, name⟩

def readNativeAcl : Reader Error (Option NativeAcl) := do
  let origin ← byte
  if origin = 0 then pure none
  else
    let origin ← Reader.lift (Os.tryFrom origin)
    let bytes ← blob
    pure (some ⟨origin, bytes⟩)

def readTime (flags bit : UInt8) : Reader Error (Option Time) :=
  if flags &&& bit ≠ 0 then do
    let t ← time
    pure (some t)
  else pure none

/-- The timestamps behind their presence byte. -/
def readTimesAfter (flags : UInt8) : Reader Error Times := do
  Reader.guard .badMetadata (flags &&& ~~~7 = 0)
  let mtime ← readTime flags 1
  let atime ← readTime flags 2
  let btime ← readTime flags 4
  pure ⟨mtime, atime, btime⟩

def readTimes : Reader Error Times := do
  let flags ← byte
  readTimesAfter flags

/-- A presence byte of 0 or 1 before an optional field. -/
def readOption {α : Type} (field : Reader Error α) : Reader Error (Option α) := do
  let present ← byte
  if present = 0 then pure none
  else if present = 1 then do
    let x ← field
    pure (some x)
  else Reader.lift (.error .badMetadata)

def readHole : Reader Error Hole := do
  let offset ← u64
  let length ← u64
  pure ⟨offset, length⟩

def readMetadata : Reader Error Metadata := do
  let xattrs ← vector 9 readXattr
  let aces ← vector 6 readAce
  let nativeAcl ← readNativeAcl
  let times ← readTimes
  let finderFlags ← u32
  let finderInfo ← readOption (array 32)
  let holes ← vector 16 readHole
  let hardlinkTo ← readOption blob
  pure ⟨xattrs, aces, nativeAcl, times, finderFlags, finderInfo, holes, hardlinkTo⟩

end Metadata

def CanonicalMetadata.decode (bytes : List UInt8) : Except Metadata.Error CanonicalMetadata :=
  match Metadata.readMetadata (Wire.Cursor.start bytes) with
  | .error e => .error e
  | .ok (m, cursor) =>
    if cursor.offset ≠ bytes.length then .error .trailingMetadata else new m

namespace Metadata

open Cursor

/-! ### The readers are exact -/

lemma exact_time : Exact time (fun t => t.pieces.flatten) (fun t => t.nsec < 1000000000) := by
  refine (Exact.filterMap (Q := fun t => t.nsec < 1000000000)
    (fun t => toLeBytes t.sec ++ toLeBytes t.nsec) (Exact.take _ 12) fun a t => ?_).congr
    (fun t => ?_) (fun t _ => ?_)
  · exact Time.decode_eq_ok
  · simp
  · simp [Time.pieces]

lemma exact_xattr : Exact readXattr (fun x => x.pieces.flatten)
    (fun x => x.name.length < 2 ^ 32 ∧ x.value.length < 2 ^ 32) := by
  have hclass : Exact (do Reader.lift (XattrClass.tryFrom (← byte)))
      (fun c : XattrClass => [c.tag]) (fun c => True ∧ True) :=
    (Exact.byte _).filterMap XattrClass.tag fun a c => by simp [XattrClass.tryFrom_eq_ok]
  refine (Exact.bind (I := fun _ => True) Xattr.class_ hclass fun c _ =>
    Exact.bind Xattr.name (Exact.blob _) fun n _ =>
    Exact.bind Xattr.value (Exact.blob _) fun v _ =>
    Exact.pure (Xattr.mk c n v) fun x => ?_).congr (fun x => ?_) (fun x _ => ?_)
  · cases x
    simp [and_assoc]
  · simp
  · simp [Xattr.pieces]

lemma exact_ace : Exact readAce (fun a => a.pieces.flatten) (fun a => a.name.length < 2 ^ 32) := by
  have htag : Exact (do Reader.lift (AceTag.tryFrom (← byte)))
      (fun t : AceTag => [t.tag]) (fun t => True ∧ True) :=
    (Exact.byte _).filterMap AceTag.tag fun a t => by simp [AceTag.tryFrom_eq_ok]
  have hperm : Exact (do Reader.lift (Permissions.fromBits (← byte)))
      (fun p : Permissions => [p.bits]) (fun p => True ∧ True) :=
    (Exact.byte _).filterMap Permissions.bits fun a p => by simp [Permissions.fromBits_eq_ok]
  refine (Exact.bind (I := fun _ => True) Ace.tag htag fun t _ =>
    Exact.bind Ace.permissions hperm fun p _ =>
    Exact.bind Ace.name (Exact.blob _) fun n _ =>
    Exact.pure (Ace.mk t p n) fun a => ?_).congr (fun a => ?_) (fun a _ => ?_)
  · cases a
    simp [and_assoc]
  · simp
  · simp [Ace.pieces]

lemma exact_hole : Exact readHole (fun h => h.pieces.flatten) (fun _ => True) := by
  refine (Exact.bind (I := fun _ => True) Hole.offset (Exact.word _ UInt64) fun o _ =>
    Exact.bind Hole.length (Exact.word _ UInt64) fun l _ =>
    Exact.pure (Hole.mk o l) fun h => ?_).congr (fun h => ?_) (fun h _ => ?_)
  · cases h
    simp
  · simp
  · simp [Hole.pieces]

/-- An optional field behind its presence byte. -/
lemma exact_option {α : Type} {field : Reader Error α} {enc : α → List UInt8} {P : α → Prop}
    (hfield : Exact field enc P) : Exact (readOption field)
      (fun o => o.elim [0] fun x => 1 :: enc x) (fun o => ∀ x ∈ o, P x) := by
  refine (Exact.bind (I := fun _ => True) (fun o : Option α => if o.isSome then 1 else 0)
    (Exact.byte _) (t := fun o => o.elim [] enc) (Q := fun o => ∀ x ∈ o, P x)
    fun b _ => ?_).congr (fun o => by simp) (fun o _ => by cases o <;> rfl)
  split_ifs with h₀ h₁
  · refine Exact.none.congr (fun o => ?_) (fun _ _ => rfl)
    cases o <;> simp [h₀]
  · refine hfield.some.congr (fun o => ?_) (fun _ _ => rfl)
    cases o <;> simp [h₁]
  · refine (Exact.fail _).congr (fun o => ?_) (fun _ _ => rfl)
    cases o <;> simp [Ne.symm h₀, Ne.symm h₁]

lemma exact_nativeAcl : Exact readNativeAcl (fun o => (NativeAcl.pieces o).flatten)
    (fun o => ∀ acl ∈ o, acl.bytes.length < 2 ^ 32) := by
  refine (Exact.bind (I := fun _ => True)
    (fun o : Option NativeAcl => o.elim 0 fun acl => acl.origin.tag) (Exact.byte _)
    (t := fun o => o.elim [] fun acl => toLeBytes (UInt32.ofNat acl.bytes.length) ++ acl.bytes)
    (Q := fun o => ∀ acl ∈ o, acl.bytes.length < 2 ^ 32) fun b _ => ?_).congr
    (fun o => by simp) (fun o _ => by cases o <;> simp [NativeAcl.pieces])
  split_ifs with h₀
  · refine Exact.none.congr (fun o => ?_) (fun _ _ => rfl)
    cases o <;> simp [h₀, Os.tag_ne_zero]
  · have hacl : ∀ os, Exact (do
        let bytes ← blob
        pure (some (NativeAcl.mk os bytes)))
        (fun o => o.elim [] fun acl => toLeBytes (UInt32.ofNat acl.bytes.length) ++ acl.bytes)
        (fun o => ∃ w, o = some ⟨os, w⟩ ∧ w.length < 2 ^ 32) := by
      intro os c o c'
      simp only [Reader.bind_eq_ok, Reader.pure_eq_ok]
      constructor
      · intro hx
        obtain ⟨w, d, hw, rfl, rfl⟩ := hx
        obtain ⟨hlen, hs⟩ := (Exact.blob _ c w c').mp hw
        exact ⟨⟨w, rfl, hlen⟩, hs⟩
      · intro hx
        obtain ⟨⟨w, rfl, hlen⟩, hs⟩ := hx
        exact ⟨w, c', (Exact.blob _ c w c').mpr ⟨hlen, hs⟩, rfl, rfl⟩
    refine (Exact.lift_bind (I := fun o => o.elim False fun acl => acl.origin.tag = b)
      (Q := fun o => ∀ acl ∈ o, acl.bytes.length < 2 ^ 32) fun os hos =>
      (hacl os).congr (fun o => ?_) (fun _ _ => rfl)).congr (fun o => ?_) (fun _ _ => rfl)
    · have hb := Os.tryFrom_eq_ok.mp hos
      cases o with
      | none => simp
      | some acl =>
        obtain ⟨origin, bytes⟩ := acl
        simp [hb, Os.tag_injective.eq_iff]
    · cases o with
      | none => simp [Ne.symm h₀]
      | some acl =>
        simp only [Os.tryFrom_eq_ok, Option.elim_some, true_and]
        constructor
        · intro hx
          obtain ⟨rfl, h⟩ := hx
          exact ⟨rfl, ⟨_, rfl⟩, h⟩
        · intro hx
          obtain ⟨rfl, -, h⟩ := hx
          exact ⟨rfl, h⟩

lemma exact_readTime (flags bit : UInt8) : Exact (readTime flags bit)
    (fun o => o.elim [] fun t => t.pieces.flatten)
    (fun o => o.isSome = decide (flags &&& bit ≠ 0) ∧ ∀ t ∈ o, t.nsec < 1000000000) := by
  rw [readTime]
  split_ifs with h
  · refine exact_time.some.congr (fun o => ?_) (fun _ _ => rfl)
    cases o <;> simp [h]
  · refine Exact.none.congr (fun o => ?_) (fun _ _ => rfl)
    cases o <;> simp [h]

/-- The presence byte names exactly the timestamps that are present. -/
lemma Times.flags_eq_iff (t : Times) (b : UInt8) : t.flags = b ↔ b &&& ~~~7 = 0 ∧
    t.mtime.isSome = decide (b &&& 1 ≠ 0) ∧ t.atime.isSome = decide (b &&& 2 ≠ 0) ∧
    t.btime.isSome = decide (b &&& 4 ≠ 0) := by
  obtain ⟨m, a, b'⟩ := t
  simp only [Times.flags, List.zipIdx, List.foldl]
  generalize m.isSome = m', a.isSome = a', b'.isSome = c'
  obtain ⟨v⟩ := b
  revert m' a' c' v
  decide +kernel

lemma exact_readTimesAfter (b : UInt8) : Exact (readTimesAfter b)
    (fun t => (t.present.flatMap Time.pieces).flatten)
    (fun t => t.flags = b ∧ ∀ x ∈ t.present, x.nsec < 1000000000) := by
  refine (Exact.guard_bind fun _ => Exact.bind (I := fun _ => True) Times.mtime
    (exact_readTime b 1) fun m _ => Exact.bind Times.atime (exact_readTime b 2) fun a _ =>
    Exact.bind Times.btime (exact_readTime b 4) fun d _ =>
    Exact.pure (Times.mk m a d) fun t => ?_).congr (fun t => ?_) (fun t _ => ?_)
  · cases t
    simp [and_assoc]
  · rw [Times.flags_eq_iff]
    obtain ⟨m, a, d⟩ := t
    simp only [Times.present, List.flatMap_cons, List.flatMap_nil, List.mem_append,
      Option.mem_toList, List.not_mem_nil, or_false, or_imp, forall_and]
    tauto
  · obtain ⟨m, a, d⟩ := t
    cases m <;> cases a <;> cases d <;> simp [Times.present]

lemma exact_times : Exact readTimes (fun t => t.pieces.flatten)
    (fun t => ∀ x ∈ t.present, x.nsec < 1000000000) := by
  refine (Exact.bind (I := fun _ => True) (Q := fun t => ∀ x ∈ t.present, x.nsec < 1000000000)
    Times.flags (Exact.byte _) fun b _ =>
    (exact_readTimesAfter b).congr (fun t => by simp) (fun _ _ => rfl)).congr
    (fun t => by simp) (fun t _ => rfl)

/-! ### The record -/

/-- Every length and count of a record fits its 32-bit field, and no nanosecond field overflows a
second: all the wire format asks before validation. -/
structure Fits (m : Metadata) : Prop where
  xattrs : m.xattrs.length < 2 ^ 32 ∧
    ∀ x ∈ m.xattrs, x.name.length < 2 ^ 32 ∧ x.value.length < 2 ^ 32
  aces : m.aces.length < 2 ^ 32 ∧ ∀ a ∈ m.aces, a.name.length < 2 ^ 32
  nativeAcl : ∀ acl ∈ m.nativeAcl, acl.bytes.length < 2 ^ 32
  times : ∀ t ∈ m.times.present, t.nsec < 1000000000
  holes : m.holes.length < 2 ^ 32
  hardlinkTo : ∀ path ∈ m.hardlinkTo, path.length < 2 ^ 32

lemma exact_metadata : Exact readMetadata wire Fits := by
  have hx := exact_xattr.counted Error.truncatedMetadata (show 0 < 9 by norm_num)
    fun x _ => by simp [Xattr.pieces]; omega
  have ha := exact_ace.counted Error.truncatedMetadata (show 0 < 6 by norm_num)
    fun a _ => by simp [Ace.pieces]
  have hh := exact_hole.counted Error.truncatedMetadata (show 0 < 16 by norm_num)
    fun h _ => by simp [Hole.pieces]
  refine (Exact.bind (I := fun _ => True) Metadata.xattrs hx fun x _ =>
    Exact.bind Metadata.aces ha fun a _ =>
    Exact.bind Metadata.nativeAcl exact_nativeAcl fun n _ =>
    Exact.bind Metadata.times exact_times fun t _ =>
    Exact.bind Metadata.finderFlags (Exact.word _ UInt32) fun f _ =>
    Exact.bind Metadata.finderInfo (exact_option (Exact.array _ 32)) fun i _ =>
    Exact.bind Metadata.holes hh fun h _ =>
    Exact.bind Metadata.hardlinkTo (exact_option (Exact.blob _)) fun l _ =>
    Exact.pure (Metadata.mk x a n t f i h l) fun m => ?_).congr (fun m => ?_) (fun m _ => ?_)
  · cases m
    simp [and_assoc]
  · constructor
    · intro h'
      obtain ⟨h₁, h₂, h₃, h₄, h₅, h₆⟩ := h'
      exact ⟨trivial, h₁, h₂, h₃, h₄, trivial, fun _ _ => trivial, ⟨h₅, fun _ _ => trivial⟩, h₆,
        trivial⟩
    · intro h'
      obtain ⟨-, h₁, h₂, h₃, h₄, -, -, ⟨h₅, -⟩, h₆, -⟩ := h'
      exact ⟨h₁, h₂, h₃, h₄, h₅, h₆⟩
  · obtain ⟨x, a, n, t, f, i, h, l⟩ := m
    have hflat : ∀ {α : Type} (xs : List α) (g : α → List (List UInt8)),
        (xs.flatMap g).flatten = xs.flatMap fun y => (g y).flatten := by
      intro α xs g
      simp [List.flatMap, List.flatten_flatten, Function.comp_def]
    cases i <;> cases l <;>
      simp [wire, pieces, hflat, finderInfoPieces, hardlinkPieces]

/-- A canonical record fits its wire form. -/
lemma Valid.fits {m : Metadata} (h : m.Valid) : m.Fits := by
  refine ⟨⟨h.xattrCount, fun x hx => ?_⟩, ⟨h.aceCount, fun a ha => ?_⟩, fun acl hacl => ?_,
    fun t ht => ?_, h.holeCount, fun path hpath => ?_⟩
  · obtain ⟨q, hq⟩ := exists_check_of_forPrevious h.xattrs hx
    simp only [checkXattr, seq_eq_ok, wireLength_eq_ok] at hq
    exact ⟨(length_le_of_validateXattrName hq.1).trans_lt (by norm_num), hq.2.1⟩
  · obtain ⟨q, hq⟩ := exists_check_of_forPrevious h.aces ha
    simp only [checkAce, seq_eq_ok, wireLength_eq_ok] at hq
    exact hq.2.1
  · have := h.nativeAcl
    rw [Option.mem_def.mp hacl, checkNativeAcl, ite_error_eq_ok, wireLength_eq_ok] at this
    exact this.2
  · have := h.times
    simp only [checkTimes, ite_error_eq_ok, List.any_eq_true, decide_eq_true_eq, not_exists,
      not_and, ge_iff_le, UInt32.not_le] at this
    exact this.1 t ht
  · have := h.hardlinkTo
    rw [Option.mem_def.mp hpath, checkHardlink] at this
    exact (length_le_of_validateHardlink this).trans_lt (by norm_num)

end Metadata

namespace CanonicalMetadata

open Metadata

/-- The decoder accepts exactly the wire forms of canonical records. -/
theorem decode_eq_ok {bytes : List UInt8} {c : CanonicalMetadata} :
    decode bytes = .ok c ↔ bytes = c.metadata.wire := by
  rw [decode]
  constructor
  · intro h
    cases hr : readMetadata (Wire.Cursor.start bytes) with
    | error e => simp [hr] at h
    | ok p =>
      obtain ⟨m, cursor⟩ := p
      simp only [hr, ite_error_eq_ok, not_not, new_eq_ok] at h
      obtain ⟨hend, rfl⟩ := h
      obtain ⟨-, hs⟩ := (exact_metadata _ _ _).mp hr
      have hrest : cursor.rest = [] := by rw [cursor.rest_eq_nil_iff, hend, hs.1]; rfl
      exact ((Step.start_iff hrest).mp hs).2
  · rintro rfl
    obtain ⟨cursor, hs, hrest⟩ := Step.exists_start c.metadata.wire []
    rw [List.append_nil] at hs
    have hend : cursor.offset = c.metadata.wire.length := by
      rw [(cursor.rest_eq_nil_iff).mp hrest, hs.1]
      rfl
    simp only [(exact_metadata _ _ _).mpr ⟨c.isValid.fits, hs⟩, hend, ne_eq, not_true, if_false,
      new_eq_ok]

/-- Equal wire forms come from equal records. -/
lemma wire_injective {a b : CanonicalMetadata} (h : a.metadata.wire = b.metadata.wire) : a = b := by
  have ha := decode_eq_ok.mpr (rfl : a.metadata.wire = a.metadata.wire)
  have hb := decode_eq_ok.mpr h
  exact Except.ok.inj (ha.symm.trans hb)

/-- No wire form is a proper prefix of another, even with something behind both. -/
lemma wire_prefix_free {a b : CanonicalMetadata} {s t : List UInt8}
    (h : a.metadata.wire ++ s = b.metadata.wire ++ t) : a = b ∧ s = t := by
  obtain ⟨hm, hst⟩ := exact_metadata.prefix_free a.isValid.fits b.isValid.fits h
  exact ⟨ext_metadata hm, hst⟩

/-- The metadata wire format is a bijection between canonical records and accepted strings.
Encoding can only fail when the wire form would not fit in the address space. -/
theorem encode_decode_bijective :
    (∀ c : CanonicalMetadata, (∃ bytes, c.encode = .ok bytes) ∨
        (c.encode = .error .badMetadata ∧ 2 ^ 64 ≤ c.metadata.wire.length)) ∧
    (∀ (c : CanonicalMetadata) (bytes : List UInt8), c.encode = .ok bytes →
        decode bytes = .ok c ∧ c.encodedLen = .ok bytes.length) ∧
    (∀ (slice : Slice) (c : CanonicalMetadata), decode slice.bytes = .ok c →
        c.encode = .ok slice.bytes) ∧
    (∀ (a b : List UInt8) (x y : CanonicalMetadata), decode a = .ok x → decode b = .ok y →
        a <+: b → a = b) ∧
    (∀ (x y : CanonicalMetadata) (bytes : List UInt8), x.encode = .ok bytes →
        y.encode = .ok bytes → x = y) := by
  have hencode : ∀ (c : CanonicalMetadata) (bytes : List UInt8),
      c.encode = .ok bytes → c.metadata.wire.length < 2 ^ 64 ∧ bytes = c.metadata.wire := by
    intro c bytes h
    rw [encode_eq] at h
    split_ifs at h with hlen
    exact ⟨hlen, (Except.ok.inj h).symm⟩
  refine ⟨fun c => ?_, fun c bytes h => ?_, fun slice c h => ?_, ?_, fun x y bytes hx hy => ?_⟩
  · rw [encode_eq]
    split_ifs with hlen
    · exact Or.inl ⟨_, rfl⟩
    · exact Or.inr ⟨rfl, not_lt.mp hlen⟩
  · obtain ⟨hlen, rfl⟩ := hencode c bytes h
    exact ⟨decode_eq_ok.mpr rfl, by rw [encodedLen_eq, if_pos hlen]⟩
  · rw [encode_eq, ← decode_eq_ok.mp h, if_pos slice.fits]
  · intro a b x y hx hy h'
    obtain ⟨t, rfl⟩ := h'
    have hw : x.metadata.wire ++ t = y.metadata.wire ++ [] := by
      rw [← decode_eq_ok.mp hx, ← decode_eq_ok.mp hy, List.append_nil]
    simp [(wire_prefix_free hw).2]
  · exact wire_injective ((hencode x bytes hx).2.symm.trans (hencode y bytes hy).2)

end CanonicalMetadata

end Difz
