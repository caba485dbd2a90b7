import Difz.Directory.Structure
import Difz.Metadata.Decode
import Difz.Metadata.Override
import Difz.Metadata.Sorted

/-!
# Symlink transport

The attribute of a directory that carries metadata of the symbolic links in it
(`rust/src/symlink_transport.rs`): records sorted by basename, each with flag bits, an optional
observed stamp and a nested canonical metadata record. The codec is exact: `decode_eq_ok` says
that the accepted byte strings are the wire forms of at most `maxBytes` bytes.
-/

namespace Difz

open Wire
open Metadata (Time encodeTimeOverride decodeTimeOverride overrideWire forPrevious)

namespace SymlinkTransport

def maxBytes : Nat := 65536

/-- `DIFZLINK` and the version byte. -/
def magic : List UInt8 := utf8 "DIFZLINK\x01"

def maxRecords : Nat := (maxBytes - magic.length - 4) / 31

inductive Error
  | invalidTransport
  | transportTooLarge
  | outOfMemory
  | metadata (error : Metadata.Error)
  deriving DecidableEq, Repr

structure Record where
  name : List UInt8
  metadata : CanonicalMetadata
  absentTimes : UInt8
  observedMtime : Option Time
  aclOverride : Bool
  finderOverride : Bool
  deriving DecidableEq

/-! ### Records that may travel -/

def validate (record : Record) : Except Error Unit :=
  let m := record.metadata.metadata
  if (m.times.mtime.isSome || record.absentTimes &&& 1 != 0) != record.observedMtime.isSome then
    .error .invalidTransport
  else do
    (Directory.validatePath record.name).mapError fun _ => Error.invalidTransport
    if record.absentTimes &&& ~~~7 != 0
        || [(1, m.times.mtime), (2, m.times.atime), (4, m.times.btime)].any (fun p =>
            record.absentTimes &&& p.1 != 0 && p.2.isSome) then
      .error .invalidTransport
    else if record.name.contains 0x2f
        || (m.isEmpty && record.absentTimes == 0 && !record.aclOverride && !record.finderOverride)
        || !m.holes.isEmpty
        || m.hardlinkTo.isSome then
      .error .invalidTransport
    else .ok ()

/-- Names strictly increase. -/
def checkOrder (previous : Option Record) (record : Record) : Except Error Unit :=
  match previous with
  | none => .ok ()
  | some p => if compare p.name record.name ≠ .lt then .error .invalidTransport else .ok ()

def checkRecord (previous : Option Record) (record : Record) : Except Error Unit := do
  validate record
  checkOrder previous record
  let _ ← (encodeTimeOverride record.observedMtime).mapError Error.metadata
  .ok ()

def check (records : List Record) : Except Error Unit :=
  if records.length > maxRecords then .error .transportTooLarge
  else forPrevious checkRecord none records

end SymlinkTransport

open SymlinkTransport

/-- Records that passed the check. -/
structure Transport where
  records : List Record
  accepted : check records = .ok ()
  deriving DecidableEq

namespace Transport

def new (records : List Record) : Except Error Transport :=
  match h : check records with
  | .error e => .error e
  | .ok () => .ok ⟨records, h⟩

lemma new_eq_ok {records : List Record} {t : Transport} :
    new records = .ok t ↔ t.records = records := by
  obtain ⟨rs, hrs⟩ := t
  unfold new
  split
  · next e h =>
    simp only [reduceCtorEq, false_iff]
    rintro rfl
    rw [hrs] at h
    exact absurd h (by simp)
  · simp [eq_comm]

end Transport

namespace SymlinkTransport

/-! ### Encoding -/

/-- Add `count` to the running total, which must stay within the bound. -/
def addBounded (length count : Nat) : Except Error Nat :=
  match CanonicalMetadata.checkedAdd length count with
  | none => .error .transportTooLarge
  | some sum => if sum > maxBytes then .error .transportTooLarge else .ok sum

/-- The length pass for one record. -/
def countRecord (length : Nat) (record : Record) : Except Error Nat := do
  let observed ← (encodeTimeOverride record.observedMtime).mapError Error.metadata
  let blob ← record.metadata.encodedLen.mapError Error.metadata
  [9, observed.length, record.name.length, blob].foldlM addBounded length

/-- Absent timestamps and the two override bits in one byte. -/
def flagBits (absentTimes : UInt8) (aclOverride finderOverride : Bool) : UInt8 :=
  absentTimes ||| (aclOverride.toUInt8 <<< 3) ||| (finderOverride.toUInt8 <<< 4)

def Record.flags (record : Record) : UInt8 :=
  flagBits record.absentTimes record.aclOverride record.finderOverride

def putRecord (bytes : List UInt8) (record : Record) : Except Error (List UInt8) := do
  let blob ← record.metadata.encode.mapError Error.metadata
  let observed ← (encodeTimeOverride record.observedMtime).mapError Error.metadata
  .ok (bytes ++ toLeBytes (UInt32.ofNat record.name.length)
    ++ toLeBytes (UInt32.ofNat blob.length) ++ [record.flags] ++ observed ++ record.name ++ blob)

end SymlinkTransport

def Transport.encode (t : Transport) : Except Error (List UInt8) := do
  let _ ← t.records.foldlM countRecord (magic.length + 4)
  t.records.foldlM putRecord (magic ++ toLeBytes (UInt32.ofNat t.records.length))

namespace SymlinkTransport

/-! ### Decoding -/

def take (length : Nat) : Reader Error (List UInt8) := Reader.take .invalidTransport length

def byte : Reader Error UInt8 := Reader.word .invalidTransport UInt8

def word : Reader Error Nat := do
  let word ← Reader.word .invalidTransport UInt32
  pure word.toNat

/-- The observed stamp: the tag says how many bytes the override takes. -/
def readObserved : Reader Error (Option Time) := do
  let tag ← byte
  if tag = 0 then
    Reader.lift ((decodeTimeOverride [tag]).mapError fun _ => Error.invalidTransport)
  else if tag = 1 then do
    let stamp ← take 12
    Reader.lift ((decodeTimeOverride (tag :: stamp)).mapError fun _ => Error.invalidTransport)
  else Reader.lift (.error .invalidTransport)

/-- Memory is taken to suffice, so every error of the nested record is the same one here. -/
def readMetadata (length : Nat) : Reader Error CanonicalMetadata := do
  let blob ← take length
  Reader.lift ((CanonicalMetadata.decode blob).mapError fun _ => Error.invalidTransport)

def readFields : Reader Error Record := do
  let nameLen ← word
  let metaLen ← word
  let flags ← byte
  Reader.guard .invalidTransport (flags &&& 0xe0 = 0)
  let observedMtime ← readObserved
  let name ← take nameLen
  let metadata ← readMetadata metaLen
  pure ⟨name, metadata, flags &&& 7, observedMtime, flags &&& 8 != 0, flags &&& 16 != 0⟩

def readRecord : Reader Error Record := Reader.checked readFields validate

/-- `count` records, each behind its predecessor. -/
def readRecords : Nat → Option Record → Reader Error (List Record)
  | 0, _ => pure []
  | count + 1, previous => do
    let record ← readRecord
    Reader.lift (checkOrder previous record)
    let records ← readRecords count (some record)
    pure (record :: records)

def readTransport : Reader Error (List Record) := do
  let leading ← take magic.length
  Reader.guard .invalidTransport (leading = magic)
  let count ← Reader.count .invalidTransport 31
  readRecords count none

/-! ### The wire form -/

def Record.wire (record : Record) : List UInt8 :=
  toLeBytes (UInt32.ofNat record.name.length)
    ++ toLeBytes (UInt32.ofNat record.metadata.metadata.wire.length) ++ [record.flags]
    ++ overrideWire record.observedMtime ++ record.name ++ record.metadata.metadata.wire

/-- What the format needs of a record before it is validated. -/
structure Record.Fits (record : Record) : Prop where
  name : record.name.length < 2 ^ 32
  metadata : record.metadata.metadata.wire.length < 2 ^ 32
  observed : ∀ t ∈ record.observedMtime, t.nsec < 1000000000
  absent : record.absentTimes &&& ~~~7 = 0

/-- The bytes a record takes. -/
def Record.size (record : Record) : Nat :=
  9 + (overrideWire record.observedMtime).length + record.name.length
    + record.metadata.metadata.wire.length

lemma Record.length_wire (record : Record) : record.wire.length = record.size := by
  simp only [Record.wire, Record.size, List.length_append, length_toLeBytes, width_uint32,
    List.length_singleton]

lemma exact_word : Exact word (fun n => toLeBytes (UInt32.ofNat n)) (fun n => n < 2 ^ 32) := by
  refine (Exact.bind (I := fun _ => True) (Q := fun n => n < 2 ^ 32) UInt32.ofNat
    (Exact.word _ UInt32) (t := fun _ => []) fun a _ => ?_).congr (fun n => by simp)
    (fun n _ => by simp)
  refine (Exact.pure (I := fun n => n = a.toNat) a.toNat fun _ => Iff.rfl).congr (fun n => ?_)
    (fun _ _ => rfl)
  constructor
  · intro h
    obtain ⟨⟨-, rfl⟩, hn⟩ := h
    exact ⟨(UInt32.toNat_ofNat_of_lt' hn).symm, trivial⟩
  · intro h
    obtain ⟨rfl, -⟩ := h
    exact ⟨⟨trivial, UInt32.ofNat_toNat⟩, a.toNat_lt⟩

lemma exact_observed : Exact readObserved overrideWire
    (fun o => ∀ t ∈ o, t.nsec < 1000000000) := by
  intro c o c'
  rw [readObserved, Reader.bind_eq_ok]
  have hdecode : ∀ {w : List UInt8} {d : Cursor},
      Reader.lift ((decodeTimeOverride w).mapError fun _ => Error.invalidTransport) d
        = .ok (o, c') ↔ ((∀ t ∈ o, t.nsec < 1000000000) ∧ w = overrideWire o) ∧ c' = d := by
    intro w d
    rw [Reader.lift_eq_ok, mapError_eq_ok, Metadata.decodeTimeOverride_eq_ok,
      Metadata.encodeTimeOverride_eq_ok]
  constructor
  · intro h
    obtain ⟨tag, d, htag, h⟩ := h
    obtain ⟨-, hs⟩ := (Exact.byte _ _ _ _).mp htag
    split_ifs at h with h₀ h₁
    · obtain ⟨⟨hP, hw⟩, rfl⟩ := hdecode.mp h
      exact ⟨hP, hw ▸ hs⟩
    · obtain ⟨stamp, d', hstamp, h⟩ := Reader.bind_eq_ok.mp h
      obtain ⟨⟨hP, hw⟩, rfl⟩ := hdecode.mp h
      refine ⟨hP, ?_⟩
      rw [← hw, ← List.singleton_append, Step.append_iff]
      exact ⟨d, hs, (Reader.take_eq_ok.mp hstamp).2⟩
    · exact absurd h (by simp [Reader.lift_eq_ok])
  · intro h
    obtain ⟨hP, hs⟩ := h
    cases o with
    | none => exact ⟨0, c', (Exact.byte _ _ _ _).mpr ⟨trivial, hs⟩, hdecode.mpr ⟨⟨hP, rfl⟩, rfl⟩⟩
    | some t =>
      rw [overrideWire, ← List.singleton_append, Step.append_iff] at hs
      obtain ⟨d, hs, hs'⟩ := hs
      refine ⟨1, d, (Exact.byte _ _ _ _).mpr ⟨trivial, hs⟩, ?_⟩
      rw [if_neg (by decide), if_pos rfl, Reader.bind_eq_ok]
      exact ⟨_, c', Reader.take_eq_ok.mpr ⟨by simp, hs'⟩, hdecode.mpr ⟨⟨hP, rfl⟩, rfl⟩⟩

lemma exact_readMetadata (n : Nat) : Exact (readMetadata n) (fun m => m.metadata.wire)
    (fun m => m.metadata.wire.length = n) := by
  refine ((Exact.take _ n).filterMap (Q := fun _ => True) (fun m => m.metadata.wire)
    fun w m => ?_).congr (fun m => ?_) (fun _ _ => rfl)
  · rw [mapError_eq_ok, CanonicalMetadata.decode_eq_ok, true_and]
  · simp

/-- A flag byte with at most three absence bits can be taken apart again. -/
lemma flagBits_parts (absent : UInt8) (acl finder : Bool) (h : absent &&& ~~~7 = 0) :
    flagBits absent acl finder &&& 7 = absent ∧ (flagBits absent acl finder &&& 8 != 0) = acl ∧
      (flagBits absent acl finder &&& 16 != 0) = finder := by
  obtain ⟨v⟩ := absent
  revert v acl finder
  decide +kernel

/-- A byte without unknown bits is the flag byte of its parts. -/
lemma flagBits_of_parts (b : UInt8) (h : b &&& 0xe0 = 0) :
    (b &&& 7) &&& ~~~7 = 0 ∧ flagBits (b &&& 7) (b &&& 8 != 0) (b &&& 16 != 0) = b := by
  obtain ⟨v⟩ := b
  revert v
  decide +kernel

lemma flagBits_unknown (absent : UInt8) (acl finder : Bool) (h : absent &&& ~~~7 = 0) :
    flagBits absent acl finder &&& 0xe0 = 0 := by
  obtain ⟨v⟩ := absent
  revert v acl finder
  decide +kernel

/-- The end of a record: its fields are all known. -/
lemma exact_done (b : UInt8) (hb : b &&& 0xe0 = 0) (o : Option Time) (name : List UInt8)
    (m : CanonicalMetadata) {I : Record → Prop} (hI : ∀ r, I r ↔
      (r.flags = b ∧ r.observedMtime = o ∧ r.name = name ∧ r.metadata = m)) :
    Exact (pure ⟨name, m, b &&& 7, o, b &&& 8 != 0, b &&& 16 != 0⟩ : Reader Error Record)
      (fun _ => []) (fun r => I r ∧ r.absentTimes &&& ~~~7 = 0) := by
  refine (Exact.pure _ fun _ => Iff.rfl).congr (fun r => ?_) (fun _ _ => rfl)
  obtain ⟨n, m', a, o', acl, finder⟩ := r
  rw [hI, and_true]
  constructor
  · intro h
    obtain ⟨⟨rfl, rfl, rfl, rfl⟩, ha⟩ := h
    obtain ⟨h₁, h₂, h₃⟩ := flagBits_parts a acl finder ha
    simp only [Record.flags, h₁, h₂, h₃]
  · intro h
    obtain ⟨rfl, rfl, rfl, rfl, rfl, rfl⟩ := Record.mk.inj h
    obtain ⟨h₁, h₂⟩ := flagBits_of_parts b hb
    exact ⟨⟨h₂, rfl, rfl, rfl⟩, h₁⟩

lemma exact_fields : Exact readFields Record.wire Record.Fits := by
  refine (Exact.bind (I := fun _ => True) (fun r : Record => r.name.length) exact_word fun n _ =>
    Exact.bind (fun r : Record => r.metadata.metadata.wire.length) exact_word fun k _ =>
    Exact.bind Record.flags (Exact.byte _) fun b _ =>
    Exact.check_bind (p := fun r : Record => r.flags &&& 0xe0 = 0) (fun r hr => ?_) fun hb =>
    Exact.bind Record.observedMtime exact_observed fun o _ =>
    Exact.take_bind Record.name (t := fun r => r.metadata.metadata.wire)
      (Q := fun r => r.absentTimes &&& ~~~7 = 0) (fun r hr => ?_) fun name hname => ?_).congr
    (fun r => ?_) (fun r _ => ?_)
  · rw [hr.2]
  · exact hr.1.1.1.2
  · refine (Exact.bind (I := fun r => (r.flags = b ∧ r.observedMtime = o) ∧ r.name = name)
      Record.metadata (exact_readMetadata k) fun m hm =>
      exact_done b hb o name m fun r => ?_).congr (fun r => ?_) (fun r _ => ?_)
    · rw [and_assoc, and_assoc]
    · constructor
      · intro h
        obtain ⟨⟨⟨⟨⟨-, -⟩, hk⟩, hf⟩, ho⟩, hn⟩ := h.1
        exact ⟨⟨⟨hf, ho⟩, hn⟩, hk, h.2⟩
      · intro h
        obtain ⟨⟨⟨hf, ho⟩, hn⟩, hk, ha⟩ := h
        exact ⟨⟨⟨⟨⟨⟨trivial, hn ▸ hname⟩, hk⟩, hf⟩, ho⟩, hn⟩, ha⟩
    · simp
  · constructor
    · intro h
      exact ⟨trivial, h.name, h.metadata, trivial, flagBits_unknown _ _ _ h.absent, h.observed,
        h.absent⟩
    · intro h
      obtain ⟨-, hn, hm, -, -, ho, ha⟩ := h
      exact ⟨hn, hm, ho, ha⟩
  · simp [Record.wire]

lemma length_le_of_validatePath {path : List UInt8} (h : Directory.validatePath path = .ok ()) :
    path.length ≤ 4096 := by
  simp only [Directory.validatePath, ite_error_eq_ok, not_lt] at h
  exact h.2.1

lemma validate_parts {record : Record} (h : validate record = .ok ()) :
    Directory.validatePath record.name = .ok () ∧ record.absentTimes &&& ~~~7 = 0 := by
  simp only [validate, ite_error_eq_ok, seq_eq_ok, mapError_eq_ok, Bool.or_eq_true, not_or] at h
  obtain ⟨-, hpath, ⟨habsent, -⟩, -⟩ := h
  exact ⟨hpath, by simpa using habsent⟩

lemma checkRecord_eq_ok {previous : Option Record} {record : Record} :
    checkRecord previous record = .ok () ↔ validate record = .ok () ∧
      checkOrder previous record = .ok () ∧ ∀ t ∈ record.observedMtime, t.nsec < 1000000000 := by
  rw [checkRecord, seq_eq_ok, seq_eq_ok]
  simp only [bind_eq_ok, mapError_eq_ok, Metadata.encodeTimeOverride_eq_ok, and_true,
    exists_and_left, exists_eq]

lemma exact_readRecord : Exact readRecord Record.wire (fun r => validate r = .ok () ∧
    r.metadata.metadata.wire.length < 2 ^ 32 ∧ ∀ t ∈ r.observedMtime, t.nsec < 1000000000) := by
  refine exact_fields.checked.congr (fun r => ?_) (fun _ _ => rfl)
  constructor
  · intro h
    obtain ⟨hv, hm, ho⟩ := h
    obtain ⟨hpath, ha⟩ := validate_parts hv
    have := length_le_of_validatePath hpath
    exact ⟨⟨by omega, hm, ho, ha⟩, hv⟩
  · intro h
    obtain ⟨hf, hv⟩ := h
    exact ⟨hv, hf.metadata, hf.observed⟩

lemma exact_records (n : Nat) (previous : Option Record) : Exact (readRecords n previous)
    (fun rs => rs.flatMap Record.wire) (fun rs => rs.length = n ∧
      (∀ r ∈ rs, r.metadata.metadata.wire.length < 2 ^ 32) ∧
      forPrevious checkRecord previous rs = .ok ()) := by
  induction n generalizing previous with
  | zero =>
    refine (Exact.pure [] fun _ => Iff.rfl).congr (fun rs => ?_) (fun rs hrs => by simp [hrs.1])
    constructor
    · intro h
      exact ⟨List.length_eq_zero_iff.mp h.1, trivial⟩
    · intro h
      obtain ⟨rfl, -⟩ := h
      exact ⟨rfl, by simp, rfl⟩
  | succ n ih =>
    intro c rs c''
    simp only [readRecords, Reader.bind_eq_ok, Reader.pure_eq_ok, Reader.lift_eq_ok]
    constructor
    · intro h
      obtain ⟨r, c', hr, u, d, ⟨ho, rfl⟩, rs, d', hrs, rfl, rfl⟩ := h
      obtain ⟨⟨hv, hm, ht⟩, hs⟩ := (exact_readRecord _ _ _).mp hr
      obtain ⟨⟨hlen, hms, hcheck⟩, hs'⟩ := (ih _ _ _ _).mp hrs
      refine ⟨⟨by simp [hlen], by simpa using ⟨hm, hms⟩, ?_⟩, ?_⟩
      · rw [Metadata.forPrevious_cons_eq_ok]
        exact ⟨checkRecord_eq_ok.mpr ⟨hv, ho, ht⟩, hcheck⟩
      · rw [List.flatMap_cons, Step.append_iff]
        exact ⟨_, hs, hs'⟩
    · intro h
      obtain ⟨⟨hlen, hms, hcheck⟩, hs⟩ := h
      obtain ⟨r, rs, rfl⟩ := List.exists_cons_of_length_eq_add_one hlen
      rw [List.flatMap_cons, Step.append_iff] at hs
      obtain ⟨c', hs, hs'⟩ := hs
      obtain ⟨hr, hrs⟩ := Metadata.forPrevious_cons_eq_ok.mp hcheck
      obtain ⟨hv, ho, ht⟩ := checkRecord_eq_ok.mp hr
      obtain ⟨hm, hms⟩ := List.forall_mem_cons.mp hms
      refine ⟨r, c', (exact_readRecord _ _ _).mpr ⟨⟨hv, hm, ht⟩, hs⟩, (), c', ⟨ho, rfl⟩, rs, c'', ?_,
        rfl, rfl⟩
      exact (ih _ _ _ _).mpr ⟨⟨by simpa using hlen, hms, hrs⟩, hs'⟩

/-- A record takes at least 31 bytes: the fixed part, an absent stamp and an empty record, and one
byte of name. -/
lemma le_length_wire {r : Record} (h : validate r = .ok ()) : 31 ≤ r.wire.length := by
  have hname : 1 ≤ r.name.length := by
    have hpath := (validate_parts h).1
    simp only [Directory.validatePath, ite_error_eq_ok, List.isEmpty_iff] at hpath
    exact List.length_pos_iff.mpr hpath.1
  have hmeta := r.metadata.metadata.length_wire_ge
  have hstamp : 1 ≤ (overrideWire r.observedMtime).length := by
    rw [Metadata.length_overrideWire]
    split_ifs <;> norm_num
  rw [Record.length_wire, Record.size]
  omega

/-- The lists of records that can be read back. -/
def Readable (rs : List Record) : Prop :=
  rs.length < 2 ^ 32 ∧ (∀ r ∈ rs, r.metadata.metadata.wire.length < 2 ^ 32) ∧
    forPrevious checkRecord none rs = .ok ()

/-- The bytes of the attribute. -/
def wire (rs : List Record) : List UInt8 :=
  magic ++ (toLeBytes (UInt32.ofNat rs.length) ++ rs.flatMap Record.wire)

lemma exact_transport : Exact readTransport wire Readable := by
  have hrecords : Exact (Reader.count .invalidTransport 31 >>= fun n => readRecords n none)
      (fun rs => toLeBytes (UInt32.ofNat rs.length) ++ rs.flatMap Record.wire)
      (fun rs => True ∧ Readable rs) := by
    refine (Exact.count_bind _ (fun n => exact_records n none) (by norm_num)
      fun rs hrs r hr => ?_).congr (fun rs => ?_) (fun _ _ => rfl)
    · obtain ⟨q, hq⟩ := Metadata.exists_check_of_forPrevious hrs.2 hr
      exact le_length_wire (checkRecord_eq_ok.mp hq).1
    · rw [true_and, Readable]
  refine (Exact.bind (I := fun _ => True) (Q := Readable) (fun _ => magic)
    (Exact.take _ magic.length) fun w _ => ?_).congr (fun rs => by simp) (fun _ _ => rfl)
  refine (Exact.guard_bind fun _ => hrecords).congr (fun rs => ?_) (fun _ _ => rfl)
  rw [true_and, true_and, eq_comm]

/-- The length of the attribute: thirteen bytes and the records. -/
def size (rs : List Record) : Nat := 13 + (rs.map Record.size).sum

lemma length_wire (rs : List Record) : (wire rs).length = size rs := by
  have hmagic : magic.length = 9 := by decide
  rw [wire, List.length_append, List.length_append, hmagic, length_toLeBytes, width_uint32,
    List.length_flatMap, size, ← Nat.add_assoc]
  simp only [Record.length_wire]

lemma size_append (rs : List Record) (r : Record) : size (rs ++ [r]) = size rs + r.size := by
  simp [size, Nat.add_assoc]

/-- Within the bound, accepted records are readable. -/
lemma readable_of_size {rs : List Record} (hcheck : check rs = .ok ()) (hsize : size rs ≤ maxBytes) :
    Readable rs := by
  rw [check, ite_error_eq_ok] at hcheck
  obtain ⟨hlen, hcheck⟩ := hcheck
  refine ⟨?_, fun r hr => ?_, hcheck⟩
  · have : maxRecords < 2 ^ 32 := by decide
    omega
  · have hle := List.single_le_sum (l := rs.map Record.size) (by simp) _
      (List.mem_map_of_mem hr)
    have hsum : 13 + (rs.map Record.size).sum ≤ 65536 := hsize
    rw [Record.size] at hle
    omega

/-- At most `maxRecords` records fit within the bound. -/
lemma check_of_readable {rs : List Record} (hread : Readable rs) (hsize : size rs ≤ maxBytes) :
    check rs = .ok () := by
  rw [check, ite_error_eq_ok, not_lt]
  refine ⟨?_, hread.2.2⟩
  have hmin : rs.length * 31 ≤ (rs.flatMap Record.wire).length := by
    refine mul_le_length_flatMap fun r hr => ?_
    obtain ⟨previous, hcheck⟩ := Metadata.exists_check_of_forPrevious hread.2.2 hr
    exact le_length_wire (checkRecord_eq_ok.mp hcheck).1
  rw [← length_wire, wire, List.length_append, List.length_append] at hsize
  have hmagic : magic.length = 9 := by decide
  have hmax : maxRecords = 2113 := by decide
  simp only [hmagic, length_toLeBytes, width_uint32, maxBytes] at hsize
  omega

lemma readTransport_start {bytes : List UInt8} {rs : List Record} {c : Cursor}
    (h : readTransport (Cursor.start bytes) = .ok (rs, c)) (hend : c.offset = bytes.length) :
    bytes = wire rs ∧ Readable rs := by
  obtain ⟨hread, hs⟩ := (exact_transport _ _ _).mp h
  have hrest : c.rest = [] := by
    rw [c.rest_eq_nil_iff, hend, hs.1]
    rfl
  exact ⟨((Step.start_iff hrest).mp hs).2, hread⟩

end SymlinkTransport

namespace Transport

def decode (bytes : List UInt8) : Except Error Transport :=
  if hlen : bytes.length > maxBytes then .error .transportTooLarge
  else
    match h : readTransport (Cursor.start bytes) with
    | .error e => .error e
    | .ok (records, cursor) =>
      if hend : cursor.offset = bytes.length then
        -- what was read passes every check of `new`
        .ok ⟨records, by
          obtain ⟨hwire, hread⟩ := readTransport_start h hend
          refine check_of_readable hread ?_
          rw [← length_wire, ← hwire]
          exact not_lt.mp hlen⟩
      else .error .invalidTransport

/-- The accepted strings are the wire forms within the bound. -/
theorem decode_eq_ok {bytes : List UInt8} {t : Transport} :
    decode bytes = .ok t ↔ bytes = wire t.records ∧ size t.records ≤ maxBytes := by
  rw [← length_wire]
  constructor
  · intro h
    unfold decode at h
    split_ifs at h with hlen
    split at h
    · exact absurd h (by simp)
    · next records cursor hread =>
      split_ifs at h with hend
      obtain rfl := Except.ok.inj h
      obtain ⟨rfl, -⟩ := readTransport_start hread hend
      exact ⟨rfl, not_lt.mp hlen⟩
  · intro h
    obtain ⟨rfl, hsize⟩ := h
    have hread := readable_of_size t.accepted (by rwa [← length_wire])
    obtain ⟨cursor, hs, hrest⟩ := Step.exists_start (wire t.records) []
    rw [List.append_nil] at hs
    have hend : cursor.offset = (wire t.records).length := by
      rw [(cursor.rest_eq_nil_iff).mp hrest, hs.1]
      rfl
    have hok := (exact_transport _ _ _).mpr ⟨hread, hs⟩
    unfold decode
    rw [dif_neg (not_lt.mpr hsize)]
    split
    · next e he => exact absurd (he.symm.trans hok) (by simp)
    · next records c hc =>
      obtain ⟨rfl, rfl⟩ := Prod.mk.inj (Except.ok.inj (hc.symm.trans hok))
      rw [dif_pos hend]

/-- `find`: binary search by name. -/
def find (t : Transport) (name : List UInt8) : Option Record :=
  (Search.find Record.name t.records name).bind (t.records[·]?)

end Transport

namespace SymlinkTransport

/-! ### The order of names -/

lemma checkOrder_eq_ok {p : Option Record} {r : Record} :
    checkOrder p r = .ok () ↔ ∀ q ∈ p, compare q.name r.name = .lt := by
  cases p with
  | none => simp [checkOrder]
  | some q => simp [checkOrder]

/-- The records of a transport: each one may travel, and the names increase. -/
lemma records_eq_ok {rs : List Record} : forPrevious checkRecord none rs = .ok () ↔
    (∀ r ∈ rs, validate r = .ok () ∧ ∀ t ∈ r.observedMtime, t.nsec < 1000000000) ∧
      Search.Sorted Record.name rs := by
  refine Metadata.forPrevious_eq_ok (p := none) ?_ fun p r => ?_
  · exact fun _ _ _ => Metadata.compare_lt_trans
  · rw [checkRecord_eq_ok, checkOrder_eq_ok, and_comm (a := ∀ q ∈ p, _), and_assoc]

end SymlinkTransport

namespace Transport

lemma forPrevious_of_accepted (t : Transport) :
    forPrevious checkRecord none t.records = .ok () := by
  have h := t.accepted
  rw [check, ite_error_eq_ok] at h
  exact h.2

lemma sorted (t : Transport) : Search.Sorted Record.name t.records :=
  (records_eq_ok.mp t.forPrevious_of_accepted).2

lemma observed (t : Transport) {r : Record} (hr : r ∈ t.records) :
    ∀ x ∈ r.observedMtime, x.nsec < 1000000000 :=
  ((records_eq_ok.mp t.forPrevious_of_accepted).1 r hr).2

/-- The search returns the record of that name, and nothing only when there is none. -/
theorem find_eq_some_iff {t : Transport} {name : List UInt8} {r : Record} :
    t.find name = some r ↔ r ∈ t.records ∧ r.name = name := by
  rw [find, Option.bind_eq_some_iff]
  simp only [Search.find_eq_some_iff t.sorted]
  constructor
  · intro h
    obtain ⟨i, ⟨x, hx, rfl⟩, hr⟩ := h
    obtain rfl := Option.some.inj (hx.symm.trans hr)
    exact ⟨List.mem_iff_getElem?.mpr ⟨i, hx⟩, rfl⟩
  · intro h
    obtain ⟨hr, rfl⟩ := h
    obtain ⟨i, hi⟩ := List.mem_iff_getElem?.mp hr
    exact ⟨i, ⟨r, hi, rfl⟩, hi⟩

end Transport

namespace SymlinkTransport

/-! ### The two passes of the encoder -/

lemma foldlM_addBounded (counts : List Nat) (n : Nat) (hn : n ≤ maxBytes) :
    counts.foldlM addBounded n = if n + counts.sum ≤ maxBytes then .ok (n + counts.sum)
      else .error .transportTooLarge := by
  have hmax : maxBytes = 65536 := rfl
  induction counts generalizing n with
  | nil => simp [hn]; rfl
  | cons count counts ih =>
    rw [List.foldlM_cons, addBounded, CanonicalMetadata.checkedAdd, List.sum_cons,
      ← Nat.add_assoc]
    by_cases hc : n + count ≤ maxBytes
    · rw [if_pos (by omega)]
      simp only [not_lt.mpr hc, if_false, ok_bind]
      exact ih _ hc
    · rw [if_neg (show ¬n + count + counts.sum ≤ maxBytes by omega)]
      split_ifs <;> simp [not_le.mp hc, error_bind]

/-- The length of one record: its metadata must be countable, then the total is bounded. -/
lemma countRecord_eq {r : Record} (ho : ∀ t ∈ r.observedMtime, t.nsec < 1000000000) {n : Nat}
    (hn : n ≤ maxBytes) : countRecord n r =
      if r.metadata.metadata.wire.length < 2 ^ 64 then
        if n + r.size ≤ maxBytes then .ok (n + r.size) else .error .transportTooLarge
      else .error (.metadata .badMetadata) := by
  have hobs := Metadata.encodeTimeOverride_eq_ok.mpr ⟨ho, rfl⟩
  rw [countRecord, hobs, CanonicalMetadata.encodedLen_eq]
  by_cases hlen : r.metadata.metadata.wire.length < 2 ^ 64
  · rw [if_pos hlen, if_pos hlen]
    simp only [Except.mapError, ok_bind, foldlM_addBounded _ _ hn, List.sum_cons, List.sum_nil,
      Record.size, Nat.add_assoc, Nat.add_zero]
    exact if_congr Iff.rfl rfl rfl
  · rw [if_neg hlen, if_neg hlen]
    rfl

lemma putRecord_eq {r : Record} (ho : ∀ t ∈ r.observedMtime, t.nsec < 1000000000)
    (hlen : r.metadata.metadata.wire.length < 2 ^ 64) (bytes : List UInt8) :
    putRecord bytes r = .ok (bytes ++ r.wire) := by
  have hobs := Metadata.encodeTimeOverride_eq_ok.mpr ⟨ho, rfl⟩
  rw [putRecord, hobs, CanonicalMetadata.encode_eq, if_pos hlen]
  simp only [Except.mapError, ok_bind, Record.wire, List.append_assoc]

/-- The length pass succeeds within the bound. Otherwise it stops at the first record that passes
the bound, and the metadata of that record decides the error. -/
lemma foldlM_countRecord {rs : List Record}
    (ho : ∀ r ∈ rs, ∀ t ∈ r.observedMtime, t.nsec < 1000000000) {n : Nat} (hn : n ≤ maxBytes) :
    (n + (rs.map Record.size).sum ≤ maxBytes ∧
      rs.foldlM countRecord n = .ok (n + (rs.map Record.size).sum)) ∨
    ∃ before r after, rs = before ++ r :: after ∧
      n + (before.map Record.size).sum ≤ maxBytes ∧
      maxBytes < n + (before.map Record.size).sum + r.size ∧
      rs.foldlM countRecord n = .error (if r.metadata.metadata.wire.length < 2 ^ 64
        then .transportTooLarge else .metadata .badMetadata) := by
  induction rs generalizing n with
  | nil =>
    left
    simp only [List.map_nil, List.sum_nil, Nat.add_zero]
    exact ⟨hn, rfl⟩
  | cons r rs ih =>
    obtain ⟨hr, hrs⟩ := List.forall_mem_cons.mp ho
    rw [List.foldlM_cons, countRecord_eq hr hn, List.map_cons, List.sum_cons, ← Nat.add_assoc]
    by_cases hsize : n + r.size ≤ maxBytes
    · have hlen : r.metadata.metadata.wire.length < 2 ^ 64 := by
        have hmax : maxBytes = 65536 := rfl
        rw [Record.size] at hsize
        omega
      rw [if_pos hlen, if_pos hsize, ok_bind]
      rcases ih hrs hsize with h | h
      · exact Or.inl h
      · right
        obtain ⟨before, r', after, rfl, hbefore, hover, herr⟩ := h
        refine ⟨r :: before, r', after, rfl, ?_, ?_, herr⟩
        · rwa [List.map_cons, List.sum_cons, ← Nat.add_assoc]
        · rwa [List.map_cons, List.sum_cons, ← Nat.add_assoc]
    · refine Or.inr ⟨[], r, rs, rfl, by simpa using hn, by simpa using hsize, ?_⟩
      rw [if_neg hsize]
      split_ifs <;> rfl

lemma foldlM_putRecord {rs : List Record}
    (ho : ∀ r ∈ rs, ∀ t ∈ r.observedMtime, t.nsec < 1000000000)
    (hlen : ∀ r ∈ rs, r.metadata.metadata.wire.length < 2 ^ 64) (bytes : List UInt8) :
    rs.foldlM putRecord bytes = .ok (bytes ++ rs.flatMap Record.wire) := by
  induction rs generalizing bytes with
  | nil => simp; rfl
  | cons r rs ih =>
    obtain ⟨hr, hrs⟩ := List.forall_mem_cons.mp ho
    obtain ⟨hl, hls⟩ := List.forall_mem_cons.mp hlen
    rw [List.foldlM_cons, putRecord_eq hr hl, ok_bind, ih hrs hls, List.flatMap_cons,
      List.append_assoc]

end SymlinkTransport

namespace Transport

lemma encode_of_size_le {t : Transport} (h : size t.records ≤ maxBytes) :
    t.encode = .ok (wire t.records) := by
  have hread := readable_of_size t.accepted h
  have hmagic : magic.length + 4 = 13 := by decide
  have hlen : ∀ r ∈ t.records, r.metadata.metadata.wire.length < 2 ^ 64 := fun r hr =>
    (hread.2.1 r hr).trans (by norm_num)
  rw [encode, hmagic]
  rcases foldlM_countRecord (fun r hr => t.observed hr) (show 13 ≤ maxBytes by decide) with h' | h'
  · rw [h'.2, ok_bind, foldlM_putRecord (fun r hr => t.observed hr) hlen, wire, List.append_assoc]
  · obtain ⟨before, r, after, heq, -, hover, -⟩ := h'
    -- the record past the bound would be past it in the whole list too
    have hle : size (before ++ [r]) ≤ size t.records := by
      simp [heq, size]
    rw [size_append, size] at hle
    omega

lemma encode_of_lt_size {t : Transport} (h : maxBytes < size t.records) :
    ∃ before r after, t.records = before ++ r :: after ∧ size before ≤ maxBytes ∧
      maxBytes < size (before ++ [r]) ∧
      t.encode = .error (if r.metadata.metadata.wire.length < 2 ^ 64
        then .transportTooLarge else .metadata .badMetadata) := by
  have hmagic : magic.length + 4 = 13 := by decide
  rcases foldlM_countRecord (fun r hr => t.observed hr) (show 13 ≤ maxBytes by decide) with h' | h'
  · exact absurd h (not_lt.mpr h'.1)
  · obtain ⟨before, r, after, heq, hbefore, hover, herr⟩ := h'
    refine ⟨before, r, after, heq, hbefore, by rwa [size_append], ?_⟩
    rw [encode, hmagic, herr, error_bind]

/-- The codec is exact. Encoding succeeds exactly within the bound, with the stated length, and
reads back as the same records. Past the bound it fails with `TransportTooLarge`, except when the
metadata of the first record past it does not even fit in the address space: counting that record
fails first. Whatever decodes is the encoding of the result, and the search finds a record by its
name exactly when there is one. -/
theorem codec_exact :
    (∀ (records : List Record) (t : Transport), new records = .ok t → size records ≤ 65536 →
      ∃ bytes, t.encode = .ok bytes ∧ bytes.length = size records ∧
        ∃ s, decode bytes = .ok s ∧ s.records = records) ∧
    (∀ (records : List Record) (t : Transport), new records = .ok t → 65536 < size records →
      ∃ before r after, records = before ++ r :: after ∧ size before ≤ 65536 ∧
        65536 < size (before ++ [r]) ∧
        t.encode = .error (if r.metadata.metadata.wire.length < 2 ^ 64
          then .transportTooLarge else .metadata .badMetadata)) ∧
    (∀ (bytes : List UInt8) (t : Transport), decode bytes = .ok t → t.encode = .ok bytes) ∧
    (∀ (bytes : List UInt8) (t : Transport), decode bytes = .ok t → ∀ (name : List UInt8) r,
      t.find name = some r ↔ r ∈ t.records ∧ r.name = name) := by
  refine ⟨fun records t hnew h => ?_, fun records t hnew h => ?_, fun bytes t ht => ?_,
    fun _ t _ name r => ?_⟩
  · obtain rfl := new_eq_ok.mp hnew
    exact ⟨_, encode_of_size_le h, length_wire _, t, decode_eq_ok.mpr ⟨rfl, h⟩, rfl⟩
  · obtain rfl := new_eq_ok.mp hnew
    exact encode_of_lt_size h
  · obtain ⟨rfl, h⟩ := decode_eq_ok.mp ht
    exact encode_of_size_le h
  · exact find_eq_some_iff

end Transport

namespace SymlinkTransport

/-! ### A record that cannot be counted -/

/-- All words of `n` letters `a` and `b`, in order. -/
def words : Nat → List (List UInt8)
  | 0 => [[]]
  | n + 1 => (words n).map (97 :: ·) ++ (words n).map (98 :: ·)

lemma length_words (n : Nat) : (words n).length = 2 ^ n := by
  induction n with
  | zero => rfl
  | succ n ih => simp [words, ih, pow_succ, Nat.mul_two]

lemma mem_words {n : Nat} {w : List UInt8} (h : w ∈ words n) :
    w.length = n ∧ ∀ b ∈ w, b = 97 ∨ b = 98 := by
  induction n generalizing w with
  | zero => simp_all [words]
  | succ n ih =>
    rw [words, List.mem_append, List.mem_map, List.mem_map] at h
    rcases h with h | h
    · obtain ⟨v, hv, rfl⟩ := h
      obtain ⟨hlen, hb⟩ := ih hv
      exact ⟨by simp [hlen], List.forall_mem_cons.mpr ⟨Or.inl rfl, hb⟩⟩
    · obtain ⟨v, hv, rfl⟩ := h
      obtain ⟨hlen, hb⟩ := ih hv
      exact ⟨by simp [hlen], List.forall_mem_cons.mpr ⟨Or.inr rfl, hb⟩⟩

lemma pairwise_words (n : Nat) : (words n).Pairwise fun v w => compare v w = .lt := by
  induction n with
  | zero => simp [words]
  | succ n ih =>
    have hcons : ∀ b : UInt8, ((words n).map (b :: ·)).Pairwise fun v w => compare v w = .lt := by
      intro b
      rw [List.pairwise_map]
      refine ih.imp fun h => ?_
      rwa [List.compare_cons_cons, Std.compare_self]
    rw [words, List.pairwise_append]
    refine ⟨hcons 97, hcons 98, fun v hv w hw => ?_⟩
    obtain ⟨v, -, rfl⟩ := List.mem_map.mp hv
    obtain ⟨w, -, rfl⟩ := List.mem_map.mp hw
    rw [List.compare_cons_cons]
    rfl

/-- One raw attribute for each name, all with the same value. -/
def wide (names : List (List UInt8)) (value : List UInt8) : Metadata :=
  { Metadata.default with xattrs := names.map fun name => ⟨.raw, name, value⟩ }

/-- Transport names begin with `d`, and so does what the `user.` prefix would leave. -/
lemma isTransportName_word {b : UInt8} {w : List UInt8} (hb : b = 97 ∨ b = 98) :
    Metadata.isTransportName (b :: w) = false := by
  have huser : utf8 "user." = [117, 115, 101, 114, 46] := by decide
  have hstrip : stripPrefix (utf8 "user.") (b :: w) = none := by
    rw [stripPrefix, huser, if_neg]
    rcases hb with rfl | rfl <;> simp [List.isPrefixOf]
  have hhead : ∀ name ∈ Metadata.transportNames, name.head? = some 100 := by decide
  rw [Metadata.isTransportName, hstrip, ← Bool.not_eq_true]
  intro h
  have hd := hhead _ (List.contains_iff_mem.mp h)
  rcases hb with rfl | rfl <;> simp at hd

lemma validateXattrName_word {n : Nat} {w : List UInt8} (h : w ∈ words (n + 1)) (hn : n < 255) :
    Metadata.validateXattrName .raw w = .ok () := by
  obtain ⟨hlen, hb⟩ := mem_words h
  obtain ⟨b, w, rfl⟩ := List.exists_cons_of_length_eq_add_one hlen
  have hany : (b :: w).any (fun byte => byte == 0 || byte == 0x2f || byte == 0x5c) = false := by
    rw [List.any_eq_false]
    intro x hx
    rcases hb x hx with rfl | rfl <;> decide
  have hlen' : w.length < 255 := by
    rw [List.length_cons] at hlen
    omega
  rw [Metadata.validateXattrName, isTransportName_word (hb b List.mem_cons_self)]
  simp [hany, hlen']

lemma wide_valid {n : Nat} (hn : n < 32) {names : List (List UInt8)}
    (hnames : names.Sublist (words (n + 1))) (hcount : names.length < 2 ^ 32) {value : List UInt8}
    (hvalue : value.length < 2 ^ 32) : (wide names value).Valid := by
  have hcheck : Metadata.forPrevious Metadata.checkXattr none (wide names value).xattrs = .ok () := by
    refine Metadata.xattrs_eq_ok.mpr ⟨fun x hx => ?_, ?_⟩
    · obtain ⟨name, hname, rfl⟩ := List.mem_map.mp hx
      rw [Metadata.Xattr.check, seq_eq_ok, Metadata.wireLength_eq_ok]
      exact ⟨validateXattrName_word (hnames.subset hname) (by omega), hvalue⟩
    · refine List.pairwise_map.mpr (((pairwise_words _).sublist hnames).imp fun h => ?_)
      rwa [Metadata.Xattr.key, Metadata.Xattr.key, List.compare_cons_cons, Std.compare_self]
  exact
    { xattrCount := by rwa [wide, List.length_map]
      xattrs := hcheck
      aceCount := by simp [wide, Metadata.default]
      aces := rfl
      nativeAcl := rfl
      times := rfl
      holeCount := by simp [wide, Metadata.default]
      holes := rfl
      hardlinkTo := rfl }

lemma le_length_wide (names : List (List UInt8)) (value : List UInt8) {k : Nat}
    (hk : ∀ name ∈ names, name.length = k) :
    names.length * (value.length + k) ≤ (wide names value).wire.length := by
  have hflat : ((wide names value).xattrs.flatMap Metadata.Xattr.pieces).flatten
      = (wide names value).xattrs.flatMap fun x => x.pieces.flatten := by
    simp [List.flatMap, List.flatten_flatten, Function.comp_def]
  have hmin : (wide names value).xattrs.length * (value.length + k)
      ≤ ((wide names value).xattrs.flatMap fun x => x.pieces.flatten).length := by
    refine mul_le_length_flatMap fun x hx => ?_
    obtain ⟨name, hname, rfl⟩ := List.mem_map.mp hx
    simp [Metadata.Xattr.pieces, hk name hname]
    omega
  have hcount : (wide names value).xattrs.length = names.length := List.length_map _
  rw [hcount, ← hflat] at hmin
  refine hmin.trans ?_
  simp only [Metadata.wire, Metadata.pieces, List.flatten_append, List.length_append]
  omega

/-- Nearly `2 ^ 32` attributes with values of nearly `2 ^ 32` bytes. All of them may borrow one
value, so the record exists although its wire form does not fit in the address space. -/
def vast : Metadata := wide (words 32).tail (List.replicate (2 ^ 32 - 1) 0)

lemma length_tail_words : (words 32).tail.length = 2 ^ 32 - 1 := by
  rw [List.length_tail, length_words]

lemma vast_valid : vast.Valid := by
  refine wide_valid (n := 31) (by norm_num) (List.tail_sublist _) ?_ ?_
  · rw [length_tail_words]
    norm_num
  · rw [List.length_replicate]
    norm_num

lemma le_length_vast : 2 ^ 64 ≤ vast.wire.length := by
  have h := le_length_wide (words 32).tail (List.replicate (2 ^ 32 - 1) 0) (k := 32)
    fun name hname => (mem_words (List.mem_of_mem_tail hname)).1
  rw [length_tail_words, List.length_replicate] at h
  refine le_trans ?_ h
  norm_num

/-- Not every canonical record has an encoding. -/
theorem vast_not_encoded :
    ¬∀ c : CanonicalMetadata, ∃ bytes, c.encode = .ok bytes ∧
      CanonicalMetadata.decode bytes = .ok c ∧ c.encodedLen = .ok bytes.length := by
  intro h
  obtain ⟨bytes, hencode, -⟩ := h ⟨vast, Metadata.validate_eq_ok.mpr vast_valid⟩
  rw [CanonicalMetadata.encode_eq, if_neg (not_lt.mpr le_length_vast)] at hencode
  exact absurd hencode (by simp)

def vastRecord : Record where
  name := utf8 "a"
  metadata := ⟨vast, Metadata.validate_eq_ok.mpr vast_valid⟩
  absentTimes := 0
  observedMtime := none
  aclOverride := false
  finderOverride := false

lemma validate_vastRecord : validate vastRecord = .ok () := by
  have htimes : vast.times = Metadata.Times.default := rfl
  have hholes : vast.holes = [] := rfl
  have hlink : vast.hardlinkTo = none := rfl
  have hempty : vast.isEmpty = false := by
    rw [← Bool.not_eq_true, Metadata.isEmpty_iff]
    intro h
    have hlen := congrArg (fun m : Metadata => m.xattrs.length) h
    rw [vast, wide, List.length_map, length_tail_words] at hlen
    exact absurd hlen (by decide)
  have hpath : Directory.validatePath (utf8 "a") = .ok () := by decide
  have hslash : (0x2f : UInt8) ∉ utf8 "a" := by decide
  simp [validate, vastRecord, htimes, hholes, hlink, hempty, hpath, hslash,
    Metadata.Times.default, Except.mapError, ok_bind]

lemma vast_accepted : check [vastRecord] = .ok () := by
  rw [check, ite_error_eq_ok, records_eq_ok]
  refine ⟨by decide, fun r hr => ?_, List.pairwise_singleton _ _⟩
  obtain rfl := List.mem_singleton.mp hr
  exact ⟨validate_vastRecord, by simp [vastRecord]⟩

end SymlinkTransport

/-- Past the bound, but the failure is not `TransportTooLarge`. -/
theorem Transport.vast_uncountable :
    ∃ t, Transport.new [vastRecord] = .ok t ∧ 65536 < size [vastRecord] ∧
      t.encode = .error (.metadata .badMetadata) := by
  have hmetadata : vastRecord.metadata.metadata = vast := rfl
  have hsize : 65536 < size [vastRecord] := by
    have hle := le_length_vast
    rw [size, List.map_singleton, List.sum_singleton, Record.size, hmetadata]
    omega
  refine ⟨⟨[vastRecord], vast_accepted⟩, Transport.new_eq_ok.mpr rfl, hsize, ?_⟩
  obtain ⟨before, r, after, heq, -, -, herr⟩ := Transport.encode_of_lt_size
    (t := ⟨[vastRecord], vast_accepted⟩) hsize
  have hr : r = vastRecord := by
    have hmem : r ∈ [vastRecord] := by
      rw [show [vastRecord] = before ++ r :: after from heq]
      exact List.mem_append_right _ List.mem_cons_self
    exact List.mem_singleton.mp hmem
  rw [herr, hr, hmetadata, if_neg (not_lt.mpr le_length_vast)]

end Difz
