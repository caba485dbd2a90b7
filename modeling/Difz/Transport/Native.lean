import Difz.Directory.Contract
import Difz.Transport.Codec
import Difz.Zig.Masked

/-!
# Symlink transport of the native program

Records as `src/symlink_transport.zig` checks and encodes them. A record names its link by the last
component of the path, and that name is checked as a path of its own: `validatePath_basename` says
that it passes unless it begins like a drive, which only the start of the whole path may not.
-/

namespace Difz

open Wire
open Metadata (Time encodeTimeOverride overrideWire)

namespace Directory

/-! ### The last component of a path -/

/-- The path up to the last separator, empty when there is none. -/
def parentOf (path : List UInt8) : List UInt8 := (parentPath path).getD []

def basename (path : List UInt8) : List UInt8 :=
  if (parentOf path).isEmpty then path else path.drop ((parentOf path).length + 1)

/-- A letter and a colon come first. -/
def hasDrivePrefix (name : List UInt8) : Bool :=
  name.length ≥ 2 && name.head?.any isAsciiAlphabetic && name[1]? == some 0x3a

lemma hasDrivePrefix_eq_false_iff {name : List UInt8} : hasDrivePrefix name = false ↔
    ∀ letter rest, name = letter :: 0x3a :: rest → isAsciiAlphabetic letter = false := by
  match name with
  | [] => simp [hasDrivePrefix]
  | [a] => simp [hasDrivePrefix]
  | a :: b :: rest =>
    simp only [hasDrivePrefix, List.length_cons, List.head?_cons, Option.any_some,
      List.getElem?_cons_succ, List.getElem?_cons_zero, List.cons.injEq, Bool.and_eq_false_iff]
    simp
    tauto

/-- A path is its parent and its basename, joined by a separator below the root. -/
lemma ValidPath.basename_cases {path : List UInt8} (h : ValidPath path) :
    0x2f ∉ basename path ∧
      ((parentPath path = none ∧ parentOf path = [] ∧ basename path = path) ∨
      (parentPath path = some (parentOf path) ∧ parentOf path ≠ [] ∧
        path = parentOf path ++ 0x2f :: basename path)) := by
  cases hparent : parentPath path with
  | none =>
    have hof : parentOf path = [] := by rw [parentOf, hparent, Option.getD_none]
    have hbase : basename path = path := by rw [basename, hof, List.isEmpty_nil, if_pos rfl]
    refine ⟨?_, .inl ⟨rfl, hof, hbase⟩⟩
    rw [hbase]
    exact parentPath_eq_none_iff.mp hparent
  | some parent =>
    obtain ⟨name, hname, hpath⟩ := parentPath_eq_some_iff.mp hparent
    have hof : parentOf path = parent := by rw [parentOf, hparent, Option.getD_some]
    have hne : parent ≠ [] := by
      rintro rfl
      rw [List.nil_append] at hpath
      exact h.text.relative (by rw [hpath, List.head?_cons])
    have hbase : basename path = name := by
      rw [basename, hof, if_neg (by simpa using hne), hpath]
      simp
    rw [hof, hbase]
    exact ⟨hname, .inr ⟨rfl, hne, hpath⟩⟩

lemma ValidPath.basename_mem_components {path : List UInt8} (h : ValidPath path) :
    basename path ∈ components path := by
  obtain ⟨hslash, ⟨-, -, hbase⟩ | ⟨-, -, hpath⟩⟩ := h.basename_cases
  · rw [hbase] at hslash ⊢
    rw [components, List.splitOn_eq_singleton hslash]
    exact List.mem_singleton_self _
  · rw [components, hpath, List.splitOn_append_cons_self, ← hpath,
      List.splitOn_eq_singleton hslash]
    exact List.mem_append_right _ (List.mem_singleton_self _)

/-- The basename inherits what a path has to satisfy, but for the drive. -/
theorem ValidPath.validatePath_basename {path : List UInt8} (h : ValidPath path) :
    validatePath (basename path) = .ok () ↔ hasDrivePrefix (basename path) = false := by
  obtain ⟨hslash, hcases⟩ := h.basename_cases
  obtain ⟨hempty, hdot, hup⟩ := h.names _ h.basename_mem_components
  have hsuffix : basename path <:+ path := by
    rcases hcases with ⟨-, -, hbase⟩ | ⟨-, -, hpath⟩
    · rw [hbase]
    · exact ⟨parentOf path ++ [0x2f], by rw [List.append_assoc]; exact hpath.symm⟩
  have hutf8 : isUtf8 (basename path) = true := by
    rcases hcases with ⟨-, -, hbase⟩ | ⟨-, -, hpath⟩
    · rw [hbase]
      exact h.text.utf8
    · obtain ⟨s, hs⟩ := isUtf8_iff.mp h.text.utf8
      rw [utf8_eq_encodeChars, hpath] at hs
      obtain ⟨ds, hds⟩ := exists_of_encodeChars_eq (by decide) hs.symm
      refine isUtf8_iff.mpr ⟨String.ofList ds, ?_⟩
      rw [utf8_eq_encodeChars, String.toList_ofList, hds]
  rw [validatePath_eq_ok, hasDrivePrefix_eq_false_iff]
  constructor
  · exact fun hvalid => hvalid.text.drive
  · intro hdrive
    refine ⟨hempty, hsuffix.length_le.trans h.bounded, ⟨hutf8, ?_, ?_, ?_, hdrive⟩, ?_⟩
    · exact fun hhead => hslash (List.mem_of_head? hhead)
    · exact fun hmem => h.text.backslash (hsuffix.subset hmem)
    · exact fun hmem => h.text.nul (hsuffix.subset hmem)
    · rw [components, List.splitOn_eq_singleton hslash]
      simpa using ⟨hempty, hdot, hup⟩

/-- Paths below one parent are in the order of their basenames. -/
lemma ValidPath.compare_basename {p q : List UInt8} (hp : ValidPath p) (hq : ValidPath q)
    (hsame : parentOf p = parentOf q) : compare (basename p) (basename q) = compare p q := by
  have happend : ∀ pre v w : List UInt8, compare (pre ++ v) (pre ++ w) = compare v w := by
    intro pre v w
    induction pre with
    | nil => rfl
    | cons b pre ih =>
      rw [List.cons_append, List.cons_append, List.compare_cons_cons, Std.compare_self]
      exact ih
  obtain ⟨-, ⟨-, hnil, hbase⟩ | ⟨-, hne, hpath⟩⟩ := hp.basename_cases
  · obtain ⟨-, ⟨-, -, hbase'⟩ | ⟨-, hne', -⟩⟩ := hq.basename_cases
    · rw [hbase, hbase']
    · exact absurd (hsame ▸ hnil) hne'
  · obtain ⟨-, ⟨-, hnil', -⟩ | ⟨-, -, hpath'⟩⟩ := hq.basename_cases
    · exact absurd (hsame ▸ hnil') hne
    · conv_rhs => rw [hpath, hpath', ← hsame]
      rw [happend, List.compare_cons_cons, Std.compare_self]
      rfl

end Directory

namespace Zig

open SymlinkTransport (maxBytes magic maxRecords flagBits)

/-! ### Records -/

/-- The metadata of a link that its parent carries. -/
structure LinkRecord where
  name : List UInt8
  meta_ : Metadata
  absentTimes : UInt8
  observedMtime : Option Time
  aclOverride : Bool
  finderOverride : Bool
  deriving DecidableEq

def validateRecord (record : LinkRecord) : Except SymlinkTransport.Error Unit :=
  let m := record.meta_
  let keepsMtime := m.times.mtime.isSome || record.absentTimes &&& 1 != 0
  if keepsMtime != record.observedMtime.isSome then .error .invalidTransport
  else do
    (Directory.validatePath record.name).mapError fun _ => SymlinkTransport.Error.invalidTransport
    if record.absentTimes &&& ~~~7 != 0
        || (record.absentTimes &&& 1 != 0 && m.times.mtime.isSome)
        || (record.absentTimes &&& 2 != 0 && m.times.atime.isSome)
        || (record.absentTimes &&& 4 != 0 && m.times.btime.isSome) then
      .error .invalidTransport
    else if record.name.contains 0x2f
        || (m.isEmpty && record.absentTimes == 0 && !record.aclOverride && !record.finderOverride)
        || !m.holes.isEmpty || m.hardlinkTo.isSome then
      .error .invalidTransport
    else .ok ()

/-- `std.mem.order` against the name before. -/
def checkNames (previous : Option (List UInt8)) (name : List UInt8) :
    Except SymlinkTransport.Error Unit :=
  match previous with
  | none => .ok ()
  | some p => if compare p name ≠ .lt then .error .invalidTransport else .ok ()

/-- The room that is left is computed from the bytes so far, which never exceed the bound. -/
def appendRecord (bytes : List UInt8) (record : LinkRecord) :
    Except SymlinkTransport.Error (List UInt8) := do
  let canonical ← (canonicalize record.meta_ (Omit.of Metadata.Omit.default)).mapError
    SymlinkTransport.Error.metadata
  let blob := encodeCanonical canonical
  let observed ← (encodeTimeOverride record.observedMtime).mapError SymlinkTransport.Error.metadata
  let needed := 9 + observed.length + record.name.length + blob.length
  if needed > maxBytes - bytes.length then .error .transportTooLarge
  else .ok (bytes ++ toLeBytes (UInt32.ofNat record.name.length)
    ++ toLeBytes (UInt32.ofNat blob.length)
    ++ [flagBits record.absentTimes record.aclOverride record.finderOverride] ++ observed
    ++ record.name ++ blob)

def appendRecords : Option (List UInt8) → List UInt8 → List LinkRecord →
    Except SymlinkTransport.Error (List UInt8)
  | _, bytes, [] => .ok bytes
  | previous, bytes, record :: records => do
    validateRecord record
    checkNames previous record.name
    let bytes ← appendRecord bytes record
    appendRecords (some record.name) bytes records

def encode (records : List LinkRecord) : Except SymlinkTransport.Error (List UInt8) :=
  if records.length > maxRecords then .error .transportTooLarge
  else appendRecords none (magic ++ toLeBytes (UInt32.ofNat records.length)) records

/-- A record of the other program. -/
def LinkRecord.of (record : SymlinkTransport.Record) : LinkRecord :=
  ⟨record.name, record.metadata.metadata, record.absentTimes, record.observedMtime,
    record.aclOverride, record.finderOverride⟩

/-- Both programs let the same records travel. -/
lemma validateRecord_of (record : SymlinkTransport.Record) :
    validateRecord (LinkRecord.of record) = SymlinkTransport.validate record := by
  simp only [validateRecord, SymlinkTransport.validate, LinkRecord.of, List.any_cons, List.any_nil,
    Bool.or_false, Bool.or_assoc]

/-! ### What a record has to satisfy -/

/-- The fields of a record fit together and hold something. -/
structure LinkRecord.Coherent (record : LinkRecord) : Prop where
  observed : (record.meta_.times.mtime.isSome || record.absentTimes &&& 1 != 0)
    = record.observedMtime.isSome
  bits : record.absentTimes &&& ~~~7 = 0
  mtime : record.absentTimes &&& 1 ≠ 0 → record.meta_.times.mtime = none
  atime : record.absentTimes &&& 2 ≠ 0 → record.meta_.times.atime = none
  btime : record.absentTimes &&& 4 ≠ 0 → record.meta_.times.btime = none
  nonempty : record.meta_ = Metadata.default → record.absentTimes = 0 →
    record.aclOverride = false → record.finderOverride = true
  holes : record.meta_.holes = []
  hardlinkTo : record.meta_.hardlinkTo = none

/-- What is left to check of such a record is its name. -/
lemma LinkRecord.Coherent.validateRecord_eq {record : LinkRecord} (h : record.Coherent)
    (hslash : 0x2f ∉ record.name) : validateRecord record
      = (Directory.validatePath record.name).mapError fun _ => .invalidTransport := by
  have htimes : (record.absentTimes &&& ~~~7 != 0
      || (record.absentTimes &&& 1 != 0 && record.meta_.times.mtime.isSome)
      || (record.absentTimes &&& 2 != 0 && record.meta_.times.atime.isSome)
      || (record.absentTimes &&& 4 != 0 && record.meta_.times.btime.isSome)) = false := by
    simp only [Bool.or_eq_false_iff, Bool.and_eq_false_imp, bne_iff_ne, bne_eq_false_iff_eq,
      Option.isSome_eq_false_iff, Option.isNone_iff_eq_none]
    exact ⟨⟨⟨h.bits, h.mtime⟩, h.atime⟩, h.btime⟩
  have hrest : (record.name.contains 0x2f
      || (record.meta_.isEmpty && record.absentTimes == 0 && !record.aclOverride
        && !record.finderOverride)
      || !record.meta_.holes.isEmpty || record.meta_.hardlinkTo.isSome) = false := by
    simp only [Bool.or_eq_false_iff, Bool.and_eq_false_imp, h.holes, h.hardlinkTo, and_true,
      List.isEmpty_nil, Bool.not_true, Option.isSome_none, Bool.and_eq_true, Bool.not_eq_true',
      Bool.not_eq_false', Metadata.isEmpty_iff, beq_iff_eq]
    refine ⟨by simpa using hslash, fun hempty => ?_⟩
    exact h.nonempty hempty.1.1 hempty.1.2 hempty.2
  rw [validateRecord]
  rw [h.observed, bne_self_eq_false, if_neg (by simp), htimes, hrest]
  cases Directory.validatePath record.name with
  | ok _ => rfl
  | error _ => rfl

lemma validateRecord_cases (record : LinkRecord) : validateRecord record = .ok () ∨
    validateRecord record = .error .invalidTransport := by
  rw [validateRecord]
  cases Directory.validatePath record.name with
  | error _ =>
    simp only [Except.mapError, error_bind]
    exact .inr (ite_self _)
  | ok _ =>
    rw [mapError_ok, ok_bind]
    split_ifs
    · exact .inr rfl
    · exact .inr rfl
    · exact .inr rfl
    · exact .inl rfl

/-! ### Encoding canonical records -/

/-- A record with canonical metadata and a proper stamp only has to fit. -/
lemma appendRecord_cases {record : SymlinkTransport.Record}
    (hstamp : ∀ t ∈ record.observedMtime, t.nsec < 1000000000) (bytes : List UInt8) :
    appendRecord bytes (LinkRecord.of record) = .ok (bytes ++ record.wire) ∨
      appendRecord bytes (LinkRecord.of record) = .error .transportTooLarge := by
  have hcanonical : canonicalize (LinkRecord.of record).meta_ (Omit.of Metadata.Omit.default)
      = .ok record.metadata.metadata := by
    rw [LinkRecord.of, canonicalize_eq, Metadata.retain_default]
  have hobserved : encodeTimeOverride (LinkRecord.of record).observedMtime
      = .ok (overrideWire record.observedMtime) :=
    Metadata.encodeTimeOverride_eq_ok.mpr ⟨hstamp, rfl⟩
  rw [appendRecord, hcanonical, mapError_ok, ok_bind, hobserved, mapError_ok, ok_bind,
    encodeCanonical_eq]
  dsimp only
  split_ifs
  · exact .inr rfl
  · left
    simp only [LinkRecord.of, SymlinkTransport.Record.wire, SymlinkTransport.Record.flags,
      List.append_assoc]

/-- In the order of their names, canonical records are encoded unless one of them is invalid or
they do not fit. -/
lemma appendRecords_cases {records : List SymlinkTransport.Record}
    (hstamps : ∀ r ∈ records, ∀ t ∈ r.observedMtime, t.nsec < 1000000000)
    (hsorted : Search.Sorted SymlinkTransport.Record.name records) {previous : Option (List UInt8)}
    (hprevious : ∀ p ∈ previous, ∀ r ∈ records, compare p r.name = .lt) (bytes : List UInt8) :
    (appendRecords previous bytes (records.map LinkRecord.of)
        = .ok (bytes ++ records.flatMap SymlinkTransport.Record.wire) ∧
      ∀ r ∈ records, validateRecord (LinkRecord.of r) = .ok ()) ∨
    appendRecords previous bytes (records.map LinkRecord.of) = .error .transportTooLarge ∨
    (appendRecords previous bytes (records.map LinkRecord.of) = .error .invalidTransport ∧
      ∃ r ∈ records, validateRecord (LinkRecord.of r) = .error .invalidTransport) := by
  induction records generalizing previous bytes with
  | nil =>
    left
    simp [appendRecords]
  | cons record records ih =>
    obtain ⟨hstamp, hstamps⟩ := List.forall_mem_cons.mp hstamps
    obtain ⟨hbelow, hsorted⟩ := List.pairwise_cons.mp hsorted
    have horder : checkNames previous record.name = .ok () := by
      cases previous with
      | none => rfl
      | some p => exact if_neg (not_not.mpr (hprevious p rfl record (by simp)))
    rw [List.map_cons, appendRecords]
    rcases validateRecord_cases (LinkRecord.of record) with hvalid | hinvalid
    · have hname : (LinkRecord.of record).name = record.name := rfl
      rw [hvalid, ok_bind, hname, horder, ok_bind]
      rcases appendRecord_cases hstamp bytes with happend | hlarge
      · rw [happend, ok_bind]
        have hnext : ∀ p ∈ some record.name, ∀ r ∈ records, compare p r.name = .lt :=
          fun p hp r hr => Option.some.inj hp ▸ hbelow r hr
        rcases ih hstamps hsorted hnext (bytes ++ record.wire) with h | h | h
        · left
          rw [h.1, List.flatMap_cons, List.append_assoc]
          exact ⟨rfl, List.forall_mem_cons.mpr ⟨hvalid, h.2⟩⟩
        · exact .inr (.inl h)
        · obtain ⟨herr, r, hr, hrinvalid⟩ := h
          exact .inr (.inr ⟨herr, r, List.mem_cons_of_mem _ hr, hrinvalid⟩)
      · rw [hlarge, error_bind]
        exact .inr (.inl rfl)
    · rw [hinvalid, error_bind]
      exact .inr (.inr ⟨rfl, record, List.mem_cons_self, hinvalid⟩)

theorem encode_cases {records : List SymlinkTransport.Record}
    (hstamps : ∀ r ∈ records, ∀ t ∈ r.observedMtime, t.nsec < 1000000000)
    (hsorted : Search.Sorted SymlinkTransport.Record.name records) :
    (encode (records.map LinkRecord.of) = .ok (SymlinkTransport.wire records) ∧
      ∀ r ∈ records, validateRecord (LinkRecord.of r) = .ok ()) ∨
    encode (records.map LinkRecord.of) = .error .transportTooLarge ∨
    (encode (records.map LinkRecord.of) = .error .invalidTransport ∧
      ∃ r ∈ records, validateRecord (LinkRecord.of r) = .error .invalidTransport) := by
  rw [encode, List.length_map]
  split_ifs
  · exact .inr (.inl rfl)
  · rw [SymlinkTransport.wire, ← List.append_assoc]
    exact appendRecords_cases hstamps hsorted (by simp) _

end Zig

end Difz
