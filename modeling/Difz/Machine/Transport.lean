import Difz.Machine.Directory
import Difz.Transport.Codec

/-!
# Symlink transport on the machine

`Transport::decode` (`rust/src/symlink_transport.rs`), with the index, slice and integer
operations of the source left in. The slice of an observed stamp goes from where its tag was read
to the position behind it.
-/

namespace Difz

open Wire

namespace Machine

open Program (Action)

namespace SymlinkTransport

open Difz.Metadata (Time)
open Difz.SymlinkTransport (Error Record)

/-- The storage that decoding a transport may ask for: records take 31 bytes or more, and hold
metadata. -/
def Reserves (r : Reservation) : Prop :=
  r.minimum = 31 ∧ r.Bounded ∨ Metadata.Reserves r

def validate (record : Record) : Checked Error Unit :=
  let m := record.metadata.metadata
  if (m.times.mtime.isSome || record.absentTimes &&& 1 != 0) != record.observedMtime.isSome then
    Checked.fail .invalidTransport
  else do
    Checked.mapError (fun _ => Error.invalidTransport) (Directory.validatePath record.name)
    if record.absentTimes &&& ~~~7 != 0
        || [(1, m.times.mtime), (2, m.times.atime), (4, m.times.btime)].any (fun p =>
            record.absentTimes &&& p.1 != 0 && p.2.isSome) then
      Checked.fail .invalidTransport
    else if record.name.contains 0x2f
        || (m.isEmpty && record.absentTimes == 0 && !record.aclOverride && !record.finderOverride)
        || !m.holes.isEmpty
        || m.hardlinkTo.isSome then
      Checked.fail .invalidTransport
    else .ok ()

def take (length : Nat) : Scanner Error (List UInt8) := Scanner.take .invalidTransport length

def byte : Scanner Error UInt8 := Scanner.byte .invalidTransport

def word : Scanner Error Nat := do
  let word ← Scanner.word .invalidTransport UInt32
  pure word.toNat

/-- `decode_time_override(&bytes[begin..reader.position])`. -/
def decodeObserved (begin_ : Nat) : Scanner Error (Option Time) := do
  let bytes ← Scanner.since begin_
  Action.lift (Checked.mapError (fun _ => Error.invalidTransport)
    (Metadata.decodeTimeOverride bytes))

def readObserved : Scanner Error (Option Time) := do
  let begin_ ← Scanner.position
  let tag ← byte
  if tag = 0 then decodeObserved begin_
  else if tag = 1 then do
    let _ ← take 12
    decodeObserved begin_
  else Scanner.fail .invalidTransport

def readMetadata (length : Nat) : Scanner Error CanonicalMetadata := do
  let blob ← take length
  Scanner.call (Allocating.mapError (fun _ => Error.invalidTransport) (Metadata.decode blob))

def readFields : Scanner Error Record := do
  let nameLen ← word
  let metaLen ← word
  let flags ← byte
  Scanner.guard .invalidTransport (flags &&& 0xe0 = 0)
  let observedMtime ← readObserved
  let name ← take nameLen
  let metadata ← readMetadata metaLen
  pure ⟨name, metadata, flags &&& 7, observedMtime, flags &&& 8 != 0, flags &&& 16 != 0⟩

def readRecord : Scanner Error Record := Scanner.checked readFields validate

def readRecords : Nat → Option Record → Scanner Error (List Record)
  | 0, _ => pure []
  | count + 1, previous => do
    let record ← readRecord
    Action.lift (Checked.ofExcept (Difz.SymlinkTransport.checkOrder previous record))
    let records ← readRecords count (some record)
    pure (record :: records)

def readTransport : Scanner Error (List Record) := do
  let leading ← take Difz.SymlinkTransport.magic.length
  Scanner.guard .invalidTransport (leading = Difz.SymlinkTransport.magic)
  let count ← Scanner.count .invalidTransport 31
  readRecords count none

/-- The records of `Transport::decode`. -/
def decode (bytes : List UInt8) : Allocating Error (List Record) :=
  if bytes.length > Difz.SymlinkTransport.maxBytes then Action.lift (Checked.fail .transportTooLarge)
  else Scanner.run (do
    let records ← readTransport
    Scanner.atEnd .invalidTransport
    Action.lift (.ok records)) bytes

lemma validate_eq (record : Record) :
    validate record = Checked.ofExcept (Difz.SymlinkTransport.validate record) := by
  rw [validate, Difz.SymlinkTransport.validate, Directory.validatePath_eq,
    Checked.mapError_ofExcept]
  simp only [Checked.ofExcept_ite, Checked.ofExcept_bind]
  rfl

section Refinement

variable {c : Wire.Cursor}

/-- The slice of a stamp is what the readers took. -/
lemma decodeObserved_refines {d : Wire.Cursor} {w : List UInt8} (hs : Step d w c) :
    Refines Reserves c (decodeObserved d.offset)
      (Reader.lift ((Difz.Metadata.decodeTimeOverride w).mapError fun _ =>
        Error.invalidTransport)) := by
  refine Refines.since_bind hs (Refines.lift ?_)
  rw [Metadata.decodeTimeOverride_eq, Checked.mapError_ofExcept]

lemma readObserved_refines :
    Refines Reserves c readObserved Difz.SymlinkTransport.readObserved := by
  refine Refines.position_bind ((Refines.byte _).bind_of_ok fun tag c₁ hr _ => ?_)
  have htag : Step c [tag] c₁ := ((Exact.byte _ c tag c₁).mp hr).2
  refine Refines.ite (decodeObserved_refines htag) (Refines.ite ?_ (Refines.lift rfl))
  refine (Refines.take _ 12).bind_of_ok fun stamp c₂ hr' _ => ?_
  have hstamp : Step c₁ stamp c₂ := (Reader.take_eq_ok.mp hr').2
  exact decodeObserved_refines (Step.append_iff.mpr ⟨c₁, htag, hstamp⟩)

lemma readMetadata_refines (length : Nat) :
    Refines Reserves c (readMetadata length) (Difz.SymlinkTransport.readMetadata length) := by
  intro hfits
  refine (Refines.take_bind fun blob c' hle _ => Refines.call ?_) hfits
  exact ((Metadata.decode_computes (hle.trans_lt hfits)).mapError _).mono fun r h => .inr h

lemma readRecord_refines : Refines Reserves c readRecord Difz.SymlinkTransport.readRecord := by
  have hword : ∀ {c : Wire.Cursor}, Refines Reserves c word Difz.SymlinkTransport.word :=
    (Refines.word _ _).bind fun _ _ => Refines.pure _
  refine Refines.checked ?_ fun record _ _ _ => validate_eq record
  refine hword.bind fun nameLen _ => hword.bind fun metaLen _ => ?_
  refine (Refines.byte _).bind fun flags _ => (Refines.guard _ _).bind fun _ _ => ?_
  refine readObserved_refines.bind fun _ _ => (Refines.take _ _).bind fun _ _ => ?_
  exact (readMetadata_refines _).bind fun _ _ => Refines.pure _

lemma readRecords_refines (count : Nat) (previous : Option Record) :
    Refines Reserves c (readRecords count previous)
      (Difz.SymlinkTransport.readRecords count previous) := by
  induction count generalizing c previous with
  | zero => exact Refines.pure []
  | succ count ih =>
    exact readRecord_refines.bind fun record _ => (Refines.lift rfl).bind fun _ _ =>
      (ih (some record)).bind fun _ _ => Refines.pure _

lemma readTransport_refines :
    Refines Reserves c readTransport Difz.SymlinkTransport.readTransport := by
  refine (Refines.take _ _).bind fun _ _ => (Refines.guard _ _).bind fun _ _ => ?_
  refine (Refines.count _ (by norm_num) fun n remaining h => .inl ⟨rfl, h⟩).bind fun n _ => ?_
  exact readRecords_refines n none

end Refinement

lemma decode_computes {bytes : List UInt8} (hfits : bytes.length < 2 ^ 64) :
    Computes Reserves (decode bytes) ((Transport.decode bytes).map Transport.records) := by
  rw [decode]
  by_cases hlen : bytes.length > Difz.SymlinkTransport.maxBytes
  · rw [if_pos hlen, Transport.decode, dif_pos hlen]
    exact Computes.lift rfl
  have hdecode : (Transport.decode bytes).map Transport.records
      = Difz.SymlinkTransport.readTransport (Wire.Cursor.start bytes) >>= fun p =>
        ensure (p.2.offset = bytes.length) Error.invalidTransport >>= fun _ => .ok p.1 := by
    rw [Transport.decode, dif_neg hlen]
    split
    · next e h =>
      rw [h]
      rfl
    · next records cursor h =>
      by_cases hend : cursor.offset = bytes.length
      · rw [dif_pos hend]
        change Except.ok records = _
        rw [h, ok_bind, ensure, if_pos hend, ok_bind]
      · rw [dif_neg hend, h, ok_bind, ensure, if_neg hend]
        rfl
  rw [if_neg hlen, hdecode]
  exact Refines.run_atEnd hfits readTransport_refines fun _ _ _ => rfl

end SymlinkTransport

end Machine

end Difz
