import Difz.Machine.Acl
import Difz.Machine.Envelope
import Difz.Machine.Filter
import Difz.Machine.Transport
import Difz.Tree.Decode

/-!
# Tree patches on the machine

`ParsedPatch::decode` (`rust/src/tree_patch_decode.rs`), with the index, slice and integer
operations of the source left in. The arrays of rules and entries are reserved by the counts of
the header, which were compared with the length of the whole body. When the entries are reserved
the rules have been read, and nothing is compared again.
-/

namespace Difz

open Wire
open Metadata (Omit)

namespace Machine

open Program (Action)

namespace TreePatch

open Difz.TreePatch (DecodedEntry Error Header Limits Operation ParsedPatch)
variable (blake3 : List UInt8 → Digest)

/-! ### Readers -/

def take (length : Nat) : Scanner Error (List UInt8) := Scanner.take .unexpectedEndOfInput length

def byte : Scanner Error UInt8 := Scanner.byte .unexpectedEndOfInput

def u16 : Scanner Error UInt16 := Scanner.word .unexpectedEndOfInput UInt16

def length32 (limit : Nat) : Scanner Error Nat := do
  let n ← Scanner.word .unexpectedEndOfInput UInt32
  Action.lift (Checked.ofExcept (Difz.TreePatch.length n.toNat limit))

def length64 (limit : Nat) : Scanner Error Nat := do
  let n ← Scanner.word .unexpectedEndOfInput UInt64
  Action.lift (Checked.ofExcept (Difz.TreePatch.length n.toNat limit))

def readAction : Scanner Error Difz.PathFilter.Action := do
  let tag ← byte
  Action.lift (Checked.ofExcept (match tag with
    | 1 => .ok .include_
    | 2 => .ok .exclude
    | _ => .error .invalidRule))

def readRule (limits : Limits) : Scanner Error Difz.PathFilter.Rule := do
  let action ← readAction
  let flags ← byte
  Scanner.guard .invalidRule (flags = 0)
  let reserved ← u16
  Scanner.guard .invalidRule (reserved = 0)
  let length ← length32 limits.maxPatternBytes.toNat
  Scanner.guard .invalidRule (length ≠ 0)
  let bytes ← take length
  let pattern ← Action.lift (Checked.ofExcept (match fromUtf8 bytes with
    | some pattern => .ok pattern
    | none => .error (.snapshot .invalidUtf8)))
  pure ⟨action, pattern⟩

def readRecord (limits : Limits) : Scanner Error CanonicalMetadata := do
  let length ← length32 limits.maxPayloadBytes.toNat
  let bytes ← take length
  Scanner.call (Allocating.mapError .metadata (Metadata.decode bytes))

def readFields (limits : Limits) : Scanner Error DecodedEntry := do
  let operation ← (do Action.lift (Checked.ofExcept (Operation.tryFrom (← byte))))
  let flags ← byte
  Scanner.guard .unsupportedFlags (flags = 0)
  let mode ← u16
  let pathLength ← length32 limits.maxPathBytes.toNat
  Scanner.guard .invalidPath (pathLength ≠ 0)
  let payloadLength ← length64 limits.maxPayloadBytes.toNat
  let path ← take pathLength
  let payload ← take payloadLength
  let metadata ← readRecord limits
  pure ⟨path, mode, operation, payload, metadata⟩

def readEntry (limits : Limits) (mask : Omit) : Scanner Error DecodedEntry :=
  Scanner.checked (readFields limits) fun e => Checked.ofExcept (e.check limits mask)

def readRoot (limits : Limits) (header : Header) : Scanner Error CanonicalMetadata :=
  if header.rootMetadata then
    Scanner.checked (readRecord limits) fun root =>
      Checked.ofExcept (Difz.TreePatch.checkRoot header.mask root)
  else pure CanonicalMetadata.default

def checkRules (rules : List Difz.PathFilter.Rule) : Checked Error Unit :=
  if rules = [] then .ok ()
  else do
    let _ ← Checked.mapError .filter (PathFilter.Filter.compile rules)
    .ok ()

def readBody (limits : Limits) (header : Header) : Scanner Error ParsedPatch := do
  Scanner.reserve header.ruleCount.toNat 9
  let rules ← Scanner.checked (Scanner.replicate header.ruleCount.toNat (readRule limits))
    checkRules
  Scanner.reserve header.entryCount.toNat 41
  let entries ← Scanner.replicate header.entryCount.toNat (readEntry limits header.mask)
  let root ← readRoot limits header
  pure ⟨header, rules, entries, root⟩

def finish (patch : ParsedPatch) : Checked Error ParsedPatch := do
  Checked.mapError .snapshot (Directory.validate patch.entries)
  .ok patch

/-- `ParsedPatch::decode`. -/
def decode (bytes : List UInt8) (limits : Limits) : Allocating Error ParsedPatch := do
  let (header, body) ← Action.lift (decodePrefix blake3 bytes limits.envelope)
  Scanner.run (do
    let patch ← readBody limits header
    Scanner.atEnd .trailingData
    Action.lift (finish patch)) body

/-- The storage that decoding a patch may ask for. The entries are bounded by what a body holds
behind its shortest rules, whatever the rules turned out to be. -/
def Reserves (header : Header) (body : List UInt8) (r : Reservation) : Prop :=
  r.minimum ∈ [9, 6, 16] ∧ r.Bounded ∨
    r.minimum = 41 ∧ r.count = header.entryCount.toNat ∧
      r.count ≤ (body.length - header.ruleCount.toNat * 9) / 41

/-! ### The same in a total function -/

section Refinement

variable {P : Reservation → Prop} {c : Wire.Cursor}

lemma length32_refines (limit : Nat) :
    Refines P c (length32 limit) (Difz.TreePatch.length32 limit) :=
  (Refines.word _ _).bind fun _ _ => Refines.lift rfl

lemma length64_refines (limit : Nat) :
    Refines P c (length64 limit) (Difz.TreePatch.length64 limit) :=
  (Refines.word _ _).bind fun _ _ => Refines.lift rfl

lemma readAction_refines : Refines P c readAction Difz.TreePatch.readAction :=
  (Refines.byte _).bind fun _ _ => Refines.lift rfl

/-- A field that must be zero. -/
lemma zero_refines {short e : Error} {α β : Type} [Word α] [DecidableEq α] {value : α}
    {x : Scanner Error α} {f : Unit → Scanner Error β} {g : Unit → Reader Error β}
    (hx : ∀ c, Refines P c x (Reader.word short α)) (hf : ∀ c, Refines P c (f ()) (g ())) :
    Refines P c (x >>= fun found => Scanner.guard e (found = value) >>= f)
      (Reader.expect short e value >>= g) := by
  have hassoc : (Reader.expect short e value >>= g)
      = (Reader.word short α >>= fun found => Reader.guard e (found = value) >>= g) := by
    funext c
    change ((Reader.word short α c >>= fun p => Reader.guard e (p.1 = value) p.2) >>= fun p =>
      g p.1 p.2) = (Reader.word short α c >>= fun p =>
        Reader.guard e (p.1 = value) p.2 >>= fun q => g q.1 q.2)
    cases Reader.word short α c <;> rfl
  rw [hassoc]
  exact (hx c).bind fun found _ => (Refines.guard _ _).bind fun _ c' => hf c'

lemma readRule_refines (limits : Limits) :
    Refines P c (readRule limits) (Difz.TreePatch.readRule limits) := by
  refine readAction_refines.bind fun action _ => ?_
  refine zero_refines (fun _ => Refines.byte _) fun _ => ?_
  refine zero_refines (fun _ => Refines.word _ _) fun _ => ?_
  refine (length32_refines _).bind fun length _ => (Refines.guard _ _).bind fun _ _ => ?_
  exact (Refines.take _ _).bind fun bytes _ => (Refines.lift rfl).bind fun _ _ => Refines.pure _

lemma readRecord_refines (limits : Limits) :
    Refines Metadata.Reserves c (readRecord limits) (Difz.TreePatch.readRecord limits) := by
  intro hfits
  refine ((length32_refines _).bind_of_ok fun length c' _ hb => ?_) hfits
  refine Refines.take_bind fun bytes _ hle _ => Refines.call ?_
  exact (Metadata.decode_computes (hle.trans_lt (by rwa [hb]))).mapError _

lemma readFields_refines (limits : Limits) :
    Refines Metadata.Reserves c (readFields limits) (Difz.TreePatch.readFields limits) := by
  have hoperation : Refines Metadata.Reserves c
      (do Action.lift (Checked.ofExcept (Operation.tryFrom (← byte))))
      (do Reader.lift (Operation.tryFrom (← Difz.TreePatch.byte))) :=
    (Refines.byte _).bind fun _ _ => Refines.lift rfl
  refine hoperation.bind fun operation _ => ?_
  refine zero_refines (fun _ => Refines.byte _) fun _ => ?_
  refine (Refines.word _ _).bind fun mode _ => (length32_refines _).bind fun pathLength _ => ?_
  refine (Refines.guard _ _).bind fun _ _ => (length64_refines _).bind fun payloadLength _ => ?_
  refine (Refines.take _ _).bind fun path _ => (Refines.take _ _).bind fun payload _ => ?_
  exact (readRecord_refines limits).bind fun _ _ => Refines.pure _

lemma readEntry_refines (limits : Limits) (mask : Omit) :
    Refines Metadata.Reserves c (readEntry limits mask) (Difz.TreePatch.readEntry limits mask) :=
  Refines.checked (readFields_refines limits) fun _ _ _ _ => rfl

lemma readRoot_refines (limits : Limits) (header : Header) :
    Refines Metadata.Reserves c (readRoot limits header) (Difz.TreePatch.readRoot limits header) :=
  Refines.ite (Refines.checked (readRecord_refines limits) fun _ _ _ _ => rfl) (Refines.pure _)

/-- The length of a pattern is a 32-bit integer. -/
lemma checkRules_eq (limits : Limits) {rules : List Difz.PathFilter.Rule}
    (h : ∀ rule ∈ rules, Difz.TreePatch.RuleFits limits rule) :
    checkRules rules = Checked.ofExcept (Difz.TreePatch.checkRules rules) := by
  have hfits : ∀ rule ∈ rules, rule.pattern.toList.length < 2 ^ 64 := by
    intro rule hmem
    have hlen := (length_toList_le rule.pattern).trans (h rule hmem).2
    have hlimit := limits.maxPatternBytes.toNat_lt
    omega
  rw [checkRules, Difz.TreePatch.checkRules, Checked.ofExcept_ite, PathFilter.Filter.compile_eq hfits,
    Checked.mapError_ofExcept, Checked.ofExcept_bind]
  rfl

lemma readBody_refines {limits : Limits} {header : Header} {body : List UInt8}
    (hrules : header.ruleCount.toNat ≤ body.length / 9)
    (hentries : header.entryCount.toNat ≤ (body.length - header.ruleCount.toNat * 9) / 41) :
    Refines (Reserves header body) (Wire.Cursor.start body) (readBody limits header)
      (Difz.TreePatch.readBody limits header) := by
  have hmetadata : ∀ r, Metadata.Reserves r → Reserves header body r := fun r h => .inl h
  refine Refines.reserve_bind (.inl ⟨by simp, hrules⟩) ?_
  refine (Refines.checked (Refines.replicate (fun _ => readRule_refines limits) _)
    fun rules c' _ hr => checkRules_eq limits ?_).bind fun rules c' => ?_
  · exact (((Difz.TreePatch.exact_rule limits).replicate _ _ rules c').mp hr).1.2
  refine Refines.reserve_bind (.inr ⟨rfl, rfl, hentries⟩) ?_
  refine (Refines.replicate (fun _ => (readEntry_refines limits _).mono hmetadata) _).bind
    fun entries _ => ?_
  exact ((readRoot_refines limits header).mono hmetadata).bind fun _ _ => Refines.pure _

end Refinement

/-- The payload of an entry is no longer than a 64-bit limit allows. -/
lemma finish_eq {limits : Limits} {header : Header} {patch : ParsedPatch}
    (h : Difz.TreePatch.BodyOk limits header patch) :
    finish patch = Checked.ofExcept (do
      (Difz.Directory.validate patch.entries).mapError .snapshot
      .ok patch) := by
  have hdata : ∀ e ∈ patch.entries, (Difz.Directory.View.record e).data.length < 2 ^ 64 :=
    fun e he => (h.2.2.1.2 e he).1.1.payloadLength.trans_lt limits.maxPayloadBytes.toNat_lt
  rw [finish, Directory.validate_eq hdata, Checked.mapError_ofExcept, Checked.ofExcept_bind]
  rfl

/-- What a patch with these bytes may reserve, by its header. -/
def Reserved (bytes : List UInt8) (limits : Limits) (r : Reservation) : Prop :=
  ∃ header body, Header.decodePrefix blake3 bytes limits.envelope = .ok (header, body) ∧
    Reserves header body r

lemma decode_computes {bytes : List UInt8} (limits : Limits) (hfits : bytes.length < 2 ^ 64) :
    Computes (Reserved blake3 bytes limits) (decode blake3 bytes limits)
      (ParsedPatch.decode blake3 bytes limits) := by
  refine (Computes.lift (decodePrefix_eq blake3 limits.envelope)).bind fun p hp => ?_
  obtain ⟨header, body⟩ := p
  obtain ⟨rfl, hadmissible⟩ := Header.decodePrefix_eq_ok.mp hp
  have hbody : body.length < 2 ^ 64 := by
    rw [List.length_append] at hfits
    omega
  refine Computes.mono ?_ fun r hr => ⟨header, body, hp, hr⟩
  exact Refines.run_atEnd hbody
    (readBody_refines hadmissible.ruleBytes hadmissible.entryBytes) fun patch c' hr =>
      finish_eq ((Difz.TreePatch.exact_body limits header _ patch c').mp hr).1

/-! ### The rules take more than the header assumes -/

lemma length_emptyHash : (Difz.File.ofHex
    "2caee57d82acfda40a7e75c47d6c419bc7357936baf44749e4351e76d196792a".toList).length = 32 := by
  decide

/-- The BLAKE3 digest of the empty tree. -/
def emptyHash : Digest :=
  ⟨Difz.File.ofHex "2caee57d82acfda40a7e75c47d6c419bc7357936baf44749e4351e76d196792a".toList,
    length_emptyHash⟩

/-- The header up to the checksum of a patch with one rule and one entry. -/
def longRuleLead : List UInt8 :=
  utf8 "DIFZTREE" ++ [2, 0, 2, 0, 0, 0, 0, 0, 1, 0, 0, 0, 1, 0, 0, 0]
    ++ (emptyHash.toList ++ emptyHash.toList)

/-- A rule whose pattern has 42 letters, and no entry behind it. -/
def longRuleBody : List UInt8 :=
  [1, 0, 0, 0] ++ toLeBytes (42 : UInt32) ++ List.replicate 42 0x61

def longRuleChecksum : Digest :=
  ⟨Difz.File.ofHex "3f71a4daae4ab1943a35d67040e71e5ef1e1c3c2098166caab0cd6ef3aaeabe0".toList,
    by decide⟩

def longRulePatch : List UInt8 := longRuleLead ++ longRuleChecksum.toList ++ longRuleBody

def longRuleHash : List UInt8 → Digest :=
  Difz.File.tabulated
    [(utf8 "DIFZTREE-PATCH\x02" ++ longRuleLead ++ longRuleBody, longRuleChecksum)]

/-- One entry is reserved when no byte remains. -/
theorem longRulePatch_reserved : (⟨1, 0, 41⟩ : Reservation) ∈
    (decode longRuleHash longRulePatch Limits.default []).2 ∧ ¬(⟨1, 0, 41⟩ : Reservation).Bounded := by
  decide +kernel

end TreePatch

/-! ### All the decoders -/

open Difz.TreePatch (EnvelopeLimits Limits)

/-- No decoder of the format panics, whatever the input and the limits are. A count from the input
for which storage is reserved is bounded by the bytes that remain, divided by the least size of an
item. The entries of a patch are bounded by the length of the body less that of its shortest
rules. -/
theorem decoders_safe (blake3 : List UInt8 → Digest) :
    (∀ (bytes : List UInt8) (limits : EnvelopeLimits),
      TreePatch.decodePrefix blake3 bytes limits ≠ .error .panic) ∧
    (∀ (bytes : Slice) (limits : Limits), Allocating.Safe
      (TreePatch.Reserved blake3 bytes.bytes limits)
      (TreePatch.decode blake3 bytes.bytes limits)) ∧
    (∀ bytes : Slice, Allocating.Safe Metadata.Reserves (Metadata.decode bytes.bytes)) ∧
    (∀ bytes : Slice, Allocating.Safe SymlinkTransport.Reserves
      (SymlinkTransport.decode bytes.bytes)) ∧
    (∀ bytes : List UInt8, LinuxAcl.decode bytes ≠ .error .panic) ∧
    (∀ bytes : List UInt8, LinuxAcl.new bytes ≠ .error .panic) ∧
    (∀ acl : Difz.LinuxAcl.PosixAcl, Allocating.Safe LinuxAcl.Reserves (LinuxAcl.portable acl)) ∧
    (∀ bytes : List UInt8, File.decodePrefix bytes ≠ .error .panic) ∧
    (∀ s : Difz.Directory.Snapshot, Directory.new s ≠ .error .panic) := by
  refine ⟨fun bytes limits => ?_, fun bytes limits => ?_, fun bytes => ?_, fun bytes => ?_,
    fun bytes => ?_, fun bytes => ?_, fun acl => ?_, fun bytes => ?_, fun s => ?_⟩
  · rw [TreePatch.decodePrefix_eq]
    exact Checked.ofExcept_ne_panic _
  · exact (TreePatch.decode_computes blake3 limits bytes.fits).safe
  · exact (Metadata.decode_computes bytes.fits).safe
  · exact (SymlinkTransport.decode_computes bytes.fits).safe
  · rw [LinuxAcl.decode_eq]
    exact Checked.ofExcept_ne_panic _
  · rw [LinuxAcl.new_eq]
    exact Checked.ofExcept_ne_panic _
  · exact (LinuxAcl.portable_computes acl).safe
  · rw [File.decodePrefix_eq]
    exact Checked.ofExcept_ne_panic _
  · rw [Directory.new_eq]
    exact Checked.ofExcept_ne_panic _

end Machine

end Difz
