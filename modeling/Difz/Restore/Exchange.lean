import Difz.Restore.Link
import Difz.Zig.Normalize

/-!
# Transport between the programs

The decoder and the lookup of `src/symlink_transport.zig`, and the reader of a directory's transport
in `src/directory_fs.zig`. What one program encodes the other one decodes, to the records that were
encoded with their metadata in canonical form, and the bytes do not tell which of the two wrote them:
`transport_exchange`.
-/

namespace Difz

open Wire
open Metadata (Time encodeTimeOverride decodeTimeOverride overrideWire forPrevious)

namespace Zig

namespace Symlinks

open SymlinkTransport (Record maxBytes magic maxRecords flagBits size)

/-! ### Decoding -/

def take (count : Nat) : Reader SymlinkTransport.Error (List UInt8) :=
  Reader.take .invalidTransport count

def readByte : Reader SymlinkTransport.Error UInt8 := Reader.word .invalidTransport UInt8

def readInt : Reader SymlinkTransport.Error Nat := do
  let value ← Reader.word .invalidTransport UInt32
  pure value.toNat

/-- The presence byte is read first to know where the stamp ends. -/
def readObserved : Reader SymlinkTransport.Error (Option Time) := do
  let presence ← readByte
  Reader.guard .invalidTransport (¬presence > 1)
  let stamp ← if presence = 1 then take 12 else pure []
  Reader.lift ((decodeTimeOverride (presence :: stamp)).mapError fun _ => .invalidTransport)

def readRecord : Reader SymlinkTransport.Error LinkRecord := do
  let nameLen ← readInt
  let metaLen ← readInt
  let flags ← readByte
  Reader.guard .invalidTransport (flags &&& 0xe0 = 0)
  let observed ← readObserved
  let name ← take nameLen
  let blob ← take metaLen
  let meta_ ← Reader.lift ((decodeCanonical blob).mapError fun _ => .invalidTransport)
  let record : LinkRecord :=
    ⟨name, meta_, flags &&& 7, observed, flags &&& 8 != 0, flags &&& 16 != 0⟩
  Reader.lift (validateRecord record)
  pure record

def readRecords : Nat → Option (List UInt8) → Reader SymlinkTransport.Error (List LinkRecord)
  | 0, _ => pure []
  | count + 1, previous => do
    let record ← readRecord
    Reader.lift (checkNames previous record.name)
    let records ← readRecords count (some record.name)
    pure (record :: records)

def readAll : Reader SymlinkTransport.Error (List LinkRecord) := do
  let leading ← take magic.length
  Reader.guard .invalidTransport (leading = magic)
  let count ← Reader.count .invalidTransport 31
  readRecords count none

def decode (bytes : List UInt8) : Except SymlinkTransport.Error (List LinkRecord) :=
  if bytes.length > maxBytes then .error .transportTooLarge
  else do
    let (records, reader) ← readAll (Cursor.start bytes)
    if reader.offset ≠ bytes.length then .error .invalidTransport
    else .ok records

/-- The loop of `find` over the window from `low` to `high`. -/
def find (records : List LinkRecord) (name : List UInt8) : Option LinkRecord :=
  (Search.find LinkRecord.name records name).bind (records[·]?)

/-- One turn of the loop over the records. `kindOf` is what `statFile` finds under a name. -/
def checkLink (kindOf : List UInt8 → Option Directory.Kind) (record : LinkRecord) :
    Except SymlinkTransport.Error LinkRecord :=
  if kindOf record.name ≠ some .symlink then .error .invalidTransport
  else do
    let meta_ ← (canonicalize record.meta_ (Omit.of Metadata.Omit.default)).mapError
      SymlinkTransport.Error.metadata
    .ok { record with meta_ }

/-- What a directory has for its links: nothing without the attribute, and nothing to be trusted
where a record names no link. -/
def readSymlinkTransport (kindOf : List UInt8 → Option Directory.Kind)
    (blob : Option (List UInt8)) : Except SymlinkTransport.Error (List LinkRecord) :=
  match blob with
  | none => .ok []
  | some bytes => do
    let records ← decode bytes
    records.mapM (checkLink kindOf)

/-! ### Both decoders are the same function -/

lemma mapError_id {ε α : Type} (x : Except ε α) : x.mapError id = x := by
  cases x with
  | error e => rfl
  | ok a => rfl

/-- The same record, in the terms of each program. -/
def Same (r : Record) (z : LinkRecord) : Prop := z = LinkRecord.of r

lemma eq_map_of_same {rs : List Record} {zs : List LinkRecord} (h : List.Forall₂ Same rs zs) :
    zs = rs.map LinkRecord.of := by
  induction h with
  | nil => rfl
  | cons hz _ ih => rw [List.map_cons, hz, ih]

lemma readInt_agree : Reader.Agree id Eq SymlinkTransport.word readInt :=
  (Reader.Agree.word rfl UInt32).bind fun _ _ hab => Reader.Agree.pure (congrArg UInt32.toNat hab)

lemma readObserved_agree : Reader.Agree id Eq SymlinkTransport.readObserved readObserved := by
  refine (Reader.Agree.word rfl UInt8).bind fun tag presence htag => ?_
  subst htag
  by_cases h₀ : tag = 0
  · subst h₀
    exact Reader.Agree.lift (Agree.of_eq rfl)
  rw [if_neg h₀]
  by_cases h₁ : tag = 1
  · subst h₁
    rw [if_pos rfl, Reader.guard, ensure_pos (by decide), Reader.lift_ok_bind, if_pos rfl]
    refine (Reader.Agree.take rfl 12).bind fun stamp stamp' hstamp => ?_
    subst hstamp
    exact Reader.Agree.lift (Agree.of_eq (mapError_id _).symm)
  · have hlarge : tag > 1 := by
      have hzero : tag.toNat ≠ 0 := fun h => h₀ (UInt8.toNat_inj.mp h)
      have hone : tag.toNat ≠ 1 := fun h => h₁ (UInt8.toNat_inj.mp h)
      refine UInt8.lt_iff_toNat_lt.mpr ?_
      change 1 < tag.toNat
      omega
    rw [if_neg h₁, Reader.guard, ensure_neg (not_not.mpr hlarge), Reader.lift_error_bind]
    exact Reader.Agree.lift (Agree.error rfl)

lemma readRecord_agree : Reader.Agree id Same SymlinkTransport.readRecord readRecord := by
  rw [SymlinkTransport.readRecord, Reader.checked, SymlinkTransport.readFields]
  simp only [bind_assoc, pure_bind, SymlinkTransport.readMetadata]
  refine readInt_agree.bind fun nameLen _ hname => ?_
  subst hname
  refine readInt_agree.bind fun metaLen _ hmeta => ?_
  subst hmeta
  refine (Reader.Agree.word rfl UInt8).bind fun flags _ hflags => ?_
  subst hflags
  refine Reader.Agree.guard_bind Iff.rfl rfl fun _ => ?_
  refine readObserved_agree.bind fun observed _ hobserved => ?_
  subst hobserved
  refine (Reader.Agree.take rfl nameLen).bind fun name _ hname => ?_
  subst hname
  refine (Reader.Agree.take rfl metaLen).bind fun blob _ hblob => ?_
  subst hblob
  have hmeta : Agree id (fun c m => m = CanonicalMetadata.metadata c)
      ((CanonicalMetadata.decode blob).mapError fun _ => SymlinkTransport.Error.invalidTransport)
      ((decodeCanonical blob).mapError fun _ => SymlinkTransport.Error.invalidTransport) := by
    rw [decodeCanonical_eq]
    cases CanonicalMetadata.decode blob with
    | error e => rfl
    | ok c => rfl
  refine (Reader.Agree.lift hmeta).bind fun c m hm => ?_
  subst hm
  refine (Reader.Agree.lift (R := Eq) (Agree.of_eq ?_)).bind fun _ _ _ => Reader.Agree.pure rfl
  rw [mapError_id]
  exact validateRecord_of ⟨name, c, flags &&& 7, observed, flags &&& 8 != 0, flags &&& 16 != 0⟩

lemma checkNames_eq (p : Option Record) (r : Record) :
    checkNames (p.map Record.name) r.name = SymlinkTransport.checkOrder p r := by
  cases p <;> rfl

lemma readRecords_agree (count : Nat) (p : Option Record) : Reader.Agree id (List.Forall₂ Same)
    (SymlinkTransport.readRecords count p) (readRecords count (p.map Record.name)) := by
  induction count generalizing p with
  | zero => exact Reader.Agree.pure List.Forall₂.nil
  | succ count ih =>
    refine readRecord_agree.bind fun r z hz => ?_
    obtain rfl := hz
    have horder : checkNames (p.map Record.name) (LinkRecord.of r).name
        = (SymlinkTransport.checkOrder p r).mapError id := by
      rw [mapError_id]
      exact checkNames_eq p r
    refine (Reader.Agree.lift (Agree.of_eq horder)).bind fun _ _ _ => ?_
    refine (ih (some r)).bind fun rs zs hzs => ?_
    exact Reader.Agree.pure (List.Forall₂.cons rfl hzs)

lemma readAll_agree :
    Reader.Agree id (List.Forall₂ Same) SymlinkTransport.readTransport readAll := by
  refine (Reader.Agree.take rfl magic.length).bind fun leading _ hleading => ?_
  subst hleading
  refine Reader.Agree.guard_bind Iff.rfl rfl fun _ => ?_
  refine (Reader.Agree.count rfl 31).bind fun count _ hcount => ?_
  subst hcount
  exact readRecords_agree count none

/-- Both decoders read the same byte strings, and as the same records. -/
theorem decode_eq (bytes : List UInt8) :
    decode bytes = (Transport.decode bytes).map fun t => t.records.map LinkRecord.of := by
  have hread := readAll_agree (Cursor.start bytes) (Cursor.start bytes) rfl
  unfold Transport.decode
  rw [decode]
  by_cases hlen : bytes.length > maxBytes
  · rw [if_pos hlen, dif_pos hlen]
    rfl
  · rw [if_neg hlen, dif_neg hlen]
    split
    · next e he =>
      rw [Agree.error_eq hread he, error_bind]
      rfl
    · next rs c hrs =>
      obtain ⟨⟨zs, d⟩, hzs, hsame, habreast⟩ := Agree.exists_ok hread hrs
      have hrecords : zs = rs.map LinkRecord.of := eq_map_of_same hsame
      have hend : d.offset = bytes.length ↔ c.offset = bytes.length := by
        have hc : c.bytes = bytes := habreast.left
        have hd : d.bytes = bytes := habreast.right
        rw [← hc, ← c.rest_eq_nil_iff, hc, ← hd, ← d.rest_eq_nil_iff, habreast.rest]
      rw [hzs, ok_bind]
      dsimp only
      by_cases hdone : c.offset = bytes.length
      · rw [if_neg (not_not.mpr (hend.mpr hdone)), dif_pos hdone, hrecords]
        rfl
      · rw [if_pos (mt hend.mp hdone), dif_neg hdone]
        rfl

/-! ### Encoding records as they come -/

/-- A record with canonical metadata in place of what it was given. -/
structure Carries (z : LinkRecord) (r : Record) : Prop where
  canonical : canonicalize z.meta_ (Omit.of Metadata.Omit.default) = .ok r.metadata.metadata
  others : LinkRecord.of r = { z with meta_ := r.metadata.metadata }

lemma length_le_flatten {α : Type} {f : α → List (List UInt8)} (hf : ∀ x, 1 ≤ (f x).flatten.length)
    (xs : List α) : xs.length ≤ (xs.flatMap f).flatten.length := by
  induction xs with
  | nil => exact Nat.zero_le _
  | cons x xs ih =>
    rw [List.flatMap_cons, List.flatten_append, List.length_append, List.length_cons]
    have := hf x
    omega

/-- A record that is short on the wire has short lists and values. -/
lemma sized_of_length_wire {m : Metadata} (h : m.wire.length < 2 ^ 32) : Sized m := by
  have hpiece : ∀ piece ∈ m.pieces, piece.length < 2 ^ 32 := fun piece hmem =>
    (List.sublist_flatten_of_mem hmem).length_le.trans_lt h
  have hxattrs := length_le_flatten (f := Metadata.Xattr.pieces)
    (fun x => by simp [Metadata.Xattr.pieces]) m.xattrs
  have haces := length_le_flatten (f := Metadata.Ace.pieces)
    (fun a => by simp [Metadata.Ace.pieces]) m.aces
  have hholes := length_le_flatten (f := Metadata.Hole.pieces)
    (fun x => by simp [Metadata.Hole.pieces]) m.holes
  simp only [Metadata.wire, Metadata.pieces, List.flatten_append, List.length_append] at h
  refine ⟨⟨by omega, fun x hx => hpiece _ ?_⟩, ⟨by omega, fun a ha => hpiece _ ?_⟩,
    fun acl hacl => hpiece _ ?_, by omega⟩
  · have hmem : x.value ∈ m.xattrs.flatMap Metadata.Xattr.pieces :=
      List.mem_flatMap.mpr ⟨x, hx, by simp [Metadata.Xattr.pieces]⟩
    simp only [Metadata.pieces, List.mem_append]
    tauto
  · have hmem : a.name ∈ m.aces.flatMap Metadata.Ace.pieces :=
      List.mem_flatMap.mpr ⟨a, ha, by simp [Metadata.Ace.pieces]⟩
    simp only [Metadata.pieces, List.mem_append]
    tauto
  · have hmem : acl.bytes ∈ Metadata.NativeAcl.pieces m.nativeAcl := by
      rw [Option.mem_def.mp hacl]
      simp [Metadata.NativeAcl.pieces]
    simp only [Metadata.pieces, List.mem_append]
    tauto

/-- What a record has to satisfy does not depend on the order of its lists. -/
lemma validate_of_carries {z : LinkRecord} {r : Record} (h : Carries z r)
    (hholes : z.meta_.holes = []) : SymlinkTransport.validate r = validateRecord z := by
  obtain ⟨hxattrs, haces, -, -, hmerged, -, heq⟩ := canonicalize_eq_ok.mp h.canonical
  have hnoHoles : canonicalHoles [] = .ok [] :=
    canonicalHoles_eq (show forPrevious Metadata.checkHole none [] = .ok () from rfl)
  rw [hholes] at hmerged
  have hrholes := Except.ok.inj (hmerged.symm.trans hnoHoles)
  have hempty : r.metadata.metadata.isEmpty = z.meta_.isEmpty := by
    rw [heq, Metadata.isEmpty, Metadata.isEmpty]
    dsimp only
    rw [(perm_of_canonicalXattrs hxattrs).isEmpty_eq, (perm_of_canonicalAces haces).isEmpty_eq,
      hrholes, hholes]
  rw [← validateRecord_of, h.others, validateRecord, validateRecord]
  dsimp only
  rw [hempty, hrholes, hholes]
  rw [heq]

lemma holes_of_validateRecord {z : LinkRecord} (h : validateRecord z = .ok ()) :
    z.meta_.holes = [] := by
  simp only [validateRecord, ite_error_eq_ok, seq_eq_ok, Bool.or_eq_true, not_or] at h
  simpa using h.2.2.2.1.1.2

/-- One record that is appended. -/
lemma appendRecord_carries {bytes out : List UInt8} {z : LinkRecord}
    (hvalid : validateRecord z = .ok ()) (h : appendRecord bytes z = .ok out)
    (hbytes : bytes.length ≤ maxBytes) :
    ∃ r, Carries z r ∧ out = bytes ++ r.wire ∧ out.length ≤ maxBytes ∧
      SymlinkTransport.validate r = .ok () ∧ ∀ t ∈ r.observedMtime, t.nsec < 1000000000 := by
  rw [appendRecord] at h
  simp only [Wire.bind_eq_ok, mapError_eq_ok] at h
  obtain ⟨canonical, hcanonical, observed, hobserved, h⟩ := h
  obtain ⟨hnsec, rfl⟩ := Metadata.encodeTimeOverride_eq_ok.mp hobserved
  rw [encodeCanonical_eq, ite_error_eq_ok, not_lt] at h
  obtain ⟨hroom, hout⟩ := h
  have hmax : maxBytes = 65536 := rfl
  have hsized : Sized z.meta_ := by
    have hcanon := sized_of_length_wire (m := canonical) (by omega)
    obtain ⟨hxattrs, haces, -, -, -, -, heq⟩ := canonicalize_eq_ok.mp hcanonical
    have hxperm := perm_of_canonicalXattrs hxattrs
    have haperm := perm_of_canonicalAces haces
    refine ⟨⟨hxperm.length_eq ▸ hcanon.xattrs.1, fun x hx => ?_⟩,
      ⟨haperm.length_eq ▸ hcanon.aces.1, fun a ha => ?_⟩, ?_, ?_⟩
    · exact hcanon.xattrs.2 x (hxperm.symm.subset hx)
    · exact hcanon.aces.2 a (haperm.symm.subset ha)
    · rw [heq] at hcanon
      exact hcanon.nativeAcl
    · rw [holes_of_validateRecord hvalid]
      norm_num
  have hcleared : Sized (z.meta_.clear Metadata.Omit.default) := by
    rwa [Metadata.clear_eq, Metadata.retain_default]
  obtain ⟨c, -, rfl⟩ := (canonicalize_eq_ok_iff hcleared).mp hcanonical
  let r : Record := ⟨z.name, c, z.absentTimes, z.observedMtime, z.aclOverride, z.finderOverride⟩
  have hcarries : Carries z r := ⟨hcanonical, rfl⟩
  have hwire : out = bytes ++ r.wire := by
    rw [← Except.ok.inj hout]
    simp only [r, SymlinkTransport.Record.wire, SymlinkTransport.Record.flags, List.append_assoc]
  refine ⟨r, hcarries, hwire, ?_, ?_, hnsec⟩
  · have hsize : r.wire.length = 9 + (overrideWire z.observedMtime).length + z.name.length
        + c.metadata.wire.length := r.length_wire
    rw [hwire, List.length_append]
    omega
  · rw [validate_of_carries hcarries (holes_of_validateRecord hvalid), hvalid]

/-- The loop, from any point on. -/
lemma appendRecords_carries {zs : List LinkRecord} {p : Option Record} {bytes out : List UInt8}
    (h : appendRecords (p.map Record.name) bytes zs = .ok out) (hbytes : bytes.length ≤ maxBytes) :
    ∃ rs, List.Forall₂ Carries zs rs ∧ out = bytes ++ rs.flatMap Record.wire ∧
      out.length ≤ maxBytes ∧ forPrevious SymlinkTransport.checkRecord p rs = .ok () := by
  induction zs generalizing p bytes with
  | nil =>
    obtain rfl := Except.ok.inj h
    exact ⟨[], .nil, by simp, hbytes, rfl⟩
  | cons z zs ih =>
    rw [appendRecords, seq_eq_ok, seq_eq_ok, Wire.bind_eq_ok] at h
    obtain ⟨hvalid, horder, next, happend, h⟩ := h
    obtain ⟨r, hr, hnext, hlength, hrvalid, hnsec⟩ := appendRecord_carries hvalid happend hbytes
    have hname : r.name = z.name := congrArg LinkRecord.name hr.others
    have hsome : (some z.name : Option (List UInt8)) = (some r).map Record.name := by
      rw [Option.map_some, hname]
    rw [hsome] at h
    obtain ⟨rs, hrs, hout, hbound, hcheck⟩ := ih h hlength
    refine ⟨r :: rs, .cons hr hrs, ?_, hbound, ?_⟩
    · rw [hout, hnext, List.flatMap_cons, List.append_assoc]
    · rw [← hname, checkNames_eq] at horder
      exact Metadata.forPrevious_cons_eq_ok.mpr
        ⟨SymlinkTransport.checkRecord_eq_ok.mpr ⟨hrvalid, horder, hnsec⟩, hcheck⟩

/-- What is encoded is a transport of the Rust crate, and encoded the same way there. -/
lemma encode_eq_ok {zs : List LinkRecord} {bytes : List UInt8} (h : encode zs = .ok bytes) :
    ∃ t, Transport.decode bytes = .ok t ∧ t.encode = .ok bytes ∧
      List.Forall₂ Carries zs t.records := by
  rw [encode, ite_error_eq_ok, not_lt] at h
  obtain ⟨hcount, h⟩ := h
  have hhead : (magic ++ toLeBytes (UInt32.ofNat zs.length)).length ≤ maxBytes := by
    rw [List.length_append, length_toLeBytes]
    decide
  obtain ⟨rs, hrs, hbytes, hbound, hcheck⟩ := appendRecords_carries (p := none) h hhead
  have hlength := hrs.length_eq
  have haccepted : SymlinkTransport.check rs = .ok () := by
    rw [SymlinkTransport.check, if_neg (by omega)]
    exact hcheck
  have hwire : bytes = SymlinkTransport.wire rs := by
    rw [hbytes, SymlinkTransport.wire, hlength, List.append_assoc]
  have hsize : size rs ≤ maxBytes := by
    rw [← SymlinkTransport.length_wire, ← hwire]
    exact hbound
  refine ⟨⟨rs, haccepted⟩, Transport.decode_eq_ok.mpr ⟨hwire, hsize⟩, ?_, hrs⟩
  rw [hwire]
  exact Transport.encode_of_size_le hsize

lemma appendRecord_of {r : Record} (hnsec : ∀ t ∈ r.observedMtime, t.nsec < 1000000000)
    (bytes : List UInt8) (hroom : bytes.length + r.size ≤ maxBytes) :
    appendRecord bytes (LinkRecord.of r) = .ok (bytes ++ r.wire) := by
  refine (appendRecord_cases hnsec bytes).resolve_right fun hlarge => ?_
  have hcanonical : canonicalize (LinkRecord.of r).meta_ (Omit.of Metadata.Omit.default)
      = .ok r.metadata.metadata := by
    rw [LinkRecord.of, canonicalize_eq, Metadata.retain_default]
  have hobserved : encodeTimeOverride (LinkRecord.of r).observedMtime
      = .ok (overrideWire r.observedMtime) :=
    Metadata.encodeTimeOverride_eq_ok.mpr ⟨hnsec, rfl⟩
  rw [SymlinkTransport.Record.size] at hroom
  have hfits : ¬9 + (overrideWire r.observedMtime).length + (LinkRecord.of r).name.length
      + r.metadata.metadata.wire.length > maxBytes - bytes.length := by
    change ¬9 + (overrideWire r.observedMtime).length + r.name.length
      + r.metadata.metadata.wire.length > maxBytes - bytes.length
    omega
  rw [appendRecord, hcanonical, mapError_ok, ok_bind, hobserved, mapError_ok, ok_bind,
    encodeCanonical_eq, if_neg hfits] at hlarge
  exact absurd hlarge (by simp)

/-- Records of a transport that fit are appended as they are. -/
lemma appendRecords_of {rs : List Record} {p : Option Record} {bytes : List UInt8}
    (hcheck : forPrevious SymlinkTransport.checkRecord p rs = .ok ())
    (hroom : bytes.length + (rs.map Record.size).sum ≤ maxBytes) :
    appendRecords (p.map Record.name) bytes (rs.map LinkRecord.of)
      = .ok (bytes ++ rs.flatMap Record.wire) := by
  induction rs generalizing p bytes with
  | nil => simp [appendRecords]
  | cons r rs ih =>
    obtain ⟨hfirst, hrest⟩ := Metadata.forPrevious_cons_eq_ok.mp hcheck
    obtain ⟨hvalid, horder, hnsec⟩ := SymlinkTransport.checkRecord_eq_ok.mp hfirst
    rw [List.map_cons, List.sum_cons] at hroom
    have hname : (LinkRecord.of r).name = r.name := rfl
    have happend := appendRecord_of hnsec bytes (by omega)
    have hnext : (bytes ++ r.wire).length + (rs.map Record.size).sum ≤ maxBytes := by
      rw [List.length_append, r.length_wire]
      omega
    rw [List.map_cons, appendRecords, validateRecord_of, hvalid, ok_bind, hname, checkNames_eq,
      horder, ok_bind, happend, ok_bind, List.flatMap_cons, ← List.append_assoc]
    exact ih (p := some r) hrest hnext

lemma size_le_of_encode {t : Transport} {bytes : List UInt8} (h : t.encode = .ok bytes) :
    size t.records ≤ maxBytes := by
  by_contra hlarge
  obtain ⟨_, _, _, -, -, -, herror⟩ := Transport.encode_of_lt_size (not_le.mp hlarge)
  exact absurd (h.symm.trans herror) (by simp)

/-- The native encoder takes what the Rust crate encoded, to the same bytes. -/
lemma encode_of {t : Transport} {bytes : List UInt8} (h : t.encode = .ok bytes) :
    encode (t.records.map LinkRecord.of) = .ok bytes := by
  have hsize := size_le_of_encode h
  obtain rfl := Except.ok.inj (h.symm.trans (Transport.encode_of_size_le hsize))
  have hcount : ¬(t.records.map LinkRecord.of).length > maxRecords := by
    have haccepted := t.accepted
    rw [SymlinkTransport.check, ite_error_eq_ok] at haccepted
    rw [List.length_map]
    exact haccepted.1
  have hmagic : (magic ++ toLeBytes (UInt32.ofNat t.records.length)).length = 13 := by
    rw [List.length_append, length_toLeBytes]
    rfl
  rw [encode, if_neg hcount, List.length_map]
  refine (appendRecords_of (p := none) t.forPrevious_of_accepted ?_).trans ?_
  · rw [hmagic]
    exact hsize
  · rw [SymlinkTransport.wire, List.append_assoc]

/-! ### Both directions -/

lemma find_of (t : Transport) (name : List UInt8) :
    find (t.records.map LinkRecord.of) name = (t.find name).map LinkRecord.of := by
  have hkeys : Search.find LinkRecord.name (t.records.map LinkRecord.of) name
      = Search.find Record.name t.records name := Search.find_map _ _ _ _
  rw [find, Transport.find, hkeys]
  cases Search.find Record.name t.records name with
  | none => rfl
  | some i => rw [Option.bind_some, Option.bind_some, List.getElem?_map]

lemma checkLink_of (kindOf : List UInt8 → Option Directory.Kind) (r : Record) :
    checkLink kindOf (LinkRecord.of r)
      = if kindOf r.name = some .symlink then .ok (LinkRecord.of r)
        else .error .invalidTransport := by
  have hcanonical : canonicalize (LinkRecord.of r).meta_ (Omit.of Metadata.Omit.default)
      = .ok (LinkRecord.of r).meta_ := by
    rw [LinkRecord.of, canonicalize_eq, Metadata.retain_default]
  rw [checkLink, hcanonical, ite_not]
  rfl

/-- Records that name links are returned as they were decoded, and one that does not spoils all. -/
lemma readSymlinkTransport_of {kindOf : List UInt8 → Option Directory.Kind} {bytes : List UInt8}
    {t : Transport} (h : Transport.decode bytes = .ok t) :
    readSymlinkTransport kindOf (some bytes)
      = if ∀ r ∈ t.records, kindOf r.name = some .symlink
        then .ok (t.records.map LinkRecord.of) else .error .invalidTransport := by
  rw [readSymlinkTransport, decode_eq, h]
  change (t.records.map LinkRecord.of).mapM (checkLink kindOf) = _
  generalize t.records = rs
  induction rs with
  | nil => rfl
  | cons r rs ih =>
    have hcons : (∀ x ∈ r :: rs, kindOf x.name = some .symlink) ↔
        kindOf r.name = some .symlink ∧ ∀ x ∈ rs, kindOf x.name = some .symlink :=
      List.forall_mem_cons
    rw [List.map_cons, List.mapM_cons, ih, checkLink_of]
    by_cases hr : kindOf r.name = some .symlink
    · rw [if_pos hr, ok_bind]
      by_cases hrs : ∀ r ∈ rs, kindOf r.name = some .symlink
      · rw [if_pos hrs, if_pos (hcons.mpr ⟨hr, hrs⟩)]
        rfl
      · rw [if_neg hrs, if_neg (mt (fun h => (hcons.mp h).2) hrs)]
        rfl
    · rw [if_neg hr, error_bind, if_neg (mt (fun h => (hcons.mp h).1) hr)]

/-- The programs read each other's transports. Their decoders are one function. What either encodes
is decoded by both, to the records that were encoded with their metadata canonical, and encoding
those again gives the same bytes in both. A lookup finds the same record. The reader takes a transport
exactly when it is decoded and each record names a link in the directory, and has these records. -/
theorem transport_exchange (kindOf : List UInt8 → Option Directory.Kind) :
    (∀ bytes, decode bytes = (Transport.decode bytes).map fun t => t.records.map LinkRecord.of) ∧
    (∀ zs bytes, encode zs = .ok bytes → ∃ t, Transport.decode bytes = .ok t ∧
      t.encode = .ok bytes ∧ List.Forall₂ Carries zs t.records) ∧
    (∀ (t : Transport) bytes, t.encode = .ok bytes →
      encode (t.records.map LinkRecord.of) = .ok bytes ∧
      decode bytes = .ok (t.records.map LinkRecord.of)) ∧
    (∀ (t : Transport) name,
      find (t.records.map LinkRecord.of) name = (t.find name).map LinkRecord.of) ∧
    ∀ bytes zs, readSymlinkTransport kindOf (some bytes) = .ok zs ↔
      ∃ t, Transport.decode bytes = .ok t ∧ zs = t.records.map LinkRecord.of ∧
        ∀ r ∈ t.records, kindOf r.name = some .symlink := by
  refine ⟨decode_eq, fun zs bytes => encode_eq_ok, fun t bytes h => ⟨encode_of h, ?_⟩, find_of,
    fun bytes zs => ?_⟩
  · have hdecode : Transport.decode bytes = .ok t := by
      have hsize := size_le_of_encode h
      obtain rfl := Except.ok.inj (h.symm.trans (Transport.encode_of_size_le hsize))
      exact Transport.decode_eq_ok.mpr ⟨rfl, hsize⟩
    rw [decode_eq, hdecode]
    rfl
  · cases hdecode : Transport.decode bytes with
    | error e =>
      rw [readSymlinkTransport, decode_eq, hdecode]
      exact iff_of_false (by simp [Except.map, error_bind]) (by simp)
    | ok t =>
      rw [readSymlinkTransport_of hdecode]
      split_ifs with hlinks
      · simpa [eq_comm] using fun _ => hlinks
      · exact iff_of_false (by simp) (by simp [hlinks])

end Symlinks

end Zig

end Difz
