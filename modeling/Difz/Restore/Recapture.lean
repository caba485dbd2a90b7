import Difz.Restore.Sidecar

/-!
# Reading metadata back

The readers of `src/directory_fs.zig` prefer a sidecar to the native value, and believe the one for
the modification time only while the native stamp is the one it was written with. After a restore
they return what was asked for, whatever the native setters did, `recapture_restored`.
-/

namespace Difz

open Wire
open Metadata (Ace Hole NativeAcl Os Time Times Xattr XattrClass)

namespace Zig

open Program

/-! ### Readers -/

variable (blake3 : List UInt8 → Digest)

/-- The record in a sidecar, which has to be the single field it is read for. -/
def readField (o : Object) (name : String) (field : Metadata → Metadata) :
    Except RestoreError (Option Metadata) :=
  match o.sidecars (utf8 name) with
  | none => .ok none
  | some bytes => do
    let decoded ← (decodeCanonical bytes).mapError RestoreError.metadata
    ensure (canonicalHash blake3 decoded = canonicalHash blake3 (field decoded)) .invalidTransport
    .ok (some decoded)

def readSparse (o : Object) : Except RestoreError (List Hole) := do
  match ← readField blake3 o "difz.sparse-holes" fun m => holesOnly m.holes with
  | some decoded => .ok decoded.holes
  | none => o.captured.holes.mapError .native

def readFinder (o : Object) : Except RestoreError (UInt32 × Option (List.Vector UInt8 32)) := do
  let native ← o.captured.finder.mapError RestoreError.native
  let flags ← readField blake3 o "difz.bsd-flags" fun m => finderOnly m.finderFlags none
  let info ← readField blake3 o "difz.finder-info" fun m => finderOnly 0 m.finderInfo
  .ok (flags.elim native.finderFlags Metadata.finderFlags,
    info.elim native.finderInfo Metadata.finderInfo)

def readAcl (o : Object) : Except RestoreError (List Ace × Option NativeAcl) := do
  let native ← o.captured.acl.mapError RestoreError.native
  let nativeAcl ← readField blake3 o "difz.native-acl" fun m => aclOnly [] m.nativeAcl
  let aces ← readField blake3 o "difz.portable-acl" fun m => aclOnly m.aces none
  .ok (aces.elim native.aces Metadata.aces, nativeAcl.elim native.nativeAcl Metadata.nativeAcl)

def readTimeOverride (o : Object) (name : String) :
    Except RestoreError (Option (Option Time)) :=
  match o.sidecars (utf8 name) with
  | none => .ok none
  | some bytes => ((Metadata.decodeTimeOverride bytes).mapError .metadata).map some

def readModificationOverride (o : Object) :
    Except RestoreError (Option Metadata.ModificationOverride) :=
  match o.sidecars (utf8 "difz.mtime") with
  | none => .ok none
  | some bytes => ((Metadata.decodeModificationOverride bytes).mapError .metadata).map some

/-- The modification time a record in the sidecar stands for. -/
def overridden (native : Time) (value : Metadata.ModificationOverride) : Option Time :=
  if native = value.observed then value.original else some native

def timesFor (o : Object) (omitted : Bool) (timestamp : Timestamp) (birth : Option Time) :
    Except RestoreError Times :=
  if omitted then .ok Times.default
  else do
    let btime ← readTimeOverride o "difz.btime"
    let modification ← readModificationOverride o
    let native := timeFromTimestamp timestamp
    .ok ⟨modification.elim (some native) (overridden native), none, btime.getD birth⟩

def xattrsFor (o : Object) (omitted : Bool) : Except RestoreError (List Xattr) :=
  if omitted then .ok [] else o.captured.xattrs.mapError .native

def aclFor (o : Object) (omitted : Bool) : Except RestoreError (List Ace × Option NativeAcl) :=
  if omitted then .ok ([], none) else readAcl blake3 o

def finderFor (o : Object) (omitted : Bool) :
    Except RestoreError (UInt32 × Option (List.Vector UInt8 32)) :=
  if omitted then .ok (0, none) else readFinder blake3 o

def metadataFor (o : Object) (omit_ : Omit) (timestamp : Timestamp) (birth : Option Time) :
    Except RestoreError Metadata := do
  let times ← timesFor o omit_.timestamps timestamp birth
  let xattrs ← xattrsFor o omit_.xattr
  let acl ← aclFor blake3 o omit_.acl
  let finder ← finderFor blake3 o omit_.finder
  (canonicalize ⟨xattrs, acl.1, acl.2, times, finder.1, finder.2, [], none⟩
    (Omit.of Metadata.Omit.default)).mapError .metadata

def birthFor (o : Object) (omitted : Bool) : Except RestoreError (Option Time) :=
  if omitted then .ok none else o.captured.birth.mapError .native

def holesFor (o : Object) (omitted : Bool) (m : Metadata) : Except RestoreError Metadata :=
  if omitted then .ok m
  else (readSparse blake3 o).map fun holes => { m with holes }

/-- What `walk` records about an object that is not a symbolic link, but for a hard link. -/
def recapture (o : Object) (omit_ : Omit) (kind : Directory.Kind) :
    Except RestoreError Metadata := do
  let timestamp ← o.captured.mtime.mapError RestoreError.native
  let birth ← birthFor o omit_.timestamps
  let m ← metadataFor blake3 o omit_ timestamp birth
  holesFor blake3 o (omit_.sparse || kind != .file) m

/-! ### Records of a single field -/

variable {blake3}

lemma decodeCanonical_encodeCanonical {m : Metadata} (h : m.Valid) :
    decodeCanonical (encodeCanonical m) = .ok m := by
  have hdecode : CanonicalMetadata.decode m.wire = .ok ⟨m, Metadata.validate_eq_ok.mpr h⟩ :=
    CanonicalMetadata.decode_eq_ok.mpr rfl
  rw [decodeCanonical_eq, encodeCanonical_eq, hdecode]
  rfl

lemma holesOnly_valid (c : CanonicalMetadata) : (holesOnly c.metadata.holes).Valid :=
  { CanonicalMetadata.default.isValid with
    holeCount := c.isValid.holeCount, holes := c.isValid.holes }

lemma aclOnly_native_valid (c : CanonicalMetadata) : (aclOnly [] c.metadata.nativeAcl).Valid :=
  { CanonicalMetadata.default.isValid with nativeAcl := c.isValid.nativeAcl }

lemma aclOnly_aces_valid (c : CanonicalMetadata) : (aclOnly c.metadata.aces none).Valid :=
  { CanonicalMetadata.default.isValid with aceCount := c.isValid.aceCount, aces := c.isValid.aces }

lemma finderOnly_valid (flags : UInt32) (info : Option (List.Vector UInt8 32)) :
    (finderOnly flags info).Valid :=
  { CanonicalMetadata.default.isValid with }

/-- Lists of extents are told apart by their bytes even where their number does not fit 32 bits. -/
lemma holesOnly_injective {holes holes' : List Hole}
    (h : (holesOnly holes).wire = (holesOnly holes').wire) : holes = holes' := by
  have hwire : ∀ hs : List Hole, (holesOnly hs).wire
      = List.replicate 15 0 ++ (toLeBytes (UInt32.ofNat hs.length)
        ++ ((hs.flatMap fun x => x.pieces.flatten) ++ [0])) := by
    intro hs
    have hflat : (hs.flatMap Hole.pieces).flatten = hs.flatMap fun x => x.pieces.flatten := by
      simp [List.flatMap, List.flatten_flatten, Function.comp_def]
    rw [← hflat]
    simp only [Metadata.wire, Metadata.pieces, holesOnly, List.flatten_append, List.append_assoc]
    rfl
  have hlength : ∀ hs : List Hole, (hs.flatMap fun x => x.pieces.flatten).length
      = 16 * hs.length := by
    intro hs
    induction hs with
    | nil => rfl
    | cons x xs ih =>
      rw [List.flatMap_cons, List.length_append, ih, List.length_cons]
      simp [Hole.pieces]
      omega
  rw [hwire holes, hwire holes', List.append_cancel_left_eq] at h
  obtain ⟨-, hflat⟩ := List.append_inj h (by simp)
  have hcount : holes.length = holes'.length := by
    have hlen := congrArg List.length hflat
    rw [List.length_append, List.length_append, hlength, hlength] at hlen
    omega
  refine (flatMap_cancel hcount (fun x _ y _ s t hst => ?_) hflat).1
  simp only [Hole.pieces, List.flatten_cons, List.flatten_nil, List.append_nil,
    List.append_assoc] at hst
  obtain ⟨hoffset, hst⟩ := toLeBytes_cancel hst
  obtain ⟨hlen, hst⟩ := toLeBytes_cancel hst
  cases x
  cases y
  simp_all

/-! ### Reading a family -/

/-- The digests of two records differ unless their bytes are the same. -/
def TellsApart (blake3 : List UInt8 → Digest) (a b : Metadata) : Prop :=
  blake3 (utf8 "DIFZMETA\x01" ++ a.wire) = blake3 (utf8 "DIFZMETA\x01" ++ b.wire) → a.wire = b.wire

lemma TellsApart.wire_eq {a b : Metadata} (h : TellsApart blake3 a b)
    (heq : canonicalHash blake3 a = canonicalHash blake3 b) : a.wire = b.wire := by
  rw [canonicalHash_eq_input, canonicalHash_eq_input] at heq
  exact h heq

/-- The records that a restore compares by digest. -/
structure Distinguishes (blake3 : List UInt8 → Digest) (m : Metadata) (decided : Captured) :
    Prop where
  holes : ∀ actual, decided.holes = .ok actual →
    TellsApart blake3 (holesOnly actual) (holesOnly m.holes)
  nativeAcl : ∀ acl, decided.acl = .ok acl →
    TellsApart blake3 (aclOnly [] acl.nativeAcl) (aclOnly [] m.nativeAcl)
  aces : ∀ acl aces, decided.acl = .ok acl → canonicalAces acl.aces = .ok aces →
    TellsApart blake3 (aclOnly aces none) (aclOnly m.aces none)

variable {o u : Object} {omit_ : Omit} {kind : Directory.Kind} {c : CanonicalMetadata}
  {decided : Captured}

/-- What is read of a field has the property that the sidecar has and that the native value has
where there is no sidecar. -/
lemma readField_of_stands {β : Type} {name : String} {m : Metadata} {native : β}
    (field : Metadata → Metadata) (value : Metadata → β) (Q : β → Prop) (hvalid : m.Valid)
    (hfield : field m = m) (h : Stands o.sidecars name (encodeCanonical m) (Q native))
    (hQ : Q (value m)) :
    ∃ found, readField blake3 o name field = .ok found ∧ Q (found.elim native value) := by
  rw [readField]
  rcases h with hsome | ⟨hnone, hnative⟩
  · refine ⟨some m, ?_, hQ⟩
    rw [hsome]
    dsimp only
    rw [decodeCanonical_encodeCanonical hvalid, mapError_ok, ok_bind, hfield, ensure_pos rfl,
      ok_bind]
  · rw [hnone]
    exact ⟨none, rfl, hnative⟩

lemma readSparse_of_kept (hkept : Kept blake3 omit_ kind c.metadata decided o.sidecars)
    (hholes : o.captured.holes = decided.holes)
    (hapart : Distinguishes blake3 c.metadata decided)
    (homit : (omit_.sparse || kind != .file) = false) :
    readSparse blake3 o = .ok c.metadata.holes := by
  obtain ⟨actual, hactual, hstands⟩ := hkept.sparse homit
  have hstands : Stands o.sidecars "difz.sparse-holes"
      (encodeCanonical (holesOnly c.metadata.holes)) (actual = c.metadata.holes) :=
    hstands.imp_right (And.imp_right fun heq =>
      holesOnly_injective ((hapart.holes actual hactual).wire_eq heq))
  obtain ⟨found, hfound, hvalue⟩ := readField_of_stands (fun m => holesOnly m.holes) Metadata.holes
    (· = c.metadata.holes) (holesOnly_valid c) rfl hstands rfl
  rw [readSparse, hfound, ok_bind]
  cases found with
  | some decoded => exact congrArg Except.ok hvalue
  | none =>
    dsimp only
    rw [hholes, hactual, mapError_ok]
    exact congrArg Except.ok hvalue

lemma readFinder_of_kept (hkept : Kept blake3 omit_ kind c.metadata decided o.sidecars)
    (hfinder : o.captured.finder = decided.finder) (homit : omit_.finder = false) :
    readFinder blake3 o = .ok (c.metadata.finderFlags, c.metadata.finderInfo) := by
  obtain ⟨actual, hactual, hflags, hinfo⟩ := hkept.finder homit
  obtain ⟨flags, hreadFlags, hflags⟩ := readField_of_stands
    (fun m => finderOnly m.finderFlags none) Metadata.finderFlags
    (· = c.metadata.finderFlags) (finderOnly_valid _ _) rfl hflags rfl
  obtain ⟨info, hreadInfo, hinfo⟩ := readField_of_stands
    (fun m => finderOnly 0 m.finderInfo) Metadata.finderInfo
    (· = c.metadata.finderInfo) (finderOnly_valid _ _) rfl hinfo rfl
  rw [readFinder, hfinder, hactual, mapError_ok, ok_bind, hreadFlags, ok_bind, hreadInfo, ok_bind,
    hflags, hinfo]

/-- Canonicalizing only reorders the entries of an access list. -/
lemma perm_of_canonicalAces {aces sorted : List Ace} (h : canonicalAces aces = .ok sorted) :
    sorted.Perm aces := by
  obtain ⟨_, -, h⟩ := Wire.bind_eq_ok.mp h
  obtain ⟨_, -, h⟩ := Wire.bind_eq_ok.mp h
  rw [← Except.ok.inj h]
  exact List.mergeSort_perm _ _

lemma aclOnly_fits_of_perm {aces aces' : List Ace} {nativeAcl : Option NativeAcl}
    (h : (aclOnly aces nativeAcl).Fits) (hperm : aces'.Perm aces) : (aclOnly aces' none).Fits :=
  { h with
    aces := ⟨hperm.length_eq ▸ h.aces.1, fun a ha => h.aces.2 a (hperm.subset ha)⟩
    nativeAcl := by simp [aclOnly, Metadata.default] }

/-- The native list comes back as it was asked for, the portable one up to its order. -/
lemma readAcl_of_kept (hkept : Kept blake3 omit_ kind c.metadata decided o.sidecars)
    (hacl : o.captured.acl = decided.acl) (hapart : Distinguishes blake3 c.metadata decided)
    (homit : omit_.acl = false) :
    ∃ aces, readAcl blake3 o = .ok (aces, c.metadata.nativeAcl) ∧
      canonicalAces aces = .ok c.metadata.aces := by
  obtain ⟨acl, actual, hdecided, hcanonical, hnative, hportable⟩ := hkept.acl homit
  obtain ⟨-, haces, -, -, -, -, hactual⟩ := canonicalize_eq_ok.mp hcanonical
  have hnativeAcl : actual.nativeAcl = acl.nativeAcl := by rw [hactual]; rfl
  rw [hnativeAcl] at hnative
  have hnative : Stands o.sidecars "difz.native-acl"
      (encodeCanonical (aclOnly [] c.metadata.nativeAcl))
      (acl.nativeAcl = c.metadata.nativeAcl) := by
    refine hnative.imp_right (And.imp_right fun heq => ?_)
    have hfits : (aclOnly [] acl.nativeAcl).Fits := { acl.fits with aces := by simp [aclOnly] }
    exact congrArg Metadata.nativeAcl (wire_injective hfits (aclOnly_native_valid c).fits
      ((hapart.nativeAcl acl hdecided).wire_eq heq))
  have hportable : Stands o.sidecars "difz.portable-acl"
      (encodeCanonical (aclOnly c.metadata.aces none))
      (canonicalAces acl.aces = .ok c.metadata.aces) := by
    refine hportable.imp_right (And.imp_right fun heq => ?_)
    have hfits := aclOnly_fits_of_perm acl.fits (perm_of_canonicalAces haces)
    have hsame := congrArg Metadata.aces (wire_injective hfits (aclOnly_aces_valid c).fits
      ((hapart.aces acl _ hdecided haces).wire_eq heq))
    exact haces.trans (congrArg Except.ok hsame)
  obtain ⟨foundNative, hreadNative, hnative⟩ := readField_of_stands
    (fun m => aclOnly [] m.nativeAcl) Metadata.nativeAcl
    (· = c.metadata.nativeAcl) (aclOnly_native_valid c) rfl hnative rfl
  obtain ⟨foundAces, hreadAces, hportable⟩ := readField_of_stands
    (fun m => aclOnly m.aces none) Metadata.aces
    (canonicalAces · = .ok c.metadata.aces) (aclOnly_aces_valid c) rfl hportable
    (canonicalAces_eq c.isValid.aces)
  refine ⟨_, ?_, hportable⟩
  rw [readAcl, hacl, hdecided, mapError_ok, ok_bind, hreadNative, ok_bind, hreadAces, ok_bind,
    hnative]

/-! ### Timestamps -/

lemma readTimeOverride_of_kept (hkept : Kept blake3 omit_ kind c.metadata decided o.sidecars)
    (hbirth : o.captured.birth = decided.birth) (homit : omit_.timestamps = false)
    {birth : Option Time} (hread : o.captured.birth = .ok birth) :
    ∃ found, readTimeOverride o "difz.btime" = .ok found ∧
      found.getD birth = c.metadata.times.btime := by
  rw [readTimeOverride]
  rcases hkept.birth homit with hsome | ⟨hnone, hdecided⟩
  · have hnsec : ∀ t ∈ c.metadata.times.btime, t.nsec < 1000000000 := fun t ht =>
      c.isValid.fits.times t (by simp [Times.present, Option.mem_def.mp ht])
    have hdecode : Metadata.decodeTimeOverride (Metadata.overrideWire c.metadata.times.btime)
        = .ok c.metadata.times.btime :=
      Metadata.decodeTimeOverride_eq_ok.mpr
        (Metadata.encodeTimeOverride_eq_ok.mpr ⟨hnsec, rfl⟩)
    refine ⟨some c.metadata.times.btime, ?_, rfl⟩
    rw [hsome]
    dsimp only
    rw [hdecode]
    rfl
  · rw [hnone]
    refine ⟨none, rfl, ?_⟩
    rw [← hbirth, hread] at hdecided
    exact Except.ok.inj hdecided

/-- A record that was written decodes to itself. -/
lemma readModificationOverride_eq {value : Metadata.ModificationOverride} {bytes : List UInt8}
    (hsome : o.sidecars (utf8 "difz.mtime") = some bytes)
    (hencode : Metadata.encodeModificationOverride value = .ok bytes) :
    readModificationOverride o = .ok (some value) := by
  rw [readModificationOverride, hsome]
  dsimp only
  rw [Metadata.decodeModificationOverride_eq_ok.mpr hencode]
  rfl

/-- The modification time that is read, whatever the native stamp is now. -/
def modificationNow (desired : Option Time) (decided now : Timestamp) : Option Time :=
  if timeFromTimestamp now = timeFromTimestamp decided then desired
  else some (timeFromTimestamp now)

lemma readModificationOverride_of_stamped
    (hstamped : Stamped omit_ c.metadata decided o.sidecars) (homit : omit_.timestamps = false) :
    ∃ found stamp, readModificationOverride o = .ok found ∧ decided.mtime = .ok stamp ∧
      ∀ now : Timestamp, found.elim (some (timeFromTimestamp now))
        (overridden (timeFromTimestamp now)) = modificationNow c.metadata.times.mtime stamp now := by
  rw [Stamped, homit] at hstamped
  obtain ⟨stamp, hstamp, ⟨bytes, hsome, hencode⟩ | ⟨hnone, hdesired⟩⟩ := hstamped
  · exact ⟨_, stamp, readModificationOverride_eq hsome hencode, hstamp, fun now => rfl⟩
  · refine ⟨none, stamp, ?_, hstamp, fun now => ?_⟩
    · rw [readModificationOverride, hnone]
    · rw [modificationNow, hdesired, Option.elim_none]
      split_ifs with hsame
      · rw [hsame]
      · rfl

/-! ### A whole record -/

/-- What canonicalizing does to a record whose families other than the attributes are in order. -/
lemma canonicalize_captured {xattrs : List Xattr} {aces aces' : List Ace}
    {nativeAcl : Option NativeAcl} {times : Times} {flags : UInt32}
    {info : Option (List.Vector UInt8 32)} (haces : canonicalAces aces = .ok aces')
    (hacl : checkNativeAcl nativeAcl = .ok ()) (htimes : validateTimes times = .ok ()) :
    canonicalize ⟨xattrs, aces, nativeAcl, times, flags, info, [], none⟩
        (Omit.of Metadata.Omit.default)
      = (canonicalXattrs xattrs).map fun sorted =>
        ⟨sorted, aces', nativeAcl, times, flags, info, [], none⟩ := by
  cases hx : canonicalXattrs xattrs with
  | ok sorted =>
    exact canonicalize_eq_ok.mpr ⟨hx, haces, hacl, htimes, canonicalHoles_eq rfl, rfl, rfl⟩
  | error e =>
    rw [canonicalize, hx]
    rfl

/-- The native values that a fallback was decided on are still there, and can be read. -/
structure Unchanged (decided now : Captured) : Prop where
  holes : now.holes = decided.holes
  acl : now.acl = decided.acl
  finder : now.finder = decided.finder
  birth : now.birth = decided.birth
  readable : ∃ birth, now.birth = .ok birth

/-- The attributes of an object, in canonical order. -/
def capturedXattrs (o : Object) (omitted : Bool) : Except RestoreError (List Xattr) := do
  let xattrs ← xattrsFor o omitted
  (canonicalXattrs xattrs).mapError .metadata

def timesNow (omitted : Bool) (times : Times) (decided now : Timestamp) : Times :=
  if omitted then Times.default
  else { times with mtime := modificationNow times.mtime decided now }

lemma timesFor_of_kept (hkept : Kept blake3 omit_ kind c.metadata decided o.sidecars)
    (hstamped : Stamped omit_ c.metadata decided o.sidecars)
    (hunchanged : Unchanged decided o.captured) (hatime : c.metadata.times.atime = none)
    (now : Timestamp) :
    ∃ birth stamp, birthFor o omit_.timestamps = .ok birth ∧
      (omit_.timestamps = false → decided.mtime = .ok stamp) ∧
      timesFor o omit_.timestamps now birth
        = .ok (timesNow omit_.timestamps c.metadata.times stamp now) := by
  cases homit : omit_.timestamps with
  | true => exact ⟨none, ⟨0⟩, rfl, by simp, rfl⟩
  | false =>
    obtain ⟨birth, hbirth⟩ := hunchanged.readable
    obtain ⟨found, hread, hbtime⟩ :=
      readTimeOverride_of_kept hkept hunchanged.birth homit hbirth
    obtain ⟨modification, stamp, hmodification, hstamp, hnow⟩ :=
      readModificationOverride_of_stamped hstamped homit
    refine ⟨birth, stamp, ?_, fun _ => hstamp, ?_⟩
    · rw [birthFor, hbirth]
      rfl
    · rw [timesFor, hread, hmodification, timesNow, ← hnow now, ← hatime, ← hbtime]
      rfl

lemma aclFor_of_kept (hkept : Kept blake3 omit_ kind c.metadata decided o.sidecars)
    (hacl : o.captured.acl = decided.acl) (hapart : Distinguishes blake3 c.metadata decided) :
    ∃ aces, aclFor blake3 o omit_.acl
        = .ok (aces, if omit_.acl then none else c.metadata.nativeAcl) ∧
      canonicalAces aces = .ok (if omit_.acl then [] else c.metadata.aces) := by
  cases homit : omit_.acl with
  | true => exact ⟨[], rfl, canonicalAces_eq rfl⟩
  | false => exact readAcl_of_kept hkept hacl hapart homit

lemma finderFor_of_kept (hkept : Kept blake3 omit_ kind c.metadata decided o.sidecars)
    (hfinder : o.captured.finder = decided.finder) :
    finderFor blake3 o omit_.finder = .ok (if omit_.finder then 0 else c.metadata.finderFlags,
      if omit_.finder then none else c.metadata.finderInfo) := by
  cases homit : omit_.finder with
  | true => rfl
  | false => exact readFinder_of_kept hkept hfinder homit

/-- Records of directories have no extents, so not reading them loses nothing. -/
lemma holesFor_of_kept (hkept : Kept blake3 omit_ kind c.metadata decided o.sidecars)
    (hholes : o.captured.holes = decided.holes) (hapart : Distinguishes blake3 c.metadata decided)
    (hkind : kind ≠ .file → c.metadata.holes = []) (m : Metadata) (hm : m.holes = []) :
    holesFor blake3 o (omit_.sparse || kind != .file) m
      = .ok { m with holes := if omit_.sparse then [] else c.metadata.holes } := by
  cases homit : (omit_.sparse || kind != .file) with
  | true =>
    have hempty : (if omit_.sparse then [] else c.metadata.holes) = m.holes := by
      rw [hm]
      rcases Bool.or_eq_true_iff.mp homit with hsparse | hfile
      · rw [if_pos hsparse]
      · rw [hkind (by simpa using hfile), ite_self]
    rw [holesFor, if_pos rfl, hempty]
  | false =>
    rw [holesFor, readSparse_of_kept hkept hholes hapart homit]
    rw [Bool.or_eq_false_iff] at homit
    rw [homit.1]
    rfl

lemma nsec_timeFromTimestamp (timestamp : Timestamp) :
    (timeFromTimestamp timestamp).nsec < 1000000000 := by
  rw [timeFromTimestamp, UInt32.lt_iff_toNat_lt]
  dsimp only
  rw [UInt32.toNat_ofNat_of_lt' (by simp only [UInt32.size]; omega)]
  simp
  omega

lemma validateTimes_timesNow (omitted : Bool) (stamp now : Timestamp) :
    validateTimes (timesNow omitted c.metadata.times stamp now) = .ok () := by
  have htime : ∀ t : Option Time, (∀ v ∈ t, v.nsec < 1000000000) → validateTime t = .ok () := by
    intro t ht
    cases t with
    | none => rfl
    | some v => exact if_neg (UInt32.not_le.mpr (ht v rfl))
  have hvalid := c.isValid.fits.times
  rw [timesNow]
  split_ifs
  · rfl
  · rw [validateTimes, htime, htime, htime]
    · rfl
    · exact fun v hv => hvalid v (by simpa [Times.present] using .inr (.inr hv))
    · exact fun v hv => hvalid v (by simpa [Times.present] using .inr (.inl hv))
    · intro v hv
      dsimp only [modificationNow] at hv
      split_ifs at hv
      · exact hvalid v (by simp [Times.present, Option.mem_def.mp hv])
      · rw [Option.mem_def, Option.some.injEq] at hv
        rw [← hv]
        exact nsec_timeFromTimestamp now

/-- Everything but the attributes is determined by the record that was restored and by the native
modification time. -/
lemma recapture_of_kept {mask : Metadata.Omit}
    (hkept : Kept blake3 (Omit.of mask) kind c.metadata decided o.sidecars)
    (hstamped : Stamped (Omit.of mask) c.metadata decided o.sidecars)
    (hunchanged : Unchanged decided o.captured) (hapart : Distinguishes blake3 c.metadata decided)
    (hatime : c.metadata.times.atime = none) (hkind : kind ≠ .file → c.metadata.holes = [])
    {now : Timestamp} (hnow : o.captured.mtime = .ok now) :
    ∃ stamp, (mask.contains .timestamps = false → decided.mtime = .ok stamp) ∧
      recapture blake3 o (Omit.of mask) kind
        = (capturedXattrs o (mask.contains .xattr)).map fun xattrs =>
          { c.metadata.retain mask with
            xattrs
            times := timesNow (mask.contains .timestamps) c.metadata.times stamp now
            hardlinkTo := none } := by
  obtain ⟨birth, stamp, hbirth, hstamp, htimes⟩ :=
    timesFor_of_kept hkept hstamped hunchanged hatime now
  obtain ⟨aces, hacl, haces⟩ := aclFor_of_kept hkept hunchanged.acl hapart
  have hfinder := finderFor_of_kept hkept hunchanged.finder
  have hcheck : checkNativeAcl
      (if (Omit.of mask).acl then none else c.metadata.nativeAcl) = .ok () := by
    split_ifs
    · rfl
    · exact checkNativeAcl_canonical c
  refine ⟨stamp, hstamp, ?_⟩
  rw [recapture, hnow, mapError_ok, ok_bind, hbirth, ok_bind, metadataFor, htimes, ok_bind, hacl,
    hfinder, capturedXattrs]
  have hxattr : (Omit.of mask).xattr = mask.contains .xattr := rfl
  rw [hxattr]
  cases xattrsFor o (mask.contains .xattr) with
  | error e => rfl
  | ok xattrs =>
    rw [ok_bind, ok_bind, ok_bind, ok_bind, canonicalize_captured haces hcheck
      (validateTimes_timesNow _ stamp now)]
    cases canonicalXattrs xattrs with
    | error e => rfl
    | ok sorted =>
      rw [show (Except.ok sorted : Except Metadata.Error _).map _ = .ok _ from rfl, mapError_ok,
        ok_bind, holesFor_of_kept hkept hunchanged.holes hapart hkind _ rfl, Metadata.retain_eq]
      rfl

/-- After a restore that wrote its sidecars, reading the object back gives the record that was
asked for, whatever the native setters did, as long as the native values stay as they were when
the fallbacks were decided. A later native modification time wins over the one in the sidecar. -/
theorem recapture_restored {host : Host} {mask : Metadata.Omit} {copied : Bool} {o' : Object}
    {now : Timestamp} (hatime : c.metadata.times.atime = none)
    (hkind : kind ≠ .file → c.metadata.holes = []) (hfresh : Fresh o)
    (hrun : restoreObject host blake3 (Omit.of mask) kind copied c.metadata o = (.ok decided, o'))
    (hapart : Distinguishes blake3 c.metadata decided) (hsidecars : u.sidecars = o'.sidecars)
    (hunchanged : Unchanged decided u.captured) (hnow : u.captured.mtime = .ok now) :
    (u.captured.mtime = decided.mtime →
      recapture blake3 u (Omit.of mask) kind
        = (capturedXattrs u (mask.contains .xattr)).map fun xattrs =>
          { c.metadata.retain mask with xattrs, hardlinkTo := none }) ∧
    (∀ override, mask.contains .timestamps = false →
      readModificationOverride u = .ok (some override) →
      timeFromTimestamp now ≠ override.observed →
      recapture blake3 u (Omit.of mask) kind
        = (capturedXattrs u (mask.contains .xattr)).map fun xattrs =>
          { c.metadata.retain mask with
            xattrs
            times := { c.metadata.times with mtime := some (timeFromTimestamp now) }
            hardlinkTo := none }) := by
  obtain ⟨hkept, hstamped⟩ := restoreObject_kept hfresh hrun
  rw [← hsidecars] at hkept hstamped
  obtain ⟨stamp, hstamp, hrecapture⟩ :=
    recapture_of_kept hkept hstamped hunchanged hapart hatime hkind hnow
  refine ⟨fun hsame => ?_, fun override homit hread hdiffers => ?_⟩
  · have htimes : timesNow (mask.contains .timestamps) c.metadata.times stamp now
        = (c.metadata.retain mask).times := by
      rw [timesNow, Metadata.retain_eq]
      dsimp only
      split_ifs with homit
      · rfl
      · rw [hnow, hstamp (by simpa using homit)] at hsame
        rw [Except.ok.inj hsame, modificationNow, if_pos rfl]
    rw [hrecapture, htimes]
  · obtain ⟨found, stamp', hfound, hstamp', helim⟩ :=
      readModificationOverride_of_stamped hstamped homit
    obtain rfl : some override = found := Except.ok.inj (hread.symm.trans hfound)
    obtain rfl : stamp' = stamp := Except.ok.inj (hstamp'.symm.trans (hstamp homit))
    have hnative : modificationNow c.metadata.times.mtime stamp' now
        = some (timeFromTimestamp now) := by
      rw [← helim now, Option.elim_some, overridden, if_neg hdiffers]
    rw [hrecapture, timesNow, homit, hnative]
    rfl

/-! ### A filesystem that keeps nothing -/

/-- Every call succeeds and none has an effect on what is captured. -/
def idleHost : Host where
  os := .linux
  setAttribute _ _ _ := pure ()
  punch _ := pure ()
  setBirth _ := pure ()
  setInfo _ := pure ()
  setFlags _ := pure ()
  restoreAcl _ := pure ()
  setTimestamps _ := pure ()
  setFilePermissions := pure ()
  others := id

/-- A new file: no extents, no access control, a birth time of its own. -/
def newFile : Captured where
  holes := .ok []
  acl := .ok ⟨[], none, CanonicalMetadata.default.isValid.fits⟩
  finder := .ok ⟨0, none⟩
  birth := .ok (some ⟨7, 0⟩)
  mtime := .ok ⟨5000000000⟩
  xattrs := .ok []

/-- A record with an extent, a flag and a modification time, and without a birth time. -/
def sparseRecord : CanonicalMetadata :=
  ⟨{ Metadata.default with
      times := ⟨some ⟨9, 0⟩, none, none⟩, finderFlags := 1, holes := [⟨0, 4096⟩] }, by decide⟩

lemma length_digest_default : (File.ofHex
    "99db979b83139627ce6421e759bf1edcb4715a4424a4b9683b09991097f0da13".toList).length = 32 := by
  decide

/-- The BLAKE3 digests of the records that are compared. -/
def sparseDigests : List (List UInt8 × Digest) :=
  [ (utf8 "DIFZMETA\x01" ++ Metadata.default.wire, ⟨File.ofHex
      "99db979b83139627ce6421e759bf1edcb4715a4424a4b9683b09991097f0da13".toList,
      length_digest_default⟩)
  , (utf8 "DIFZMETA\x01" ++ (holesOnly [⟨0, 4096⟩]).wire, ⟨File.ofHex
      "501f119fb5bbc82319f6dee35376b4c13b6023dcfa3dbb8cd390afafbb1e6c99".toList, by decide⟩) ]

/-- The sidecars that the record takes, but for the modification time. -/
def entrySidecars : List UInt8 → Option (List UInt8) :=
  Function.update (Function.update (Function.update (fun _ => none)
    (utf8 "difz.sparse-holes") (some (encodeCanonical (holesOnly [⟨0, 4096⟩]))))
    (utf8 "difz.btime") (some [0]))
    (utf8 "difz.bsd-flags") (some (encodeCanonical (finderOnly 1 none)))

def sparseSidecars : List UInt8 → Option (List UInt8) :=
  Function.update entrySidecars
    (utf8 "difz.mtime") (some ([1] ++ (toLeBytes (9 : Int64) ++ toLeBytes (0 : UInt32))
      ++ (toLeBytes (5 : Int64) ++ toLeBytes (0 : UInt32))))

lemma restoreAclWritable_idle (sidecars : List UInt8 → Option (List UInt8)) (report : UInt32) :
    restoreAclWritable idleHost blake3 sparseRecord.metadata ⟨newFile, sidecars, report⟩
      = (.ok newFile, ⟨newFile, sidecars, report⟩) := by
  have hcanonical : canonicalize (aclOnly [] none) (Omit.of Metadata.Omit.default)
      = .ok Metadata.default := by
    have h := canonicalize_eq CanonicalMetadata.default Metadata.Omit.default
    rwa [Metadata.retain_eq] at h
  have hrestore : restoreAcl idleHost blake3 sparseRecord.metadata ⟨newFile, sidecars, report⟩
      = (.ok newFile, ⟨newFile, sidecars, report⟩) := by
    refine bind_eq_ok.mpr ⟨(), _, rfl, bind_eq_ok.mpr ⟨_, _, rfl, bind_eq_ok.mpr ⟨_, _, rfl, ?_⟩⟩⟩
    refine bind_eq_ok.mpr ⟨Metadata.default, ⟨newFile, sidecars, report⟩, ?_, ?_⟩
    · rw [hcanonical]
      rfl
    · have hkeep : ∀ {name code blob} {h : Digest}, keep idleHost (decide (h ≠ h)) name code blob
          ⟨newFile, sidecars, report⟩ = (.ok (), ⟨newFile, sidecars, report⟩) := by
        intro name code blob h
        rw [decide_eq_false (by simp)]
        rfl
      exact bind_eq_ok.mpr ⟨(), _, hkeep, bind_eq_ok.mpr ⟨(), _, hkeep, rfl⟩⟩
  exact bind_eq_ok.mpr ⟨newFile, _, hrestore, rfl⟩

lemma restoreObject_idle :
    restoreObject idleHost (File.tabulated sparseDigests) (Omit.of Metadata.Omit.default) .file
        false sparseRecord.metadata ⟨newFile, fun _ => none, 0⟩
      = (.ok newFile, ⟨newFile, sparseSidecars, 564⟩) := by
  refine bind_eq_ok.mpr ⟨newFile, ⟨newFile, entrySidecars, 52⟩, ?_, rfl⟩
  refine bind_eq_ok.mpr ⟨[], _, rfl, bind_eq_ok.mpr ⟨(), _, rfl, ?_⟩⟩
  refine bind_eq_ok.mpr ⟨newFile, _, rfl, bind_eq_ok.mpr ⟨(true, newFile), _, rfl, ?_⟩⟩
  refine bind_eq_ok.mpr ⟨newFile, _, rfl, bind_eq_ok.mpr ⟨(), _, rfl, ?_⟩⟩
  refine bind_eq_ok.mpr ⟨newFile, _, restoreAclWritable_idle _ _, ?_⟩
  exact bind_eq_ok.mpr ⟨newFile, _, rfl, rfl⟩

/-- All four come back, the missing birth time included. -/
theorem recapture_restored_idle :
    restoreObject idleHost (File.tabulated sparseDigests) (Omit.of Metadata.Omit.default) .file
        false sparseRecord.metadata ⟨newFile, fun _ => none, 0⟩
      = (.ok newFile, ⟨newFile, sparseSidecars, 564⟩) ∧
    recapture (File.tabulated sparseDigests) ⟨newFile, sparseSidecars, 564⟩
        (Omit.of Metadata.Omit.default) .file
      = (capturedXattrs ⟨newFile, sparseSidecars, 564⟩ false).map fun xattrs =>
        { sparseRecord.metadata.retain Metadata.Omit.default with xattrs, hardlinkTo := none } := by
  have hapart : Distinguishes (File.tabulated sparseDigests) sparseRecord.metadata newFile := by
    refine ⟨fun actual hactual => ?_, fun acl hacl => ?_, fun acl aces hacl haces => ?_⟩
    · obtain rfl := Except.ok.inj hactual
      intro hsame
      exact absurd hsame (by decide +kernel)
    · obtain rfl := Except.ok.inj hacl
      exact fun _ => rfl
    · obtain rfl := Except.ok.inj hacl
      obtain rfl : [] = aces := Except.ok.inj ((canonicalAces_eq rfl).symm.trans haces)
      exact fun _ => rfl
  refine ⟨restoreObject_idle, ?_⟩
  exact (recapture_restored rfl (fun h => absurd rfl h) (fun _ _ => rfl) restoreObject_idle hapart
    rfl ⟨rfl, rfl, rfl, rfl, some ⟨7, 0⟩, rfl⟩ rfl).1 rfl

end Zig

end Difz
