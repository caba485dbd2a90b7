import Difz.Directory.Projection
import Difz.Zig.Decode

/-!
# Masked snapshots of the native program

The native program leaves families out by canonicalizing every record anew (`canonicalize` in
`src/metadata.zig`, `maskedSnapshot` in `src/directory_patch.zig`) and checks a snapshot each time
it takes its digest (`treeHashWithRoot` in `src/directory.zig`), comparing the records of hard links
by digest. On canonical records this is the projection of the Rust crate, and the checks agree as
long as the digest tells the compared records apart.
-/

namespace Difz

open Wire Metadata

namespace Zig

/-! ### Canonicalizing a record -/

/-- Validate, sort and refuse duplicates. -/
def canonicalList {α : Type} (validate : α → Except Metadata.Error Unit) (less same : α → α → Bool)
    (duplicate : Metadata.Error) (items : List α) : Except Metadata.Error (List α) := do
  items.forM validate
  let copy := items.mergeSort fun a b => !less b a
  forPrevious (fun prev item => if prev.any (same item) then .error duplicate else .ok ()) none copy
  .ok copy

def canonicalXattrs : List Xattr → Except Metadata.Error (List Xattr) :=
  canonicalList validateName xattrLess (fun item prev =>
    item.class_ == prev.class_ && item.name == prev.name) .duplicateXattr

def canonicalAces : List Ace → Except Metadata.Error (List Ace) :=
  canonicalList validateAce aceLess (fun item prev =>
    item.tag == prev.tag && item.name == prev.name) .duplicateAce

def holeLess (left right : Hole) : Bool := left.offset < right.offset

/-- Join an extent to the last one it touches, or append it. -/
def mergeHole (merged : List Hole) (hole : Hole) : List Hole :=
  match merged.getLast? with
  | none => [hole]
  | some prev =>
    let end_ := hole.offset.toNat + hole.length.toNat
    let prevEnd := prev.offset.toNat + prev.length.toNat
    if hole.offset.toNat ≤ prevEnd then
      if end_ > prevEnd then
        merged.dropLast ++ [{ prev with length := UInt64.ofNat (end_ - prev.offset.toNat) }]
      else merged
    else merged ++ [hole]

def canonicalHoles (holes : List Hole) : Except Metadata.Error (List Hole) := do
  holes.forM fun hole =>
    if hole.length = 0 then .error .zeroLengthHole
    else if hole.offset.toNat + hole.length.toNat ≥ 2 ^ 64 then .error .holeOverflow
    else .ok ()
  let copy := holes.mergeSort fun a b => !holeLess b a
  .ok (copy.foldl mergeHole [])

def validateTime (time : Option Time) : Except Metadata.Error Unit :=
  match time with
  | some value => if value.nsec ≥ 1000000000 then .error .invalidNsec else .ok ()
  | none => .ok ()

def validateTimes (times : Times) : Except Metadata.Error Unit := do
  validateTime times.mtime
  validateTime times.atime
  validateTime times.btime

/-- A family that is left out is absent and not looked at. -/
def unlessOmitted {α : Type} (omitted : Bool) (absent : α) (value : Except Metadata.Error α) :
    Except Metadata.Error α :=
  if omitted then .ok absent else value

def canonicalize (m : Metadata) (omit_ : Omit) : Except Metadata.Error Metadata := do
  let xattrs ← unlessOmitted omit_.xattr [] (canonicalXattrs m.xattrs)
  let aces ← unlessOmitted omit_.acl [] (canonicalAces m.aces)
  let nativeAcl ← unlessOmitted omit_.acl none
    (checkNativeAcl m.nativeAcl >>= fun _ => .ok m.nativeAcl)
  let times ← unlessOmitted omit_.timestamps Times.default
    (validateTimes m.times >>= fun _ => .ok m.times)
  let finderFlags := if omit_.finder then 0 else m.finderFlags
  let finderInfo := if omit_.finder then none else m.finderInfo
  let holes ← unlessOmitted omit_.sparse [] (canonicalHoles m.holes)
  let hardlinkTo ← unlessOmitted omit_.hardlink none
    (checkHardlinkTo m.hardlinkTo >>= fun _ => .ok m.hardlinkTo)
  .ok ⟨xattrs, aces, nativeAcl, times, finderFlags, finderInfo, holes, hardlinkTo⟩

lemma canonicalList_eq {α : Type} {validate : α → Except Metadata.Error Unit}
    {less same : α → α → Bool} {duplicate : Metadata.Error} {items : List α}
    (hvalid : ∀ x ∈ items, validate x = .ok ())
    (hless : items.Pairwise fun a b => less b a = false ∧ same b a = false) :
    canonicalList validate less same duplicate items = .ok items := by
  have hsort : (items.mergeSort fun a b => !less b a) = items := by
    refine List.mergeSort_of_pairwise (hless.imp fun h => ?_)
    simp [h.1]
  have hprev : ∀ (p : Option α) (xs : List α),
      (p.toList ++ xs).Pairwise (fun a b => same b a = false) →
      forPrevious (fun prev item => if prev.any (same item) then .error duplicate else .ok ()) p xs
        = .ok () := by
    intro p xs
    induction xs generalizing p with
    | nil => exact fun _ => rfl
    | cons x xs ih =>
      intro hpair
      rw [forPrevious, if_neg ?_, ok_bind]
      · refine ih (some x) ?_
        exact hpair.sublist (List.sublist_append_right _ _)
      · cases p with
        | none => simp
        | some q =>
          have hqx := (List.pairwise_cons.mp hpair).1 x (by simp)
          simp [hqx]
  have hdup := hprev none items (hless.imp fun h => h.2)
  rw [canonicalList, forM_eq_ok.mpr hvalid, ok_bind, hsort]
  dsimp only
  rw [hdup, ok_bind]

/-- Of two items in order by key, the second is neither less than nor the same as the first. -/
lemma key_of_lt {v w : List UInt8} (h : compare v w = .lt) :
    (compare w v == .lt) = false ∧ w ≠ v := by
  constructor
  · rw [beq_eq_false_iff_ne]
    intro hwv
    have hvv := compare_lt_trans h hwv
    rw [Std.compare_self] at hvv
    exact absurd hvv (by decide)
  · rintro rfl
    rw [Std.compare_self] at h
    exact absurd h (by decide)

lemma canonicalXattrs_eq {xs : List Xattr} (h : forPrevious Metadata.checkXattr none xs = .ok ()) :
    canonicalXattrs xs = .ok xs := by
  obtain ⟨hitem, hpair⟩ := xattrs_eq_ok.mp h
  refine canonicalList_eq (fun x hx => ?_) (hpair.imp fun {a b} hlt => ?_)
  · have hx := hitem x hx
    rw [Xattr.check, seq_eq_ok] at hx
    rw [validateName_eq, hx.1]
  · obtain ⟨hless, hne⟩ := key_of_lt hlt
    refine ⟨by rw [xattrLess_eq, hless], Bool.eq_false_iff.mpr fun heq => hne ?_⟩
    obtain ⟨hclass, hname⟩ : b.class_ = a.class_ ∧ b.name = a.name := by simpa using heq
    rw [Xattr.key, Xattr.key, hclass, hname]

lemma canonicalAces_eq {xs : List Ace} (h : forPrevious Metadata.checkAce none xs = .ok ()) :
    canonicalAces xs = .ok xs := by
  obtain ⟨hitem, hpair⟩ := aces_eq_ok.mp h
  refine canonicalList_eq (fun x hx => ?_) (hpair.imp fun {a b} hlt => ?_)
  · have hx := hitem x hx
    rw [Ace.check, seq_eq_ok] at hx
    rw [validateAce_eq, hx.1]
  · obtain ⟨hless, hne⟩ := key_of_lt hlt
    refine ⟨by rw [aceLess_eq, hless], Bool.eq_false_iff.mpr fun heq => hne ?_⟩
    obtain ⟨htag, hname⟩ : b.tag = a.tag ∧ b.name = a.name := by simpa using heq
    rw [Ace.key, Ace.key, htag, hname]

/-- Separated extents are in order and nothing is merged. -/
lemma canonicalHoles_eq {holes : List Hole}
    (h : forPrevious Metadata.checkHole none holes = .ok ()) : canonicalHoles holes = .ok holes := by
  obtain ⟨hproper, hbefore⟩ := holes_eq_ok.mp h
  have hcheck : (holes.forM fun hole =>
      if hole.length = 0 then .error .zeroLengthHole
      else if hole.offset.toNat + hole.length.toNat ≥ 2 ^ 64 then .error .holeOverflow
      else .ok ()) = (.ok () : Except Metadata.Error Unit) := by
    refine forM_eq_ok.mpr fun hole hmem => ?_
    obtain ⟨hpos, hend⟩ := hproper hole hmem
    rw [if_neg hpos]
    exact if_neg (not_le.mpr hend)
  have hsort : (holes.mergeSort fun a b => !holeLess b a) = holes := by
    refine List.mergeSort_of_pairwise (hbefore.imp fun {a b} hab => ?_)
    have hab : a.offset.toNat + a.length.toNat < b.offset.toNat := hab
    simp only [holeLess, Bool.not_eq_true', decide_eq_false_iff_not, UInt64.lt_iff_toNat_lt]
    omega
  have hmerge : ∀ done rest : List Hole, (done ++ rest).Pairwise Hole.Before →
      rest.foldl mergeHole done = done ++ rest := by
    intro done rest
    induction rest generalizing done with
    | nil => simp
    | cons hole rest ih =>
      intro hpair
      have hstep : mergeHole done hole = done ++ [hole] := by
        rw [mergeHole]
        cases hlast : done.getLast? with
        | none => rw [List.getLast?_eq_none_iff.mp hlast, List.nil_append]
        | some prev =>
          have hprev := List.mem_of_getLast? hlast
          have hlt := (List.pairwise_append.mp hpair).2.2 prev hprev hole (by simp)
          exact if_neg (not_le.mpr hlt)
      rw [List.foldl_cons, hstep, ih (done ++ [hole]) (by simpa using hpair)]
      simp
  rw [canonicalHoles, hcheck, ok_bind, hsort]
  dsimp only
  rw [hmerge [] holes hbefore, List.nil_append]

lemma validateTimes_eq {times : Times} (h : checkTimes times = .ok ()) :
    validateTimes times = .ok () := by
  have hall : ∀ t ∈ times.present, t.nsec < 1000000000 := by
    simpa [checkTimes, ite_error_eq_ok] using h
  have htime : ∀ o : Option Time, (∀ t ∈ o, t ∈ times.present) → validateTime o = .ok () := by
    intro o ho
    cases o with
    | none => rfl
    | some t => exact if_neg (UInt32.not_le.mpr (hall t (ho t rfl)))
  rw [validateTimes, htime times.mtime (by simp +contextual [Times.present]),
    htime times.atime (by simp +contextual [Times.present]),
    htime times.btime (by simp +contextual [Times.present])]
  rfl

lemma unlessOmitted_ok {α : Type} (omitted : Bool) (absent : α) {value : Except Metadata.Error α}
    {v : α} (h : value = .ok v) :
    unlessOmitted omitted absent value = .ok (if omitted then absent else v) := by
  rw [h, unlessOmitted]
  split_ifs <;> rfl

lemma checkNativeAcl_canonical (c : CanonicalMetadata) :
    checkNativeAcl c.metadata.nativeAcl = .ok () := by
  have h := c.isValid.nativeAcl
  cases hn : c.metadata.nativeAcl with
  | none => rfl
  | some acl =>
    rw [hn, Metadata.checkNativeAcl, ite_error_eq_ok] at h
    exact if_neg (by simpa using h.1)

/-- A canonical record only loses the families that are left out. -/
theorem canonicalize_eq (c : CanonicalMetadata) (mask : Metadata.Omit) :
    canonicalize c.metadata (Omit.of mask) = .ok (c.metadata.retain mask) := by
  have hvalid := c.isValid
  have hacl := checkNativeAcl_canonical c
  have hlink : checkHardlinkTo c.metadata.hardlinkTo = .ok () := by
    have h := hvalid.hardlinkTo
    cases hn : c.metadata.hardlinkTo with
    | none => rfl
    | some path =>
      rw [hn, Metadata.checkHardlink] at h
      rw [checkHardlinkTo, validateHardlink_eq, h]
  rw [canonicalize, unlessOmitted_ok _ _ (canonicalXattrs_eq hvalid.xattrs),
    unlessOmitted_ok _ _ (canonicalAces_eq hvalid.aces), hacl, ok_bind, ok_bind, ok_bind, hlink,
    ok_bind, unlessOmitted_ok _ _ rfl, validateTimes_eq hvalid.times, ok_bind, ok_bind,
    unlessOmitted_ok _ _ rfl, unlessOmitted_ok _ _ (canonicalHoles_eq hvalid.holes),
    unlessOmitted_ok _ _ rfl, retain_eq]
  rfl

/-- What canonicalization changes when nothing is left out, and what it checks. -/
lemma canonicalize_eq_ok {m r : Metadata} :
    canonicalize m (Omit.of Metadata.Omit.default) = .ok r ↔
      canonicalXattrs m.xattrs = .ok r.xattrs ∧ canonicalAces m.aces = .ok r.aces ∧
      checkNativeAcl m.nativeAcl = .ok () ∧ validateTimes m.times = .ok () ∧
      canonicalHoles m.holes = .ok r.holes ∧ checkHardlinkTo m.hardlinkTo = .ok () ∧
      r = ⟨r.xattrs, r.aces, m.nativeAcl, m.times, m.finderFlags, m.finderInfo, r.holes,
        m.hardlinkTo⟩ := by
  have homit : Omit.of Metadata.Omit.default = ⟨false, false, false, false, false, false⟩ := by
    simp [Omit.of]
  rw [canonicalize, homit]
  simp only [unlessOmitted, Bool.false_eq_true, if_false, Wire.bind_eq_ok, Except.ok.injEq]
  constructor
  · intro h
    obtain ⟨xs, hxs, aces, haces, _, ⟨_, hacl, rfl⟩, _, ⟨_, htimes, rfl⟩, holes, hholes, _,
      ⟨_, hlink, rfl⟩, rfl⟩ := h
    exact ⟨hxs, haces, hacl, htimes, hholes, hlink, rfl⟩
  · intro h
    obtain ⟨hxs, haces, hacl, htimes, hholes, hlink, hr⟩ := h
    exact ⟨_, hxs, _, haces, _, ⟨(), hacl, rfl⟩, _, ⟨(), htimes, rfl⟩, _, hholes, _,
      ⟨(), hlink, rfl⟩, hr.symm⟩

/-! ### Snapshots -/

def maskedSnapshot (entries : List Entry) (omit_ : Omit) : Except Metadata.Error (List Entry) :=
  entries.mapM fun e => canonicalize e.meta_ omit_ >>= fun m => .ok { e with meta_ := m }

def kindTag : Directory.Kind → UInt8
  | .directory => 1
  | .file => 2
  | .symlink => 3

variable (blake3 : List UInt8 → Digest)

/-- The updates of the hasher for one entry. -/
def hashEntry (e : Entry) : List UInt8 :=
  [kindTag e.kind] ++ (toLeBytes e.mode ++ (toLeBytes (UInt32.ofNat e.path.length) ++ (e.path
    ++ (toLeBytes (UInt64.ofNat e.data.length) ++ (e.data
    ++ (canonicalHash blake3 e.meta_).toList)))))

def treeHashWithRoot (entries : List Entry) (root : Metadata) : Except Directory.Error Digest := do
  validateSnapshot entries
  validateMetadataRelations blake3 entries
  validateRootMetadata root
  .ok (blake3 (utf8 "DIFZTREE-ID\x02" ++ (toLeBytes (UInt32.ofNat entries.length)
    ++ (entries.flatMap (hashEntry blake3)
    ++ (if !root.isEmpty then
        utf8 "DIFZTREE-ROOT\x01" ++ (canonicalHash blake3 root).toList
      else [])))))

/-- An entry of the other program. -/
def Entry.of (e : Directory.Entry) : Entry :=
  let record := e.structure
  ⟨record.path, record.kind, record.mode, record.data, e.metadata.metadata⟩

@[simp] lemma Entry.pathOf_of (e : Directory.Entry) :
    Directory.pathOf (Entry.of e) = Directory.pathOf e := rfl

lemma Entry.of_eq (e : Directory.Entry) : Entry.of e = ⟨e.path, match e.content with
      | .directory _ => .directory
      | .file _ _ => .file
      | .symlink _ => .symlink, e.content.mode.bits, e.content.bytes, e.metadata.metadata⟩ := by
  obtain ⟨path, content, metadata⟩ := e
  cases content <;> rfl

lemma Entry.kind_of_eq_file {e : Directory.Entry} :
    (Entry.of e).kind = .file ↔ ∃ mode bytes, e.content = .file mode bytes := by
  rw [Entry.of_eq]
  cases e.content <;> simp

lemma Entry.kindTag_of (e : Directory.Entry) : kindTag (Entry.of e).kind = e.content.kindTag := by
  obtain ⟨path, content, metadata⟩ := e
  cases content <;> rfl

lemma validateSnapshot_of (entries : List Directory.Entry) :
    validateSnapshot (entries.map Entry.of) = Directory.validate entries := by
  rw [validateSnapshot_eq]
  refine Directory.validate_congr ?_
  rw [List.map_map]
  rfl

lemma maskedSnapshot_of (entries : List Directory.Entry) (mask : Metadata.Omit) :
    maskedSnapshot (entries.map Entry.of) (Omit.of mask)
      = .ok ((entries.map (Directory.Entry.retain mask)).map Entry.of) := by
  rw [maskedSnapshot]
  induction entries with
  | nil => rfl
  | cons e entries ih =>
    have hhead : canonicalize (Entry.of e).meta_ (Omit.of mask)
        = .ok (e.metadata.metadata.retain mask) := canonicalize_eq e.metadata mask
    rw [List.map_cons, List.mapM_cons, ih, hhead]
    rfl

/-- What the program hashes to compare the record of an entry with that of its original. -/
def sharedInput (c : CanonicalMetadata) : List UInt8 :=
  utf8 "DIFZMETA\x01" ++ { c.metadata with hardlinkTo := none }.wire

/-- The digest tells apart the records that may be compared. -/
def CollisionFree (records : List CanonicalMetadata) : Prop :=
  ∀ a ∈ records, ∀ b ∈ records, blake3 (sharedInput a) = blake3 (sharedInput b) →
    sharedInput a = sharedInput b

variable {blake3}

lemma canonicalHash_eq_input (m : Metadata) :
    canonicalHash blake3 m = blake3 (utf8 "DIFZMETA\x01" ++ m.wire) := by
  rw [canonicalHash, foldl_append_eq, flatten_writeCanonical]

lemma wire_injective {m n : Metadata} (hm : m.Fits) (hn : n.Fits) (h : m.wire = n.wire) : m = n := by
  have happ : m.wire ++ [] = n.wire ++ [] := by rw [h]
  exact (exact_metadata.prefix_free hm hn happ).1

lemma fits_shared (c : CanonicalMetadata) : { c.metadata with hardlinkTo := none }.Fits := by
  have h := c.isValid.fits
  exact ⟨h.xattrs, h.aces, h.nativeAcl, h.times, h.holes, by simp⟩

lemma checkHole_of (e : Directory.Entry) {hole : Hole} (h : hole ∈ e.metadata.metadata.holes) :
    checkHole (Entry.of e) hole = Directory.checkHole e.content hole := by
  have hpos : hole.length ≠ 0 := ((holes_eq_ok.mp e.metadata.isValid.holes).1 hole h).1
  rw [Entry.of_eq]
  cases hc : e.content with
  | directory m => simp [checkHole, Directory.checkHole]
  | symlink t => simp [checkHole, Directory.checkHole]
  | file m bytes => simp [checkHole, Directory.checkHole, hpos, Directory.Content.bytes]

lemma forM_congr {ε α : Type} {f g : α → Except ε Unit} {xs : List α}
    (h : ∀ x ∈ xs, f x = g x) : xs.forM f = xs.forM g := by
  induction xs with
  | nil => rfl
  | cons x xs ih =>
    change (f x >>= fun _ => xs.forM f) = (g x >>= fun _ => xs.forM g)
    rw [h x (by simp), ih fun y hy => h y (by simp [hy])]

lemma shared_of_none {target : Directory.Entry}
    (hlink : target.metadata.metadata.hardlinkTo = none) :
    { target.metadata.metadata with hardlinkTo := none } = target.metadata.metadata := by
  cases hm : target.metadata.metadata
  simp_all

/-- Equal records have equal digests. -/
lemma hash_of_shared {e target : Directory.Entry}
    (hlink : target.metadata.metadata.hardlinkTo = none)
    (h : Directory.sharedMetadataEqual e.metadata.metadata target.metadata.metadata = true) :
    canonicalHash blake3 { e.metadata.metadata with hardlinkTo := none }
      = canonicalHash blake3 target.metadata.metadata := by
  rw [Directory.sharedMetadataEqual_iff] at h
  rw [h, shared_of_none hlink]

/-- Records that the digest tells apart compare by it. -/
lemma shared_of_hash {e target : Directory.Entry}
    (hfree : blake3 (sharedInput e.metadata) = blake3 (sharedInput target.metadata) →
      sharedInput e.metadata = sharedInput target.metadata)
    (hlink : target.metadata.metadata.hardlinkTo = none)
    (h : canonicalHash blake3 { e.metadata.metadata with hardlinkTo := none }
      = canonicalHash blake3 target.metadata.metadata) :
    Directory.sharedMetadataEqual e.metadata.metadata target.metadata.metadata = true := by
  rw [canonicalHash_eq_input, ← shared_of_none hlink, canonicalHash_eq_input] at h
  rw [Directory.sharedMetadataEqual_iff]
  exact wire_injective (fits_shared e.metadata) (fits_shared target.metadata)
    (List.append_cancel_left (hfree h))

/-- A reference the other program accepts is accepted here. -/
lemma checkHardlink_of_ok {before : List Directory.Entry} {e : Directory.Entry}
    (h : Directory.checkHardlink before e = .ok ()) :
    checkHardlink blake3 (before.map Entry.of) (Entry.of e) = .ok () := by
  rw [checkHardlink_eq_ok]
  intro path hpath
  obtain ⟨mode, bytes, target, hc, hat, htc, htlink, heq⟩ :=
    Directory.checkHardlink_eq_ok.mp h path hpath
  refine ⟨Entry.of target, ?_, Entry.kind_of_eq_file.mpr ⟨mode, bytes, hc⟩,
    Entry.kind_of_eq_file.mpr ⟨mode, bytes, htc⟩, htlink, ?_, ?_, hash_of_shared htlink heq⟩
  · rw [Directory.entryAt_map Entry.of Entry.pathOf_of, hat, Option.map_some]
  · rw [Entry.of_eq, Entry.of_eq, hc, htc]
  · rw [Entry.of_eq, Entry.of_eq, hc, htc]

/-- Checks that can only fail with one error agree when they accept alike. -/
lemma eq_of_ok_iff {ε : Type} {x y : Except ε Unit} {e : ε} (hx : x = .ok () ∨ x = .error e)
    (hy : y = .ok () ∨ y = .error e) (h : x = .ok () ↔ y = .ok ()) : x = y := by
  rcases hx with rfl | rfl <;> rcases hy with rfl | rfl
  · rfl
  · exact (h.mp rfl).symm
  · exact h.mpr rfl
  · rfl

lemma checkHardlink_of {before : List Directory.Entry} {e : Directory.Entry}
    (hfree : ∀ target ∈ before,
      blake3 (sharedInput e.metadata) = blake3 (sharedInput target.metadata) →
        sharedInput e.metadata = sharedInput target.metadata) :
    checkHardlink blake3 (before.map Entry.of) (Entry.of e) = Directory.checkHardlink before e := by
  refine eq_of_ok_iff (e := .invalidHardlinkRelation) ?_ ?_ ?_
  · unfold checkHardlink
    dsimp only
    repeat' split
    all_goals first | exact .inl rfl | exact .inr rfl
  · unfold Directory.checkHardlink
    repeat' split
    all_goals first | exact .inl rfl | exact .inr rfl
  · refine ⟨fun h => ?_, checkHardlink_of_ok⟩
    rw [Directory.checkHardlink_eq_ok]
    intro path hpath
    obtain ⟨target, hat, hkind, htkind, htlink, hmode, hdata, hhash⟩ :=
      checkHardlink_eq_ok.mp h path hpath
    rw [Directory.entryAt_map Entry.of Entry.pathOf_of, Option.map_eq_some_iff] at hat
    obtain ⟨target, hat, rfl⟩ := hat
    obtain ⟨mode, bytes, hc⟩ := Entry.kind_of_eq_file.mp hkind
    obtain ⟨mode', bytes', htc⟩ := Entry.kind_of_eq_file.mp htkind
    rw [Entry.of_eq, Entry.of_eq, hc, htc] at hmode hdata
    obtain rfl : mode' = mode := Directory.Mode.ext_bits hmode
    obtain rfl : bytes' = bytes := Slice.ext hdata
    exact ⟨mode', bytes', target, hc, hat, htc, htlink,
      shared_of_hash (hfree target (Directory.mem_of_entryAt hat).1) htlink hhash⟩

lemma validateMetadataRelations_of {entries : List Directory.Entry}
    (hfree : CollisionFree blake3 (entries.map Directory.Entry.metadata)) :
    validateMetadataRelations blake3 (entries.map Entry.of)
      = Directory.forBefore Directory.checkEntry [] entries := by
  rw [validateMetadataRelations, ← List.map_nil (f := Entry.of)]
  refine Directory.forBefore_map Entry.of fun pre e post hsplit => ?_
  have hmem : ∀ target ∈ pre ++ [e], target.metadata ∈ entries.map Directory.Entry.metadata := by
    rw [List.nil_append] at hsplit
    intro target ht
    refine List.mem_map_of_mem ?_
    rw [hsplit, List.append_cons]
    exact List.mem_append_left post ht
  have hlink : checkHardlink blake3 (pre.map Entry.of) (Entry.of e)
      = Directory.checkHardlink pre e :=
    checkHardlink_of fun target ht => hfree _ (hmem e (by simp)) _ (hmem target (by simp [ht]))
  rw [checkRelations, Directory.checkEntry, hlink]
  refine congrArg (· >>= fun _ => _) (forM_congr fun hole hhole => ?_)
  exact checkHole_of e hhole

lemma validateRootMetadata_of (root : Metadata) : validateRootMetadata root
    = if !root.holes.isEmpty then .error .invalidSparseExtent
      else if root.hardlinkTo.isSome then .error .invalidHardlinkRelation
      else .ok () := by
  rw [validateRootMetadata]
  refine if_congr ?_ rfl (if_congr ?_ rfl rfl)
  · simp
  · rw [Option.isSome_iff_ne_none]

lemma hashEntry_of (e : Directory.Entry) : hashEntry blake3 (Entry.of e)
    = Directory.CanonicalSnapshot.entryInput (CanonicalMetadata.hash blake3) e := by
  rw [hashEntry, Directory.CanonicalSnapshot.entryInput, Entry.kindTag_of, Entry.of_eq,
    canonicalHash_eq]

lemma map_newSnapshot {β : Type} (s : Directory.Snapshot) (f : Directory.Snapshot → β) :
    (Directory.CanonicalSnapshot.new s).map (fun c => f c.snapshot)
      = (s.check >>= fun _ => .ok (f s)) := by
  cases hn : Directory.CanonicalSnapshot.new s with
  | ok c =>
    obtain rfl := Directory.CanonicalSnapshot.new_eq_ok.mp hn
    rw [c.valid]
    rfl
  | error e =>
    unfold Directory.CanonicalSnapshot.new at hn
    split at hn
    · next e' h =>
      rw [h, ← Except.error.inj hn]
      rfl
    · exact absurd hn (by simp)

/-- Given that the relations are checked alike, taking the digest checks what the canonical check
checks and then digests the same bytes. -/
lemma treeHashWithRoot_eq {entries : List Directory.Entry} {root : CanonicalMetadata}
    (hrelations : validateMetadataRelations blake3 (entries.map Entry.of)
      = Directory.forBefore Directory.checkEntry [] entries) :
    treeHashWithRoot blake3 (entries.map Entry.of) root.metadata
      = (Directory.CanonicalSnapshot.new ⟨entries, root⟩).map fun c => c.hash blake3 := by
  have hnew := map_newSnapshot ⟨entries, root⟩ fun s =>
    blake3 (utf8 "DIFZTREE-ID\x02" ++ (toLeBytes (UInt32.ofNat s.entries.length)
      ++ (s.entries.flatMap
          (Directory.CanonicalSnapshot.entryInput (CanonicalMetadata.hash blake3))
      ++ Directory.CanonicalSnapshot.rootInput (CanonicalMetadata.hash blake3) s.root)))
  refine Eq.trans ?_ hnew.symm
  rw [treeHashWithRoot, Directory.Snapshot.check, validateSnapshot_of, hrelations,
    validateRootMetadata_of, bind_assoc, bind_assoc]
  simp only [List.length_map, List.flatMap_map, hashEntry_of, canonicalHash_eq]
  rfl

/-- For a canonical snapshot no assumption on the digest is needed. -/
theorem treeHashWithRoot_canonical (c : Directory.CanonicalSnapshot) :
    treeHashWithRoot blake3 (c.snapshot.entries.map Entry.of) c.snapshot.root.metadata
      = .ok (c.hash blake3) := by
  have hvalid := c.isValid
  have hrelations : validateMetadataRelations blake3 (c.snapshot.entries.map Entry.of)
      = Directory.forBefore Directory.checkEntry [] c.snapshot.entries := by
    rw [validateMetadataRelations, ← List.map_nil (f := Entry.of)]
    refine Directory.forBefore_map Entry.of fun pre e post hsplit => ?_
    have hlink := hvalid.hardlinks pre e post hsplit
    rw [checkRelations, Directory.checkEntry, hlink, checkHardlink_of_ok hlink]
    refine congrArg (· >>= fun _ => _) (forM_congr fun hole hhole => ?_)
    exact checkHole_of e hhole
  have hnew : Directory.CanonicalSnapshot.new ⟨c.snapshot.entries, c.snapshot.root⟩ = .ok c :=
    Directory.CanonicalSnapshot.new_eq_ok.mpr rfl
  rw [treeHashWithRoot_eq hrelations, hnew]
  rfl

end Zig

end Difz
