import Difz.Metadata.Normalize
import Difz.Restore.Recapture
import Difz.Transport.Native

/-!
# Metadata of symbolic links

Few filesystems keep metadata of a symbolic link. `writeSnapshotWith` (`src/directory_fs.zig`) tries
the native setters, compares what is there with what was asked for, and collects the difference in
a record for the parent directory; `mergeSymlinkMetadata` puts the record over the native metadata
again. Whatever the native calls did, the two cancel, `restoreEntries_transports`.
-/

namespace Difz

open Wire
open Metadata (Ace Hole NativeAcl Os Time Times Xattr XattrClass)

namespace Zig

open Program
open Program.Action (lift modify fold)
open Directory (basename hasDrivePrefix parentOf)

/-! ### Reading a link -/

def hasXattr (xattrs : List Xattr) (class_ : XattrClass) (name : List UInt8) : Bool :=
  xattrs.any fun x => x.class_ == class_ && x.name == name

def mergeXattrs (native kept : List Xattr) : List Xattr :=
  kept.foldl (fun attrs x => if hasXattr attrs x.class_ x.name then attrs else attrs ++ [x]) native

def mergeAcl (native : Metadata) (record : LinkRecord) : Metadata :=
  let kept := record.meta_
  let result := if kept.aces ≠ [] then { native with aces := kept.aces } else native
  let result := if kept.nativeAcl ≠ none then { result with nativeAcl := kept.nativeAcl } else result
  if record.aclOverride then { result with aces := kept.aces, nativeAcl := kept.nativeAcl }
  else result

/-- The modification time of the record counts only while the native one is the one observed. -/
def mergeTimes (native : Times) (record : LinkRecord) : Times :=
  let kept := record.meta_.times
  let result :=
    if native.mtime = record.observedMtime ∧ (kept.mtime ≠ none ∨ record.absentTimes &&& 1 ≠ 0) then
      { native with mtime := kept.mtime }
    else native
  let result := if kept.atime ≠ none then { result with atime := kept.atime } else result
  let result := if kept.btime ≠ none then { result with btime := kept.btime } else result
  let result := if record.absentTimes &&& 2 ≠ 0 then { result with atime := none } else result
  if record.absentTimes &&& 4 ≠ 0 then { result with btime := none } else result

def mergeFinder (native : Metadata) (record : LinkRecord) : Metadata :=
  let kept := record.meta_
  let result := if kept.finderFlags ≠ 0 then { native with finderFlags := kept.finderFlags }
    else native
  let result := if kept.finderInfo ≠ none then { result with finderInfo := kept.finderInfo }
    else result
  if record.finderOverride then
    { result with finderFlags := kept.finderFlags, finderInfo := kept.finderInfo }
  else result

def mergeSymlinkMetadata (native : Metadata) (record : LinkRecord) (omit_ : Omit) :
    Except Metadata.Error Metadata :=
  let result := { native with xattrs := mergeXattrs native.xattrs record.meta_.xattrs }
  let result := mergeAcl result record
  let result := { result with times := mergeTimes native.times record }
  canonicalize (mergeFinder result record) omit_

/-! ### Restoring a link -/

/-- The record for the parent directory, if one is needed, and the native values at the moments at
which its parts were decided. -/
structure LinkOutcome where
  entry : Entry
  record : Option LinkRecord
  decided : Captured

/-- A part of a family that is left out is not kept. -/
def deciding (omitted : Bool) (needed : Restoring Bool) : Restoring (Bool × Captured) :=
  if omitted then seen >>= fun decided => pure (false, decided)
  else do
    let keep ← needed
    let decided ← seen
    pure (keep, decided)

variable (host : Host) (blake3 : List UInt8 → Digest)

/-- Both parts of the access control are compared together. -/
def aclNeedsTransport (m : Metadata) : Restoring Bool := do
  let acl ← capture Captured.acl
  let actual ← lift ((canonicalize (aclOnly acl.aces acl.nativeAcl)
    (Omit.of Metadata.Omit.default)).mapError RestoreError.metadata)
  pure (decide (canonicalHash blake3 (aclOnly actual.aces actual.nativeAcl)
    ≠ canonicalHash blake3 (aclOnly m.aces m.nativeAcl)))

def finderNeedsTransport (m : Metadata) : Restoring Bool := do
  let actual ← capture Captured.finder
  pure (decide (canonicalHash blake3 (finderOnly actual.finderFlags actual.finderInfo)
    ≠ canonicalHash blake3 (finderOnly m.finderFlags m.finderInfo)))

/-- Which parts of the record of a link have to be kept. -/
structure Keeping where
  xattrs : List Xattr
  birth : Bool
  mtime : Bool
  acl : Bool
  finder : Bool

def Keeping.metadata (k : Keeping) (m : Metadata) : Metadata where
  xattrs := k.xattrs
  aces := if k.acl then m.aces else []
  nativeAcl := if k.acl then m.nativeAcl else none
  times := ⟨if k.mtime then m.times.mtime else none, none, if k.birth then m.times.btime else none⟩
  finderInfo := if k.finder then m.finderInfo else none
  finderFlags := if k.finder then m.finderFlags else 0
  holes := []
  hardlinkTo := none

def Keeping.absentTimes (k : Keeping) (m : Metadata) : UInt8 :=
  (k.mtime && m.times.mtime.isNone).toUInt8 ||| ((k.birth && m.times.btime.isNone).toUInt8 <<< 2)

/-- Something has to be kept. -/
def Keeping.needed (k : Keeping) (m : Metadata) : Bool :=
  !(k.metadata m).isEmpty || k.absentTimes m != 0 || k.acl || k.finder

def Keeping.record (k : Keeping) (e : Entry) (observedMtime : Option Time) : LinkRecord where
  name := basename e.path
  meta_ := k.metadata e.meta_
  absentTimes := k.absentTimes e.meta_
  observedMtime := observedMtime
  aclOverride := k.acl
  finderOverride := k.finder

/-- The stamp that goes with a modification time that is kept. -/
def observeModification (keep : Bool) : Restoring (Option Time) :=
  if keep then do
    let mtime ← capture Captured.mtime
    pure (some (timeFromTimestamp mtime))
  else pure none

def emitRecord (e : Entry) (k : Keeping) (decided : Captured) : Restoring LinkOutcome :=
  if k.needed e.meta_ then do
    let observed ← observeModification k.mtime
    pure ⟨e, some (k.record e observed), decided⟩
  else pure ⟨e, none, decided⟩

/-- The first loop of `writeSnapshotWith` for a symbolic link. -/
def restoreLink (omit_ : Omit) (e : Entry) : Restoring LinkOutcome := do
  let xattrs ← restoreXattrs host e.meta_ true
  let birth ← decideBirth host omit_.timestamps e.meta_.times.btime
  let _ ← unlessOmitting omit_.finder (setFinder host e.meta_)
  let mtime ← deciding omit_.timestamps (mtimeNeedsTransport host e.meta_.times.mtime)
  let acl ← deciding omit_.acl (aclNeedsTransport blake3 e.meta_)
  let finder ← deciding omit_.finder (finderNeedsTransport blake3 e.meta_)
  emitRecord e ⟨xattrs, birth.1, mtime.1, acl.1, finder.1⟩
    { finder.2 with birth := birth.2.birth, mtime := mtime.2.mtime, acl := acl.2.acl }

variable {host blake3} {o o' u : Object} {m : Metadata} {mask : Metadata.Omit} {k : Keeping}
  {decided : Captured}

/-! ### What the writer decides -/

/-- A part that is not kept was seen in place. A modification time comes with the stamp that was
seen, and the record holds it exactly when that stamp is not the one asked for. -/
structure Decides (blake3 : List UInt8 → Digest) (omit_ : Omit) (m : Metadata) (k : Keeping)
    (decided : Captured) : Prop where
  xattrs : k.xattrs.Sublist m.xattrs
  birth : if omit_.timestamps then k.birth = false
    else k.birth = false → decided.birth = .ok m.times.btime
  mtime : if omit_.timestamps then k.mtime = false
    else ∃ stamp, decided.mtime = .ok stamp ∧
      k.mtime = decide (m.times.mtime ≠ some (timeFromTimestamp stamp))
  acl : if omit_.acl then k.acl = false
    else ∃ acl actual, decided.acl = .ok acl ∧
      canonicalize (aclOnly acl.aces acl.nativeAcl) (Omit.of Metadata.Omit.default) = .ok actual ∧
      (k.acl = false → canonicalHash blake3 (aclOnly actual.aces actual.nativeAcl)
        = canonicalHash blake3 (aclOnly m.aces m.nativeAcl))
  finder : if omit_.finder then k.finder = false
    else ∃ actual, decided.finder = .ok actual ∧
      (k.finder = false → canonicalHash blake3 (finderOnly actual.finderFlags actual.finderInfo)
        = canonicalHash blake3 (finderOnly m.finderFlags m.finderInfo))

/-- Nothing but the attribute itself is ever collected. -/
lemma restoreXattr_triple (preserved : List Xattr) (x : Xattr) :
    Triple (fun _ => True) (restoreXattr host true preserved x)
      (fun kept _ => kept = preserved ∨ kept = preserved ++ [x]) (fun _ => True) := by
  have hset : ∀ class_ : XattrClass, Triple (fun _ => True)
      (tryCall (host.setAttribute class_ x.name x.value) >>= fun _ => pure preserved)
      (fun kept _ => kept = preserved ∨ kept = preserved ++ [x]) (fun _ => True) := by
    intro class_
    refine Triple.bind (Q := fun _ _ => True) (fun o _ => ?_) fun _ => Triple.pure fun _ _ => .inl rfl
    generalize tryCall (host.setAttribute class_ x.name x.value) o = r
    obtain ⟨e | a, o'⟩ := r <;> trivial
  have hcollect : Triple (fun _ => True) (pure (preserved ++ [x]) : Restoring (List Xattr))
      (fun kept _ => kept = preserved ∨ kept = preserved ++ [x]) (fun _ => True) :=
    Triple.pure fun _ _ => .inr rfl
  rw [restoreXattr]
  cases x.class_ with
  | logical =>
    refine (hset .logical).handle fun e => ?_
    split_ifs
    · exact hcollect
    · exact Triple.fail fun _ _ => trivial
  | raw =>
    dsimp only
    split_ifs
    · exact hcollect
    · refine (hset .raw).handle fun e => ?_
      split_ifs
      · exact hcollect
      · exact Triple.fail fun _ _ => trivial

lemma restoreXattrs_sublist {kept : List Xattr}
    (h : restoreXattrs host m true o = (.ok kept, o')) : kept.Sublist m.xattrs := by
  have hfold : ∀ (xs preserved : List Xattr), Triple (fun _ => True)
      (fold (restoreXattr host true) preserved xs)
      (fun kept _ => ∃ rest, kept = preserved ++ rest ∧ rest.Sublist xs) (fun _ => True) := by
    intro xs
    induction xs with
    | nil => exact fun preserved => Triple.pure fun _ _ => ⟨[], by simp⟩
    | cons x xs ih =>
      intro preserved
      refine Triple.bind (restoreXattr_triple preserved x) fun next o hnext => ?_
      refine Triple.mono (ih next) (fun _ h => h) (fun kept _ hkept => ?_) (fun _ h => h) o trivial
      obtain ⟨rest, rfl, hrest⟩ := hkept
      rcases hnext with rfl | rfl
      · exact ⟨rest, rfl, hrest.cons x⟩
      · exact ⟨x :: rest, by simp, hrest.cons_cons x⟩
  obtain ⟨preserved, o₁, hrun, hpure⟩ := bind_eq_ok.mp h
  obtain ⟨rfl, -⟩ := pure_eq_ok hpure
  obtain ⟨rest, rfl, hrest⟩ := Triple.of_ok (hfold m.xattrs []) trivial hrun
  exact hrest

lemma deciding_eq_ok {omitted : Bool} {needed : Restoring Bool} {decision : Bool × Captured}
    (h : deciding omitted needed o = (.ok decision, o')) :
    if omitted then decision.1 = false ∧ o' = o
    else needed o = (.ok decision.1, o') ∧ decision.2 = o'.captured := by
  cases omitted with
  | true =>
    obtain ⟨c, _, hseen, h⟩ := bind_eq_ok.mp h
    obtain ⟨-, rfl⟩ := seen_eq_ok hseen
    obtain ⟨rfl, rfl⟩ := pure_eq_ok h
    exact ⟨rfl, rfl⟩
  | false =>
    obtain ⟨keep, o₁, hneeded, h⟩ := bind_eq_ok.mp h
    obtain ⟨c, _, hseen, h⟩ := bind_eq_ok.mp h
    obtain ⟨rfl, rfl⟩ := seen_eq_ok hseen
    obtain ⟨rfl, rfl⟩ := pure_eq_ok h
    exact ⟨hneeded, rfl⟩

lemma mtimeNeedsTransport_eq_ok {desired : Option Time} {keep : Bool}
    (h : mtimeNeedsTransport host desired o = (.ok keep, o')) :
    ∃ stamp, o'.captured.mtime = .ok stamp ∧
      keep = decide (desired ≠ some (timeFromTimestamp stamp)) := by
  obtain ⟨_, o₁, -, h⟩ := bind_eq_ok.mp h
  obtain ⟨stamp, _, hcapture, hpure⟩ := bind_eq_ok.mp h
  obtain ⟨hstamp, rfl⟩ := capture_eq_ok hcapture
  obtain ⟨rfl, rfl⟩ := pure_eq_ok hpure
  exact ⟨stamp, hstamp, rfl⟩

lemma aclNeedsTransport_eq_ok {keep : Bool}
    (h : aclNeedsTransport blake3 m o = (.ok keep, o')) :
    o' = o ∧ ∃ acl actual, o.captured.acl = .ok acl ∧
      canonicalize (aclOnly acl.aces acl.nativeAcl) (Omit.of Metadata.Omit.default) = .ok actual ∧
      (keep = false → canonicalHash blake3 (aclOnly actual.aces actual.nativeAcl)
        = canonicalHash blake3 (aclOnly m.aces m.nativeAcl)) := by
  obtain ⟨acl, _, hcapture, hrest⟩ := bind_eq_ok.mp h
  obtain ⟨hacl, rfl⟩ := capture_eq_ok hcapture
  obtain ⟨actual, _, hlift, hpure⟩ := bind_eq_ok.mp hrest
  obtain ⟨hactual, rfl⟩ := lift_eq_ok hlift
  obtain ⟨rfl, rfl⟩ := pure_eq_ok hpure
  exact ⟨rfl, acl, actual, hacl, mapError_eq_ok.mp hactual, by simp⟩

lemma finderNeedsTransport_eq_ok {keep : Bool}
    (h : finderNeedsTransport blake3 m o = (.ok keep, o')) :
    o' = o ∧ ∃ actual, o.captured.finder = .ok actual ∧
      (keep = false → canonicalHash blake3 (finderOnly actual.finderFlags actual.finderInfo)
        = canonicalHash blake3 (finderOnly m.finderFlags m.finderInfo)) := by
  obtain ⟨actual, _, hcapture, hpure⟩ := bind_eq_ok.mp h
  obtain ⟨hactual, rfl⟩ := capture_eq_ok hcapture
  obtain ⟨rfl, rfl⟩ := pure_eq_ok hpure
  exact ⟨rfl, actual, hactual, by simp⟩

/-- The stamp in a record is the one on which the modification time was decided. -/
def Observes (k : Keeping) (decided : Captured) (observed : Option Time) : Prop :=
  if k.mtime then ∃ stamp, decided.mtime = .ok stamp ∧ observed = some (timeFromTimestamp stamp)
  else observed = none

/-- When no record is needed, nothing is kept: a timestamp that is kept is present or absent, and
the record says either. -/
lemma Keeping.eq_of_not_needed (h : k.needed m = false) :
    k = ⟨[], false, false, false, false⟩ := by
  obtain ⟨xattrs, birth, mtime, acl, finder⟩ := k
  simp only [Keeping.needed, Bool.or_eq_false_iff, Bool.not_eq_false', bne_eq_false_iff_eq,
    Metadata.isEmpty_iff] at h
  obtain ⟨⟨⟨hempty, habsent⟩, rfl⟩, rfl⟩ := h
  have hbits : ∀ a b : Bool, a.toUInt8 ||| (b.toUInt8 <<< 2) = 0 → a = false ∧ b = false := by
    decide
  obtain ⟨hm, hb⟩ := hbits _ _ habsent
  have hxattrs : xattrs = [] := congrArg Metadata.xattrs hempty
  have hmtime : (if mtime then m.times.mtime else none) = none :=
    congrArg (fun r => r.times.mtime) hempty
  have hbirth : (if birth then m.times.btime else none) = none :=
    congrArg (fun r => r.times.btime) hempty
  simp_all

lemma emitRecord_eq_ok {e : Entry} {outcome : LinkOutcome}
    (h : emitRecord e k decided o = (.ok outcome, o'))
    (hstamp : k.mtime = true → decided.mtime = o.captured.mtime) :
    ∃ observed, Observes k decided observed ∧
      outcome = ⟨e, if k.needed e.meta_ then some (k.record e observed) else none, decided⟩ := by
  rw [emitRecord] at h
  split_ifs at h with hneeded
  · obtain ⟨observed, o₁, hobserve, hpure⟩ := bind_eq_ok.mp h
    obtain ⟨rfl, -⟩ := pure_eq_ok hpure
    refine ⟨observed, ?_, by rw [if_pos hneeded]⟩
    rw [observeModification] at hobserve
    rw [Observes]
    split_ifs at hobserve ⊢ with hkeep
    · obtain ⟨stamp, _, hcapture, hpure'⟩ := bind_eq_ok.mp hobserve
      obtain ⟨hcaptured, rfl⟩ := capture_eq_ok hcapture
      obtain ⟨rfl, -⟩ := pure_eq_ok hpure'
      exact ⟨stamp, (hstamp hkeep).trans hcaptured, rfl⟩
    · exact (pure_eq_ok hobserve).1
  · obtain ⟨rfl, -⟩ := pure_eq_ok h
    refine ⟨none, ?_, by rw [if_neg hneeded]⟩
    have hnothing : k.needed e.meta_ = false := by simpa using hneeded
    rw [Observes, Keeping.eq_of_not_needed hnothing]
    rfl

theorem restoreLink_eq_ok {omit_ : Omit} {e : Entry} {outcome : LinkOutcome}
    (h : restoreLink host blake3 omit_ e o = (.ok outcome, o')) :
    outcome.entry = e ∧ ∃ k observed, Decides blake3 omit_ e.meta_ k outcome.decided ∧
      Observes k outcome.decided observed ∧
      outcome.record = if k.needed e.meta_ then some (k.record e observed) else none := by
  obtain ⟨xattrs, o₁, hxattrs, h⟩ := bind_eq_ok.mp h
  obtain ⟨birth, o₂, hbirth, h⟩ := bind_eq_ok.mp h
  obtain ⟨_, o₃, -, h⟩ := bind_eq_ok.mp h
  obtain ⟨mtime, o₄, hmtime, h⟩ := bind_eq_ok.mp h
  obtain ⟨acl, o₅, hacl, h⟩ := bind_eq_ok.mp h
  obtain ⟨finder, o₆, hfinder, hemit⟩ := bind_eq_ok.mp h
  have hmtime := deciding_eq_ok hmtime
  have hacl := deciding_eq_ok hacl
  have hfinder := deciding_eq_ok hfinder
  -- comparing the access control and the Finder fields does not touch the object
  have hsame₅ : o₅ = o₄ := by
    split_ifs at hacl
    · exact hacl.2
    · exact (aclNeedsTransport_eq_ok hacl.1).1
  have hsame₆ : o₆ = o₅ := by
    split_ifs at hfinder
    · exact hfinder.2
    · exact (finderNeedsTransport_eq_ok hfinder.1).1
  subst hsame₅ hsame₆
  have hdecides : Decides blake3 omit_ e.meta_ ⟨xattrs, birth.1, mtime.1, acl.1, finder.1⟩
      { finder.2 with birth := birth.2.birth, mtime := mtime.2.mtime, acl := acl.2.acl } := by
    refine ⟨restoreXattrs_sublist hxattrs, ?_, ?_, ?_, ?_⟩
    · cases homit : omit_.timestamps with
      | true =>
        rw [homit] at hbirth
        obtain ⟨c, _, -, hpure⟩ := bind_eq_ok.mp hbirth
        rw [(pure_eq_ok hpure).1]
        rfl
      | false =>
        rw [homit] at hbirth
        exact decideBirth_eq_ok hbirth
    · cases homit : omit_.timestamps with
      | true => exact (if_pos homit ▸ hmtime).1
      | false =>
        rw [if_neg (by simp [homit])] at hmtime
        obtain ⟨stamp, hstamp, hkeep⟩ := mtimeNeedsTransport_eq_ok hmtime.1
        rw [← hmtime.2] at hstamp
        exact ⟨stamp, hstamp, hkeep⟩
    · cases homit : omit_.acl with
      | true => exact (if_pos homit ▸ hacl).1
      | false =>
        rw [if_neg (by simp [homit])] at hacl
        obtain ⟨-, hfound⟩ := aclNeedsTransport_eq_ok hacl.1
        rw [← hacl.2] at hfound
        exact hfound
    · cases homit : omit_.finder with
      | true => exact (if_pos homit ▸ hfinder).1
      | false =>
        rw [if_neg (by simp [homit])] at hfinder
        obtain ⟨-, hfound⟩ := finderNeedsTransport_eq_ok hfinder.1
        rw [← hfinder.2] at hfound
        exact hfound
  have hstamp : mtime.1 = true → mtime.2.mtime = o₆.captured.mtime := by
    intro hkeep
    split_ifs at hmtime
    · exact absurd (hmtime.1.symm.trans hkeep) (by simp)
    · exact congrArg Captured.mtime hmtime.2
  obtain ⟨observed, hobserves, rfl⟩ := emitRecord_eq_ok hemit hstamp
  exact ⟨rfl, _, observed, hdecides, hobserves, rfl⟩

/-! ### The native metadata of a link -/

variable (blake3) in
/-- What `walk` knows of a link before it looks for a record. -/
def readNative (u : Object) (omit_ : Omit) : Except RestoreError Metadata := do
  let timestamp ← u.captured.mtime.mapError RestoreError.native
  let birth ← birthFor u omit_.timestamps
  metadataFor blake3 u omit_ timestamp birth

/-- Without sidecars every family is the native one. -/
structure ReadsNative (u : Object) (omit_ : Omit) (native : Metadata) : Prop where
  times : if omit_.timestamps then native.times = Times.default
    else ∃ now birth, u.captured.mtime = .ok now ∧ u.captured.birth = .ok birth ∧
      native.times = ⟨some (timeFromTimestamp now), none, birth⟩
  acl : if omit_.acl then native.aces = [] ∧ native.nativeAcl = none
    else ∃ acl, u.captured.acl = .ok acl ∧ canonicalAces acl.aces = .ok native.aces ∧
      native.nativeAcl = acl.nativeAcl
  finder : if omit_.finder then native.finderFlags = 0 ∧ native.finderInfo = none
    else ∃ finder, u.captured.finder = .ok finder ∧ native.finderFlags = finder.finderFlags ∧
      native.finderInfo = finder.finderInfo
  xattrs : ∃ xattrs, canonicalXattrs xattrs = .ok native.xattrs
  holes : native.holes = []
  hardlinkTo : native.hardlinkTo = none

lemma readField_of_fresh (hfresh : Fresh u) {name : String} (hname : name ∈ valueSidecars)
    (field : Metadata → Metadata) : readField blake3 u name field = .ok none := by
  rw [readField, hfresh name hname]

lemma readNative_eq_ok {omit_ : Omit} {native : Metadata} (hfresh : Fresh u)
    (h : readNative blake3 u omit_ = .ok native) : ReadsNative u omit_ native := by
  obtain ⟨now, hnow, h⟩ := Wire.bind_eq_ok.mp h
  obtain ⟨birth, hbirth, h⟩ := Wire.bind_eq_ok.mp h
  obtain ⟨times, htimes, h⟩ := Wire.bind_eq_ok.mp h
  obtain ⟨xattrs, hxattrs, h⟩ := Wire.bind_eq_ok.mp h
  obtain ⟨acl, hacl, h⟩ := Wire.bind_eq_ok.mp h
  obtain ⟨finder, hfinder, h⟩ := Wire.bind_eq_ok.mp h
  obtain ⟨hsorted, haces, -, -, hholes, -, heq⟩ := canonicalize_eq_ok.mp (mapError_eq_ok.mp h)
  have hnow := mapError_eq_ok.mp hnow
  refine ⟨?_, ?_, ?_, ⟨xattrs, hsorted⟩, ?_, by rw [heq]⟩
  · have hsame : native.times = times := by rw [heq]
    rw [hsame]
    rw [birthFor] at hbirth
    rw [timesFor] at htimes
    split_ifs at hbirth htimes ⊢
    · exact (Except.ok.inj htimes).symm
    · rw [readTimeOverride, readModificationOverride, hfresh "difz.btime" (by decide),
        hfresh "difz.mtime" (by decide)] at htimes
      exact ⟨now, birth, hnow, mapError_eq_ok.mp hbirth, (Except.ok.inj htimes).symm⟩
  · have hsame : native.nativeAcl = acl.2 := by rw [heq]
    rw [hsame]
    rw [aclFor] at hacl
    split_ifs at hacl ⊢
    · obtain rfl := Except.ok.inj hacl
      exact ⟨Except.ok.inj (haces.symm.trans (canonicalAces_eq rfl)), rfl⟩
    · rw [readAcl, readField_of_fresh hfresh (by decide), readField_of_fresh hfresh (by decide)]
        at hacl
      obtain ⟨captured, hcaptured, hrest⟩ := Wire.bind_eq_ok.mp hacl
      obtain rfl := Except.ok.inj hrest
      exact ⟨captured, mapError_eq_ok.mp hcaptured, haces, rfl⟩
  · have hflags : native.finderFlags = finder.1 := by rw [heq]
    have hinfo : native.finderInfo = finder.2 := by rw [heq]
    rw [hflags, hinfo]
    rw [finderFor] at hfinder
    split_ifs at hfinder ⊢
    · obtain rfl := Except.ok.inj hfinder
      exact ⟨rfl, rfl⟩
    · rw [readFinder, readField_of_fresh hfresh (by decide), readField_of_fresh hfresh (by decide)]
        at hfinder
      obtain ⟨captured, hcaptured, hrest⟩ := Wire.bind_eq_ok.mp hfinder
      obtain rfl := Except.ok.inj hrest
      exact ⟨captured, mapError_eq_ok.mp hcaptured, rfl, rfl⟩
  · exact Except.ok.inj (hholes.symm.trans (canonicalHoles_eq rfl))

/-! ### Attributes in any order -/

lemma mergeSort_xattrs (xs : List Xattr) :
    xs.mergeSort (fun a b => !xattrLess b a) = (Metadata.Sorter.byKey Xattr.key).run xs := by
  simp only [Metadata.Sorter.run_byKey, xattrLess_eq]

/-- Canonicalizing puts the attributes of a canonical record back in order. -/
lemma canonicalXattrs_of_perm {xs ys : List Xattr}
    (h : Metadata.forPrevious Metadata.checkXattr none ys = .ok ()) (hperm : xs.Perm ys) :
    canonicalXattrs xs = .ok ys := by
  have hys : Metadata.Increasing Xattr.key ys := (Metadata.xattrs_eq_ok.mp h).2
  have hsort : ∀ zs : List Xattr, zs.Perm ys → zs.mergeSort (fun a b => !xattrLess b a) = ys := by
    intro zs hzs
    rw [mergeSort_xattrs]
    refine Metadata.Increasing.eq_of_perm (Metadata.Sorter.increasing _ ?_) hys ?_
    · exact (hzs.map Xattr.key).nodup_iff.mpr hys.nodup
    · exact ((Metadata.Sorter.byKey Xattr.key).perm zs).trans hzs
  have hcanonical := canonicalXattrs_eq h
  rw [canonicalXattrs, canonicalList, hsort ys (List.Perm.refl ys), seq_eq_ok, seq_eq_ok]
    at hcanonical
  rw [canonicalXattrs, canonicalList, hsort xs hperm, seq_eq_ok, seq_eq_ok]
  refine ⟨?_, hcanonical.2⟩
  exact forM_eq_ok.mpr fun x hx => forM_eq_ok.mp hcanonical.1 x (hperm.subset hx)

lemma perm_of_canonicalXattrs {xs sorted : List Xattr} (h : canonicalXattrs xs = .ok sorted) :
    sorted.Perm xs := by
  obtain ⟨_, -, h⟩ := Wire.bind_eq_ok.mp h
  obtain ⟨_, -, h⟩ := Wire.bind_eq_ok.mp h
  rw [← Except.ok.inj h]
  exact List.mergeSort_perm _ _

/-- As `canonicalize_eq`, with the attributes in any order. -/
lemma canonicalize_of_perm {c : CanonicalMetadata} {xattrs : List Xattr}
    (hperm : xattrs.Perm c.metadata.xattrs) :
    canonicalize { c.metadata with xattrs } (Omit.of mask) = .ok (c.metadata.retain mask) := by
  rw [← canonicalize_eq, canonicalize, canonicalize]
  dsimp only
  rw [canonicalXattrs_of_perm c.isValid.xattrs hperm, canonicalXattrs_eq c.isValid.xattrs]

/-! ### Merging -/

/-- Attributes that are not there yet are appended. -/
lemma mergeXattrs_eq {native kept : List Xattr} (h : ((native ++ kept).map Xattr.key).Nodup) :
    mergeXattrs native kept = native ++ kept := by
  induction kept generalizing native with
  | nil => rw [List.append_nil]; rfl
  | cons x kept ih =>
    have hnew : hasXattr native x.class_ x.name = false := by
      rw [hasXattr, List.any_eq_false]
      intro y hy hsame
      obtain ⟨hclass, hname⟩ : y.class_ = x.class_ ∧ y.name = x.name := by simpa using hsame
      rw [List.map_append, List.nodup_append] at h
      refine h.2.2 y.key (List.mem_map_of_mem hy) x.key (List.mem_map_of_mem List.mem_cons_self) ?_
      rw [Xattr.key, Xattr.key, hclass, hname]
    have hstep : mergeXattrs native (x :: kept) = mergeXattrs (native ++ [x]) kept := by
      rw [mergeXattrs, List.foldl_cons, hnew]
      rfl
    rw [hstep, ih (by simpa using h), List.append_assoc]
    rfl

/-- The attributes that are not kept are the ones that could be stored. -/
lemma perm_stored {xattrs kept : List Xattr} (hnodup : xattrs.Nodup) (hsub : kept.Sublist xattrs) :
    (xattrs.filter (fun x => decide (x ∉ kept)) ++ kept).Perm xattrs := by
  have hkept : (xattrs.filter fun x => decide (x ∈ kept)).Perm kept := by
    refine (List.perm_ext_iff_of_nodup (hnodup.filter _) (hnodup.sublist hsub)).mpr fun x => ?_
    simpa using fun hx => hsub.subset hx
  have hsplit := List.filter_append_perm (fun x => decide (x ∉ kept)) xattrs
  simp only [decide_not, Bool.not_not] at hsplit ⊢
  exact (hkept.symm.append_left _).trans hsplit

variable {e : Entry} {observed : Option Time} {native : Metadata}

/-- A family is taken from the record, with what is absent there, or left as it is. -/
lemma mergeAcl_record : mergeAcl native (k.record e observed) = { native with
    aces := if k.acl then e.meta_.aces else native.aces
    nativeAcl := if k.acl then e.meta_.nativeAcl else native.nativeAcl } := by
  obtain ⟨xattrs, birth, mtime, acl, finder⟩ := k
  cases acl with
  | true =>
    simp only [mergeAcl, Keeping.record, Keeping.metadata, if_true]
    split_ifs <;> rfl
  | false => simp [mergeAcl, Keeping.record, Keeping.metadata]

lemma mergeFinder_record : mergeFinder native (k.record e observed) = { native with
    finderFlags := if k.finder then e.meta_.finderFlags else native.finderFlags
    finderInfo := if k.finder then e.meta_.finderInfo else native.finderInfo } := by
  obtain ⟨xattrs, birth, mtime, acl, finder⟩ := k
  cases finder with
  | true =>
    simp only [mergeFinder, Keeping.record, Keeping.metadata, if_true]
    split_ifs <;> rfl
  | false => simp [mergeFinder, Keeping.record, Keeping.metadata]

/-- Which timestamps are marked as absent. -/
lemma Keeping.absentTimes_and (k : Keeping) (m : Metadata) :
    (k.absentTimes m &&& 1 ≠ 0 ↔ k.mtime = true ∧ m.times.mtime = none) ∧
    k.absentTimes m &&& 2 = 0 ∧
    (k.absentTimes m &&& 4 ≠ 0 ↔ k.birth = true ∧ m.times.btime = none) ∧
    k.absentTimes m &&& ~~~7 = 0 := by
  have hbits : ∀ a b : Bool, (a.toUInt8 ||| (b.toUInt8 <<< 2)) &&& 2 = 0 ∧
      (a.toUInt8 ||| (b.toUInt8 <<< 2)) &&& ~~~7 = 0 ∧
      ((a.toUInt8 ||| (b.toUInt8 <<< 2)) &&& 1 ≠ 0 ↔ a = true) ∧
      ((a.toUInt8 ||| (b.toUInt8 <<< 2)) &&& 4 ≠ 0 ↔ b = true) := by
    decide
  obtain ⟨h₂, h₇, h₁, h₄⟩ := hbits (k.mtime && m.times.mtime.isNone)
    (k.birth && m.times.btime.isNone)
  rw [Keeping.absentTimes, h₁, h₄, Bool.and_eq_true, Bool.and_eq_true,
    Option.isNone_iff_eq_none, Option.isNone_iff_eq_none]
  exact ⟨Iff.rfl, h₂, Iff.rfl, h₇⟩

lemma mergeTimes_record : mergeTimes native.times (k.record e observed) = ⟨
    if k.mtime = true ∧ native.times.mtime = observed then e.meta_.times.mtime
      else native.times.mtime,
    native.times.atime,
    if k.birth then e.meta_.times.btime else native.times.btime⟩ := by
  obtain ⟨h₁, h₂, h₄, -⟩ := k.absentTimes_and e.meta_
  have hmtime : (native.times.mtime = observed ∧ ((k.metadata e.meta_).times.mtime ≠ none ∨
      k.absentTimes e.meta_ &&& 1 ≠ 0)) ↔ k.mtime = true ∧ native.times.mtime = observed := by
    rw [h₁, Keeping.metadata, and_comm]
    refine and_congr_left fun _ => ?_
    cases k.mtime with
    | true => simpa using em' (e.meta_.times.mtime = none)
    | false => simp
  have habsent : (k.record e observed).absentTimes = k.absentTimes e.meta_ := rfl
  have hkept : (k.record e observed).meta_ = k.metadata e.meta_ := rfl
  have hobserved : (k.record e observed).observedMtime = observed := rfl
  rw [mergeTimes, habsent, hkept, hobserved]
  simp only [hmtime, h₂, h₄, ne_eq, not_true_eq_false, if_false]
  by_cases hm : k.mtime = true ∧ native.times.mtime = observed
  · cases hb : k.birth with
    | true => cases hbtime : e.meta_.times.btime <;> simp [hm, hb, hbtime, Keeping.metadata]
    | false => simp [hm, hb, Keeping.metadata]
  · cases hb : k.birth with
    | true => cases hbtime : e.meta_.times.btime <;> simp [hm, hb, hbtime, Keeping.metadata]
    | false => simp [hm, hb, Keeping.metadata]

/-! ### One link -/

/-- Canonical metadata that a link can have, without the families that are left out. -/
structure Desired (mask : Metadata.Omit) (m : Metadata) : Prop where
  valid : m.Valid
  retained : m.retain mask = m
  atime : m.times.atime = none
  holes : m.holes = []
  hardlinkTo : m.hardlinkTo = none

/-- The native values on which a record was decided are still there. -/
structure Stays (omit_ : Omit) (decided now : Captured) : Prop where
  birth : omit_.timestamps = false → now.birth = decided.birth
  acl : omit_.acl = false → now.acl = decided.acl
  finder : omit_.finder = false → now.finder = decided.finder

/-- The records that are compared by digest. -/
structure TellsLinkApart (blake3 : List UInt8 → Digest) (m : Metadata) (decided : Captured) :
    Prop where
  acl : ∀ acl actual, decided.acl = .ok acl →
    canonicalize (aclOnly acl.aces acl.nativeAcl) (Omit.of Metadata.Omit.default) = .ok actual →
      TellsApart blake3 (aclOnly actual.aces actual.nativeAcl) (aclOnly m.aces m.nativeAcl)
  finder : ∀ finder, decided.finder = .ok finder →
    TellsApart blake3 (finderOnly finder.finderFlags finder.finderInfo)
      (finderOnly m.finderFlags m.finderInfo)

section Families

variable (hdesired : Desired mask m) (hdecides : Decides blake3 (Omit.of mask) m k decided)
  (hreads : ReadsNative u (Omit.of mask) native) (hstays : Stays (Omit.of mask) decided u.captured)

include hdesired hdecides hreads hstays

lemma native_acl (hapart : TellsLinkApart blake3 m decided) (hkeep : k.acl = false) :
    native.aces = m.aces ∧ native.nativeAcl = m.nativeAcl := by
  have hread := hreads.acl
  have hdecide := hdecides.acl
  split_ifs at hread hdecide with homit
  · have hcontains : mask.contains .acl = true := homit
    have hretained := hdesired.retained
    rw [Metadata.retain_eq] at hretained
    have haces := congrArg Metadata.aces hretained
    have hnative := congrArg Metadata.nativeAcl hretained
    dsimp only at haces hnative
    rw [if_pos hcontains] at haces hnative
    exact ⟨hread.1.trans haces, hread.2.trans hnative⟩
  · obtain ⟨acl, actual, hacl, hcanonical, hhash⟩ := hdecide
    obtain ⟨acl', hacl', haces, hnative⟩ := hread
    rw [hstays.acl (by simpa using homit), hacl, Except.ok.injEq] at hacl'
    subst hacl'
    obtain ⟨-, hsorted, -, -, -, -, hactual⟩ := canonicalize_eq_ok.mp hcanonical
    have hsameAces : actual.aces = native.aces := Except.ok.inj (hsorted.symm.trans haces)
    have hsameNative : actual.nativeAcl = native.nativeAcl := by
      rw [hactual, hnative]
      rfl
    have hwire := (hapart.acl acl actual hacl hcanonical).wire_eq (hhash hkeep)
    have hperm := perm_of_canonicalAces haces
    have hfits : (aclOnly actual.aces actual.nativeAcl).Fits := by
      rw [hsameAces, hsameNative, hnative]
      exact { acl.fits with
        aces := ⟨hperm.length_eq ▸ acl.fits.aces.1, fun a ha => acl.fits.aces.2 a (hperm.subset ha)⟩ }
    have hfits' : (aclOnly m.aces m.nativeAcl).Fits :=
      { CanonicalMetadata.default.isValid.fits with
        aces := hdesired.valid.fits.aces, nativeAcl := hdesired.valid.fits.nativeAcl }
    have hsame := wire_injective hfits hfits' hwire
    have hacesEq := congrArg Metadata.aces hsame
    have hnativeEq := congrArg Metadata.nativeAcl hsame
    exact ⟨hsameAces.symm.trans hacesEq, hsameNative.symm.trans hnativeEq⟩

lemma native_finder (hapart : TellsLinkApart blake3 m decided) (hkeep : k.finder = false) :
    native.finderFlags = m.finderFlags ∧ native.finderInfo = m.finderInfo := by
  have hread := hreads.finder
  have hdecide := hdecides.finder
  split_ifs at hread hdecide with homit
  · have hcontains : mask.contains .finder = true := homit
    have hretained := hdesired.retained
    rw [Metadata.retain_eq] at hretained
    have hflags := congrArg Metadata.finderFlags hretained
    have hinfo := congrArg Metadata.finderInfo hretained
    dsimp only at hflags hinfo
    rw [if_pos hcontains] at hflags hinfo
    exact ⟨hread.1.trans hflags, hread.2.trans hinfo⟩
  · obtain ⟨finder, hfinder, hhash⟩ := hdecide
    obtain ⟨finder', hfinder', hflags, hinfo⟩ := hread
    rw [hstays.finder (by simpa using homit), hfinder, Except.ok.injEq] at hfinder'
    subst hfinder'
    have hwire := (hapart.finder finder hfinder).wire_eq (hhash hkeep)
    have hsame := wire_injective (finderOnly_valid _ _).fits (finderOnly_valid _ _).fits hwire
    rw [hflags, hinfo]
    exact ⟨congrArg Metadata.finderFlags hsame, congrArg Metadata.finderInfo hsame⟩

lemma native_times (hobserves : Observes k decided observed) :
    native.times.atime = none ∧ (k.birth = false → native.times.btime = m.times.btime) ∧
    (((Omit.of mask).timestamps = false → u.captured.mtime = decided.mtime) →
      (if k.mtime = true ∧ native.times.mtime = observed then m.times.mtime
        else native.times.mtime) = m.times.mtime) := by
  have hread := hreads.times
  have hbirth := hdecides.birth
  have hmtime := hdecides.mtime
  split_ifs at hread hbirth hmtime with homit
  · have hcontains : mask.contains .timestamps = true := homit
    have hretained := congrArg Metadata.times hdesired.retained
    rw [Metadata.retain_eq] at hretained
    dsimp only at hretained
    rw [if_pos hcontains] at hretained
    rw [hread, ← hretained, hmtime]
    simp [Times.default]
  · have homit : (Omit.of mask).timestamps = false := by simpa using homit
    obtain ⟨now, birth, hnow, hborn, htimes⟩ := hread
    obtain ⟨stamp, hstamp, hkeep⟩ := hmtime
    refine ⟨by rw [htimes], fun hk => ?_, fun hsame => ?_⟩
    · rw [hstays.birth homit, hbirth hk, Except.ok.injEq] at hborn
      rw [htimes, hborn]
    · rw [hsame homit, hstamp, Except.ok.injEq] at hnow
      subst hnow
      rw [htimes]
      dsimp only
      rw [Observes] at hobserves
      split_ifs at hobserves with hk
      · obtain ⟨stamp', hstamp', rfl⟩ := hobserves
        obtain rfl : stamp = stamp' := Except.ok.inj (hstamp.symm.trans hstamp')
        rw [if_pos ⟨hk, rfl⟩]
      · rw [if_neg fun h => hk h.1]
        have hnot : m.times.mtime = some (timeFromTimestamp stamp) := by
          rw [Bool.not_eq_true] at hk
          simpa [hk] using hkeep
        exact hnot.symm

/-- The record over the native metadata, before it is canonicalized: what was asked for, but for
the modification time and the order of the attributes. -/
lemma merged_eq (hmeta : e.meta_ = m) (hapart : TellsLinkApart blake3 m decided)
    (hobserves : Observes k decided observed) (xattrs : List Xattr) :
    mergeFinder { mergeAcl { native with xattrs } (k.record e observed) with
        times := mergeTimes native.times (k.record e observed) } (k.record e observed)
      = { m with
          xattrs
          times := { m.times with mtime :=
            if k.mtime = true ∧ native.times.mtime = observed then m.times.mtime
            else native.times.mtime } } := by
  obtain ⟨hatime, hbtime, -⟩ := native_times hdesired hdecides hreads hstays hobserves
  have haces : (if k.acl then m.aces else native.aces) = m.aces ∧
      (if k.acl then m.nativeAcl else native.nativeAcl) = m.nativeAcl := by
    split_ifs with hk
    · exact ⟨rfl, rfl⟩
    · exact native_acl hdesired hdecides hreads hstays hapart (by simpa using hk)
  have hfinder : (if k.finder then m.finderFlags else native.finderFlags) = m.finderFlags ∧
      (if k.finder then m.finderInfo else native.finderInfo) = m.finderInfo := by
    split_ifs with hk
    · exact ⟨rfl, rfl⟩
    · exact native_finder hdesired hdecides hreads hstays hapart (by simpa using hk)
  have hbirth : (if k.birth then m.times.btime else native.times.btime) = m.times.btime := by
    split_ifs with hk
    · rfl
    · exact hbtime (by simpa using hk)
  rw [mergeAcl_record, mergeTimes_record, mergeFinder_record, hmeta]
  dsimp only
  rw [haces.1, haces.2, hfinder.1, hfinder.2, hbirth, hatime, ← hdesired.atime, hreads.holes,
    ← hdesired.holes, hreads.hardlinkTo, ← hdesired.hardlinkTo]

end Families

/-- The attributes that went into the record. -/
def LinkOutcome.kept (outcome : LinkOutcome) : List Xattr :=
  outcome.record.elim [] fun record => record.meta_.xattrs

/-- The attributes that could be stored natively. -/
def LinkOutcome.stored (outcome : LinkOutcome) : List Xattr :=
  outcome.entry.meta_.xattrs.filter fun x => decide (x ∉ outcome.kept)

/-- The native modification time is the one on which the record was decided. -/
def Unstamped (omit_ : Omit) (outcome : LinkOutcome) (u : Object) : Prop :=
  omit_.timestamps = false → u.captured.mtime = outcome.decided.mtime

/-- The native metadata together with the record, if there is one, is what was asked for; a newer
native modification time wins over the one in the record. -/
structure Transported (omit_ : Omit) (outcome : LinkOutcome) (u : Object) (native : Metadata) :
    Prop where
  merged : ∀ record, outcome.record = some record → Unstamped omit_ outcome u →
    mergeSymlinkMetadata native record omit_ = .ok outcome.entry.meta_
  unchanged : outcome.record = none → Unstamped omit_ outcome u → native = outcome.entry.meta_
  newer : ∀ record, outcome.record = some record → native.times.mtime ≠ record.observedMtime →
    mergeSymlinkMetadata native record omit_ = .ok { outcome.entry.meta_ with
      times := { outcome.entry.meta_.times with mtime := native.times.mtime } }

/-- Another modification time keeps a record without the omitted families canonical. -/
lemma Desired.withModification (hdesired : Desired mask m) (homit : mask.contains .timestamps = false)
    {mtime : Option Time} (hmtime : ∀ t ∈ mtime, t.nsec < 1000000000) :
    Desired mask { m with times := { m.times with mtime } } := by
  have hvalid := hdesired.valid
  have htimes : ∀ t ∈ m.times.present, t.nsec < 1000000000 := hvalid.fits.times
  have hpresent : ∀ t ∈ Times.present { m.times with mtime }, t.nsec < 1000000000 := by
    simp only [Times.present, List.flatMap_cons, List.flatMap_nil, List.append_nil,
      List.mem_append, Option.mem_toList] at htimes ⊢
    rintro t (ht | ht)
    · exact hmtime t ht
    · exact htimes t (.inr ht)
  have hretained := hdesired.retained
  refine ⟨{ hvalid with times := if_neg ?_ }, ?_, hdesired.atime, hdesired.holes,
    hdesired.hardlinkTo⟩
  · simpa using hpresent
  · rw [Metadata.retain_eq] at hretained ⊢
    dsimp only
    rw [homit]
    have hrest := congrArg (fun r : Metadata =>
      { r with times := ({ m.times with mtime } : Times) }) hretained
    exact hrest

/-- The attributes of the record are the ones that were collected. -/
lemma kept_eq {outcome : LinkOutcome}
    (hrecord : outcome.record = if k.needed m then some (k.record e observed) else none) :
    outcome.kept = k.xattrs := by
  rw [LinkOutcome.kept, hrecord]
  split_ifs with hneeded
  · rfl
  · rw [Keeping.eq_of_not_needed (by simpa using hneeded : k.needed m = false)]
    rfl

/-- Every run of the writer for a link can be undone by the reader. -/
theorem restoreLink_transports {outcome : LinkOutcome} (hdesired : Desired mask e.meta_)
    (hrun : restoreLink host blake3 (Omit.of mask) e o = (.ok outcome, o'))
    (hapart : TellsLinkApart blake3 e.meta_ outcome.decided) (hfresh : Fresh u)
    (hstays : Stays (Omit.of mask) outcome.decided u.captured)
    (hread : readNative blake3 u (Omit.of mask) = .ok native)
    (hxattrs : native.xattrs.Perm outcome.stored) :
    Transported (Omit.of mask) outcome u native := by
  obtain ⟨hentry, k, observed, hdecides, hobserves, hrecord⟩ := restoreLink_eq_ok hrun
  have hreads := readNative_eq_ok hfresh hread
  have hmerged := merged_eq hdesired hdecides hreads hstays rfl hapart hobserves
  obtain ⟨-, -, hmtime⟩ := native_times hdesired hdecides hreads hstays hobserves
  have hincreasing := (Metadata.xattrs_eq_ok.mp hdesired.valid.xattrs).2
  have hperm : (native.xattrs ++ k.xattrs).Perm e.meta_.xattrs := by
    rw [LinkOutcome.stored, hentry, kept_eq hrecord] at hxattrs
    exact (hxattrs.append_right _).trans
      (perm_stored hincreasing.nodup.of_map hdecides.xattrs)
  -- the record and the native values make up the whole, but for the modification time
  have hmerge : ∀ record, outcome.record = some record →
      record = k.record e observed ∧ mergeSymlinkMetadata native record (Omit.of mask)
        = canonicalize { e.meta_ with
            xattrs := native.xattrs ++ k.xattrs
            times := { e.meta_.times with mtime :=
              if k.mtime = true ∧ native.times.mtime = observed then e.meta_.times.mtime
              else native.times.mtime } } (Omit.of mask) := by
    intro record hsome
    rw [hrecord] at hsome
    split_ifs at hsome
    obtain rfl := Option.some.inj hsome
    have hnodup : ((native.xattrs ++ k.xattrs).map Xattr.key).Nodup :=
      (hperm.map Xattr.key).nodup_iff.mpr hincreasing.nodup
    have hmeta : (k.record e observed).meta_.xattrs = k.xattrs := rfl
    refine ⟨rfl, ?_⟩
    rw [mergeSymlinkMetadata]
    dsimp only
    rw [hmeta, mergeXattrs_eq hnodup]
    exact congrArg (canonicalize · (Omit.of mask)) (hmerged _)
  refine ⟨fun record hsome hsame => ?_, fun hnone hsame => ?_, fun record hsome hdiffers => ?_⟩
  · have hcanonical := @canonicalize_of_perm mask
      ⟨e.meta_, Metadata.validate_eq_ok.mpr hdesired.valid⟩ _ hperm
    rw [hdesired.retained] at hcanonical
    rw [(hmerge record hsome).2, hmtime hsame, hentry]
    exact hcanonical
  · have hnothing : k = ⟨[], false, false, false, false⟩ := by
      rw [hrecord] at hnone
      split_ifs at hnone with hneeded
      exact Keeping.eq_of_not_needed (by simpa using hneeded)
    have hsorted : native.xattrs = e.meta_.xattrs := by
      obtain ⟨xattrs, hcanonical⟩ := hreads.xattrs
      have hxs := (perm_of_canonicalXattrs hcanonical).symm
      rw [hnothing, List.append_nil] at hperm
      exact Except.ok.inj (hcanonical.symm.trans
        (canonicalXattrs_of_perm hdesired.valid.xattrs (hxs.trans hperm)))
    have hsame' := hmerged native.xattrs
    rw [hmtime hsame, mergeAcl_record, mergeTimes_record, mergeFinder_record, hnothing] at hsame'
    simp only [Bool.false_eq_true, false_and, if_false] at hsame'
    rw [hentry]
    exact hsame'.trans (by rw [hsorted])
  · obtain ⟨rfl, hresult⟩ := hmerge record hsome
    have hobserved : (k.record e observed).observedMtime = observed := rfl
    rw [hobserved] at hdiffers
    rw [if_neg fun h => hdiffers h.2] at hresult
    have homit : mask.contains .timestamps = false := by
      by_contra hcontains
      have hcontains : (Omit.of mask).timestamps = true := (Bool.not_eq_false _).mp hcontains
      have htimes := hreads.times
      have hkeep := hdecides.mtime
      rw [if_pos hcontains] at htimes hkeep
      rw [Observes, hkeep] at hobserves
      exact hdiffers (by rw [htimes, hobserves]; rfl)
    have hstamp : ∀ t ∈ native.times.mtime, t.nsec < 1000000000 := by
      have htimes := hreads.times
      have hnot : (Omit.of mask).timestamps = false := homit
      rw [hnot] at htimes
      obtain ⟨now, birth, -, -, htimes⟩ := htimes
      rw [htimes]
      intro t ht
      exact Option.some.inj ht ▸ nsec_timeFromTimestamp now
    have hnewer := hdesired.withModification homit hstamp
    have hcanonical := @canonicalize_of_perm mask
      ⟨_, Metadata.validate_eq_ok.mpr hnewer.valid⟩ _ hperm
    rw [hnewer.retained] at hcanonical
    rw [hresult, hentry]
    exact hcanonical

/-! ### Which records travel -/

lemma Keeping.metadata_valid (hvalid : m.Valid) (hsub : k.xattrs.Sublist m.xattrs) :
    (k.metadata m).Valid := by
  have hnothing := CanonicalMetadata.default.isValid
  have htimes : ∀ t ∈ m.times.present, t.nsec < 1000000000 := hvalid.fits.times
  have hpresent : ∀ t ∈ (k.metadata m).times.present, t.nsec < 1000000000 := by
    intro t ht
    refine htimes t ?_
    simp only [Keeping.metadata, Times.present, List.flatMap_cons, List.flatMap_nil,
      List.append_nil, List.mem_append, Option.mem_toList] at ht ⊢
    rcases ht with ht | ht | ht
    · split_ifs at ht
      exact .inl ht
    · exact absurd ht (by simp)
    · split_ifs at ht
      exact .inr (.inr ht)
  refine { hnothing with
    xattrCount := hsub.length_le.trans_lt hvalid.xattrCount
    xattrs := Metadata.xattrs_sublist hvalid.xattrs hsub
    times := if_neg (by simpa using hpresent)
    aceCount := ?_, aces := ?_, nativeAcl := ?_ }
  · dsimp only [Keeping.metadata]
    split_ifs
    · exact hvalid.aceCount
    · exact hnothing.aceCount
  · dsimp only [Keeping.metadata]
    split_ifs
    · exact hvalid.aces
    · exact hnothing.aces
  · dsimp only [Keeping.metadata]
    split_ifs
    · exact hvalid.nativeAcl
    · exact hnothing.nativeAcl

lemma Keeping.record_coherent (hobserves : Observes k decided observed)
    (hneeded : k.needed e.meta_ = true) : (k.record e observed).Coherent := by
  obtain ⟨h₁, h₂, h₄, h₇⟩ := k.absentTimes_and e.meta_
  refine ⟨?_, h₇, fun h => ?_, fun h => absurd h₂ h, fun h => ?_, fun hempty habsent hacl => ?_,
    rfl, rfl⟩
  · have hbit : (k.absentTimes e.meta_ &&& 1 != 0) = (k.mtime && e.meta_.times.mtime.isNone) := by
      rw [Bool.eq_iff_iff, bne_iff_ne, h₁, Bool.and_eq_true, Option.isNone_iff_eq_none]
    have hkept : (k.metadata e.meta_).times.mtime = if k.mtime then e.meta_.times.mtime else none :=
      rfl
    dsimp only [Keeping.record]
    rw [hbit, hkept]
    rw [Observes] at hobserves
    split_ifs at hobserves ⊢ with hk
    · obtain ⟨stamp, -, rfl⟩ := hobserves
      cases e.meta_.times.mtime <;> simp [hk]
    · rw [hobserves]
      simp [hk]
  · obtain ⟨hk, hnone⟩ := h₁.mp h
    have hkept : (k.record e observed).meta_.times.mtime
        = if k.mtime then e.meta_.times.mtime else none := rfl
    rw [hkept, hnone, ite_self]
  · obtain ⟨hk, hnone⟩ := h₄.mp h
    have hkept : (k.record e observed).meta_.times.btime
        = if k.birth then e.meta_.times.btime else none := rfl
    rw [hkept, hnone, ite_self]
  · have hempty : (k.metadata e.meta_).isEmpty = true := (Metadata.isEmpty_iff _).mpr hempty
    have habsent : k.absentTimes e.meta_ = 0 := habsent
    have hacl : k.acl = false := hacl
    have hfinder : (k.record e observed).finderOverride = k.finder := rfl
    rw [Keeping.needed, hempty, habsent, hacl] at hneeded
    rw [hfinder]
    simpa using hneeded

/-- A record is refused for its name only, and its name only for looking like a drive. -/
lemma Keeping.validateRecord_record (hobserves : Observes k decided observed)
    (hneeded : k.needed e.meta_ = true) (hpath : Directory.ValidPath e.path) :
    validateRecord (k.record e observed) = .ok () ↔ hasDrivePrefix (basename e.path) = false := by
  rw [(Keeping.record_coherent hobserves hneeded).validateRecord_eq hpath.basename_cases.1,
    mapError_eq_ok, ← hpath.validatePath_basename]
  rfl

/-- The record that a link leaves, as the other program has it. -/
lemma Decides.exists_record {omit_ : Omit} (hdecides : Decides blake3 omit_ e.meta_ k decided)
    (hobserves : Observes k decided observed) (hvalid : e.meta_.Valid) :
    ∃ record : SymlinkTransport.Record, LinkRecord.of record = k.record e observed ∧
      record.name = basename e.path ∧ ∀ t ∈ record.observedMtime, t.nsec < 1000000000 := by
  refine ⟨⟨basename e.path, ⟨k.metadata e.meta_, Metadata.validate_eq_ok.mpr
    (Keeping.metadata_valid hvalid hdecides.xattrs)⟩, k.absentTimes e.meta_, observed, k.acl,
    k.finder⟩, rfl, rfl, fun t ht => ?_⟩
  rw [Observes] at hobserves
  split_ifs at hobserves
  · obtain ⟨stamp, -, rfl⟩ := hobserves
    exact Option.some.inj ht ▸ nsec_timeFromTimestamp stamp
  · rw [hobserves] at ht
    exact absurd ht (by simp)

end Zig

end Difz
