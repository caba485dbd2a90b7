import Difz.Metadata.Override
import Difz.Program.Action
import Difz.Zig.Masked

/-!
# Restoring the metadata of an object

The metadata part of `writeSnapshotWith` (`src/directory_fs.zig`) for one object. Every native
setter is tried, its outcome is read back, and what the filesystem did not keep goes into an
attribute of the object, a sidecar. The host is arbitrary: a call may fail and may leave any values
behind, so a program sees of it only what the captures report.

The programs return what the captures reported when a fallback was decided, which the source does
not; nothing depends on the value returned.
-/

namespace Difz

open Wire
open Metadata (Ace Hole NativeAcl Os Time Times Xattr XattrClass)

namespace Zig

open Program
open Program.Action (lift modify handle fold)

/-! ### Objects -/

inductive CallError
  | outOfMemory
  | permission
  | unsupported
  | failed
  deriving DecidableEq, Repr

inductive RestoreError
  | native (error : CallError)
  | metadata (error : Metadata.Error)
  | xattrRestoreFailed
  | invalidTransport
  deriving DecidableEq, Repr

/-- Nanoseconds since the epoch. -/
structure Timestamp where
  nanoseconds : Int
  deriving DecidableEq, Repr

def timeFromTimestamp (timestamp : Timestamp) : Time :=
  let seconds := timestamp.nanoseconds / 1000000000
  let nanoseconds := timestamp.nanoseconds - seconds * 1000000000
  ⟨Int64.ofInt seconds, UInt32.ofNat nanoseconds.toNat⟩

def timestampFromTime (time : Time) : Timestamp :=
  ⟨time.sec.toInt * 1000000000 + time.nsec.toNat⟩

/-- The record with a single part of the access control. -/
def aclOnly (aces : List Ace) (nativeAcl : Option NativeAcl) : Metadata :=
  { Metadata.default with aces, nativeAcl }

def finderOnly (finderFlags : UInt32) (finderInfo : Option (List.Vector UInt8 32)) : Metadata :=
  { Metadata.default with finderFlags, finderInfo }

def holesOnly (holes : List Hole) : Metadata := { Metadata.default with holes }

/-- An access control list as it is captured: at most 64 KiB on every system, in any order. -/
structure CapturedAcl where
  aces : List Ace
  nativeAcl : Option NativeAcl
  fits : (aclOnly aces nativeAcl).Fits

structure CapturedFinder where
  finderFlags : UInt32
  finderInfo : Option (List.Vector UInt8 32)

/-- What the capture functions report about an object: `native_sparse.capture`,
`native_acl.capture`, `native_finder.capture`, the birth time of `native_stat.read`, the
modification time of `statFile`, and the attributes that `readXattrs` finds. -/
structure Captured where
  holes : Except CallError (List Hole)
  acl : Except CallError CapturedAcl
  finder : Except CallError CapturedFinder
  birth : Except CallError (Option Time)
  mtime : Except CallError Timestamp
  xattrs : Except CallError (List Xattr)

inductive CompromiseCode
  | nativeAclPreserved | portableAclPreserved | finderFlagsPreserved | finderInfoPreserved
  | birthTimePreserved | sparsePreserved | hardlinkCopied | rawXattrPreserved
  | symlinkMetadataPreserved | modificationTimePreserved
  deriving DecidableEq, Repr

def CompromiseCode.tag : CompromiseCode → UInt8
  | .nativeAclPreserved => 1
  | .portableAclPreserved => 2
  | .finderFlagsPreserved => 3
  | .finderInfoPreserved => 4
  | .birthTimePreserved => 5
  | .sparsePreserved => 6
  | .hardlinkCopied => 7
  | .rawXattrPreserved => 8
  | .symlinkMetadataPreserved => 9
  | .modificationTimePreserved => 10

/-- An object with its sidecars, the attributes with a transport name, and the report so far. -/
structure Object where
  captured : Captured
  sidecars : List UInt8 → Option (List UInt8)
  mask : UInt32

/-- The native calls on an object. Each may do anything to what is captured. -/
structure Host where
  os : Os
  setAttribute : XattrClass → List UInt8 → List UInt8 → Action Captured CallError Unit
  punch : List Hole → Action Captured CallError Unit
  setBirth : Time → Action Captured CallError Unit
  setInfo : Option (List.Vector UInt8 32) → Action Captured CallError Unit
  setFlags : UInt32 → Action Captured CallError Unit
  restoreAcl : Metadata → Action Captured CallError Unit
  setTimestamps : Timestamp → Action Captured CallError Unit
  setFilePermissions : Action Captured CallError Unit
  /-- What happens to the object while others are restored. -/
  others : Captured → Captured

abbrev Restoring := Action Object RestoreError

/-- `try` a native call. -/
def tryCall (call : Action Captured CallError Unit) : Restoring Unit := fun o =>
  ((call o.captured).1.mapError .native, { o with captured := (call o.captured).2 })

/-- `catch {}` behind a native call. -/
def ignoring (call : Action Captured CallError Unit) : Restoring Unit :=
  handle (tryCall call) fun _ => pure ()

/-- `catch |err| if (err == error.OutOfMemory) return err` behind a native call. -/
def ignoringUnlessOutOfMemory (call : Action Captured CallError Unit) : Restoring Unit :=
  handle (tryCall call) fun e =>
    if e = .native .outOfMemory then Program.Action.fail e else pure ()

def capture {α : Type} (field : Captured → Except CallError α) : Restoring α := fun o =>
  ((field o.captured).mapError .native, o)

/-- The values reported at this moment. -/
def seen : Restoring Captured := Program.Action.gets Object.captured

def report (code : CompromiseCode) : Restoring Unit :=
  modify fun o => { o with mask := o.mask ||| 1 <<< (code.tag.toUInt32 - 1) }

variable (host : Host)

def setSidecar (name : String) (bytes : List UInt8) : Restoring Unit := do
  tryCall (host.setAttribute .logical (utf8 name) bytes)
  modify fun o => { o with sidecars := Function.update o.sidecars (utf8 name) (some bytes) }

/-! ### Attributes -/

/-- One attribute of the record; what cannot be stored is collected. -/
def restoreXattr (isLink : Bool) (preserved : List Xattr) (xattr : Xattr) :
    Restoring (List Xattr) :=
  let set := tryCall (host.setAttribute xattr.class_ xattr.name xattr.value) >>= fun _ =>
    pure preserved
  match xattr.class_ with
  | .logical => handle set fun e =>
    if (e = .native .permission ∨ e = .native .unsupported) ∧ isLink then
      pure (preserved ++ [xattr])
    else Program.Action.fail .xattrRestoreFailed
  | .raw =>
    if !Metadata.rawAccepted host.os xattr.name then pure (preserved ++ [xattr])
    else handle set fun e =>
      if e = .native .permission ∨ e = .native .unsupported then pure (preserved ++ [xattr])
      else Program.Action.fail .xattrRestoreFailed

/-- The attributes that are left for the transport of the parent. -/
def restoreXattrs (m : Metadata) (isLink : Bool) : Restoring (List Xattr) := do
  let preserved ← fold (restoreXattr host isLink) [] m.xattrs
  if isLink then pure preserved
  else if preserved.isEmpty then pure []
  else do
    let blob := encodeCanonical { Metadata.default with xattrs := preserved }
    handle (setSidecar host "difz.raw-xattrs" blob) fun _ =>
      Program.Action.fail .xattrRestoreFailed
    report .rawXattrPreserved
    pure []

/-! ### Families with a sidecar -/

/-- A sidecar, when it is needed. -/
def keep (needed : Bool) (name : String) (code : CompromiseCode) (blob : List UInt8) :
    Restoring Unit :=
  if needed then setSidecar host name blob >>= fun _ => report code else pure ()

def whenSome {α : Type} (value : Option α) (x : α → Restoring Unit) : Restoring Unit :=
  match value with
  | some a => x a
  | none => pure ()

variable (blake3 : List UInt8 → Digest)

def restoreSparse (holes : List Hole) : Restoring Captured := do
  ignoring (host.punch holes)
  let decided ← seen
  let actual ← capture Captured.holes
  keep host (canonicalHash blake3 (holesOnly actual) ≠ canonicalHash blake3 (holesOnly holes))
    "difz.sparse-holes" .sparsePreserved (encodeCanonical (holesOnly holes))
  pure decided

def restoreAcl (m : Metadata) : Restoring Captured := do
  ignoringUnlessOutOfMemory (host.restoreAcl m)
  let decided ← seen
  let acl ← capture Captured.acl
  let actual ← lift ((canonicalize (aclOnly acl.aces acl.nativeAcl)
    (Omit.of Metadata.Omit.default)).mapError RestoreError.metadata)
  keep host (canonicalHash blake3 (aclOnly [] actual.nativeAcl)
      ≠ canonicalHash blake3 (aclOnly [] m.nativeAcl))
    "difz.native-acl" .nativeAclPreserved (encodeCanonical (aclOnly [] m.nativeAcl))
  keep host (canonicalHash blake3 (aclOnly actual.aces none)
      ≠ canonicalHash blake3 (aclOnly m.aces none))
    "difz.portable-acl" .portableAclPreserved (encodeCanonical (aclOnly m.aces none))
  pure decided

/-- The object stays writable behind its access control. -/
def restoreAclWritable (m : Metadata) : Restoring Captured := do
  let decided ← restoreAcl host blake3 m
  tryCall host.setFilePermissions
  pure decided

def restoreFinder (m : Metadata) : Restoring Captured := do
  let decided ← seen
  let actual ← capture Captured.finder
  keep host (actual.finderFlags ≠ m.finderFlags) "difz.bsd-flags" .finderFlagsPreserved
    (encodeCanonical (finderOnly m.finderFlags none))
  keep host (actual.finderInfo ≠ m.finderInfo) "difz.finder-info" .finderInfoPreserved
    (encodeCanonical (finderOnly 0 m.finderInfo))
  pure decided

/-- The setters for the Finder, tried before anything is compared. -/
def setFinder (m : Metadata) : Restoring Captured := do
  ignoring (host.setInfo m.finderInfo)
  ignoringUnlessOutOfMemory (host.setFlags m.finderFlags)
  seen

/-! ### Timestamps -/

/-- Linux cannot set a birth time, so nothing is tried there. -/
def birthNeedsTransport (desired : Option Time) : Restoring Bool :=
  if host.os = .linux then
    if desired ≠ none then pure true
    else do
      let actual ← capture Captured.birth
      pure (decide (actual ≠ none))
  else do
    whenSome desired fun value => tryCall (host.setBirth value)
    let actual ← capture Captured.birth
    pure (decide (desired ≠ actual))

def writeTimeOverride (name : String) (value : Option Time) : Restoring Unit := do
  let bytes ← lift ((Metadata.encodeTimeOverride value).mapError RestoreError.metadata)
  setSidecar host name bytes

def mtimeNeedsTransport (desired : Option Time) : Restoring Bool := do
  whenSome desired fun value => ignoring (host.setTimestamps (timestampFromTime value))
  let mtime ← capture Captured.mtime
  pure (decide (desired ≠ some (timeFromTimestamp mtime)))

/-- The stamp is put back because writing the sidecar may change it. -/
def writeModificationOverride (original : Option Time) : Restoring Captured := do
  let decided ← seen
  let mtime ← capture Captured.mtime
  let observed := timeFromTimestamp mtime
  let bytes ← lift
    ((Metadata.encodeModificationOverride ⟨original, observed⟩).mapError RestoreError.metadata)
  setSidecar host "difz.mtime" bytes
  tryCall (host.setTimestamps (timestampFromTime observed))
  pure decided

/-! ### An object that is not a symbolic link -/

/-- A family that is left out is not touched. -/
def unlessOmitting (omitted : Bool) (x : Restoring Captured) : Restoring Captured :=
  if omitted then seen else x

def decideBirth (omitted : Bool) (desired : Option Time) : Restoring (Bool × Captured) :=
  if omitted then seen >>= fun decided => pure (false, decided)
  else do
    let needed ← birthNeedsTransport host desired
    let decided ← seen
    pure (needed, decided)

def writeBirth (needed : Bool) (desired : Option Time) : Restoring Unit :=
  if needed then writeTimeOverride host "difz.btime" desired >>= fun _ => report .birthTimePreserved
  else pure ()

def writeHardlink (copied : Bool) (hardlinkTo : Option (List UInt8)) : Restoring Unit :=
  keep host copied "difz.hardlink-to" .hardlinkCopied
    (encodeCanonical { Metadata.default with hardlinkTo })

def restoreModification (desired : Option Time) : Restoring Captured := do
  let needed ← mtimeNeedsTransport host desired
  if needed then do
    let decided ← writeModificationOverride host desired
    report .modificationTimePreserved
    pure decided
  else seen

/-- The first loop of `writeSnapshotWith` for this object. -/
def restoreEntry (omit_ : Omit) (kind : Directory.Kind) (copied : Bool) (m : Metadata) :
    Restoring Captured := do
  let _ ← restoreXattrs host m false
  writeHardlink host copied m.hardlinkTo
  let sparse ← unlessOmitting (omit_.sparse || kind != .file) (restoreSparse host blake3 m.holes)
  let birth ← decideBirth host omit_.timestamps m.times.btime
  let _ ← unlessOmitting omit_.finder (setFinder host m)
  writeBirth host birth.1 m.times.btime
  let acl ← unlessOmitting omit_.acl (restoreAclWritable host blake3 m)
  let finder ← unlessOmitting omit_.finder (restoreFinder host m)
  pure { sparse with birth := birth.2.birth, acl := acl.acl, finder := finder.finder }

/-- The first loop, the loop for the modification times, and the last try for the access control.
Returns every native value as it was when the fallback for it was decided. -/
def restoreObject (omit_ : Omit) (kind : Directory.Kind) (copied : Bool) (m : Metadata) :
    Restoring Captured := do
  let decided ← restoreEntry host blake3 omit_ kind copied m
  modify fun o => { o with captured := host.others o.captured }
  let modification ← unlessOmitting omit_.timestamps (restoreModification host m.times.mtime)
  tryCall host.setFilePermissions
  let _ ← unlessOmitting omit_.acl
    (ignoringUnlessOutOfMemory (host.restoreAcl m) >>= fun _ => seen)
  pure { decided with mtime := modification.mtime }

def restoreRootXattrs (m : Metadata) : Restoring (List Xattr) :=
  if m.xattrs = [] then pure [] else restoreXattrs host m false

/-- What is done to the root behind the first loop. -/
def restoreRootEntry (omit_ : Omit) (m : Metadata) : Restoring Captured := do
  let _ ← restoreRootXattrs host m
  let acl ← unlessOmitting omit_.acl (restoreAclWritable host blake3 m)
  let finder ← unlessOmitting omit_.finder (setFinder host m >>= fun _ => restoreFinder host m)
  let birth ← decideBirth host omit_.timestamps m.times.btime
  writeBirth host birth.1 m.times.btime
  pure { birth.2 with acl := acl.acl, finder := finder.finder }

/-- All that is done to the root. Its modification time comes last. -/
def restoreRoot (omit_ : Omit) (m : Metadata) : Restoring Captured := do
  let decided ← restoreRootEntry host blake3 omit_ m
  modify fun o => { o with captured := host.others o.captured }
  let _ ← unlessOmitting omit_.acl
    (ignoringUnlessOutOfMemory (host.restoreAcl m) >>= fun _ => seen)
  let modification ← unlessOmitting omit_.timestamps (restoreModification host m.times.mtime)
  pure { decided with mtime := modification.mtime }

/-! ### Which sidecars a program writes -/

variable {host blake3} {α β : Type}

/-- Only these sidecars may change, whether the program fails or not. -/
def Writes (names : List String) (x : Restoring α) : Prop :=
  ∀ name ∉ names.map utf8, ∀ value, Keeps (fun o : Object => o.sidecars name = value) x

namespace Writes

variable {names names' : List String}

lemma run {x : Restoring α} (h : Writes names x) {o o' : Object} {a : α}
    (hrun : x o = (.ok a, o')) (name : String) (hname : utf8 name ∉ names.map utf8) :
    o'.sidecars (utf8 name) = o.sidecars (utf8 name) :=
  Triple.of_ok (h _ hname (o.sidecars (utf8 name))) rfl hrun

lemma nothing {x : Restoring α} (h : Writes [] x) {o o' : Object} {a : α}
    (hrun : x o = (.ok a, o')) : o'.sidecars = o.sidecars := by
  funext name
  exact Triple.of_ok (h name (by simp) (o.sidecars name)) rfl hrun

lemma mono {x : Restoring α} (h : Writes names x) (hsub : ∀ name ∈ names, name ∈ names') :
    Writes names' x := by
  intro name hname
  refine h name fun hmem => hname ?_
  obtain ⟨n, hn, rfl⟩ := List.mem_map.mp hmem
  exact List.mem_map_of_mem (hsub n hn)

lemma pure (a : α) : Writes names (Pure.pure a : Restoring α) := fun _ _ _ => Keeps.pure a

lemma lift (x : Except RestoreError α) : Writes names (Program.Action.lift x : Restoring α) :=
  fun _ _ _ => Keeps.lift x

lemma fail (e : RestoreError) : Writes names (Program.Action.fail e : Restoring α) :=
  fun _ _ _ => Keeps.fail e

lemma bind {x : Restoring α} {f : α → Restoring β} (hx : Writes names x)
    (hf : ∀ a, Writes names (f a)) : Writes names (x >>= f) :=
  fun name hname value => Keeps.bind (hx name hname value) fun a => hf a name hname value

lemma handle {x : Restoring α} {handler : RestoreError → Restoring α} (hx : Writes names x)
    (hh : ∀ e, Writes names (handler e)) : Writes names (Program.Action.handle x handler) :=
  fun name hname value => Keeps.handle (hx name hname value) fun e => hh e name hname value

lemma fold {f : β → α → Restoring β} (hf : ∀ b a, Writes names (f b a)) (b : β) (as : List α) :
    Writes names (Program.Action.fold f b as) :=
  fun name hname value => Keeps.fold (fun b a => hf b a name hname value) b as

lemma ite {p : Prop} {_ : Decidable p} {x y : Restoring α} (hx : Writes names x)
    (hy : Writes names y) : Writes names (if p then x else y) := by
  split_ifs
  · exact hx
  · exact hy

/-- A program that leaves the sidecars alone. -/
lemma of_same {x : Restoring α} (h : ∀ o, (x o).2.sidecars = o.sidecars) : Writes names x := by
  intro name _ value o ho
  have hsame := congrFun (h o) name
  generalize x o = r at hsame ⊢
  obtain ⟨e | a, o'⟩ := r
  · exact hsame.trans ho
  · exact hsame.trans ho

lemma tryCall (call : Action Captured CallError Unit) : Writes names (Zig.tryCall call) :=
  of_same fun _ => rfl

lemma capture (field : Captured → Except CallError α) : Writes names (Zig.capture field) :=
  of_same fun _ => rfl

lemma seen : Writes names Zig.seen := of_same fun _ => rfl

lemma report (code : CompromiseCode) : Writes names (Zig.report code) := of_same fun _ => rfl

lemma ignoring (call : Action Captured CallError Unit) : Writes names (Zig.ignoring call) :=
  (tryCall call).handle fun _ => pure ()

lemma ignoringUnlessOutOfMemory (call : Action Captured CallError Unit) :
    Writes names (Zig.ignoringUnlessOutOfMemory call) :=
  (tryCall call).handle fun e => (fail e).ite (pure ())

lemma whenSome {value : Option α} {x : α → Restoring Unit} (h : ∀ a, Writes names (x a)) :
    Writes names (Zig.whenSome value x) := by
  cases value with
  | some a => exact h a
  | none => exact pure ()

lemma setSidecar {name : String} (hname : name ∈ names) (bytes : List UInt8) :
    Writes names (Zig.setSidecar host name bytes) := by
  refine (tryCall _).bind fun _ n hn value o ho => ?_
  have hne : n ≠ utf8 name := fun h => hn (h ▸ List.mem_map_of_mem hname)
  exact (Function.update_of_ne hne _ _).trans ho

lemma keep {needed : Bool} {name : String} (hname : name ∈ names) (code : CompromiseCode)
    (blob : List UInt8) : Writes names (Zig.keep host needed name code blob) :=
  ((setSidecar hname blob).bind fun _ => report code).ite (pure ())

lemma restoreXattr (isLink : Bool) (preserved : List Xattr) (xattr : Xattr) :
    Writes names (Zig.restoreXattr host isLink preserved xattr) := by
  have hset : ∀ class_, Writes names (Zig.tryCall (host.setAttribute class_ xattr.name xattr.value)
      >>= fun _ => (Pure.pure preserved : Restoring (List Xattr))) :=
    fun class_ => (tryCall _).bind fun _ => pure preserved
  rw [Zig.restoreXattr]
  cases xattr.class_ with
  | logical => exact (hset .logical).handle fun _ => (pure _).ite (fail _)
  | raw => exact (pure _).ite ((hset .raw).handle fun _ => (pure _).ite (fail _))

lemma restoreXattrs (m : Metadata) (isLink : Bool) :
    Writes ["difz.raw-xattrs"] (Zig.restoreXattrs host m isLink) := by
  refine (fold (fun b a => restoreXattr isLink b a) [] m.xattrs).bind fun preserved => ?_
  refine (pure _).ite ((pure _).ite ?_)
  refine ((setSidecar (by simp) _).handle fun _ => fail _).bind fun _ => ?_
  exact (report _).bind fun _ => pure _

lemma restoreSparse (holes : List Hole) :
    Writes ["difz.sparse-holes"] (Zig.restoreSparse host blake3 holes) :=
  (ignoring _).bind fun _ => seen.bind fun _ => (capture _).bind fun _ =>
    (keep (by simp) _ _).bind fun _ => pure _

lemma birthNeedsTransport (desired : Option Time) :
    Writes [] (Zig.birthNeedsTransport host desired) :=
  ((pure _).ite ((capture _).bind fun _ => pure _)).ite
    ((whenSome fun _ => tryCall _).bind fun _ => (capture _).bind fun _ => pure _)

lemma decideBirth (omitted : Bool) (desired : Option Time) :
    Writes [] (Zig.decideBirth host omitted desired) :=
  (seen.bind fun _ => pure _).ite
    ((birthNeedsTransport desired).bind fun _ => seen.bind fun _ => pure _)

lemma writeBirth (needed : Bool) (desired : Option Time) :
    Writes ["difz.btime"] (Zig.writeBirth host needed desired) :=
  (((lift _).bind fun _ => setSidecar (by simp) _).bind fun _ => report _).ite (pure _)

lemma restoreAcl (m : Metadata) :
    Writes ["difz.native-acl", "difz.portable-acl"] (Zig.restoreAcl host blake3 m) :=
  (ignoringUnlessOutOfMemory _).bind fun _ => seen.bind fun _ => (capture _).bind fun _ =>
    (lift _).bind fun _ => (keep (by simp) _ _).bind fun _ => (keep (by simp) _ _).bind fun _ =>
      pure _

lemma restoreAclWritable (m : Metadata) :
    Writes ["difz.native-acl", "difz.portable-acl"] (Zig.restoreAclWritable host blake3 m) :=
  (restoreAcl m).bind fun _ => (tryCall _).bind fun _ => pure _

lemma setFinder (m : Metadata) : Writes names (Zig.setFinder host m) :=
  (ignoring _).bind fun _ => (ignoringUnlessOutOfMemory _).bind fun _ => seen

lemma restoreFinder (m : Metadata) :
    Writes ["difz.bsd-flags", "difz.finder-info"] (Zig.restoreFinder host m) :=
  seen.bind fun _ => (capture _).bind fun _ => (keep (by simp) _ _).bind fun _ =>
    (keep (by simp) _ _).bind fun _ => pure _

lemma mtimeNeedsTransport (desired : Option Time) :
    Writes [] (Zig.mtimeNeedsTransport host desired) :=
  (whenSome fun _ => ignoring _).bind fun _ => (capture _).bind fun _ => pure _

lemma writeModificationOverride (original : Option Time) :
    Writes ["difz.mtime"] (Zig.writeModificationOverride host original) :=
  seen.bind fun _ => (capture _).bind fun _ => (lift _).bind fun _ =>
    (setSidecar (by simp) _).bind fun _ => (tryCall _).bind fun _ => pure _

lemma restoreModification (desired : Option Time) :
    Writes ["difz.mtime"] (Zig.restoreModification host desired) := by
  refine ((mtimeNeedsTransport desired).mono (by simp)).bind fun needed => ?_
  exact ((writeModificationOverride desired).bind fun _ => (report _).bind fun _ => pure _).ite seen

lemma unlessOmitting {omitted : Bool} {x : Restoring Captured} (h : Writes names x) :
    Writes names (Zig.unlessOmitting omitted x) :=
  seen.ite h

end Writes

end Zig

end Difz
