import Difz.Metadata.NativeName
import Difz.Restore.Link

/-!
# Native attributes

`restoreXattrs` and `readXattrs` of `src/directory_fs.zig` over a system with native attributes,
which the functions of `xattr_stream` set, list and get. An attribute that the system cannot store,
or refuses, travels in the sidecar `difz.raw-xattrs`. Whatever is refused, and in whatever order the
attributes are listed afterwards, reading finds the attributes of the record, unless a native name
means something else to the reader.
-/

namespace Difz

open Wire
open Metadata (Os Xattr XattrClass)
open Metadata.AttributeName (checkName leading fromNative nativeName transportBare excludedXattr
  storedNatively)

namespace Zig

open Program
open Program.Action (handle fold)

variable (os : Os)

/-! ### Reading -/

/-- How `xattr_stream.list` fails. -/
inductive ListError
  | unsupported
  | notFound
  | other (error : CallError)

/-- `xattr_stream.list`, as the names that it iterates over, and `xattr_stream.get`. -/
structure XattrStream where
  list : Captured → Except ListError (List (List UInt8))
  get : XattrClass → List UInt8 → Captured → Except CallError (List UInt8)

variable (stream : XattrStream) (c : Captured)

def tryGetXattr (class_ : XattrClass) (name : List UInt8) : Except RestoreError (List UInt8) :=
  (stream.get class_ name c).mapError .native

/-- One turn of the loop over the listed names: the attributes found, and the sidecar. -/
def readListed (found : List Xattr × Option (List UInt8)) (native : List UInt8) :
    Except RestoreError (List Xattr × Option (List UInt8)) :=
  if Metadata.isTransportName native then
    if transportBare native = utf8 "difz.raw-xattrs" then do
      let blob ← tryGetXattr stream c .logical (utf8 "difz.raw-xattrs")
      .ok (found.1, some blob)
    else .ok found
  else if excludedXattr os native then .ok found
  else
    match fromNative os .logical native with
    | some logical =>
      if Metadata.isTransportName logical then .ok found
      else do
        let value ← tryGetXattr stream c .logical logical
        .ok (found.1 ++ [⟨.logical, logical, value⟩], found.2)
    | none => do
      let value ← tryGetXattr stream c .raw native
      .ok (found.1 ++ [⟨.raw, native, value⟩], found.2)

/-- The raw attributes of the sidecar, behind those that are stored. -/
def addPreserved (xattrs decoded : List Xattr) : List Xattr :=
  decoded.foldl (fun xattrs x =>
    if x.class_ ≠ .raw then xattrs
    else if hasXattr xattrs x.class_ x.name then xattrs else xattrs ++ [x]) xattrs

def readXattrs : Except RestoreError (List Xattr) :=
  match stream.list c with
  | .error .unsupported | .error .notFound => .ok []
  | .error (.other e) => .error (.native e)
  | .ok names => do
    let found ← names.foldlM (readListed os stream c) ([], none)
    match found.2 with
    | none => .ok found.1
    | some blob => do
      let decoded ← (decodeCanonical blob).mapError RestoreError.metadata
      .ok (addPreserved found.1 decoded.xattrs)

/-! ### Native attributes -/

/-- The value of a native name is replaced. -/
def putXattr (listed : List Xattr) (native value : List UInt8) : List Xattr :=
  listed.filter (fun x => x.name != native) ++ [⟨.raw, native, value⟩]

/-- The documented behaviour of `xattr_stream`: an object has values under native names; setting an
attribute gives its native name the value, or fails, for whatever reason, and changes nothing; the
names are listed in any order, and what is there can be got by a name that stands for it. -/
structure XattrStream.Documented (host : Host) (stream : XattrStream)
    (native : Captured → List Xattr) : Prop where
  nodup : ∀ c, ((native c).map Xattr.name).Nodup
  set_ok : ∀ class_ name value c c', host.setAttribute class_ name value c = (.ok (), c') →
    ∃ bytes, nativeName host.os ⟨class_, name, value⟩ = .ok bytes ∧
      (native c').Perm (putXattr (native c) bytes value)
  set_error : ∀ class_ name value c c' e, host.setAttribute class_ name value c = (.error e, c') →
    (native c').Perm (native c)
  list : ∀ c names, stream.list c = .ok names →
    ∃ listed : List Xattr, listed.Perm (native c) ∧ names = listed.map Xattr.name
  get : ∀ class_ name c y, y ∈ native c → nativeName host.os ⟨class_, name, []⟩ = .ok y.name →
    stream.get class_ name c = .ok y.value

/-- What the system lists for an attribute it stores. -/
def nativeXattr (x : Xattr) : Xattr := ⟨.raw, leading os x.class_ ++ x.name, x.value⟩

variable {os} {host : Host} {stream : XattrStream} {native : Captured → List Xattr}
  {o o' : Object}

/-! ### What is stored -/

lemma putXattr_perm {listed listed' : List Xattr} (h : listed.Perm listed')
    (name value : List UInt8) : (putXattr listed name value).Perm (putXattr listed' name value) :=
  (h.filter _).append_right _

/-- A call stores the attribute or changes nothing. -/
lemma setAttribute_cases (hdoc : stream.Documented host native) (x : Xattr) (c : Captured) :
    (∃ c', host.setAttribute x.class_ x.name x.value c = (.ok (), c') ∧
      checkName host.os x.class_ x.name = .ok () ∧
      (native c').Perm (putXattr (native c) (nativeXattr host.os x).name x.value)) ∨
    ∃ e c', host.setAttribute x.class_ x.name x.value c = (.error e, c') ∧
      (native c').Perm (native c) := by
  cases hrun : host.setAttribute x.class_ x.name x.value c with
  | mk result c' =>
    cases result with
    | error e => exact .inr ⟨e, c', rfl, hdoc.set_error _ _ _ _ _ _ hrun⟩
    | ok u =>
      obtain ⟨bytes, hname, hput⟩ := hdoc.set_ok _ _ _ _ _ hrun
      obtain ⟨hcheck, rfl⟩ := Metadata.AttributeName.nativeName_eq_ok hname
      exact .inl ⟨c', rfl, hcheck, hput⟩

/-- One turn of the loop stores an attribute or keeps it for later. -/
lemma restoreXattr_cases (hdoc : stream.Documented host native) {isLink : Bool}
    {preserved kept : List Xattr} {x : Xattr}
    (h : restoreXattr host isLink preserved x o = (.ok kept, o')) :
    o'.mask = o.mask ∧
    ((kept = preserved ∧ storedNatively host.os x = true ∧
        checkName host.os x.class_ x.name = .ok () ∧ (native o'.captured).Perm
          (putXattr (native o.captured) (nativeXattr host.os x).name x.value)) ∨
      (kept = preserved ++ [x] ∧ (native o'.captured).Perm (native o.captured) ∧
        (isLink = false → x.class_ = .raw))) := by
  let set : Restoring (List Xattr) :=
    tryCall (host.setAttribute x.class_ x.name x.value) >>= fun _ => pure preserved
  have hset : (∃ c', set o = (.ok preserved, { o with captured := c' }) ∧
      checkName host.os x.class_ x.name = .ok () ∧
      (native c').Perm (putXattr (native o.captured) (nativeXattr host.os x).name x.value)) ∨
      ∃ e c', set o = (.error (.native e), { o with captured := c' }) ∧
        (native c').Perm (native o.captured) := by
    rcases setAttribute_cases hdoc x o.captured with ⟨c', hrun, hcheck, hput⟩ | ⟨e, c', hrun, hsame⟩
    · refine .inl ⟨c', ?_, hcheck, hput⟩
      simp only [set, bind_apply, tryCall, hrun]
      rfl
    · refine .inr ⟨e, c', ?_, hsame⟩
      simp only [set, bind_apply, tryCall, hrun]
      rfl
  -- a handled call ends as it does or as the handler does, with the same attributes
  have hhandle : ∀ handler, handle set handler o = (.ok kept, o') →
      (kept = preserved ∧ o'.mask = o.mask ∧ checkName host.os x.class_ x.name = .ok () ∧
        (native o'.captured).Perm
          (putXattr (native o.captured) (nativeXattr host.os x).name x.value)) ∨
      ∃ e c', handler (.native e) { o with captured := c' } = (.ok kept, o') ∧
        (native c').Perm (native o.captured) := by
    intro handler h
    rcases hset with ⟨c', hrun, hcheck, hput⟩ | ⟨e, c', hrun, hsame⟩
    · simp only [handle, hrun] at h
      obtain ⟨hkept, rfl⟩ := Prod.mk.inj h
      exact .inl ⟨(Except.ok.inj hkept).symm, rfl, hcheck, hput⟩
    · simp only [handle, hrun] at h
      exact .inr ⟨e, c', h, hsame⟩
  have hkeep : ∀ {condition : Prop} [Decidable condition] {o₁ : Object},
      (if condition then pure (preserved ++ [x]) else Program.Action.fail .xattrRestoreFailed
        : Restoring (List Xattr)) o₁ = (.ok kept, o') →
      condition ∧ kept = preserved ++ [x] ∧ o' = o₁ := by
    intro condition _ o₁ h
    split_ifs at h with hcondition
    · obtain ⟨hkept, rfl⟩ := Prod.mk.inj h
      exact ⟨hcondition, (Except.ok.inj hkept).symm, rfl⟩
    · exact absurd (congrArg Prod.fst h) (by simp [Program.Action.fail])
  rw [restoreXattr] at h
  cases hclass : x.class_ with
  | logical =>
    simp only [hclass] at h
    rcases hhandle _ (by simpa only [set, hclass] using h) with
      ⟨hkept, hmask, hcheck, hput⟩ | ⟨e, c', h, hsame⟩
    · exact ⟨hmask, .inl ⟨hkept, by rw [storedNatively, hclass], hclass ▸ hcheck, hput⟩⟩
    · obtain ⟨hcondition, hkept, rfl⟩ := hkeep h
      exact ⟨rfl, .inr ⟨hkept, hsame, fun hlink => absurd hcondition.2 (by simp [hlink])⟩⟩
  | raw =>
    simp only [hclass] at h
    split_ifs at h with haccepted
    · obtain ⟨hkept, rfl⟩ := Prod.mk.inj h
      exact ⟨rfl, .inr ⟨(Except.ok.inj hkept).symm, List.Perm.refl _, fun _ => rfl⟩⟩
    · rcases hhandle _ (by simpa only [set, hclass] using h) with
        ⟨hkept, hmask, hcheck, hput⟩ | ⟨e, c', h, hsame⟩
      · refine ⟨hmask, .inl ⟨hkept, ?_, hclass ▸ hcheck, hput⟩⟩
        rw [storedNatively, hclass]
        simpa using haccepted
      · obtain ⟨-, hkept, rfl⟩ := hkeep h
        exact ⟨rfl, .inr ⟨hkept, hsame, fun _ => rfl⟩⟩

/-- The listing after these attributes have been stored. -/
def putAll (os : Os) (listed stored : List Xattr) : List Xattr :=
  stored.foldl (fun listed x => putXattr listed (nativeXattr os x).name x.value) listed

/-- Some attributes of a list are stored and the others are kept for the sidecar, or for the
transport of a link. -/
structure Split (os : Os) (isLink : Bool) (xs stored kept : List Xattr) : Prop where
  perm : (stored ++ kept).Perm xs
  sublist : kept.Sublist xs
  native : ∀ x ∈ stored, storedNatively os x = true
  named : ∀ x ∈ stored, checkName os x.class_ x.name = .ok ()
  raw : isLink = false → ∀ x ∈ kept, x.class_ = .raw

lemma putAll_perm {listed listed' : List Xattr} (h : listed.Perm listed') (stored : List Xattr) :
    (putAll os listed stored).Perm (putAll os listed' stored) := by
  induction stored generalizing listed listed' with
  | nil => exact h
  | cons x stored ih => exact ih (putXattr_perm h _ _)

lemma fold_restoreXattr (hdoc : stream.Documented host native) {isLink : Bool}
    {preserved after xs : List Xattr}
    (h : fold (restoreXattr host isLink) preserved xs o = (.ok after, o')) :
    ∃ stored kept, after = preserved ++ kept ∧ Split host.os isLink xs stored kept ∧
      o'.mask = o.mask ∧
      (native o'.captured).Perm (putAll host.os (native o.captured) stored) := by
  induction xs generalizing preserved o with
  | nil =>
    obtain ⟨hafter, rfl⟩ := Prod.mk.inj h
    exact ⟨[], [], by simpa using (Except.ok.inj hafter).symm,
      ⟨List.Perm.refl _, List.Sublist.refl _, by simp, by simp, by simp⟩, rfl, List.Perm.refl _⟩
  | cons x xs ih =>
    obtain ⟨next, o₁, hturn, hrest⟩ := bind_eq_ok.mp h
    obtain ⟨stored, kept, hafter, hsplit, hmask, hlisting⟩ := ih hrest
    obtain ⟨hmask₁, ⟨rfl, hnative, hnamed, hput⟩ | ⟨rfl, hsame, hraw⟩⟩ :=
      restoreXattr_cases hdoc hturn
    · refine ⟨x :: stored, kept, hafter, ⟨hsplit.perm.cons x, hsplit.sublist.cons x, ?_, ?_,
        hsplit.raw⟩, hmask.trans hmask₁, ?_⟩
      · simpa [hnative] using hsplit.native
      · simpa [hnamed] using hsplit.named
      · exact hlisting.trans (putAll_perm hput stored)
    · refine ⟨stored, x :: kept, by simpa using hafter, ⟨?_, hsplit.sublist.cons_cons x,
        hsplit.native, hsplit.named, fun hlink => ?_⟩, hmask.trans hmask₁,
        hlisting.trans (putAll_perm hsame stored)⟩
      · exact List.perm_middle.trans (hsplit.perm.cons x)
      · simpa [hraw hlink] using hsplit.raw hlink

/-! ### The listing after a restore -/

lemma mem_putXattr {listed : List Xattr} {native value : List UInt8} {y : Xattr}
    (hy : y ∈ putXattr listed native value) : y ∈ listed ∨ y = ⟨.raw, native, value⟩ := by
  rw [putXattr, List.mem_append, List.mem_filter, List.mem_singleton] at hy
  exact hy.imp_left And.left

/-- A name that is not listed is put at the end. -/
lemma putXattr_of_notMem {listed : List Xattr} {native value : List UInt8}
    (h : native ∉ listed.map Xattr.name) :
    putXattr listed native value = listed ++ [⟨.raw, native, value⟩] := by
  rw [putXattr, List.filter_eq_self.mpr]
  intro x hx
  have hne : x.name ≠ native := fun heq => h (heq ▸ List.mem_map_of_mem hx)
  simpa using hne

/-- What is listed was there before or has been stored. -/
lemma mem_putAll {listed stored : List Xattr} {y : Xattr} (hy : y ∈ putAll os listed stored) :
    y ∈ listed ∨ ∃ x ∈ stored, y = nativeXattr os x := by
  induction stored generalizing listed with
  | nil => exact .inl hy
  | cons x stored ih =>
    rcases ih hy with hy | ⟨x', hx', rfl⟩
    · rcases mem_putXattr hy with hy | rfl
      · exact .inl hy
      · exact .inr ⟨x, List.mem_cons_self, rfl⟩
    · exact .inr ⟨x', List.mem_cons_of_mem _ hx', rfl⟩

/-- Attributes under names of their own are put behind those that are there. -/
lemma putAll_of_nodup {listed stored : List Xattr}
    (h : ((listed ++ stored.map (nativeXattr os)).map Xattr.name).Nodup) :
    putAll os listed stored = listed ++ stored.map (nativeXattr os) := by
  induction stored generalizing listed with
  | nil => simp [putAll]
  | cons x stored ih =>
    have hnew : (nativeXattr os x).name ∉ listed.map Xattr.name := by
      rw [List.map_append, List.nodup_append] at h
      exact fun hmem => h.2.2 _ hmem _ (by simp) rfl
    have hput : putAll os listed (x :: stored)
        = putAll os (listed ++ [nativeXattr os x]) stored := by
      rw [putAll, List.foldl_cons, putXattr_of_notMem hnew]
      rfl
    rw [List.map_cons, List.append_cons] at h ⊢
    rw [hput, ih h]

/-! ### The sidecar -/

/-- The native name of the sidecar. -/
def sidecarName (os : Os) : List UInt8 := leading os .logical ++ utf8 "difz.raw-xattrs"

def preservedBlob (kept : List Xattr) : List UInt8 :=
  encodeCanonical { Metadata.default with xattrs := kept }

/-- The sidecar as it is listed, where one is written. -/
def sidecarFor (os : Os) (isLink : Bool) (kept : List Xattr) : List Xattr :=
  if isLink ∨ kept = [] then [] else [⟨.raw, sidecarName os, preservedBlob kept⟩]

lemma isTransportName_of_bare {native : List UInt8}
    (h : transportBare native = utf8 "difz.raw-xattrs") :
    Metadata.isTransportName native = true := by
  have hbare : Metadata.isTransportName native
      = Metadata.transportNames.contains (transportBare native) := rfl
  rw [hbare, h]
  decide

lemma bare_sidecarName (os : Os) : transportBare (sidecarName os) = utf8 "difz.raw-xattrs" := by
  cases os <;> decide

/-- A handler that fails takes no part in a run that ends well. -/
lemma handle_fail_eq_ok {α : Type} {x : Restoring α} {e : RestoreError} {a : α}
    (h : handle x (fun _ => Program.Action.fail e) o = (.ok a, o')) : x o = (.ok a, o') := by
  simp only [handle] at h
  split at h
  · next heq => rw [heq, h]
  · exact absurd (congrArg Prod.fst h) (by simp [Program.Action.fail])

lemma setSidecar_native (hdoc : stream.Documented host native) {name : String} {bytes : List UInt8}
    {u : Unit} (h : setSidecar host name bytes o = (.ok u, o')) :
    (native o'.captured).Perm
        (putXattr (native o.captured) (leading host.os .logical ++ utf8 name) bytes) ∧
      o'.mask = o.mask := by
  obtain ⟨_, o₁, hcall, hput⟩ := bind_eq_ok.mp h
  obtain ⟨-, rfl⟩ := Prod.mk.inj hput
  rcases setAttribute_cases hdoc ⟨.logical, utf8 name, bytes⟩ o.captured with
    ⟨c', hrun, -, hlisted⟩ | ⟨e, c', hrun, -⟩
  · dsimp only at hrun
    simp only [tryCall, hrun] at hcall
    obtain ⟨-, rfl⟩ := Prod.mk.inj hcall
    exact ⟨hlisted, rfl⟩
  · dsimp only at hrun
    simp only [tryCall, hrun] at hcall
    exact absurd (congrArg Prod.fst hcall) (by simp [Except.mapError])

/-- How a restore that ends well came to what is there now. -/
lemma restoreXattrs_eq_ok (hdoc : stream.Documented host native) {isLink : Bool} {m : Metadata}
    {left : List Xattr} (h : restoreXattrs host m isLink o = (.ok left, o')) :
    ∃ stored kept, Split host.os isLink m.xattrs stored kept ∧
      left = (if isLink then kept else []) ∧
      o'.mask = (if isLink ∨ kept = [] then o.mask else o.mask ||| 128) ∧
      (sidecarName host.os ∉ (putAll host.os (native o.captured) stored).map Xattr.name →
        (native o'.captured).Perm
          (putAll host.os (native o.captured) stored ++ sidecarFor host.os isLink kept)) := by
  obtain ⟨after, o₁, hfold, h⟩ := bind_eq_ok.mp h
  obtain ⟨stored, kept, hafter, hsplit, hmask, hlisting⟩ := fold_restoreXattr hdoc hfold
  obtain rfl : after = kept := hafter
  refine ⟨stored, after, hsplit, ?_⟩
  cases isLink with
  | true =>
    obtain ⟨rfl, rfl⟩ := pure_eq_ok h
    exact ⟨rfl, by simpa using hmask, fun _ => by simpa [sidecarFor] using hlisting⟩
  | false =>
    by_cases hkept : after = []
    · rw [hkept] at h ⊢
      obtain ⟨rfl, rfl⟩ := pure_eq_ok h
      exact ⟨rfl, by simpa using hmask, fun _ => by simpa [sidecarFor] using hlisting⟩
    · rw [if_neg (by simp), if_neg (by simpa using hkept)] at h
      obtain ⟨_, o₂, hset, h⟩ := bind_eq_ok.mp h
      obtain ⟨_, o₃, hreport, h⟩ := bind_eq_ok.mp h
      obtain ⟨rfl, rfl⟩ := pure_eq_ok h
      obtain ⟨-, rfl⟩ := Prod.mk.inj hreport
      obtain ⟨hlisted, hsame⟩ := setSidecar_native hdoc (handle_fail_eq_ok hset)
      refine ⟨rfl, ?_, fun hnew => ?_⟩
      · rw [if_neg (by simpa using hkept), ← hmask, ← hsame]
        rfl
      · rw [sidecarFor, if_neg (by simpa using hkept), ← putXattr_of_notMem hnew]
        exact hlisted.trans (putXattr_perm hlisting _ _)

/-! ### What is read back -/

/-- What the reader makes of a native attribute, if anything. -/
def recaptured (os : Os) (y : Xattr) : Option Xattr :=
  (Metadata.AttributeName.capture os y.name).map fun found => ⟨found.1, found.2, y.value⟩

lemma readListed_eq (c : Captured) (found : List Xattr × Option (List UInt8))
    (name : List UInt8) : readListed os stream c found name =
      if transportBare name = utf8 "difz.raw-xattrs" then
        (tryGetXattr stream c .logical (utf8 "difz.raw-xattrs")).map fun blob =>
          (found.1, some blob)
      else
        match Metadata.AttributeName.capture os name with
        | none => .ok found
        | some (class_, name) => (tryGetXattr stream c class_ name).map fun value =>
          (found.1 ++ [⟨class_, name, value⟩], found.2) := by
  rw [readListed, Metadata.AttributeName.capture]
  by_cases hbare : transportBare name = utf8 "difz.raw-xattrs"
  · rw [if_pos (isTransportName_of_bare hbare), if_pos hbare, if_pos hbare]
    cases tryGetXattr stream c .logical (utf8 "difz.raw-xattrs") <;> rfl
  · rw [if_neg hbare, if_neg hbare]
    split_ifs
    · rfl
    · rfl
    · cases fromNative os .logical name with
      | none =>
        dsimp only
        cases tryGetXattr stream c .raw name <;> rfl
      | some logical =>
        dsimp only
        split_ifs
        · rfl
        · dsimp only
          cases tryGetXattr stream c .logical logical <;> rfl

/-- A name that is read belongs to the native name it is read from. -/
lemma capture_eq_some {native name : List UInt8} {class_ : XattrClass}
    (h : Metadata.AttributeName.capture os native = some (class_, name)) :
    native = leading os class_ ++ name ∧
      (class_ = .logical → Metadata.validateLogicalName name = .ok ()) := by
  rw [Metadata.AttributeName.capture] at h
  split_ifs at h
  split at h
  · next logical hfrom =>
    obtain ⟨hnative, hvalid⟩ := Metadata.AttributeName.fromNative_logical_eq_some.mp hfrom
    split_ifs at h
    obtain ⟨rfl, rfl⟩ := Prod.mk.inj (Option.some.inj h)
    exact ⟨hnative, fun _ => hvalid⟩
  · obtain ⟨rfl, rfl⟩ := Prod.mk.inj (Option.some.inj h)
    exact ⟨by simp [leading], fun h => absurd h (by decide)⟩

/-- Everything that is listed can be read: what has a class under the name it is listed with, and a
sidecar under its own name. -/
structure Readable (os : Os) (listed : List Xattr) : Prop where
  named : ∀ y ∈ listed, ∀ class_ name,
    Metadata.AttributeName.capture os y.name = some (class_, name) →
    nativeName os ⟨class_, name, []⟩ = .ok y.name
  sidecar : ∀ y ∈ listed, transportBare y.name = utf8 "difz.raw-xattrs" → y.name = sidecarName os

lemma nativeName_sidecar (os : Os) :
    nativeName os ⟨.logical, utf8 "difz.raw-xattrs", []⟩ = .ok (sidecarName os) := by
  cases os <;> decide +kernel

/-- The loop over the names collects what the names stand for, and the value of the sidecar. -/
lemma foldlM_readListed (hdoc : stream.Documented host native) {c : Captured} {ys : List Xattr}
    (h : Readable host.os ys) (hsub : ∀ y ∈ ys, y ∈ native c)
    (found : List Xattr × Option (List UInt8)) :
    (ys.map Xattr.name).foldlM (readListed host.os stream c) found
      = .ok (found.1 ++ ys.filterMap (recaptured host.os), ys.foldl (fun sidecar y =>
          if transportBare y.name = utf8 "difz.raw-xattrs" then some y.value else sidecar)
            found.2) := by
  induction ys generalizing found with
  | nil => simp [pure, Except.pure]
  | cons y ys ih =>
    have hy : y ∈ native c := hsub y List.mem_cons_self
    have hreadable : Readable host.os ys :=
      ⟨fun y hy => h.named y (List.mem_cons_of_mem _ hy),
        fun y hy => h.sidecar y (List.mem_cons_of_mem _ hy)⟩
    have hrest := ih hreadable fun y hy => hsub y (List.mem_cons_of_mem _ hy)
    rw [List.map_cons, List.foldlM_cons, readListed_eq, List.filterMap_cons, List.foldl_cons]
    by_cases hbare : transportBare y.name = utf8 "difz.raw-xattrs"
    · have hget : stream.get .logical (utf8 "difz.raw-xattrs") c = .ok y.value :=
        hdoc.get _ _ _ y hy (by
          rw [h.sidecar y List.mem_cons_self hbare, nativeName_sidecar])
      have hnone : recaptured host.os y = none := by
        rw [recaptured, Metadata.AttributeName.capture, if_pos (isTransportName_of_bare hbare)]
        rfl
      rw [if_pos hbare, if_pos hbare, tryGetXattr, hget, hnone]
      exact hrest _
    · rw [if_neg hbare, if_neg hbare, recaptured]
      cases hcapture : Metadata.AttributeName.capture host.os y.name with
      | none => exact hrest _
      | some key =>
        have hget : stream.get key.1 key.2 c = .ok y.value :=
          hdoc.get _ _ _ y hy (h.named y List.mem_cons_self _ _ hcapture)
        dsimp only
        rw [tryGetXattr, hget, mapError_ok, Option.map_some]
        refine (hrest _).trans ?_
        simp

/-- The sidecar that the loop finds, where all there are have one value. -/
lemma foldl_sidecar {ys : List Xattr} {value : List UInt8}
    (h : ∀ y ∈ ys, transportBare y.name = utf8 "difz.raw-xattrs" → y.value = value)
    (found : Option (List UInt8)) :
    ys.foldl (fun sidecar y =>
        if transportBare y.name = utf8 "difz.raw-xattrs" then some y.value else sidecar) found
      = if ∃ y ∈ ys, transportBare y.name = utf8 "difz.raw-xattrs" then some value else found := by
  induction ys generalizing found with
  | nil => simp
  | cons y ys ih =>
    rw [List.foldl_cons, ih fun y hy => h y (List.mem_cons_of_mem _ hy)]
    by_cases hbare : transportBare y.name = utf8 "difz.raw-xattrs"
    · have hvalue := h y List.mem_cons_self hbare
      simp [hbare, hvalue]
    · simp [hbare]

lemma mem_addPreserved {xattrs decoded : List Xattr} {x : Xattr}
    (h : x ∈ addPreserved xattrs decoded) : x ∈ xattrs ∨ x ∈ decoded := by
  induction decoded generalizing xattrs with
  | nil => exact .inl h
  | cons y decoded ih =>
    rcases ih h with h | h
    · dsimp only at h
      split_ifs at h
      · exact .inl h
      · exact .inl h
      · rcases List.mem_append.mp h with h | h
        · exact .inl h
        · exact .inr (List.mem_cons.mpr (.inl (List.mem_singleton.mp h)))
    · exact .inr (List.mem_cons_of_mem _ h)

/-- Raw attributes under keys of their own are all added. -/
lemma addPreserved_eq {xattrs decoded : List Xattr} (hraw : ∀ x ∈ decoded, x.class_ = .raw)
    (hnodup : ((xattrs ++ decoded).map Xattr.key).Nodup) :
    addPreserved xattrs decoded = xattrs ++ decoded := by
  rw [← mergeXattrs_eq hnodup, addPreserved, mergeXattrs]
  refine List.foldl_ext _ _ _ fun found x hx => ?_
  rw [if_neg (by simp [hraw x hx])]

/-- Nothing is read from this native name. -/
def Skipped (os : Os) (native : List UInt8) : Prop :=
  Metadata.AttributeName.capture os native = none ∧ transportBare native ≠ utf8 "difz.raw-xattrs"

/-- What is there later: the same attributes, with others that the reader skips. -/
def Later (os : Os) (listed later : List Xattr) : Prop :=
  ∃ others, later.Perm (listed ++ others) ∧ ∀ y ∈ others, Skipped os y.name

/-- The native name of an attribute of a record is none of the transport. -/
lemma isTransportName_nativeXattr {c : CanonicalMetadata} {x : Xattr}
    (hx : x ∈ c.metadata.xattrs) : Metadata.isTransportName (nativeXattr os x).name = false := by
  rw [nativeXattr, ← Metadata.AttributeName.isTransportName_of_mem hx]
  cases hclass : x.class_ with
  | logical =>
    exact Metadata.AttributeName.isTransportName_leading
      (Metadata.AttributeName.validateLogicalName_of_mem hx hclass)
  | raw => rw [Metadata.AttributeName.leading_raw, List.nil_append]

lemma bare_nativeXattr {c : CanonicalMetadata} {x : Xattr} (hx : x ∈ c.metadata.xattrs) :
    transportBare (nativeXattr os x).name ≠ utf8 "difz.raw-xattrs" := by
  intro hbare
  exact absurd ((isTransportName_of_bare hbare).symm.trans (isTransportName_nativeXattr hx))
    (by decide)

lemma length_lt_of_checkName {name : List UInt8} (h : checkName os .raw name = .ok ()) :
    name.length < 256 := by
  simp only [checkName, ite_error_eq_ok, Bool.or_eq_true, not_or, Bool.not_eq_true,
    decide_eq_false_iff_not, not_lt] at h
  have hlength := h.1.1.1.2
  cases os <;> simp only at hlength <;> omega

/-- A native name that was set can be asked for as what it is read as. -/
lemma nativeName_of_capture {x : Xattr} {class_ : XattrClass} {name : List UInt8}
    (hcheck : checkName os x.class_ x.name = .ok ())
    (h : Metadata.AttributeName.capture os (nativeXattr os x).name = some (class_, name)) :
    nativeName os ⟨class_, name, []⟩ = .ok (nativeXattr os x).name := by
  obtain ⟨hnative, hvalid⟩ := capture_eq_some h
  have hkey : checkName os class_ name = .ok () ∧
      (leading os class_).length + name.length < (List.replicate 256 (0 : UInt8)).length := by
    rw [List.length_replicate]
    cases class_ with
    | logical =>
      have hlength := Metadata.length_le_of_validateLogicalName (hvalid rfl)
      have hlead : (leading os .logical).length ≤ 5 := by
        cases os <;> decide
      refine ⟨?_, by omega⟩
      rw [checkName, hvalid rfl]
      rfl
    | raw =>
      rw [Metadata.AttributeName.leading_raw, List.nil_append] at hnative
      rw [Metadata.AttributeName.leading_raw, List.length_nil]
      cases hclass : x.class_ with
      | logical =>
        -- the name of a logical attribute is not read as a raw one
        rw [hclass] at hcheck
        have hlogical : fromNative os .logical (nativeXattr os x).name = some x.name := by
          refine Metadata.AttributeName.fromNative_logical_eq_some.mpr ⟨?_, mapError_eq_ok.mp hcheck⟩
          rw [nativeXattr, hclass]
        rw [Metadata.AttributeName.capture, hlogical] at h
        dsimp only at h
        split_ifs at h
        exact absurd (Prod.mk.inj (Option.some.inj h)).1 (by decide)
      | raw =>
        rw [nativeXattr, hclass, Metadata.AttributeName.leading_raw, List.nil_append] at hnative
        rw [hclass, hnative] at hcheck
        refine ⟨hcheck, ?_⟩
        have hlength := length_lt_of_checkName hcheck
        omega
  rw [nativeName, Metadata.AttributeName.toNative_fst hkey.1 hkey.2, ← hnative]

section Reading

variable {c : CanonicalMetadata} {isLink : Bool} {stored kept listed later : List Xattr}

lemma eq_of_mem_sidecarFor {y : Xattr} (hy : y ∈ sidecarFor os isLink kept) :
    (isLink = false ∧ kept ≠ []) ∧ y = ⟨.raw, sidecarName os, preservedBlob kept⟩ := by
  rw [sidecarFor] at hy
  split_ifs at hy with h
  · exact absurd hy (by simp)
  · rw [not_or] at h
    exact ⟨⟨by simpa using h.1, h.2⟩, List.mem_singleton.mp hy⟩

lemma decodeCanonical_preservedBlob (hsplit : Split os isLink c.metadata.xattrs stored kept) :
    decodeCanonical (preservedBlob kept) = .ok { Metadata.default with xattrs := kept } := by
  refine decodeCanonical_encodeCanonical { CanonicalMetadata.default.isValid with
    xattrCount := ?_, xattrs := ?_ }
  · exact hsplit.sublist.length_le.trans_lt c.isValid.xattrCount
  · exact Metadata.xattrs_sublist c.isValid.xattrs hsplit.sublist

/-- What is listed later, one by one. -/
lemma listed_cases (hbare : ∀ y ∈ listed, Skipped os y.name)
    (hlater : Later os (putAll os listed stored ++ sidecarFor os isLink kept) later) {y : Xattr}
    (hy : y ∈ later) :
    Skipped os y.name ∨ (∃ x ∈ stored, y = nativeXattr os x) ∨ y ∈ sidecarFor os isLink kept := by
  obtain ⟨others, hperm, hothers⟩ := hlater
  rcases List.mem_append.mp (hperm.subset hy) with hy | hy
  · rcases List.mem_append.mp hy with hy | hy
    · rcases mem_putAll hy with hy | hy
      · exact .inl (hbare y hy)
      · exact .inr (.inl hy)
    · exact .inr (.inr hy)
  · exact .inl (hothers y hy)

variable (hsplit : Split os isLink c.metadata.xattrs stored kept)
  (hbare : ∀ y ∈ listed, Skipped os y.name)
  (hlater : Later os (putAll os listed stored ++ sidecarFor os isLink kept) later)

include hsplit hbare hlater

lemma bare_later {y : Xattr} (hy : y ∈ later)
    (h : transportBare y.name = utf8 "difz.raw-xattrs") : y ∈ sidecarFor os isLink kept := by
  rcases listed_cases hbare hlater hy with hskip | ⟨x, hx, rfl⟩ | hy
  · exact absurd h hskip.2
  · exact absurd h (bare_nativeXattr (hsplit.perm.subset (List.mem_append_left _ hx)))
  · exact hy

lemma readable_later : Readable os later where
  named := by
    intro y hy class_ name hcapture
    rcases listed_cases hbare hlater hy with hskip | ⟨x, hx, rfl⟩ | hy
    · exact absurd (hskip.1.symm.trans hcapture) (by simp)
    · exact nativeName_of_capture (hsplit.named x hx) hcapture
    · obtain ⟨-, rfl⟩ := eq_of_mem_sidecarFor hy
      rw [Metadata.AttributeName.capture, if_pos (isTransportName_of_bare (bare_sidecarName os))]
        at hcapture
      exact absurd hcapture (by simp)
  sidecar := by
    intro y hy h
    obtain ⟨-, rfl⟩ := eq_of_mem_sidecarFor (bare_later hsplit hbare hlater hy h)
    rfl

/-- The loop over these names, in this order. -/
lemma foldl_later : later.foldl (fun sidecar y =>
      if transportBare y.name = utf8 "difz.raw-xattrs" then some y.value else sidecar) none
    = if isLink = false ∧ kept ≠ [] then some (preservedBlob kept) else none := by
  have hvalue : ∀ y ∈ later, transportBare y.name = utf8 "difz.raw-xattrs" →
      y.value = preservedBlob kept := by
    intro y hy h
    obtain ⟨-, rfl⟩ := eq_of_mem_sidecarFor (bare_later hsplit hbare hlater hy h)
    rfl
  have hfound : (∃ y ∈ later, transportBare y.name = utf8 "difz.raw-xattrs") ↔
      isLink = false ∧ kept ≠ [] := by
    constructor
    · rintro ⟨y, hy, h⟩
      exact (eq_of_mem_sidecarFor (bare_later hsplit hbare hlater hy h)).1
    · rintro ⟨rfl, hkept⟩
      obtain ⟨others, hperm, -⟩ := hlater
      refine ⟨⟨.raw, sidecarName os, preservedBlob kept⟩, hperm.mem_iff.mpr ?_, bare_sidecarName os⟩
      simp [sidecarFor, hkept]
  rw [foldl_sidecar hvalue]
  exact if_congr hfound rfl rfl

end Reading

section Reading

variable {c : CanonicalMetadata} {isLink : Bool} {stored kept listed later : List Xattr}

/-- The reader finds what the native names stand for, and what the sidecar preserves. -/
lemma readXattrs_later (hdoc : stream.Documented host native) {c₂ : Captured}
    (hsplit : Split host.os isLink c.metadata.xattrs stored kept)
    (hbare : ∀ y ∈ listed, Skipped host.os y.name)
    (hlater : Later host.os (putAll host.os listed stored ++ sidecarFor host.os isLink kept) later)
    (hsub : ∀ y ∈ later, y ∈ native c₂) (hlist : stream.list c₂ = .ok (later.map Xattr.name)) :
    readXattrs host.os stream c₂ = .ok (addPreserved (later.filterMap (recaptured host.os))
      (if isLink then [] else kept)) := by
  rw [readXattrs, hlist]
  dsimp only
  rw [foldlM_readListed hdoc (readable_later hsplit hbare hlater) hsub, ok_bind,
    foldl_later hsplit hbare hlater]
  by_cases h : isLink = false ∧ kept ≠ []
  · rw [if_pos h, if_neg (by simp [h.1])]
    dsimp only
    rw [decodeCanonical_preservedBlob hsplit]
    rfl
  · rw [if_neg h]
    have hnothing : (if isLink then [] else kept) = [] := by
      cases isLink with
      | true => rfl
      | false => simpa using h
    rw [hnothing]
    rfl

end Reading

/-! ### Attributes that come back -/

/-- The native name of an attribute is read as that attribute: it is not excluded, and a raw name
does not spell a logical one. -/
def Recognized (os : Os) (x : Xattr) : Prop :=
  (x.class_ = .raw → ¬Metadata.AttributeName.SpellsLogical os x.name) ∧
    excludedXattr os (nativeXattr os x).name = false

lemma capture_nativeXattr {c : CanonicalMetadata} {x : Xattr} (hx : x ∈ c.metadata.xattrs) :
    Metadata.AttributeName.capture os (nativeXattr os x).name = some (x.class_, x.name) ↔
      Recognized os x := by
  have htransport := Metadata.AttributeName.isTransportName_of_mem hx
  rw [Recognized, nativeXattr]
  cases hclass : x.class_ with
  | logical =>
    rw [Metadata.AttributeName.capture_logical
      (Metadata.AttributeName.validateLogicalName_of_mem hx hclass) htransport]
    simp
  | raw =>
    rw [Metadata.AttributeName.leading_raw, List.nil_append,
      Metadata.AttributeName.capture_raw htransport]
    simp

lemma recaptured_nativeXattr {c : CanonicalMetadata} {x : Xattr} (hx : x ∈ c.metadata.xattrs)
    (h : Recognized os x) : recaptured os (nativeXattr os x) = some x := by
  rw [recaptured, (capture_nativeXattr hx).mpr h]
  rfl

section Reading

variable {c : CanonicalMetadata} {isLink : Bool} {stored kept listed later : List Xattr}

lemma Split.keys_nodup (hsplit : Split os isLink c.metadata.xattrs stored kept) :
    ((stored ++ kept).map Xattr.key).Nodup :=
  (hsplit.perm.map Xattr.key).nodup_iff.mpr (Metadata.xattrs_eq_ok.mp c.isValid.xattrs).2.nodup

/-- Attributes that are all recognized are listed behind the others, each under a name of its
own. -/
lemma putAll_of_recognized (hsplit : Split os isLink c.metadata.xattrs stored kept)
    (hbare : ∀ y ∈ listed, Skipped os y.name) (hnodup : (listed.map Xattr.name).Nodup)
    (h : ∀ x ∈ stored, Recognized os x) :
    putAll os listed stored = listed ++ stored.map (nativeXattr os) := by
  have hmem : ∀ x ∈ stored, x ∈ c.metadata.xattrs :=
    fun x hx => hsplit.perm.subset (List.mem_append_left _ hx)
  have hkeys : (stored.map Xattr.key).Nodup :=
    hsplit.keys_nodup.sublist ((List.sublist_append_left stored kept).map _)
  have hcapture : ∀ x ∈ stored, Metadata.AttributeName.capture os (nativeXattr os x).name
      = some (x.class_, x.name) := fun x hx => (capture_nativeXattr (hmem x hx)).mpr (h x hx)
  refine putAll_of_nodup ?_
  rw [List.map_append, List.nodup_append]
  refine ⟨hnodup, ?_, ?_⟩
  · rw [List.map_map]
    refine List.Nodup.map_on (fun x hx y hy hname => ?_) (List.Nodup.of_map _ hkeys)
    have hsame := (hcapture x hx).symm.trans ((congrArg _ hname).trans (hcapture y hy))
    obtain ⟨hclass, hname⟩ := Prod.mk.inj (Option.some.inj hsame)
    exact List.inj_on_of_nodup_map hkeys hx hy (by rw [Xattr.key, Xattr.key, hclass, hname])
  · intro name hname other hother
    obtain ⟨y, hy, rfl⟩ := List.mem_map.mp hname
    rw [List.map_map] at hother
    obtain ⟨x, hx, rfl⟩ := List.mem_map.mp hother
    intro hsame
    have hskipped := (hbare y hy).1
    rw [hsame] at hskipped
    exact absurd (hskipped.symm.trans (hcapture x hx)) (by simp)

/-- The attributes that are read from native names are then the stored ones. -/
lemma filterMap_recaptured (hsplit : Split os isLink c.metadata.xattrs stored kept)
    (hbare : ∀ y ∈ listed, Skipped os y.name) (hnodup : (listed.map Xattr.name).Nodup)
    (h : ∀ x ∈ stored, Recognized os x)
    (hlater : Later os (putAll os listed stored ++ sidecarFor os isLink kept) later) :
    (later.filterMap (recaptured os)).Perm stored := by
  have hskip : ∀ ys : List Xattr, (∀ y ∈ ys, Metadata.AttributeName.capture os y.name = none) →
      ys.filterMap (recaptured os) = [] := by
    intro ys hys
    refine List.filterMap_eq_nil_iff.mpr fun y hy => ?_
    rw [recaptured, hys y hy]
    rfl
  have hsidecar : ∀ y ∈ sidecarFor os isLink kept,
      Metadata.AttributeName.capture os y.name = none := by
    intro y hy
    obtain ⟨-, rfl⟩ := eq_of_mem_sidecarFor hy
    rw [Metadata.AttributeName.capture, if_pos (isTransportName_of_bare (bare_sidecarName os))]
  have hstored : (stored.map (nativeXattr os)).filterMap (recaptured os) = stored := by
    rw [List.filterMap_map]
    refine (List.filterMap_congr fun x hx => ?_).trans List.filterMap_some
    exact recaptured_nativeXattr (hsplit.perm.subset (List.mem_append_left _ hx)) (h x hx)
  obtain ⟨others, hperm, hothers⟩ := hlater
  rw [putAll_of_recognized hsplit hbare hnodup h] at hperm
  refine (hperm.filterMap _).trans ?_
  rw [List.filterMap_append, List.filterMap_append, List.filterMap_append,
    hskip listed fun y hy => (hbare y hy).1, hskip _ hsidecar,
    hskip others fun y hy => (hothers y hy).1, hstored]
  simp

end Reading

/-- An attribute is there after a restore, unless another one was stored under its native name. -/
lemma mem_putAll_of_alone {listed stored : List Xattr} {x : Xattr}
    (hx : nativeXattr os x ∈ listed ∨ x ∈ stored)
    (halone : ∀ y ∈ stored, (nativeXattr os y).name = (nativeXattr os x).name → y = x) :
    nativeXattr os x ∈ putAll os listed stored := by
  induction stored generalizing listed with
  | nil => exact hx.resolve_right List.not_mem_nil
  | cons y stored ih =>
    refine ih ?_ fun z hz => halone z (List.mem_cons_of_mem _ hz)
    change nativeXattr os x ∈ putXattr listed _ _ ∨ _
    rw [putXattr, List.mem_append, List.mem_singleton, List.mem_filter]
    by_cases hname : (nativeXattr os y).name = (nativeXattr os x).name
    · obtain rfl := halone y List.mem_cons_self hname
      exact .inl (.inr rfl)
    · rcases hx with hx | hx
      · exact .inl (.inl ⟨hx, by simpa using Ne.symm hname⟩)
      · rcases List.mem_cons.mp hx with rfl | hx
        · exact absurd rfl hname
        · exact .inr hx

/-- Restoring the attributes of a record on an object whose own attributes the reader skips, and
reading them back. Whatever the system refuses, each attribute is either stored or kept, in the
sidecar or, for a link, for the caller; those that no system of this kind stores are kept. The
object has the stored attributes under their native names, and the sidecar holds those that were
kept. However the attributes are listed afterwards, with whatever else that the reader skips,
reading gives the attributes of the record exactly when every one that was stored is recognized by
its native name. -/
theorem readXattrs_restoreXattrs {c : CanonicalMetadata} {isLink : Bool} {left : List Xattr}
    (hdoc : stream.Documented host native)
    (hbare : ∀ y ∈ native o.captured, Skipped host.os y.name)
    (hrun : restoreXattrs host c.metadata isLink o = (.ok left, o')) :
    ∃ stored kept : List Xattr, (stored ++ kept).Perm c.metadata.xattrs ∧
      (∀ x ∈ stored, storedNatively host.os x = true) ∧
      (isLink = false → ∀ x ∈ kept, x.class_ = .raw) ∧
      left = (if isLink then kept else []) ∧
      o'.mask = (if isLink ∨ kept = [] then o.mask else o.mask ||| 128) ∧
      (native o'.captured).Perm
        (putAll host.os (native o.captured) stored ++ sidecarFor host.os isLink kept) ∧
      (∀ x ∈ stored,
        (∀ y ∈ stored, (nativeXattr host.os y).name = (nativeXattr host.os x).name → y = x) →
          nativeXattr host.os x ∈ native o'.captured) ∧
      (isLink = false → kept ≠ [] → ∃ blob, ⟨.raw, sidecarName host.os, blob⟩ ∈ native o'.captured ∧
        decodeCanonical blob = .ok { Metadata.default with xattrs := kept }) ∧
      ∀ later names, Later host.os (native o'.captured) (native later) →
        stream.list later = .ok names →
        ((∃ xattrs, readXattrs host.os stream later = .ok xattrs ∧
            canonicalXattrs (xattrs ++ left) = .ok c.metadata.xattrs) ↔
          ∀ x ∈ stored, Recognized host.os x) := by
  obtain ⟨stored, kept, hsplit, hleft, hmask, hlisting⟩ := restoreXattrs_eq_ok hdoc hrun
  have hmem : ∀ x, x ∈ stored ∨ x ∈ kept ↔ x ∈ c.metadata.xattrs :=
    fun x => List.mem_append.symm.trans hsplit.perm.mem_iff
  have hfree : sidecarName host.os
      ∉ (putAll host.os (native o.captured) stored).map Xattr.name := by
    intro hname
    obtain ⟨y, hy, hname⟩ := List.mem_map.mp hname
    rcases mem_putAll hy with hy | ⟨x, hx, rfl⟩
    · exact (hbare y hy).2 (by rw [hname, bare_sidecarName])
    · exact bare_nativeXattr ((hmem x).mp (.inl hx)) (by rw [hname, bare_sidecarName])
  have hheld := hlisting hfree
  refine ⟨stored, kept, hsplit.perm, hsplit.native, hsplit.raw, hleft, hmask, hheld,
    fun x hx halone => ?_, fun hlink hkept => ?_, fun later names hlater hlist => ?_⟩
  · exact hheld.mem_iff.mpr (List.mem_append_left _ (mem_putAll_of_alone (.inr hx) halone))
  · refine ⟨preservedBlob kept, hheld.mem_iff.mpr (List.mem_append_right _ ?_),
      decodeCanonical_preservedBlob hsplit⟩
    simp [sidecarFor, hlink, hkept]
  · obtain ⟨ys, hys, rfl⟩ := hdoc.list later names hlist
    obtain ⟨others, hperm, hothers⟩ := hlater
    have hlater : Later host.os
        (putAll host.os (native o.captured) stored ++ sidecarFor host.os isLink kept) ys :=
      ⟨others, (hys.trans hperm).trans (hheld.append_right others), hothers⟩
    rw [readXattrs_later hdoc hsplit hbare hlater (fun y hy => hys.subset hy) hlist]
    constructor
    · rintro ⟨xattrs, hread, hcanonical⟩ x hx
      obtain rfl := Except.ok.inj hread
      have hkept : x ∉ kept := fun hkept =>
        (List.nodup_append.mp (List.Nodup.of_map _ hsplit.keys_nodup)).2.2 x hx x hkept rfl
      have hx := (hmem x).mp (.inl hx)
      have hfound := (perm_of_canonicalXattrs hcanonical).subset hx
      have hnative : x ∈ ys.filterMap (recaptured host.os) := by
        rcases List.mem_append.mp hfound with hfound | hfound
        · refine (mem_addPreserved hfound).resolve_right fun hfound => ?_
          split_ifs at hfound
          · exact absurd hfound (by simp)
          · exact hkept hfound
        · rw [hleft] at hfound
          split_ifs at hfound
          · exact absurd hfound hkept
          · exact absurd hfound (by simp)
      obtain ⟨y, -, hy⟩ := List.mem_filterMap.mp hnative
      obtain ⟨key, hcapture, rfl⟩ := Option.map_eq_some_iff.mp hy
      rw [(capture_eq_some hcapture).1] at hcapture
      exact (capture_nativeXattr hx).mp hcapture
    · intro hstored
      have hnative := filterMap_recaptured hsplit hbare (hdoc.nodup o.captured) hstored hlater
      refine ⟨_, rfl, canonicalXattrs_of_perm c.isValid.xattrs ?_⟩
      refine List.Perm.trans ?_ ((hnative.append_right kept).trans hsplit.perm)
      rw [hleft]
      cases isLink with
      | true => exact List.Perm.refl _
      | false =>
        have hkeys : ((ys.filterMap (recaptured host.os) ++ kept).map Xattr.key).Nodup :=
          ((hnative.append_right kept).map Xattr.key).nodup_iff.mpr hsplit.keys_nodup
        rw [if_neg (by decide), if_neg (by decide), List.append_nil,
          addPreserved_eq (hsplit.raw rfl) hkeys]

/-! ### A system that guards its labels -/

/-- The attributes of an object, on a system that keeps them in the place of those that are found,
one under each name. -/
def listing (c : Captured) : List Xattr :=
  (c.xattrs.toOption.getD []).pwFilter fun x y => x.name ≠ y.name

lemma nodup_listing (c : Captured) : ((listing c).map Xattr.name).Nodup := by
  rw [List.Nodup, List.pairwise_map]
  exact List.pairwise_pwFilter _

/-- `xattr_stream.set` stores what the system does not refuse, for any reason that may depend on
what is there. Nothing else works on this host. -/
def listingHost (os : Os) (refuses : List Xattr → List UInt8 → List UInt8 → Option CallError) :
    Host where
  os
  setAttribute class_ name value := fun c =>
    match nativeName os ⟨class_, name, value⟩ with
    | .error _ => (.error .failed, c)
    | .ok native =>
      match refuses (listing c) native value with
      | some e => (.error e, c)
      | none => (.ok (), { c with xattrs := .ok (putXattr (listing c) native value) })
  punch _ := Action.fail .unsupported
  setBirth _ := Action.fail .unsupported
  setInfo _ := Action.fail .unsupported
  setFlags _ := Action.fail .unsupported
  restoreAcl _ := Action.fail .unsupported
  setTimestamps _ := Action.fail .unsupported
  setFilePermissions := Action.fail .unsupported
  others := id

def listingStream (os : Os) : XattrStream where
  list c := .ok ((listing c).map Xattr.name)
  get class_ name c :=
    match nativeName os ⟨class_, name, []⟩ with
    | .error _ => .error .failed
    | .ok native =>
      match (listing c).find? fun x => x.name == native with
      | none => .error .failed
      | some x => .ok x.value

lemma nodup_putXattr {listed : List Xattr} (h : (listed.map Xattr.name).Nodup)
    (native value : List UInt8) : ((putXattr listed native value).map Xattr.name).Nodup := by
  rw [putXattr, List.map_append, List.nodup_append]
  refine ⟨h.sublist (List.filter_sublist.map _), by simp, fun name hname other hother => ?_⟩
  obtain ⟨x, hx, rfl⟩ := List.mem_map.mp hname
  rw [List.map_singleton, List.mem_singleton] at hother
  rw [hother]
  simpa using (List.mem_filter.mp hx).2

lemma listingStream_documented (os : Os)
    (refuses : List Xattr → List UInt8 → List UInt8 → Option CallError) :
    (listingStream os).Documented (listingHost os refuses) listing where
  nodup := nodup_listing
  set_ok := by
    intro class_ name value c c' h
    dsimp only [listingHost] at h
    cases hname : nativeName os ⟨class_, name, value⟩ with
    | error e =>
      rw [hname] at h
      exact absurd (congrArg Prod.fst h) (by simp)
    | ok bytes =>
      rw [hname] at h
      dsimp only at h
      cases hrefuses : refuses (listing c) bytes value with
      | some e =>
        rw [hrefuses] at h
        exact absurd (congrArg Prod.fst h) (by simp)
      | none =>
        rw [hrefuses] at h
        obtain ⟨-, rfl⟩ := Prod.mk.inj h
        refine ⟨bytes, hname, List.Perm.of_eq ?_⟩
        have hdistinct := nodup_putXattr (nodup_listing c) bytes value
        rw [List.Nodup, List.pairwise_map] at hdistinct
        exact List.pwFilter_eq_self.mpr hdistinct
  set_error := by
    intro class_ name value c c' e h
    dsimp only [listingHost] at h
    cases hname : nativeName os ⟨class_, name, value⟩ with
    | error e =>
      rw [hname] at h
      rw [(Prod.mk.inj h).2]
    | ok bytes =>
      rw [hname] at h
      dsimp only at h
      cases hrefuses : refuses (listing c) bytes value with
      | some e =>
        rw [hrefuses] at h
        rw [(Prod.mk.inj h).2]
      | none =>
        rw [hrefuses] at h
        exact absurd (congrArg Prod.fst h) (by simp)
  list := fun c names h => ⟨listing c, List.Perm.refl _, (Except.ok.inj h).symm⟩
  get := by
    intro class_ name c y hy hname
    dsimp only [listingStream]
    dsimp only [listingHost] at hname
    rw [hname]
    dsimp only
    cases hfind : (listing c).find? fun x => x.name == y.name with
    | none => exact absurd (List.find?_eq_none.mp hfind y hy) (by simp)
    | some z =>
      have hsame : z.name = y.name :=
        beq_iff_eq.mp (List.find?_some (p := fun x : Xattr => x.name == y.name) hfind)
      rw [List.inj_on_of_nodup_map (nodup_listing c) (List.mem_of_find?_eq_some hfind) hy hsame]

/-- A logical attribute, one of another system, and a label. -/
def labelled : CanonicalMetadata :=
  ⟨{ Metadata.default with
      xattrs := [⟨.logical, utf8 "note", utf8 "n"⟩, ⟨.raw, utf8 "com.apple.quarantine", utf8 "q"⟩,
        ⟨.raw, utf8 "security.label", utf8 "l"⟩] }, by decide +kernel⟩

/-- Labels are for the system alone. -/
def guardsLabels (_ : List Xattr) (native _ : List UInt8) : Option CallError :=
  if utf8 "security." <+: native then some .permission else none

def labelledRun : Except RestoreError (List Xattr) × Object :=
  restoreXattrs (listingHost .linux guardsLabels) labelled.metadata false
    ⟨newFile, fun _ => none, 0⟩

/-- Both raw attributes are in the sidecar, and all three are found. -/
theorem readXattrs_restoreXattrs_labelled : labelledRun.2.mask = 128 ∧
    ∃ xattrs, readXattrs .linux (listingStream .linux) labelledRun.2.captured = .ok xattrs ∧
      canonicalXattrs (xattrs ++ []) = .ok labelled.metadata.xattrs := by
  have hresult : labelledRun.1 = .ok [] := by decide +kernel
  have hrun : labelledRun = (.ok [], labelledRun.2) := by rw [← hresult]
  have hrecognized : ∀ x ∈ labelled.metadata.xattrs, Recognized .linux x := by
    intro x hx
    have hcapture : ∀ x ∈ labelled.metadata.xattrs, Metadata.AttributeName.capture .linux
        (nativeXattr .linux x).name = some (x.class_, x.name) := by decide +kernel
    exact (capture_nativeXattr hx).mp (hcapture x hx)
  have hlater : Later .linux (listing labelledRun.2.captured) (listing labelledRun.2.captured) :=
    ⟨[], by simp, by simp⟩
  have hnone : listing newFile = [] := rfl
  have hbare : ∀ y ∈ listing newFile, Skipped .linux y.name := by simp [hnone]
  obtain ⟨stored, kept, hperm, -, -, -, -, -, -, -, hread⟩ := readXattrs_restoreXattrs
    (o := ⟨newFile, fun _ => none, 0⟩) (listingStream_documented .linux guardsLabels) hbare hrun
  refine ⟨by decide +kernel, (hread _ _ hlater rfl).mpr fun x hx => ?_⟩
  exact hrecognized x (hperm.subset (List.mem_append_left _ hx))

end Zig

end Difz
