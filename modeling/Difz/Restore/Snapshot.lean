import Difz.Restore.Link

/-!
# Records for the parents of links

The loop of `writeSnapshotWith` (`src/directory_fs.zig`) over the entries of a snapshot, which
collects the records of the links in each directory. Since the entries are in the order of their
paths, the records come in the order of their names, and encoding them fails only for their size or
for a name that looks like a drive, `restoreEntries_transports`.
-/

namespace Difz

open Wire
open Metadata (Ace Hole NativeAcl Os Time Times Xattr XattrClass)

namespace Zig

open Program
open Program.Action (lift modify fold)
open Directory (basename hasDrivePrefix parentOf)

/-! ### The loop over a snapshot -/

/-- The records collected for each directory. The loop also returns what each link left, which the
source does not. -/
structure Progress where
  parents : List UInt8 → List LinkRecord
  outcomes : List LinkOutcome

/-- Programs over all the objects of a tree. -/
abbrev Writing := Program.Action (List UInt8 → Object) RestoreError

def addRecord (parents : List UInt8 → List LinkRecord) (outcome : LinkOutcome) :
    List UInt8 → List LinkRecord :=
  match outcome.record with
  | none => parents
  | some record =>
    let parent := parentOf outcome.entry.path
    Function.update parents parent (parents parent ++ [record])

section Loop

variable (hosts : List UInt8 → Host) (blake3 : List UInt8 → Digest) (omit_ : Omit)
  (copied : List UInt8 → Bool)

/-- Run a program on one object; the native values of the others may change meanwhile. -/
def onObject {α : Type} (path : List UInt8) (x : Restoring α) : Writing α := fun objects =>
  ((x (objects path)).1, Function.update (fun p => { objects p with
    captured := (hosts p).others (objects p).captured }) path (x (objects path)).2)

def restoreNext (progress : Progress) (e : Entry) : Writing Progress :=
  if e.kind = .symlink then do
    let outcome ← onObject hosts e.path (restoreLink (hosts e.path) blake3 omit_ e)
    pure ⟨addRecord progress.parents outcome, progress.outcomes ++ [outcome]⟩
  else do
    let _ ← onObject hosts e.path
      (restoreEntry (hosts e.path) blake3 omit_ e.kind (copied e.path) e.meta_)
    pure progress

def restoreEntries (entries : List Entry) : Writing Progress :=
  fold (restoreNext hosts blake3 omit_ copied) ⟨fun _ => [], []⟩ entries

end Loop

section Run

variable {host : Host} {hosts : List UInt8 → Host} {blake3 : List UInt8 → Digest} {omit_ : Omit}
  {e : Entry} {o o' u : Object} {copied : List UInt8 → Bool}
  {entries : List Entry} {objects objects' : List UInt8 → Object}

lemma onObject_eq_ok {α : Type} {path : List UInt8} {x : Restoring α} {a : α}
    (h : onObject hosts path x objects = (.ok a, objects')) :
    x (objects path) = (.ok a, objects' path) ∧
      ∀ p, p ≠ path → (objects' p).sidecars = (objects p).sidecars := by
  obtain ⟨ha, rfl⟩ := Prod.mk.inj h
  refine ⟨?_, fun p hp => by rw [Function.update_of_ne hp]⟩
  rw [Function.update_self, ← ha]

/-- A link never gets a sidecar of its own. -/
lemma restoreLink_sidecars {outcome : LinkOutcome}
    (h : restoreLink host blake3 omit_ e o = (.ok outcome, o')) : o'.sidecars = o.sidecars := by
  have hcapture : ∀ {keep : Bool}, Writes [] (observeModification keep) := by
    intro keep
    exact ((Writes.capture _).bind fun _ => Writes.pure _).ite (Writes.pure _)
  have hdeciding : ∀ {omitted : Bool} {needed : Restoring Bool}, Writes [] needed →
      Writes [] (deciding omitted needed) := by
    intro omitted needed hneeded
    exact (Writes.seen.bind fun _ => Writes.pure _).ite
      (hneeded.bind fun _ => Writes.seen.bind fun _ => Writes.pure _)
  have hxattrs : Writes [] (restoreXattrs host e.meta_ true) :=
    (Writes.fold (fun b a => Writes.restoreXattr true b a) [] _).bind fun _ => Writes.pure _
  refine Writes.nothing ?_ h
  refine hxattrs.bind fun _ => (Writes.decideBirth _ _).bind fun _ => ?_
  refine (Writes.setFinder _).unlessOmitting.bind fun _ => ?_
  refine (hdeciding (Writes.mtimeNeedsTransport _)).bind fun _ => ?_
  refine (hdeciding ((Writes.capture _).bind fun _ => (Writes.lift _).bind fun _ =>
    Writes.pure _)).bind fun _ => ?_
  refine (hdeciding ((Writes.capture _).bind fun _ => Writes.pure _)).bind fun _ => ?_
  exact (hcapture.bind fun _ => Writes.pure _).ite (Writes.pure _)

/-- The links among `all` have no sidecars. -/
def LinksFresh (all : List Entry) (objects : List UInt8 → Object) : Prop :=
  ∀ e ∈ all, e.kind = .symlink → Fresh (objects e.path)

/-- The record of an outcome, if it goes to the directory. -/
def recordFor (parent : List UInt8) (outcome : LinkOutcome) : Option LinkRecord :=
  if parentOf outcome.entry.path = parent then outcome.record else none

lemma addRecord_apply (parents : List UInt8 → List LinkRecord) (outcome : LinkOutcome)
    (parent : List UInt8) : addRecord parents outcome parent
      = parents parent ++ (recordFor parent outcome).toList := by
  rw [addRecord, recordFor]
  cases outcome.record with
  | none => simp
  | some record =>
    dsimp only
    split_ifs with hparent
    · rw [hparent, Function.update_self]
      rfl
    · rw [Function.update_of_ne (Ne.symm hparent)]
      simp

/-- One entry: a link leaves an outcome, and nothing else does. -/
lemma restoreNext_eq_ok {all : List Entry} {progress progress' : Progress}
    (hinj : ∀ e ∈ all, ∀ e' ∈ all, e.path = e'.path → e = e') (he : e ∈ all)
    (hfresh : LinksFresh all objects)
    (h : restoreNext hosts blake3 omit_ copied progress e objects = (.ok progress', objects')) :
    LinksFresh all objects' ∧
    if e.kind = .symlink then ∃ outcome o o',
      restoreLink (hosts e.path) blake3 omit_ e o = (.ok outcome, o') ∧
        progress' = ⟨addRecord progress.parents outcome, progress.outcomes ++ [outcome]⟩
    else progress' = progress := by
  rw [restoreNext] at h
  split_ifs at h ⊢ with hkind
  · obtain ⟨outcome, objects₁, hon, hpure⟩ := bind_eq_ok.mp h
    obtain ⟨hrun, hothers⟩ := onObject_eq_ok hon
    obtain ⟨hprogress, rfl⟩ := Prod.mk.inj hpure
    refine ⟨fun l hl hlink => ?_, outcome, _, _, hrun, (Except.ok.inj hprogress).symm⟩
    by_cases hpath : l.path = e.path
    · intro name hname
      rw [hpath, restoreLink_sidecars hrun, ← hpath]
      exact hfresh l hl hlink name hname
    · intro name hname
      rw [hothers _ hpath]
      exact hfresh l hl hlink name hname
  · obtain ⟨_, objects₁, hon, hpure⟩ := bind_eq_ok.mp h
    obtain ⟨-, hothers⟩ := onObject_eq_ok hon
    obtain ⟨hprogress, rfl⟩ := Prod.mk.inj hpure
    refine ⟨fun l hl hlink => ?_, (Except.ok.inj hprogress).symm⟩
    have hpath : l.path ≠ e.path := fun hsame => hkind (hinj l hl e he hsame ▸ hlink)
    intro name hname
    rw [hothers _ hpath]
    exact hfresh l hl hlink name hname

/-- The whole loop: the outcomes are those of the links, in order, and each record is in the list of
its directory. -/
lemma fold_restoreNext {all : List Entry}
    (hinj : ∀ e ∈ all, ∀ e' ∈ all, e.path = e'.path → e = e')
    {progress progress' : Progress} (hsub : entries ⊆ all) (hfresh : LinksFresh all objects)
    (h : fold (restoreNext hosts blake3 omit_ copied) progress entries objects
      = (.ok progress', objects')) :
    LinksFresh all objects' ∧ ∃ outcomes,
      progress'.outcomes = progress.outcomes ++ outcomes ∧
      outcomes.map LinkOutcome.entry = entries.filter (fun e => decide (e.kind = .symlink)) ∧
      (∀ outcome ∈ outcomes, ∃ o o',
        restoreLink (hosts outcome.entry.path) blake3 omit_ outcome.entry o = (.ok outcome, o')) ∧
      ∀ parent, progress'.parents parent
        = progress.parents parent ++ outcomes.filterMap (recordFor parent) := by
  induction entries generalizing progress objects with
  | nil =>
    obtain ⟨hprogress, rfl⟩ := Prod.mk.inj h
    obtain rfl := Except.ok.inj hprogress
    exact ⟨hfresh, [], by simp⟩
  | cons e entries ih =>
    obtain ⟨next, objects₁, hnext, hrest⟩ := bind_eq_ok.mp h
    obtain ⟨he, hsub⟩ := List.cons_subset.mp hsub
    obtain ⟨hfresh₁, hstep⟩ := restoreNext_eq_ok hinj he hfresh hnext
    obtain ⟨hfresh', outcomes, hout, hentries, hruns, hparents⟩ := ih hsub hfresh₁ hrest
    refine ⟨hfresh', ?_⟩
    split_ifs at hstep with hkind
    · obtain ⟨outcome, o, o', hrun, rfl⟩ := hstep
      have hentry := (restoreLink_eq_ok hrun).1
      refine ⟨outcome :: outcomes, ?_, ?_, ?_, fun parent => ?_⟩
      · rw [hout, List.append_assoc]
        rfl
      · rw [List.map_cons, List.filter_cons_of_pos (by simpa using hkind), hentry, hentries]
      · exact List.forall_mem_cons.mpr ⟨⟨o, o', hentry.symm ▸ hrun⟩, hruns⟩
      · rw [hparents]
        dsimp only
        rw [addRecord_apply, List.append_assoc]
        cases hrecord : recordFor parent outcome with
        | none => rw [List.filterMap_cons_none hrecord]; rfl
        | some record => rw [List.filterMap_cons_some hrecord]; rfl
    · rw [hstep] at hout hparents
      refine ⟨outcomes, hout, ?_, hruns, hparents⟩
      rw [List.filter_cons_of_neg (by simpa using hkind), hentries]

/-! ### The records of a directory -/

/-- Records in strict order of their names. One is refused exactly when its name looks like a drive,
and all of them are encoded unless one is refused or they take too much room. -/
structure Encodable (records : List LinkRecord) : Prop where
  ordered : records.Pairwise fun a b => compare a.name b.name = .lt
  valid : ∀ record ∈ records,
    validateRecord record = .ok () ↔ hasDrivePrefix record.name = false
  fails : ∀ error, encode records = .error error → error = .transportTooLarge ∨
    (error = .invalidTransport ∧ ∃ record ∈ records, hasDrivePrefix record.name = true)
  refused : (∃ record ∈ records, hasDrivePrefix record.name = true) →
    ∃ error, encode records = .error error

/-- A record that the writer emits. -/
structure Emitted (record : LinkRecord) (e : Entry) : Prop where
  name : record.name = basename e.path
  valid : validateRecord record = .ok () ↔ hasDrivePrefix record.name = false
  canonical : ∃ r : SymlinkTransport.Record, LinkRecord.of r = record ∧
    ∀ t ∈ r.observedMtime, t.nsec < 1000000000

lemma emitted_of_restoreLink {outcome : LinkOutcome} {record : LinkRecord}
    (hrun : restoreLink host blake3 omit_ e o = (.ok outcome, o')) (hvalid : e.meta_.Valid)
    (hpath : Directory.ValidPath e.path) (hrecord : outcome.record = some record) :
    Emitted record e := by
  obtain ⟨-, k, observed, hdecides, hobserves, heq⟩ := restoreLink_eq_ok hrun
  rw [hrecord] at heq
  split_ifs at heq with hneeded
  obtain rfl := Option.some.inj heq
  obtain ⟨r, hr, -, hstamp⟩ := hdecides.exists_record hobserves hvalid
  exact ⟨rfl, Keeping.validateRecord_record hobserves hneeded hpath, r, hr, hstamp⟩

/-- Emitted records in order are encodable. -/
lemma encodable_of_emitted {records : List LinkRecord}
    (hemitted : ∀ record ∈ records, ∃ e, Emitted record e)
    (hordered : records.Pairwise fun a b => compare a.name b.name = .lt) : Encodable records := by
  have hof : ∃ rs : List SymlinkTransport.Record, rs.map LinkRecord.of = records ∧
      ∀ r ∈ rs, ∀ t ∈ r.observedMtime, t.nsec < 1000000000 := by
    clear hordered
    induction records with
    | nil => exact ⟨[], rfl, by simp⟩
    | cons record records ih =>
      obtain ⟨⟨e, he⟩, hrest⟩ := List.forall_mem_cons.mp hemitted
      obtain ⟨rs, hrs, hstamps⟩ := ih hrest
      obtain ⟨r, hr, hstamp⟩ := he.canonical
      exact ⟨r :: rs, by rw [List.map_cons, hr, hrs], List.forall_mem_cons.mpr ⟨hstamp, hstamps⟩⟩
  obtain ⟨rs, rfl, hstamps⟩ := hof
  have hvalid : ∀ record ∈ rs.map LinkRecord.of,
      validateRecord record = .ok () ↔ hasDrivePrefix record.name = false :=
    fun record hmem => (hemitted record hmem).choose_spec.valid
  have hrefused : ∀ record ∈ rs.map LinkRecord.of,
      validateRecord record = .error .invalidTransport → hasDrivePrefix record.name = true := by
    intro record hmem herror
    refine (Bool.not_eq_false _).mp fun hno => ?_
    rw [(hvalid record hmem).mpr hno] at herror
    exact absurd herror (by simp)
  have hsorted : Search.Sorted SymlinkTransport.Record.name rs := List.pairwise_map.mp hordered
  refine ⟨hordered, hvalid, fun error herror => ?_, fun hdrive => ?_⟩
  · rcases encode_cases hstamps hsorted with ⟨hok, -⟩ | hlarge | ⟨hinvalid, r, hr, hrecord⟩
    · rw [hok] at herror
      exact absurd herror (by simp)
    · rw [hlarge] at herror
      exact .inl (Except.error.inj herror).symm
    · rw [hinvalid] at herror
      have hmem : LinkRecord.of r ∈ rs.map LinkRecord.of := List.mem_map_of_mem hr
      exact .inr ⟨(Except.error.inj herror).symm, _, hmem, hrefused _ hmem hrecord⟩
  · obtain ⟨record, hmem, hdrive⟩ := hdrive
    rcases encode_cases hstamps hsorted with ⟨-, hall⟩ | hlarge | ⟨hinvalid, -⟩
    · obtain ⟨r, hr, rfl⟩ := List.mem_map.mp hmem
      rw [(hvalid _ hmem).mp (hall r hr)] at hdrive
      exact absurd hdrive (by simp)
    · exact ⟨_, hlarge⟩
    · exact ⟨_, hinvalid⟩

/-! ### Whole runs -/

/-- What a later reader finds of a link: no sidecars other than the ones of the restore, the native
values on which the record was decided, any modification time, and of the attributes those that
could be stored. -/
structure ReadBack (blake3 : List UInt8 → Digest) (omit_ : Omit) (outcome : LinkOutcome)
    (left u : Object) (native : Metadata) : Prop where
  sidecars : u.sidecars = left.sidecars
  stays : Stays omit_ outcome.decided u.captured
  read : readNative blake3 u omit_ = .ok native
  xattrs : native.xattrs.Perm outcome.stored

/-- Whatever the native calls did, what a snapshot asked for a link is read back from what is there
natively and from the record in its directory. -/
theorem restoreEntries_transports {mask : Metadata.Omit} {progress : Progress}
    (hsnapshot : validateSnapshot entries = .ok ())
    (hdesired : ∀ e ∈ entries, e.kind = .symlink → Desired mask e.meta_)
    (hfresh : ∀ e ∈ entries, e.kind = .symlink → Fresh (objects e.path))
    (hrun : restoreEntries hosts blake3 (Omit.of mask) copied entries objects
      = (.ok progress, objects')) :
    progress.outcomes.map LinkOutcome.entry
      = entries.filter (fun e => decide (e.kind = .symlink)) ∧
    (∀ outcome ∈ progress.outcomes, ∀ u native,
      TellsLinkApart blake3 outcome.entry.meta_ outcome.decided →
      ReadBack blake3 (Omit.of mask) outcome (objects' outcome.entry.path) u native →
        Transported (Omit.of mask) outcome u native) ∧
    ∀ parent, progress.parents parent = progress.outcomes.filterMap (recordFor parent) ∧
      Encodable (progress.parents parent) := by
  have hstructured : Directory.Structured entries :=
    Directory.validate_iff_structured.mp ((validateSnapshot_eq entries).symm.trans hsnapshot)
  have hinj : ∀ e ∈ entries, ∀ e' ∈ entries, e.path = e'.path → e = e' := by
    intro e he e' he' hpath
    exact hstructured.sorted.eq_of_key he he' hpath
  obtain ⟨hfresh', outcomes, hout, hentries, hruns, hparents⟩ :=
    fold_restoreNext hinj (List.Subset.refl _) hfresh hrun
  rw [List.nil_append] at hout
  subst hout
  have hlinks : ∀ outcome ∈ progress.outcomes,
      outcome.entry ∈ entries ∧ outcome.entry.kind = .symlink := by
    intro outcome hmem
    have hentry := List.mem_map_of_mem (f := LinkOutcome.entry) hmem
    rw [hentries, List.mem_filter] at hentry
    simpa using hentry
  refine ⟨hentries, fun outcome hmem u native hapart hread => ?_, fun parent => ?_⟩
  · obtain ⟨he, hkind⟩ := hlinks outcome hmem
    obtain ⟨o, o', hlink⟩ := hruns outcome hmem
    have hleft : Fresh u := by
      intro name hname
      rw [hread.sidecars]
      exact hfresh' _ he hkind name hname
    exact restoreLink_transports (hdesired _ he hkind) hlink hapart hleft hread.stays hread.read
      hread.xattrs
  · have hrecords : progress.parents parent = progress.outcomes.filterMap (recordFor parent) := by
      rw [hparents, List.nil_append]
    have hfrom : ∀ {outcome : LinkOutcome} {record : LinkRecord}, outcome ∈ progress.outcomes →
        recordFor parent outcome = some record →
        parentOf outcome.entry.path = parent ∧ Emitted record outcome.entry := by
      intro outcome record hmem hrecord
      obtain ⟨he, hkind⟩ := hlinks outcome hmem
      obtain ⟨o, o', hlink⟩ := hruns outcome hmem
      rw [recordFor] at hrecord
      split_ifs at hrecord with hparent
      exact ⟨hparent, emitted_of_restoreLink hlink (hdesired _ he hkind).valid
        (hstructured.paths _ he) hrecord⟩
    refine ⟨hrecords, ?_⟩
    rw [hrecords]
    refine encodable_of_emitted (fun record hmem => ?_) ?_
    · obtain ⟨outcome, hout, hrecord⟩ := List.mem_filterMap.mp hmem
      exact ⟨_, (hfrom hout hrecord).2⟩
    · have hpaths : progress.outcomes.Pairwise fun a b =>
          compare a.entry.path b.entry.path = .lt := by
        have hfiltered := hstructured.sorted.sublist
          (List.filter_sublist (p := fun e => decide (e.kind = .symlink)))
        rw [← hentries] at hfiltered
        exact List.pairwise_map.mp hfiltered
      refine List.Pairwise.filterMap _ ?_ (List.Pairwise.and_mem.mp hpaths)
      intro a b hab record hrecord record' hrecord'
      obtain ⟨ha, hb, hlt⟩ := hab
      obtain ⟨hparent, hname⟩ := hfrom ha hrecord
      obtain ⟨hparent', hname'⟩ := hfrom hb hrecord'
      have hpa : Directory.ValidPath a.entry.path := hstructured.paths _ (hlinks a ha).1
      have hpb : Directory.ValidPath b.entry.path := hstructured.paths _ (hlinks b hb).1
      rw [hname.name, hname'.name, hpa.compare_basename hpb (hparent.trans hparent'.symm)]
      exact hlt

end Run

/-! ### A link that looks like a drive -/

lemma linkMask_valid : (10 : UInt32) &&& ~~~Metadata.Family.mask = 0 := by decide

/-- Without access control and Finder fields. -/
def linkMask : Metadata.Omit := ⟨10, linkMask_valid⟩

/-- A modification time that is there natively, and a birth time that Linux cannot set. -/
def linkMetadata : Metadata :=
  { Metadata.default with times := ⟨some ⟨5, 0⟩, none, some ⟨1, 0⟩⟩ }

/-- A directory and a link in it. -/
def linkSnapshot (name : String) : List Entry :=
  [⟨utf8 "d", .directory, 0o755, [], Metadata.default⟩,
    ⟨utf8 "d/" ++ utf8 name, .symlink, 0o777, utf8 "y", linkMetadata⟩]

/-- The run over such a snapshot on a filesystem that keeps nothing. -/
def linkRun (name : String) : Except RestoreError Progress × (List UInt8 → Object) :=
  restoreEntries (fun _ => idleHost) (File.tabulated []) (Omit.of linkMask) (fun _ => false)
    (linkSnapshot name) fun _ => ⟨newFile, fun _ => none, 0⟩

def linkRecord (name : String) : LinkRecord :=
  ⟨utf8 name, { Metadata.default with times := ⟨none, none, some ⟨1, 0⟩⟩ }, 0, none, false, false⟩

lemma linkMetadata_desired : Desired linkMask linkMetadata := by
  refine ⟨Metadata.validate_eq_ok.mp (by decide +kernel), ?_, rfl, rfl, rfl⟩
  rw [Metadata.retain_eq]
  decide +kernel

/-- The native metadata: the birth time is the one of the file system. -/
def linkNative : Metadata :=
  { Metadata.default with times := ⟨some ⟨5, 0⟩, none, some ⟨7, 0⟩⟩ }

lemma readNative_link : readNative (File.tabulated []) ⟨newFile, fun _ => none, 0⟩
    (Omit.of linkMask) = .ok linkNative := by
  have hcanonical : canonicalize linkNative (Omit.of Metadata.Omit.default) = .ok linkNative := by
    have hvalid : linkNative.Valid := Metadata.validate_eq_ok.mp (by decide +kernel)
    have h := canonicalize_eq ⟨linkNative, Metadata.validate_eq_ok.mpr hvalid⟩
      Metadata.Omit.default
    rwa [Metadata.retain_default] at h
  have hmeta : readNative (File.tabulated []) ⟨newFile, fun _ => none, 0⟩ (Omit.of linkMask)
      = (canonicalize linkNative (Omit.of Metadata.Omit.default)).mapError .metadata := rfl
  rw [hmeta, hcanonical, mapError_ok]

/-- A link without access control and Finder fields is told apart from what a new object has. -/
lemma tellsLinkApart_new {m : Metadata} (haces : m.aces = []) (hacl : m.nativeAcl = none)
    (hflags : m.finderFlags = 0) (hinfo : m.finderInfo = none) : TellsLinkApart blake3 m newFile := by
  refine ⟨fun acl actual hcapture hactual => ?_, fun finder hcapture => ?_⟩
  · obtain rfl := Except.ok.inj hcapture
    obtain ⟨-, hsorted, -, -, -, -, heq⟩ := canonicalize_eq_ok.mp hactual
    have hnone : actual.aces = [] := Except.ok.inj (hsorted.symm.trans (canonicalAces_eq rfl))
    rw [heq, hnone, haces, hacl]
    exact fun _ => rfl
  · rw [← Except.ok.inj hcapture, hflags, hinfo]
    exact fun _ => rfl

/-- The record brings the birth time back. -/
theorem restoreEntries_transports_link : ∃ progress objects, linkRun "x" = (.ok progress, objects) ∧
    progress.parents (utf8 "d") = [linkRecord "x"] ∧
    mergeSymlinkMetadata linkNative (linkRecord "x") (Omit.of linkMask) = .ok linkMetadata ∧
    Encodable [linkRecord "x"] := by
  have hkinds : ∀ e ∈ linkSnapshot "x", e.kind = .symlink → e.meta_ = linkMetadata := by decide
  obtain ⟨progress, objects, hrun, hparent, outcome, hout, hrecord, hleft, hstamp, hmeta⟩ :
      ∃ progress objects, linkRun "x" = (.ok progress, objects) ∧
        progress.parents (utf8 "d") = [linkRecord "x"] ∧
        ∃ outcome ∈ progress.outcomes, outcome.record = some (linkRecord "x") ∧
          objects outcome.entry.path = ⟨newFile, fun _ => none, 0⟩ ∧
          outcome.decided = newFile ∧ outcome.entry.meta_ = linkMetadata :=
    ⟨_, _, rfl, rfl, _, List.mem_singleton_self _, rfl, rfl, rfl, rfl⟩
  obtain ⟨-, hlinks, hparents⟩ := restoreEntries_transports (by decide +kernel)
    (fun e he hlink => hkinds e he hlink ▸ linkMetadata_desired) (fun _ _ _ _ _ => rfl) hrun
  have happart : TellsLinkApart (File.tabulated []) outcome.entry.meta_ outcome.decided := by
    rw [hmeta, hstamp]
    exact tellsLinkApart_new rfl rfl rfl rfl
  have hread : ReadBack (File.tabulated []) (Omit.of linkMask) outcome (objects outcome.entry.path)
      ⟨newFile, fun _ => none, 0⟩ linkNative := by
    refine ⟨by rw [hleft], ?_, readNative_link, ?_⟩
    · rw [hstamp]
      exact ⟨fun _ => rfl, fun _ => rfl, fun _ => rfl⟩
    · rw [LinkOutcome.stored, hmeta]
      exact List.Perm.refl []
  refine ⟨progress, objects, hrun, hparent, ?_, hparent ▸ (hparents (utf8 "d")).2⟩
  rw [← hmeta]
  exact (hlinks outcome hout _ _ happart hread).merged _ hrecord fun _ => by rw [hstamp]

/-- The snapshot is accepted, a record is emitted, and the record is refused. -/
theorem linkRun_drive : validateSnapshot (linkSnapshot "c:x") = .ok () ∧
    validateMetadataRelations (File.tabulated []) (linkSnapshot "c:x") = .ok () ∧
    ∃ progress objects, linkRun "c:x" = (.ok progress, objects) ∧
      progress.parents (utf8 "d") = [linkRecord "c:x"] ∧
      validateRecord (linkRecord "c:x") = .error .invalidTransport ∧
      encode (progress.parents (utf8 "d")) = .error .invalidTransport := by
  refine ⟨by decide +kernel, by decide +kernel, _, _, rfl, ?_, by decide +kernel, ?_⟩
  · decide +kernel
  · decide +kernel

end Zig

end Difz
