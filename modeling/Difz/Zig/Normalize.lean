import Difz.Metadata.Normalize
import Difz.Zig.Masked

/-!
# Normalizing in both programs

`canonicalize` of the native program and `normalize` of the Rust crate on records as they come, with
lists in any order, extents that overlap and everything that can be wrong. The one sorts a copy and
merges extents into a new list with exact arithmetic, the other sorts in place with a sort that need
not be stable and merges in place with the arithmetic of the machine. They return one record or one
error, `canonicalize_normalize`.

A list or a value of 2^32 elements has no wire form. Only the Rust crate says so here, and `Sized`
leaves such records out.
-/

namespace Difz

open Wire Metadata

namespace Zig

/-- The lengths have wire forms. -/
structure Sized (m : Metadata) : Prop where
  xattrs : m.xattrs.length < 2 ^ 32 ∧ ∀ x ∈ m.xattrs, x.value.length < 2 ^ 32
  aces : m.aces.length < 2 ^ 32 ∧ ∀ a ∈ m.aces, a.name.length < 2 ^ 32
  nativeAcl : ∀ acl ∈ m.nativeAcl, acl.bytes.length < 2 ^ 32
  holes : m.holes.length < 2 ^ 32

lemma map_mapError {ε ε' α β : Type} (f : ε → ε') (g : α → β) (x : Except ε α) :
    (x.mapError f).map g = (x.map g).mapError f := by
  cases x with
  | error e => rfl
  | ok a => rfl

/-! ### Lists with one item for each key -/

section Unique

variable {α : Type} {key : α → List UInt8} {duplicate : Metadata.Error}

/-- Neighbours with one key are all that the pass over a sorted list looks for. -/
lemma forPrevious_unique_cases (key : α → List UInt8) (duplicate : Metadata.Error) (p : Option α) (xs : List α) :
    forPrevious (fun previous x =>
      if previous.any (fun p => key p == key x) then .error duplicate else .ok ()) p xs = .ok () ∨
    forPrevious (fun previous x =>
      if previous.any (fun p => key p == key x) then .error duplicate else .ok ()) p xs
        = .error duplicate := by
  induction xs generalizing p with
  | nil => exact .inl rfl
  | cons x xs ih =>
    rw [forPrevious]
    by_cases h : p.any (fun p => key p == key x)
    · rw [if_pos h, error_bind]
      exact .inr rfl
    · rw [if_neg h, ok_bind]
      exact ih (some x)

/-- The pass that refuses duplicates and the list it lets through, for a given sort. -/
def uniqueRun (duplicate : Metadata.Error) (sort : Sorter (KeyLe key)) (items : List α) :
    Except Metadata.Error (List α) := do
  forPrevious (fun previous x =>
    if previous.any (fun p => key p == key x) then .error duplicate else .ok ()) none
    (sort.run items)
  .ok (sort.run items)

lemma uniqueRun_of_nodup (sort : Sorter (KeyLe key)) {items : List α}
    (h : (items.map key).Nodup) : uniqueRun duplicate sort items = .ok (sort.run items) := by
  have hrun : forPrevious (fun previous x =>
      if previous.any (fun p => key p == key x) then .error duplicate else .ok ()) none
      (sort.run items) = .ok () :=
    (unique_eq_ok (sort.sorted items)).mpr (sort.increasing h)
  rw [uniqueRun, hrun, ok_bind]

lemma uniqueRun_of_not_nodup (sort : Sorter (KeyLe key)) {items : List α}
    (h : ¬(items.map key).Nodup) : uniqueRun duplicate sort items = .error duplicate := by
  rcases forPrevious_unique_cases key duplicate none (sort.run items)
    with hok | herror
  · have hinc := (unique_eq_ok (p := none) (sort.sorted items)).mp hok
    exact absurd (((sort.perm items).map key).nodup_iff.mp hinc.nodup) h
  · rw [uniqueRun, herror, error_bind]

/-- It does not matter what a sort does with equal keys. -/
lemma uniqueRun_eq (duplicate : Metadata.Error) (sort sort' : Sorter (KeyLe key)) (items : List α) :
    uniqueRun duplicate sort items = uniqueRun duplicate sort' items := by
  by_cases h : (items.map key).Nodup
  · rw [uniqueRun_of_nodup sort h, uniqueRun_of_nodup sort' h]
    exact congrArg _ ((sort.increasing h).eq_of_perm (sort'.increasing h)
      ((sort.perm items).trans (sort'.perm items).symm))
  · rw [uniqueRun_of_not_nodup sort h, uniqueRun_of_not_nodup sort' h]

lemma canonicalList_sortUnique (sort : Sorter (KeyLe key))
    {validate check : α → Except Metadata.Error Unit} {less same : α → α → Bool} {items : List α}
    (hless : ∀ a b, less a b = (compare (key a) (key b) == .lt))
    (hsame : ∀ item prev, same item prev = (key prev == key item))
    (hcheck : ∀ x ∈ items, validate x = check x) (hlength : items.length < 2 ^ 32) :
    canonicalList validate less same duplicate items = sortUnique sort check duplicate items := by
  have hcopy : items.mergeSort (fun a b => !less b a) = (Sorter.byKey key).run items := by
    rw [Sorter.run_byKey]
    simp only [hless]
  have hrun := uniqueRun_eq duplicate (Sorter.byKey key) sort items
  rw [uniqueRun, uniqueRun] at hrun
  rw [canonicalList, sortUnique, wireLength_eq_ok.mpr hlength, ok_bind, forM_congr hcheck, hcopy]
  obtain rfl : same = fun item prev => key prev == key item :=
    funext fun item => funext fun prev => hsame item prev
  exact congrArg _ (funext fun _ => hrun)

end Unique

lemma canonicalXattrs_sort (sorts : Sorts) {xs : List Xattr} (hlength : xs.length < 2 ^ 32)
    (hvalues : ∀ x ∈ xs, x.value.length < 2 ^ 32) : canonicalXattrs xs = sortXattrs sorts xs := by
  refine canonicalList_sortUnique sorts.xattrs xattrLess_eq (fun item prev => ?_)
    (fun x hx => ?_) hlength
  · rw [Bool.eq_iff_iff]
    simp only [Bool.and_eq_true, beq_iff_eq, Xattr.key, List.cons.injEq]
    constructor
    · rintro ⟨hclass, hname⟩
      exact ⟨by rw [hclass], hname.symm⟩
    · rintro ⟨htag, hname⟩
      exact ⟨(XattrClass.tag_injective htag).symm, hname.symm⟩
  · rw [validateName_eq, Xattr.check, wireLength_eq_ok.mpr (hvalues x hx)]
    cases validateXattrName x.class_ x.name <;> rfl

lemma canonicalAces_sort (sorts : Sorts) {aces : List Ace} (hlength : aces.length < 2 ^ 32)
    (hnames : ∀ a ∈ aces, a.name.length < 2 ^ 32) : canonicalAces aces = sortAces sorts aces := by
  refine canonicalList_sortUnique sorts.aces aceLess_eq (fun item prev => ?_)
    (fun a ha => ?_) hlength
  · rw [Bool.eq_iff_iff]
    simp only [Bool.and_eq_true, beq_iff_eq, Ace.key, List.cons.injEq]
    constructor
    · rintro ⟨htag, hname⟩
      exact ⟨by rw [htag], hname.symm⟩
    · rintro ⟨htag, hname⟩
      exact ⟨(AceTag.tag_injective htag).symm, hname.symm⟩
  · rw [validateAce_eq, Ace.check, wireLength_eq_ok.mpr (hnames a ha)]
    cases Metadata.validateAceName a.tag a.name <;> rfl

/-! ### Extents -/

/-- One extent more is one interval more. -/
lemma span_mergeHole {merged : List Hole} {hole : Hole} (hproper : hole.Proper) :
    (mergeHole merged hole).map Hole.span = Extent.join (merged.map Hole.span) hole.span := by
  rcases List.eq_nil_or_concat merged with rfl | ⟨before, prev, rfl⟩
  · rfl
  · have hspan : prev.span = (prev.offset.toNat, prev.offset.toNat + prev.length.toNat) := rfl
    have hhole : hole.span = (hole.offset.toNat, hole.offset.toNat + hole.length.toNat) := rfl
    rw [List.concat_eq_append, List.map_append, List.map_singleton, Extent.join_append, mergeHole,
      List.getLast?_concat, List.dropLast_concat, hspan, hhole]
    dsimp only
    by_cases htouch : hole.offset.toNat ≤ prev.offset.toNat + prev.length.toNat
    · rw [if_pos htouch, if_pos htouch]
      by_cases hgrow : hole.offset.toNat + hole.length.toNat
          > prev.offset.toNat + prev.length.toNat
      · have hend : hole.offset.toNat + hole.length.toNat < 2 ^ 64 := hproper.2
        have hlength : (UInt64.ofNat (hole.offset.toNat + hole.length.toNat
            - prev.offset.toNat)).toNat
            = hole.offset.toNat + hole.length.toNat - prev.offset.toNat :=
          UInt64.toNat_ofNat_of_lt' ((Nat.sub_le ..).trans_lt hend)
        rw [if_pos hgrow, List.map_append, List.map_singleton, max_eq_right hgrow.le]
        simp only [Hole.span, Hole.end_, hlength]
        rw [Nat.add_sub_cancel' (by omega)]
      · rw [if_neg hgrow, List.map_append, List.map_singleton, max_eq_left (not_lt.mp hgrow), hspan]
    · rw [if_neg htouch, if_neg htouch, List.map_append, List.map_append]
      rfl

lemma span_foldl_mergeHole {sorted : List Hole} (hproper : ∀ x ∈ sorted, x.Proper) :
    (sorted.foldl mergeHole []).map Hole.span = Extent.joinAll (sorted.map Hole.span) := by
  induction sorted using List.reverseRecOn with
  | nil => rfl
  | append_singleton sorted hole ih =>
    rw [List.foldl_append, List.map_append, List.map_singleton, Extent.joinAll_append,
      ← ih fun x hx => hproper x (by simp [hx])]
    exact span_mergeHole (hproper hole (by simp))

/-- The list of merged extents is the one that merging in place leaves. -/
lemma canonicalHoles_normalize (sorts : Sorts) {holes : List Hole}
    (hlength : holes.length < 2 ^ 32) :
    (canonicalHoles holes).mapError Halt.error = normalizeHoles sorts holes := by
  have hcheck : (holes.forM fun hole =>
      if hole.length = 0 then .error .zeroLengthHole
      else if hole.offset.toNat + hole.length.toNat ≥ 2 ^ 64 then .error .holeOverflow
      else .ok ()) = holes.forM checkExtent := rfl
  rw [canonicalHoles, hcheck, normalizeHoles, wireLength_eq_ok.mpr hlength, mapError_ok, ok_bind]
  cases hall : holes.forM checkExtent with
  | error e => rfl
  | ok _ =>
    have hproper : ∀ h ∈ holes, h.Proper := fun h hh =>
      checkExtent_eq_ok.mp (forM_eq_ok.mp hall h hh)
    obtain ⟨merged, hmerged, -, hcovers⟩ := exists_merged sorts hproper
    rw [ok_bind, mapError_ok, mapError_ok, ok_bind, hmerged]
    have hcopy : holes.mergeSort (fun a b => !holeLess b a) = Sorts.merge.holes.run holes := by
      have htest : (fun a b : Hole => !holeLess b a) = fun a b => decide (a.offset ≤ b.offset) := by
        funext a b
        rw [holeLess, ← decide_not]
        exact decide_eq_decide.mpr UInt64.not_lt
      rw [htest]
      rfl
    have hperm := Sorts.merge.holes.perm holes
    have hsorted : ∀ x ∈ Sorts.merge.holes.run holes, x.Proper := fun x hx =>
      hproper x (hperm.subset hx)
    have hsame := covers_of_span hperm hsorted (Sorts.merge.holes.sorted holes)
      (span_foldl_mergeHole hsorted)
    rw [hcopy, hsame.unique hcovers rfl]

/-! ### The other fields -/

lemma checkNativeAcl_sized {nativeAcl : Option NativeAcl}
    (h : ∀ acl ∈ nativeAcl, acl.bytes.length < 2 ^ 32) :
    checkNativeAcl nativeAcl = Metadata.checkNativeAcl nativeAcl := by
  cases nativeAcl with
  | none => rfl
  | some acl =>
    rw [checkNativeAcl, Metadata.checkNativeAcl, wireLength_eq_ok.mpr (h acl rfl)]
    refine if_congr ?_ rfl rfl
    simp

lemma validateTimes_check (times : Times) : validateTimes times = checkTimes times := by
  have htime : ∀ time : Option Time, validateTime time
      = if time.toList.any (fun value => value.nsec ≥ 1000000000) then .error .invalidNsec
        else .ok () := by
    intro time
    cases time with
    | none => rfl
    | some value => simp [validateTime]
  rw [validateTimes, htime, htime, htime, checkTimes, Times.present]
  simp only [List.flatMap_cons, List.flatMap_nil, List.append_nil, List.any_append]
  by_cases hm : times.mtime.toList.any fun value => decide (value.nsec ≥ 1000000000)
  · simp only [hm, if_true, Bool.true_or, error_bind]
  · by_cases ha : times.atime.toList.any fun value => decide (value.nsec ≥ 1000000000)
    · simp only [hm, ha, Bool.or_true, Bool.true_or, if_true, error_bind]
      rfl
    · simp only [hm, ha, Bool.false_or]
      rfl

lemma checkHardlinkTo_eq (hardlinkTo : Option (List UInt8)) :
    checkHardlinkTo hardlinkTo = Metadata.checkHardlink hardlinkTo := by
  cases hardlinkTo with
  | none => rfl
  | some path => exact validateHardlink_eq path

/-- A family that is left out passes as an absent one. -/
lemma unlessOmitted_apply {α : Type} (pass : α → Except Metadata.Error α) (omitted : Bool)
    (absent value : α) (h : pass absent = .ok absent) :
    unlessOmitted omitted absent (pass value) = pass (if omitted then absent else value) := by
  rw [unlessOmitted]
  split_ifs
  · exact h.symm
  · rfl

/-- Leaving families out is clearing them first. -/
lemma canonicalize_clear (m : Metadata) (mask : Metadata.Omit) : canonicalize m (Omit.of mask)
    = canonicalize (m.clear mask) (Omit.of Metadata.Omit.default) := by
  have hnone : Omit.of Metadata.Omit.default = ⟨false, false, false, false, false, false⟩ := by
    simp [Omit.of]
  have hnoXattrs : canonicalXattrs [] = .ok [] :=
    canonicalXattrs_eq (show forPrevious Metadata.checkXattr none [] = .ok () from rfl)
  have hnoAces : canonicalAces [] = .ok [] :=
    canonicalAces_eq (show forPrevious Metadata.checkAce none [] = .ok () from rfl)
  have hnoHoles : canonicalHoles [] = .ok [] :=
    canonicalHoles_eq (show forPrevious Metadata.checkHole none [] = .ok () from rfl)
  have hxattrs := unlessOmitted_apply canonicalXattrs (Omit.of mask).xattr [] m.xattrs
    hnoXattrs
  have haces := unlessOmitted_apply canonicalAces (Omit.of mask).acl [] m.aces hnoAces
  have hacl := unlessOmitted_apply (fun acl => checkNativeAcl acl >>= fun _ => .ok acl)
    (Omit.of mask).acl none m.nativeAcl rfl
  have htimes := unlessOmitted_apply (fun times => validateTimes times >>= fun _ => .ok times)
    (Omit.of mask).timestamps Times.default m.times rfl
  have hholes := unlessOmitted_apply canonicalHoles (Omit.of mask).sparse [] m.holes
    hnoHoles
  have hlink := unlessOmitted_apply (fun link => checkHardlinkTo link >>= fun _ => .ok link)
    (Omit.of mask).hardlink none m.hardlinkTo rfl
  rw [hnone, clear_eq, retain_eq, canonicalize, canonicalize, hxattrs, haces, hacl, htimes, hholes,
    hlink]
  rfl

/-! ### Whole records -/

/-- What validation has to say of a record whose other fields passed. -/
lemma validate_of_others {m : Metadata} (hxattrs : m.xattrs.length < 2 ^ 32 ∧
      forPrevious Metadata.checkXattr none m.xattrs = .ok ())
    (haces : m.aces.length < 2 ^ 32 ∧ forPrevious Metadata.checkAce none m.aces = .ok ())
    (hacl : Metadata.checkNativeAcl m.nativeAcl = .ok ()) (htimes : checkTimes m.times = .ok ())
    (hholes : m.holes.length < 2 ^ 32 ∧ forPrevious Metadata.checkHole none m.holes = .ok ()) :
    m.validate = Metadata.checkHardlink m.hardlinkTo := by
  rw [validate, wireLength_eq_ok.mpr hxattrs.1, ok_bind, hxattrs.2, ok_bind,
    wireLength_eq_ok.mpr haces.1, ok_bind, haces.2, ok_bind, hacl, ok_bind, htimes, ok_bind,
    wireLength_eq_ok.mpr hholes.1, ok_bind, hholes.2, ok_bind]

lemma checked_of_sortXattrs {sorts : Sorts} {items sorted : List Xattr}
    (h : sortXattrs sorts items = .ok sorted) :
    sorted.length < 2 ^ 32 ∧ forPrevious Metadata.checkXattr none sorted = .ok () := by
  obtain ⟨hlength, hcheck, -, hperm, hinc⟩ := sortUnique_eq_ok.mp h
  exact ⟨hperm.length_eq ▸ hlength,
    xattrs_eq_ok.mpr ⟨fun x hx => hcheck x (hperm.subset hx), hinc⟩⟩

lemma checked_of_sortAces {sorts : Sorts} {items sorted : List Ace}
    (h : sortAces sorts items = .ok sorted) :
    sorted.length < 2 ^ 32 ∧ forPrevious Metadata.checkAce none sorted = .ok () := by
  obtain ⟨hlength, hcheck, -, hperm, hinc⟩ := sortUnique_eq_ok.mp h
  exact ⟨hperm.length_eq ▸ hlength,
    aces_eq_ok.mpr ⟨fun a ha => hcheck a (hperm.subset ha), hinc⟩⟩

lemma checked_of_normalizeHoles {sorts : Sorts} {items merged : List Hole}
    (h : normalizeHoles sorts items = .ok merged) :
    merged.length < 2 ^ 32 ∧ forPrevious Metadata.checkHole none merged = .ok () := by
  obtain ⟨hlength, hproper, hcovers⟩ := normalizeHoles_eq_ok.mp h
  obtain ⟨merged', -, hle, hcovers'⟩ := exists_merged sorts hproper
  obtain rfl := hcovers.unique hcovers' rfl
  exact ⟨hle.trans_lt hlength, holes_eq_ok.mpr ⟨hcovers.proper, hcovers.apart⟩⟩

/-- Both programs make the same of every record, or refuse it for the same reason. -/
lemma canonicalize_normalize (sorts : Sorts) (m : Metadata) (mask : Metadata.Omit)
    (h : Sized (m.clear mask)) :
    (CanonicalMetadata.normalize sorts m mask).map CanonicalMetadata.metadata
      = (canonicalize m (Omit.of mask)).mapError Halt.error := by
  have hnone : Omit.of Metadata.Omit.default = ⟨false, false, false, false, false, false⟩ := by
    simp [Omit.of]
  rw [canonicalize_clear, CanonicalMetadata.normalize, canonicalize, hnone]
  generalize m.clear mask = raw at h ⊢
  simp only [unlessOmitted, Bool.false_eq_true, if_false, checkNativeAcl_sized h.nativeAcl,
    validateTimes_check, checkHardlinkTo_eq, canonicalXattrs_sort sorts h.xattrs.1 h.xattrs.2,
    canonicalAces_sort sorts h.aces.1 h.aces.2]
  have hholes := canonicalHoles_normalize sorts h.holes
  rw [← hholes]
  cases hx : sortXattrs sorts raw.xattrs with
  | error e => rfl
  | ok xattrs =>
  cases ha : sortAces sorts raw.aces with
  | error e => rfl
  | ok aces =>
  cases hacl : Metadata.checkNativeAcl raw.nativeAcl with
  | error e => rfl
  | ok _ =>
  cases htimes : checkTimes raw.times with
  | error e => rfl
  | ok _ =>
  cases hmerged : canonicalHoles raw.holes with
  | error e => rfl
  | ok holes =>
  rw [hmerged, mapError_ok] at hholes
  have hvalid : Metadata.validate { raw with xattrs, aces, holes }
      = Metadata.checkHardlink raw.hardlinkTo :=
    validate_of_others (checked_of_sortXattrs hx) (checked_of_sortAces ha) hacl htimes
      (checked_of_normalizeHoles hholes.symm)
  have hnew := map_new { raw with xattrs, aces, holes }
  rw [hvalid] at hnew
  simp only [mapError_ok, ok_bind]
  rw [map_mapError, hnew]
  cases Metadata.checkHardlink raw.hardlinkTo with
  | error e => rfl
  | ok _ => rfl

lemma canonicalize_eq_ok_iff {m r : Metadata} {mask : Metadata.Omit} (h : Sized (m.clear mask)) :
    canonicalize m (Omit.of mask) = .ok r ↔
      ∃ c, CanonicalMetadata.normalize Sorts.merge m mask = .ok c ∧ c.metadata = r := by
  have hsame := canonicalize_normalize Sorts.merge m mask h
  constructor
  · intro hr
    rw [hr, mapError_ok] at hsame
    cases hc : CanonicalMetadata.normalize Sorts.merge m mask with
    | error e =>
      rw [hc] at hsame
      exact absurd hsame (by simp [Except.map])
    | ok c =>
      rw [hc] at hsame
      exact ⟨c, rfl, Except.ok.inj hsame⟩
  · rintro ⟨c, hc, rfl⟩
    rw [hc] at hsame
    exact mapError_eq_ok.mp hsame.symm

/-- Canonicalizing is normalizing, with every sort and up to the errors. It succeeds exactly on the
records that can be normalized, sorts the lists and merges the extents into the one canonical list
with their offsets, and the second time it only leaves families out. -/
theorem canonicalize_spec (sorts : Sorts) (m : Metadata) (mask : Metadata.Omit)
    (h : Sized (m.clear mask)) :
    (CanonicalMetadata.normalize sorts m mask).map CanonicalMetadata.metadata
        = (canonicalize m (Omit.of mask)).mapError Halt.error ∧
    ((∃ r, canonicalize m (Omit.of mask) = .ok r) ↔ (m.clear mask).Normalizable) ∧
    ∀ r, canonicalize m (Omit.of mask) = .ok r → Normalized (m.clear mask) r ∧
      ∀ again, canonicalize r (Omit.of again) = .ok (r.retain again) := by
  refine ⟨canonicalize_normalize sorts m mask h, ?_, fun r hr => ?_⟩
  · simp only [canonicalize_eq_ok_iff h]
    constructor
    · rintro ⟨r, c, hc, -⟩
      exact (CanonicalMetadata.normalize_eq_ok.mp hc).1
    · intro hraw
      obtain ⟨c, hc⟩ := CanonicalMetadata.exists_normalize Sorts.merge mask hraw
      exact ⟨c.metadata, c, hc, rfl⟩
  · obtain ⟨c, hc, rfl⟩ := (canonicalize_eq_ok_iff h).mp hr
    exact ⟨(CanonicalMetadata.normalize_eq_ok.mp hc).2, canonicalize_eq c⟩

/-- The extents of this record overlap, and its attributes are out of order. -/
def unsorted : Metadata :=
  { Metadata.default with
    xattrs := [⟨.logical, utf8 "b", [1]⟩, ⟨.logical, utf8 "a", []⟩]
    holes := [⟨4, 4⟩, ⟨16, 1⟩, ⟨0, 4⟩, ⟨4, 2⟩] }

theorem canonicalize_spec_unsorted :
    ∃ r, canonicalize unsorted (Omit.of Metadata.Omit.default) = .ok r ∧
      Normalized unsorted r := by
  have hclear : unsorted.clear Metadata.Omit.default = unsorted := by
    rw [clear_eq, Metadata.retain_default]
  obtain ⟨-, hok, hresult⟩ := canonicalize_spec Sorts.merge unsorted Metadata.Omit.default
    (by rw [hclear]; exact ⟨by decide, by decide, by decide, by decide⟩)
  rw [hclear] at hok hresult
  have hxattrs : ∀ x ∈ unsorted.xattrs, validateXattrName x.class_ x.name = .ok () ∧
      x.value.length < 2 ^ 32 := by decide
  obtain ⟨r, hr⟩ := hok.mpr ⟨by decide, hxattrs, by decide, by decide, by decide, by decide,
    by decide, by decide, by decide, by decide, by decide⟩
  exact ⟨r, hr, (hresult r hr).1⟩

end Zig

end Difz
