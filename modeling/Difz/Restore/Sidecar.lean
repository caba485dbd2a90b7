import Difz.Restore.Object

/-!
# What a restore leaves behind

For every family that has a sidecar the restore either writes the requested value into it or has
seen the requested value in place. `Kept` says so for all of them at the end of a run.
-/

namespace Difz

open Wire
open Metadata (Ace Hole NativeAcl Os Time Times Xattr XattrClass)

namespace Zig

open Program

/-- The sidecar holds the blob, or there is none and `P` holds. -/
def Stands (sidecars : List UInt8 → Option (List UInt8)) (name : String) (blob : List UInt8)
    (P : Prop) : Prop :=
  sidecars (utf8 name) = some blob ∨ (sidecars (utf8 name) = none ∧ P)

lemma Stands.congr {sidecars sidecars' : List UInt8 → Option (List UInt8)} {name : String}
    {blob : List UInt8} {P : Prop} (h : Stands sidecars name blob P)
    (heq : sidecars' (utf8 name) = sidecars (utf8 name)) : Stands sidecars' name blob P := by
  rw [Stands, heq]
  exact h

variable {host : Host} {blake3 : List UInt8 → Digest} {o o' : Object}

/-! ### The programs, one by one -/

lemma seen_eq_ok {c : Captured} (h : seen o = (.ok c, o')) : c = o.captured ∧ o' = o := by
  obtain ⟨hc, ho⟩ := Prod.mk.inj h
  exact ⟨(Except.ok.inj hc).symm, ho.symm⟩

lemma capture_eq_ok {α : Type} {field : Captured → Except CallError α} {a : α}
    (h : capture field o = (.ok a, o')) : field o.captured = .ok a ∧ o' = o := by
  obtain ⟨ha, ho⟩ := Prod.mk.inj h
  exact ⟨mapError_eq_ok.mp ha, ho.symm⟩

lemma lift_eq_ok {α : Type} {x : Except RestoreError α} {a : α}
    (h : (Action.lift x : Restoring α) o = (.ok a, o')) : x = .ok a ∧ o' = o := by
  obtain ⟨ha, ho⟩ := Prod.mk.inj h
  exact ⟨ha, ho.symm⟩

lemma pure_eq_ok {α : Type} {a b : α} (h : (pure a : Restoring α) o = (.ok b, o')) :
    b = a ∧ o' = o := by
  obtain ⟨hb, ho⟩ := Prod.mk.inj h
  exact ⟨(Except.ok.inj hb).symm, ho.symm⟩

lemma setSidecar_eq_ok {name : String} {bytes : List UInt8} {u : Unit}
    (h : setSidecar host name bytes o = (.ok u, o')) :
    o'.sidecars (utf8 name) = some bytes := by
  obtain ⟨_, o₁, -, h⟩ := bind_eq_ok.mp h
  obtain ⟨-, rfl⟩ := Prod.mk.inj h
  exact Function.update_self _ _ _

lemma keep_eq_ok {needed : Bool} {name : String} {code : CompromiseCode} {blob : List UInt8}
    {u : Unit} (h : keep host needed name code blob o = (.ok u, o'))
    (hfresh : o.sidecars (utf8 name) = none) :
    Stands o'.sidecars name blob (needed = false) := by
  cases needed with
  | true =>
    obtain ⟨_, o₁, hset, hreport⟩ := bind_eq_ok.mp h
    left
    rw [(Writes.report code).nothing hreport]
    exact setSidecar_eq_ok hset
  | false =>
    obtain ⟨-, rfl⟩ := pure_eq_ok h
    exact .inr ⟨hfresh, rfl⟩

lemma restoreSparse_eq_ok {holes : List Hole} {decided : Captured}
    (h : restoreSparse host blake3 holes o = (.ok decided, o'))
    (hfresh : o.sidecars (utf8 "difz.sparse-holes") = none) :
    ∃ actual, decided.holes = .ok actual ∧
      Stands o'.sidecars "difz.sparse-holes" (encodeCanonical (holesOnly holes))
        (canonicalHash blake3 (holesOnly actual) = canonicalHash blake3 (holesOnly holes)) := by
  obtain ⟨_, o₁, hpunch, h⟩ := bind_eq_ok.mp h
  obtain ⟨c, _, hseen, h⟩ := bind_eq_ok.mp h
  obtain ⟨rfl, rfl⟩ := seen_eq_ok hseen
  obtain ⟨actual, _, hcapture, h⟩ := bind_eq_ok.mp h
  obtain ⟨hactual, rfl⟩ := capture_eq_ok hcapture
  obtain ⟨_, o₂, hkeep, h⟩ := bind_eq_ok.mp h
  obtain ⟨rfl, rfl⟩ := pure_eq_ok h
  rw [← (Writes.ignoring _).nothing hpunch] at hfresh
  refine ⟨actual, hactual, ?_⟩
  simpa using keep_eq_ok hkeep hfresh

/-- The setters may have failed or not; what counts is what was seen. -/
lemma birthNeedsTransport_eq_ok {desired : Option Time} {needed : Bool}
    (h : birthNeedsTransport host desired o = (.ok needed, o')) (hnot : needed = false) :
    o'.captured.birth = .ok desired := by
  subst hnot
  rw [birthNeedsTransport] at h
  split_ifs at h with hos hdesired
  · simpa using (pure_eq_ok h).1
  · obtain ⟨actual, o₁, hcapture, hpure⟩ := bind_eq_ok.mp h
    obtain ⟨hactual, rfl⟩ := capture_eq_ok hcapture
    obtain ⟨hnone, rfl⟩ := pure_eq_ok hpure
    rw [hactual]
    simp_all
  · obtain ⟨_, o₁, -, hrest⟩ := bind_eq_ok.mp h
    obtain ⟨actual, o₂, hcapture, hpure⟩ := bind_eq_ok.mp hrest
    obtain ⟨hactual, rfl⟩ := capture_eq_ok hcapture
    obtain ⟨hsame, rfl⟩ := pure_eq_ok hpure
    rw [hactual]
    simp_all

lemma decideBirth_eq_ok {desired : Option Time} {decision : Bool × Captured}
    (h : decideBirth host false desired o = (.ok decision, o')) (hnot : decision.1 = false) :
    decision.2.birth = .ok desired := by
  obtain ⟨needed, o₁, hneeds, h⟩ := bind_eq_ok.mp h
  obtain ⟨c, _, hseen, h⟩ := bind_eq_ok.mp h
  obtain ⟨rfl, rfl⟩ := seen_eq_ok hseen
  obtain ⟨rfl, rfl⟩ := pure_eq_ok h
  exact birthNeedsTransport_eq_ok hneeds hnot

lemma writeBirth_eq_ok {needed : Bool} {desired : Option Time} {u : Unit}
    (h : writeBirth host needed desired o = (.ok u, o'))
    (hfresh : o.sidecars (utf8 "difz.btime") = none) :
    Stands o'.sidecars "difz.btime" (Metadata.overrideWire desired) (needed = false) := by
  cases needed with
  | true =>
    obtain ⟨_, o₁, hwrite, hreport⟩ := bind_eq_ok.mp h
    obtain ⟨bytes, o₂, hlift, hset⟩ := bind_eq_ok.mp hwrite
    obtain ⟨hbytes, rfl⟩ := lift_eq_ok hlift
    left
    rw [(Writes.report _).nothing hreport, setSidecar_eq_ok hset,
      (Metadata.encodeTimeOverride_eq_ok.mp (mapError_eq_ok.mp hbytes)).2]
  | false =>
    obtain ⟨-, rfl⟩ := pure_eq_ok h
    exact .inr ⟨hfresh, rfl⟩

/-- Both parts of the access control, compared in canonical form. -/
lemma restoreAcl_eq_ok {m : Metadata} {decided : Captured}
    (h : restoreAcl host blake3 m o = (.ok decided, o'))
    (hnative : o.sidecars (utf8 "difz.native-acl") = none)
    (hportable : o.sidecars (utf8 "difz.portable-acl") = none) :
    ∃ acl actual, decided.acl = .ok acl ∧
      canonicalize (aclOnly acl.aces acl.nativeAcl) (Omit.of Metadata.Omit.default)
        = .ok actual ∧
      Stands o'.sidecars "difz.native-acl" (encodeCanonical (aclOnly [] m.nativeAcl))
        (canonicalHash blake3 (aclOnly [] actual.nativeAcl)
          = canonicalHash blake3 (aclOnly [] m.nativeAcl)) ∧
      Stands o'.sidecars "difz.portable-acl" (encodeCanonical (aclOnly m.aces none))
        (canonicalHash blake3 (aclOnly actual.aces none)
          = canonicalHash blake3 (aclOnly m.aces none)) := by
  obtain ⟨_, o₁, hrestore, h⟩ := bind_eq_ok.mp h
  obtain ⟨c, _, hseen, h⟩ := bind_eq_ok.mp h
  obtain ⟨rfl, rfl⟩ := seen_eq_ok hseen
  obtain ⟨acl, _, hcapture, h⟩ := bind_eq_ok.mp h
  obtain ⟨hacl, rfl⟩ := capture_eq_ok hcapture
  obtain ⟨actual, _, hlift, h⟩ := bind_eq_ok.mp h
  obtain ⟨hactual, rfl⟩ := lift_eq_ok hlift
  obtain ⟨_, o₂, hkeep, h⟩ := bind_eq_ok.mp h
  obtain ⟨_, o₃, hkeep', h⟩ := bind_eq_ok.mp h
  obtain ⟨rfl, rfl⟩ := pure_eq_ok h
  rw [← (Writes.ignoringUnlessOutOfMemory _).nothing hrestore] at hnative hportable
  have hother : o₂.sidecars (utf8 "difz.portable-acl") = none :=
    ((Writes.keep (by simp : "difz.native-acl" ∈ ["difz.native-acl"]) _ _).run hkeep _
      (by decide)).trans hportable
  have hstays := (Writes.keep (by simp : "difz.portable-acl" ∈ ["difz.portable-acl"]) _ _).run
    hkeep' _ (by decide : utf8 "difz.native-acl" ∉ ["difz.portable-acl"].map utf8)
  refine ⟨acl, actual, hacl, mapError_eq_ok.mp hactual, Stands.congr ?_ hstays, ?_⟩
  · simpa using keep_eq_ok hkeep hnative
  · simpa using keep_eq_ok hkeep' hother

lemma restoreFinder_eq_ok {m : Metadata} {decided : Captured}
    (h : restoreFinder host m o = (.ok decided, o'))
    (hflags : o.sidecars (utf8 "difz.bsd-flags") = none)
    (hinfo : o.sidecars (utf8 "difz.finder-info") = none) :
    ∃ actual, decided.finder = .ok actual ∧
      Stands o'.sidecars "difz.bsd-flags" (encodeCanonical (finderOnly m.finderFlags none))
        (actual.finderFlags = m.finderFlags) ∧
      Stands o'.sidecars "difz.finder-info" (encodeCanonical (finderOnly 0 m.finderInfo))
        (actual.finderInfo = m.finderInfo) := by
  obtain ⟨c, _, hseen, h⟩ := bind_eq_ok.mp h
  obtain ⟨rfl, rfl⟩ := seen_eq_ok hseen
  obtain ⟨actual, _, hcapture, h⟩ := bind_eq_ok.mp h
  obtain ⟨hactual, rfl⟩ := capture_eq_ok hcapture
  obtain ⟨_, o₂, hkeep, h⟩ := bind_eq_ok.mp h
  obtain ⟨_, o₃, hkeep', h⟩ := bind_eq_ok.mp h
  obtain ⟨rfl, rfl⟩ := pure_eq_ok h
  have hother : o₂.sidecars (utf8 "difz.finder-info") = none :=
    ((Writes.keep (by simp : "difz.bsd-flags" ∈ ["difz.bsd-flags"]) _ _).run hkeep _
      (by decide)).trans hinfo
  have hstays := (Writes.keep (by simp : "difz.finder-info" ∈ ["difz.finder-info"]) _ _).run
    hkeep' _ (by decide : utf8 "difz.bsd-flags" ∉ ["difz.finder-info"].map utf8)
  refine ⟨actual, hactual, Stands.congr ?_ hstays, ?_⟩
  · simpa using keep_eq_ok hkeep hflags
  · simpa using keep_eq_ok hkeep' hother

lemma restoreModification_eq_ok {desired : Option Time} {decided : Captured}
    (h : restoreModification host desired o = (.ok decided, o'))
    (hfresh : o.sidecars (utf8 "difz.mtime") = none) :
    ∃ mtime, decided.mtime = .ok mtime ∧
      ((∃ bytes, o'.sidecars (utf8 "difz.mtime") = some bytes ∧
        Metadata.encodeModificationOverride ⟨desired, timeFromTimestamp mtime⟩ = .ok bytes) ∨
      (o'.sidecars (utf8 "difz.mtime") = none ∧ desired = some (timeFromTimestamp mtime))) := by
  obtain ⟨needed, o₁, hneeds, h⟩ := bind_eq_ok.mp h
  rw [← (Writes.mtimeNeedsTransport desired).nothing hneeds] at hfresh
  cases needed with
  | true =>
    obtain ⟨c, o₂, hwrite, h⟩ := bind_eq_ok.mp h
    obtain ⟨_, o₃, hreport, h⟩ := bind_eq_ok.mp h
    obtain ⟨rfl, rfl⟩ := pure_eq_ok h
    obtain ⟨c', _, hseen, hwrite⟩ := bind_eq_ok.mp hwrite
    obtain ⟨rfl, rfl⟩ := seen_eq_ok hseen
    obtain ⟨mtime, _, hcapture, hwrite⟩ := bind_eq_ok.mp hwrite
    obtain ⟨hmtime, rfl⟩ := capture_eq_ok hcapture
    obtain ⟨bytes, _, hlift, hwrite⟩ := bind_eq_ok.mp hwrite
    obtain ⟨hbytes, rfl⟩ := lift_eq_ok hlift
    obtain ⟨_, o₄, hset, hwrite⟩ := bind_eq_ok.mp hwrite
    obtain ⟨_, o₅, htouch, hwrite⟩ := bind_eq_ok.mp hwrite
    obtain ⟨rfl, rfl⟩ := pure_eq_ok hwrite
    refine ⟨mtime, hmtime, .inl ⟨bytes, ?_, mapError_eq_ok.mp hbytes⟩⟩
    rw [(Writes.report _).nothing hreport, (Writes.tryCall _).nothing htouch]
    exact setSidecar_eq_ok hset
  | false =>
    obtain ⟨rfl, rfl⟩ := seen_eq_ok h
    obtain ⟨_, o₂, -, hrest⟩ := bind_eq_ok.mp hneeds
    obtain ⟨mtime, _, hcapture, hpure⟩ := bind_eq_ok.mp hrest
    obtain ⟨hmtime, rfl⟩ := capture_eq_ok hcapture
    obtain ⟨hsame, rfl⟩ := pure_eq_ok hpure
    exact ⟨mtime, hmtime, .inr ⟨hfresh, by simpa using hsame⟩⟩

/-! ### A whole restore -/

/-- The sidecars that stand for a native value. -/
def valueSidecars : List String :=
  ["difz.sparse-holes", "difz.bsd-flags", "difz.finder-info", "difz.native-acl",
    "difz.portable-acl", "difz.btime", "difz.mtime"]

/-- No sidecar stands for a native value yet. -/
def Fresh (o : Object) : Prop := ∀ name ∈ valueSidecars, o.sidecars (utf8 name) = none

/-- Every family that is not left out is in its sidecar, or was seen in place. -/
structure Kept (blake3 : List UInt8 → Digest) (omit_ : Omit) (kind : Directory.Kind)
    (m : Metadata) (decided : Captured) (sidecars : List UInt8 → Option (List UInt8)) : Prop where
  sparse : (omit_.sparse || kind != .file) = false → ∃ actual, decided.holes = .ok actual ∧
    Stands sidecars "difz.sparse-holes" (encodeCanonical (holesOnly m.holes))
      (canonicalHash blake3 (holesOnly actual) = canonicalHash blake3 (holesOnly m.holes))
  birth : omit_.timestamps = false → Stands sidecars "difz.btime"
    (Metadata.overrideWire m.times.btime) (decided.birth = .ok m.times.btime)
  acl : omit_.acl = false → ∃ acl actual, decided.acl = .ok acl ∧
    canonicalize (aclOnly acl.aces acl.nativeAcl) (Omit.of Metadata.Omit.default) = .ok actual ∧
    Stands sidecars "difz.native-acl" (encodeCanonical (aclOnly [] m.nativeAcl))
      (canonicalHash blake3 (aclOnly [] actual.nativeAcl)
        = canonicalHash blake3 (aclOnly [] m.nativeAcl)) ∧
    Stands sidecars "difz.portable-acl" (encodeCanonical (aclOnly m.aces none))
      (canonicalHash blake3 (aclOnly actual.aces none)
        = canonicalHash blake3 (aclOnly m.aces none))
  finder : omit_.finder = false → ∃ actual, decided.finder = .ok actual ∧
    Stands sidecars "difz.bsd-flags" (encodeCanonical (finderOnly m.finderFlags none))
      (actual.finderFlags = m.finderFlags) ∧
    Stands sidecars "difz.finder-info" (encodeCanonical (finderOnly 0 m.finderInfo))
      (actual.finderInfo = m.finderInfo)

lemma Kept.congr {omit_ : Omit} {kind : Directory.Kind} {m : Metadata} {decided decided' : Captured}
    {sidecars sidecars' : List UInt8 → Option (List UInt8)}
    (h : Kept blake3 omit_ kind m decided sidecars)
    (hdecided : decided' = { decided with mtime := decided'.mtime })
    (heq : ∀ name ∈ valueSidecars, name ≠ "difz.mtime" →
      sidecars' (utf8 name) = sidecars (utf8 name)) :
    Kept blake3 omit_ kind m decided' sidecars' := by
  rw [hdecided]
  refine ⟨fun homit => ?_, fun homit => ?_, fun homit => ?_, fun homit => ?_⟩
  · obtain ⟨actual, hactual, hstands⟩ := h.sparse homit
    exact ⟨actual, hactual, hstands.congr (heq _ (by simp [valueSidecars]) (by decide))⟩
  · exact (h.birth homit).congr (heq _ (by simp [valueSidecars]) (by decide))
  · obtain ⟨acl, actual, hacl, hactual, hnative, hportable⟩ := h.acl homit
    exact ⟨acl, actual, hacl, hactual, hnative.congr (heq _ (by simp [valueSidecars]) (by decide)),
      hportable.congr (heq _ (by simp [valueSidecars]) (by decide))⟩
  · obtain ⟨actual, hactual, hflags, hinfo⟩ := h.finder homit
    exact ⟨actual, hactual, hflags.congr (heq _ (by simp [valueSidecars]) (by decide)),
      hinfo.congr (heq _ (by simp [valueSidecars]) (by decide))⟩

/-- The permissions that are set behind an access list change no sidecar. -/
lemma restoreAclWritable_eq_ok {m : Metadata} {decided : Captured}
    (h : restoreAclWritable host blake3 m o = (.ok decided, o')) :
    ∃ o₁, restoreAcl host blake3 m o = (.ok decided, o₁) ∧ o'.sidecars = o₁.sidecars := by
  obtain ⟨_, o₁, hrestore, h⟩ := bind_eq_ok.mp h
  obtain ⟨_, o₂, hmode, h⟩ := bind_eq_ok.mp h
  obtain ⟨rfl, rfl⟩ := pure_eq_ok h
  exact ⟨o₁, hrestore, (Writes.tryCall _).nothing hmode⟩

lemma restoreEntry_kept {omit_ : Omit} {kind : Directory.Kind} {copied : Bool} {m : Metadata}
    {decided : Captured} (hfresh : Fresh o)
    (h : restoreEntry host blake3 omit_ kind copied m o = (.ok decided, o')) :
    Kept blake3 omit_ kind m decided o'.sidecars ∧ o'.sidecars (utf8 "difz.mtime") = none := by
  obtain ⟨_, o₁, hxattrs, h⟩ := bind_eq_ok.mp h
  obtain ⟨_, o₂, hlink, h⟩ := bind_eq_ok.mp h
  obtain ⟨sparse, o₃, hsparse, h⟩ := bind_eq_ok.mp h
  obtain ⟨birth, o₄, hbirth, h⟩ := bind_eq_ok.mp h
  obtain ⟨_, o₅, hset, h⟩ := bind_eq_ok.mp h
  obtain ⟨_, o₆, hwrite, h⟩ := bind_eq_ok.mp h
  obtain ⟨acl, o₇, hacl, h⟩ := bind_eq_ok.mp h
  obtain ⟨finder, o₈, hfinder, h⟩ := bind_eq_ok.mp h
  obtain ⟨rfl, rfl⟩ := pure_eq_ok h
  -- what each step leaves alone
  have w₁ := (Writes.restoreXattrs m false).run hxattrs
  have w₂ := (Writes.keep (List.mem_singleton_self "difz.hardlink-to") _ _).run hlink
  have w₃ := (Writes.restoreSparse m.holes).unlessOmitting.run hsparse
  have w₄ := (Writes.decideBirth _ _).nothing hbirth
  have w₅ := (Writes.setFinder m).unlessOmitting.nothing hset
  have w₆ := (Writes.writeBirth _ _).run hwrite
  have w₇ := (Writes.restoreAclWritable m).unlessOmitting.run hacl
  have w₈ := (Writes.restoreFinder m).unlessOmitting.run hfinder
  have fresh₂ : ∀ name ∈ valueSidecars, o₂.sidecars (utf8 name) = none := by
    intro name hname
    have hneq : utf8 name ∉ ["difz.raw-xattrs"].map utf8 ∧
        utf8 name ∉ ["difz.hardlink-to"].map utf8 := by
      revert name
      decide
    rw [w₂ name hneq.2, w₁ name hneq.1, hfresh name hname]
  refine ⟨⟨fun homit => ?_, fun homit => ?_, fun homit => ?_, fun homit => ?_⟩, ?_⟩
  · rw [homit] at hsparse
    obtain ⟨actual, hactual, hstands⟩ := restoreSparse_eq_ok hsparse (fresh₂ _ (by decide))
    refine ⟨actual, hactual, hstands.congr ?_⟩
    rw [w₈ _ (by decide), w₇ _ (by decide), w₆ _ (by decide), w₅, w₄]
  · rw [homit] at hbirth
    have hnone : o₅.sidecars (utf8 "difz.btime") = none := by
      rw [w₅, w₄, w₃ _ (by decide), fresh₂ _ (by decide)]
    have hstands : Stands o₆.sidecars "difz.btime" (Metadata.overrideWire m.times.btime)
        (birth.2.birth = .ok m.times.btime) :=
      (writeBirth_eq_ok hwrite hnone).imp_right
        (And.imp_right fun hnot => decideBirth_eq_ok hbirth hnot)
    refine hstands.congr ?_
    rw [w₈ _ (by decide), w₇ _ (by decide)]
  · rw [homit] at hacl
    obtain ⟨o₉, hrestore, w₉⟩ := restoreAclWritable_eq_ok hacl
    have hnative : o₆.sidecars (utf8 "difz.native-acl") = none := by
      rw [w₆ _ (by decide), w₅, w₄, w₃ _ (by decide), fresh₂ _ (by decide)]
    have hportable : o₆.sidecars (utf8 "difz.portable-acl") = none := by
      rw [w₆ _ (by decide), w₅, w₄, w₃ _ (by decide), fresh₂ _ (by decide)]
    obtain ⟨captured, actual, hcaptured, hactual, hnat, hport⟩ :=
      restoreAcl_eq_ok hrestore hnative hportable
    refine ⟨captured, actual, hcaptured, hactual, hnat.congr ?_, hport.congr ?_⟩
    · rw [w₈ _ (by decide), w₉]
    · rw [w₈ _ (by decide), w₉]
  · rw [homit] at hfinder
    have hflags : o₇.sidecars (utf8 "difz.bsd-flags") = none := by
      rw [w₇ _ (by decide), w₆ _ (by decide), w₅, w₄, w₃ _ (by decide), fresh₂ _ (by decide)]
    have hinfo : o₇.sidecars (utf8 "difz.finder-info") = none := by
      rw [w₇ _ (by decide), w₆ _ (by decide), w₅, w₄, w₃ _ (by decide), fresh₂ _ (by decide)]
    have hrestore : restoreFinder host m o₇ = (.ok finder, o') := hfinder
    have hstands := restoreFinder_eq_ok hrestore hflags hinfo
    exact hstands
  · rw [w₈ _ (by decide), w₇ _ (by decide), w₆ _ (by decide), w₅, w₄, w₃ _ (by decide),
      fresh₂ _ (by decide)]

/-- The sidecar for the modification time holds the requested value with the stamp seen then, or
the value was seen in place. -/
def Stamped (omit_ : Omit) (m : Metadata) (decided : Captured)
    (sidecars : List UInt8 → Option (List UInt8)) : Prop :=
  if omit_.timestamps then sidecars (utf8 "difz.mtime") = none
  else ∃ mtime, decided.mtime = .ok mtime ∧
    ((∃ bytes, sidecars (utf8 "difz.mtime") = some bytes ∧
      Metadata.encodeModificationOverride ⟨m.times.mtime, timeFromTimestamp mtime⟩ = .ok bytes) ∨
    (sidecars (utf8 "difz.mtime") = none ∧ m.times.mtime = some (timeFromTimestamp mtime)))

lemma Stamped.congr {omit_ : Omit} {m : Metadata} {decided : Captured}
    {sidecars sidecars' : List UInt8 → Option (List UInt8)} (h : Stamped omit_ m decided sidecars)
    (heq : sidecars' (utf8 "difz.mtime") = sidecars (utf8 "difz.mtime")) :
    Stamped omit_ m decided sidecars' := by
  rw [Stamped, heq]
  exact h

lemma notMem_mtime : ∀ name ∈ valueSidecars, name ≠ "difz.mtime" →
    utf8 name ∉ ["difz.mtime"].map utf8 := by
  decide

lemma stamped_of_restoreModification {omit_ : Omit} {m : Metadata} {decided modification : Captured}
    (h : unlessOmitting omit_.timestamps (restoreModification host m.times.mtime) o
      = (.ok modification, o'))
    (hfresh : o.sidecars (utf8 "difz.mtime") = none) :
    Stamped omit_ m { decided with mtime := modification.mtime } o'.sidecars := by
  rw [Stamped]
  cases homit : omit_.timestamps with
  | true =>
    rw [homit] at h
    obtain ⟨-, rfl⟩ := seen_eq_ok h
    exact hfresh
  | false =>
    rw [homit] at h
    have hrestore : restoreModification host m.times.mtime o = (.ok modification, o') := h
    have hstands := restoreModification_eq_ok hrestore hfresh
    exact hstands

theorem restoreObject_kept {omit_ : Omit} {kind : Directory.Kind} {copied : Bool} {m : Metadata}
    {decided : Captured} (hfresh : Fresh o)
    (h : restoreObject host blake3 omit_ kind copied m o = (.ok decided, o')) :
    Kept blake3 omit_ kind m decided o'.sidecars ∧ Stamped omit_ m decided o'.sidecars := by
  obtain ⟨entry, o₁, hentry, h⟩ := bind_eq_ok.mp h
  obtain ⟨_, o₂, hothers, h⟩ := bind_eq_ok.mp h
  obtain ⟨modification, o₃, hmtime, h⟩ := bind_eq_ok.mp h
  obtain ⟨_, o₄, hmode, h⟩ := bind_eq_ok.mp h
  obtain ⟨_, o₅, hacl, h⟩ := bind_eq_ok.mp h
  obtain ⟨rfl, rfl⟩ := pure_eq_ok h
  obtain ⟨hkept, hnone⟩ := restoreEntry_kept hfresh hentry
  have w₂ : o₂.sidecars = o₁.sidecars := (Writes.of_same fun _ => rfl).nothing hothers
  have w₃ := (Writes.restoreModification m.times.mtime).unlessOmitting.run hmtime
  have w₄ := (Writes.tryCall _).nothing hmode
  have w₅ := ((Writes.ignoringUnlessOutOfMemory _).bind fun _ =>
    Writes.seen).unlessOmitting.nothing hacl
  rw [← w₂] at hnone
  refine ⟨hkept.congr rfl fun name hname hne => ?_, ?_⟩
  · rw [w₅, w₄, w₃ name (notMem_mtime name hname hne), w₂]
  · rw [w₅, w₄]
    exact stamped_of_restoreModification hmtime hnone

/-! ### The root -/

end Zig

end Difz
