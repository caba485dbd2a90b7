import Difz.Metadata.Sorted

/-!
# Native attribute names

The mapping between canonical attribute names and those of an operating system
(`rust/src/attribute_name.rs`), which attributes restore stores natively, and how capture
classifies a native name (`restoreXattrs`, `readXattrs` and `excludedXattr` of
`src/directory_fs.zig`). An attribute comes back under its own class and name unless it is a raw
name that the target would spell for a logical one.
-/

namespace Difz

open Wire

namespace Metadata

namespace AttributeName

inductive Error
  | invalidName
  deriving DecidableEq, Repr

/-! ### The mapping -/

def checkName (os : Os) (class_ : XattrClass) (name : List UInt8) : Except Error Unit :=
  match class_ with
  | .logical => (validateLogicalName name).mapError fun _ => .invalidName
  | .raw =>
    let maximum := match os with
      | .linux | .mswin => 255
      | .macos => 127
    if name.isEmpty || name.length > maximum || name.contains 0
        || (os == .mswin
          && (name.any (fun byte => (utf8 ":\\/").contains byte) || !isUtf8 name)) then
      .error .invalidName
    else .ok ()

/-- What stands before a canonical name on this system. -/
def leading (os : Os) (class_ : XattrClass) : List UInt8 :=
  if os = .linux ∧ class_ = .logical then utf8 "user." else []

/-- `CStr::from_bytes_with_nul`: the only NUL is the last byte. -/
def fromBytesWithNul (bytes : List UInt8) : Except Error (List UInt8) :=
  if bytes.getLast? = some 0 ∧ !bytes.dropLast.contains 0 then .ok bytes.dropLast
  else .error .invalidName

/-- The terminated native name, and the output buffer after the call. -/
def toNative (os : Os) (class_ : XattrClass) (name output : List UInt8) :
    Except Error (List UInt8) × List UInt8 :=
  match checkName os class_ name with
  | .error e => (.error e, output)
  | .ok () =>
    let length := (leading os class_).length + name.length
    if output.length ≤ length then (.error .invalidName, output)
    else
      let output := leading os class_ ++ name ++ [0] ++ output.drop (length + 1)
      (fromBytesWithNul (output.take (length + 1)), output)

def fromNative (os : Os) (class_ : XattrClass) (native : List UInt8) : Option (List UInt8) :=
  match class_ with
  | .raw => some native
  | .logical => do
    let logical ← match os with
      | .linux => stripPrefix (utf8 "user.") native
      | .macos | .mswin => some native
    if validateLogicalName logical = .ok () then some logical else none

/-! ### Restore and capture -/

/-- `transportBare`. -/
def transportBare (name : List UInt8) : List UInt8 := (stripPrefix (utf8 "user.") name).getD name

/-- Native names that belong to another family, or to none. -/
def excludedXattr (os : Os) (native : List UInt8) : Bool :=
  (os == .macos && native == utf8 "com.apple.FinderInfo")
    || transportBare native == utf8 "com.apple.ResourceFork"
    || native == utf8 "system.posix_acl_access"
    || native == utf8 "system.posix_acl_default"

/-- The class and name capture gives a native attribute; `none` for those it skips. -/
def capture (os : Os) (native : List UInt8) : Option (XattrClass × List UInt8) :=
  if isTransportName native then none
  else if excludedXattr os native then none
  else match fromNative os .logical native with
    | some logical => if isTransportName logical then none else some (.logical, logical)
    | none => some (.raw, native)

/-- The attributes restore stores natively rather than in the sidecar. -/
def storedNatively (os : Os) (x : Xattr) : Bool :=
  match x.class_ with
  | .logical => true
  | .raw => rawAccepted os x.name

/-- The native name of an attribute, in a buffer that any name fits. -/
def nativeName (os : Os) (x : Xattr) : Except Error (List UInt8) :=
  (toNative os x.class_ x.name (List.replicate 256 0)).1

/-- Every attribute stored natively has a native name and is captured from it under its class and
name; so no two of them share a native name and none lands on a transport attribute. -/
structure Survives (os : Os) (m : Metadata) : Prop where
  same : ∀ x ∈ m.xattrs, storedNatively os x = true → ∃ native, nativeName os x = .ok native ∧
    capture os native = some (x.class_, x.name)
  distinct : ∀ (i j : Nat) (x y : Xattr), m.xattrs[i]? = some x → m.xattrs[j]? = some y →
    storedNatively os x = true → storedNatively os y = true →
    ∀ native, nativeName os x = .ok native → nativeName os y = .ok native → i = j
  noTransport : ∀ x ∈ m.xattrs, storedNatively os x = true → ∀ native,
    nativeName os x = .ok native → isTransportName native = false

/-! ### Names of the two classes -/

lemma validateLogicalName_eq_ok {name : List UInt8} (h : validateLogicalName name = .ok ()) :
    name ≠ [] ∧ 0 ∉ name ∧ isUtf8 name = true ∧ stripPrefix (utf8 "user.") name = none := by
  rw [validateLogicalName, ite_error_eq_ok, ite_error_eq_ok] at h
  obtain ⟨hne, h, -⟩ := h
  simp only [Bool.or_eq_true, not_or, Bool.not_eq_true, List.any_eq_false] at h
  obtain ⟨⟨⟨⟨⟨⟨⟨-, hbytes⟩, hutf⟩, -⟩, -⟩, -⟩, hpre⟩, -⟩ := h
  refine ⟨by simpa using hne, fun h0 => ?_, by simpa using hutf, ?_⟩
  · have := (hbytes 0 h0).1.1
    simp at this
  · rw [Option.eq_none_iff_forall_not_mem]
    intro rest hrest
    obtain rfl := stripPrefix_eq_some_iff.mp hrest
    have := hpre (utf8 "user.") (by simp)
    rw [List.take_left] at this
    simp [eqIgnoreAsciiCase] at this

lemma fromNative_logical_eq_some {os : Os} {native l : List UInt8} :
    fromNative os .logical native = some l ↔
      native = leading os .logical ++ l ∧ validateLogicalName l = .ok () := by
  have hswap : validateLogicalName native = .ok () ∧ native = l ↔
      native = l ∧ validateLogicalName l = .ok () := by
    constructor
    · intro hx
      obtain ⟨h, rfl⟩ := hx
      exact ⟨rfl, h⟩
    · intro hx
      obtain ⟨rfl, h⟩ := hx
      exact ⟨h, rfl⟩
  cases os with
  | linux =>
    simp [fromNative, leading, stripPrefix_eq_some_iff, Option.bind_eq_some_iff, and_comm]
  | macos => simpa [fromNative, leading] using hswap
  | mswin => simpa [fromNative, leading] using hswap

lemma not_mem_of_checkName {os : Os} {class_ : XattrClass} {name : List UInt8}
    (h : checkName os class_ name = .ok ()) : 0 ∉ name := by
  cases class_ with
  | logical =>
    rw [checkName] at h
    cases hv : validateLogicalName name with
    | error e => simp [hv, Except.mapError] at h
    | ok u => exact (validateLogicalName_eq_ok hv).2.1
  | raw =>
    simp only [checkName, ite_error_eq_ok, Bool.or_eq_true, not_or, Bool.not_eq_true] at h
    simpa using h.1.1.2

/-- A name that passes its check is written out in full, if the buffer has room. -/
lemma toNative_fst {os : Os} {class_ : XattrClass} {name output : List UInt8}
    (h : checkName os class_ name = .ok ())
    (hlen : (leading os class_).length + name.length < output.length) :
    (toNative os class_ name output).1 = .ok (leading os class_ ++ name) := by
  have h0 : 0 ∉ leading os class_ ++ name := by
    have hlead : 0 ∉ leading os class_ := by
      rw [leading]
      split_ifs <;> decide
    simp [hlead, not_mem_of_checkName h]
  have htake : (leading os class_ ++ name ++ [0]
      ++ output.drop ((leading os class_).length + name.length + 1)).take
        ((leading os class_).length + name.length + 1) = leading os class_ ++ name ++ [0] :=
    List.take_left' (by simp; omega)
  rw [toNative, h]
  dsimp only
  rw [if_neg (by omega)]
  dsimp only
  rw [htake, fromBytesWithNul, List.getLast?_concat, List.dropLast_concat, if_pos]
  simpa using h0

lemma nativeName_eq_ok {os : Os} {x : Xattr} {native : List UInt8}
    (h : nativeName os x = .ok native) :
    checkName os x.class_ x.name = .ok () ∧ native = leading os x.class_ ++ x.name := by
  have hall : ∀ output, (toNative os x.class_ x.name output).1 = .ok native →
      checkName os x.class_ x.name = .ok () ∧ native = leading os x.class_ ++ x.name := by
    intro output h
    cases hc : checkName os x.class_ x.name with
    | error e => simp [toNative, hc] at h
    | ok u =>
      refine ⟨rfl, ?_⟩
      by_cases hlen : (leading os x.class_).length + x.name.length < output.length
      · rw [toNative_fst hc hlen] at h
        exact (Except.ok.inj h).symm
      · simp [toNative, hc, not_lt.mp hlen] at h
  exact hall _ h

/-! ### Attributes of a canonical record -/

lemma validateXattrName_of_mem {m : CanonicalMetadata} {x : Xattr} (hx : x ∈ m.metadata.xattrs) :
    validateXattrName x.class_ x.name = .ok () := by
  obtain ⟨q, hq⟩ := exists_check_of_forPrevious m.isValid.xattrs hx
  simp only [checkXattr, seq_eq_ok] at hq
  exact hq.1

lemma isTransportName_of_mem {m : CanonicalMetadata} {x : Xattr} (hx : x ∈ m.metadata.xattrs) :
    isTransportName x.name = false := by
  have := validateXattrName_of_mem hx
  simp only [validateXattrName, ite_error_eq_ok] at this
  simpa using this.1

lemma validateLogicalName_of_mem {m : CanonicalMetadata} {x : Xattr}
    (hx : x ∈ m.metadata.xattrs) (hc : x.class_ = .logical) :
    validateLogicalName x.name = .ok () := by
  have := validateXattrName_of_mem hx
  simp only [validateXattrName, ite_error_eq_ok, hc] at this
  exact this.2.2

lemma index_eq_of_key {m : CanonicalMetadata} {i j : Nat} {x y : Xattr}
    (hi : m.metadata.xattrs[i]? = some x) (hj : m.metadata.xattrs[j]? = some y)
    (hc : x.class_ = y.class_) (hn : x.name = y.name) : i = j := by
  have hpair := (xattrs_eq_ok.mp m.isValid.xattrs).2
  have hkey : x.key = y.key := by rw [Xattr.key, Xattr.key, hc, hn]
  obtain ⟨hil, rfl⟩ := List.getElem?_eq_some_iff.mp hi
  obtain ⟨hjl, rfl⟩ := List.getElem?_eq_some_iff.mp hj
  by_contra hne
  rcases Nat.lt_or_gt_of_ne hne with hlt | hlt
  · have := List.pairwise_iff_getElem.mp hpair i j hil hjl hlt
    rw [hkey, Std.compare_self] at this
    exact absurd this (by decide)
  · have := List.pairwise_iff_getElem.mp hpair j i hjl hil hlt
    rw [hkey, Std.compare_self] at this
    exact absurd this (by decide)

/-! ### When attributes survive -/

/-- A native name that this system uses for a logical one. -/
def SpellsLogical (os : Os) (name : List UInt8) : Prop :=
  ∃ logical, name = leading os .logical ++ logical ∧ validateLogicalName logical = .ok ()

/-- On any system, the native spelling of a logical name is a transport name only if the name
itself is one. -/
lemma isTransportName_leading {os : Os} {name : List UInt8}
    (h : validateLogicalName name = .ok ()) :
    isTransportName (leading os .logical ++ name) = isTransportName name := by
  have hbare := (validateLogicalName_eq_ok h).2.2.2
  have huser : stripPrefix (utf8 "user.") (utf8 "user." ++ name) = some name :=
    stripPrefix_eq_some_iff.mpr rfl
  cases os with
  | linux => simp [leading, isTransportName, huser, hbare]
  | macos => simp [leading]
  | mswin => simp [leading]

lemma leading_raw (os : Os) : leading os .raw = [] := by simp [leading]

/-- What is captured is no transport name and not excluded. -/
lemma capture_eq_some {os : Os} {native : List UInt8} {class_ : XattrClass} {name : List UInt8}
    (h : capture os native = some (class_, name)) :
    isTransportName native = false ∧ excludedXattr os native = false := by
  rw [capture] at h
  split_ifs at h with ht he
  exact ⟨Bool.eq_false_iff.mpr ht, Bool.eq_false_iff.mpr he⟩

lemma capture_logical {os : Os} {name : List UInt8} (h : validateLogicalName name = .ok ())
    (ht : isTransportName name = false) :
    capture os (leading os .logical ++ name) = some (.logical, name) ↔
      excludedXattr os (leading os .logical ++ name) = false := by
  refine ⟨fun hc => (capture_eq_some hc).2, fun he => ?_⟩
  rw [capture, isTransportName_leading h, ht, he, fromNative_logical_eq_some.mpr ⟨rfl, h⟩]
  simp [ht]

/-- A raw name is captured as itself unless it spells a logical name or is excluded. -/
lemma capture_raw {os : Os} {name : List UInt8} (ht : isTransportName name = false) :
    capture os name = some (.raw, name) ↔
      ¬SpellsLogical os name ∧ excludedXattr os name = false := by
  constructor
  · intro h
    refine ⟨fun hspells => ?_, (capture_eq_some h).2⟩
    obtain ⟨l, rfl, hl⟩ := hspells
    rw [isTransportName_leading hl] at ht
    rw [(capture_logical hl ht).mpr (capture_eq_some h).2] at h
    exact absurd (Prod.mk.inj (Option.some.inj h)).1 (by decide)
  · intro h
    obtain ⟨hspells, he⟩ := h
    have hnone : fromNative os .logical name = none := by
      rw [Option.eq_none_iff_forall_not_mem]
      intro l hl
      exact hspells ⟨l, fromNative_logical_eq_some.mp hl⟩
    rw [capture, ht, he, hnone]
    rfl

/-- A raw name of a record that the system accepts passes the check of the mapping, but for its
encoding. -/
lemma checkName_of_rawAccepted {os : Os} {name : List UInt8}
    (hv : validateXattrName .raw name = .ok ()) (ha : rawAccepted os name = true)
    (hutf : os = .mswin → isUtf8 name = true) : checkName os .raw name = .ok () := by
  simp only [validateXattrName, ite_error_eq_ok, Bool.or_eq_true, decide_eq_true_eq, not_or,
    not_lt, Bool.not_eq_true, List.any_eq_false, and_true] at hv
  obtain ⟨-, hne, hlen, hbytes⟩ := hv
  have h0 : 0 ∉ name := by
    intro h
    have := hbytes 0 h
    simp at this
  cases os with
  | linux => simp [checkName, hne, h0, hlen]
  | macos =>
    simp only [rawAccepted, Bool.and_eq_true, decide_eq_true_eq] at ha
    simp [checkName, hne, h0, ha.1.2]
  | mswin =>
    simp only [rawAccepted, Bool.and_eq_true, Bool.not_eq_true', List.any_eq_false] at ha
    have hsep : ∀ b ∈ name, b ∉ utf8 ":\\/" := by
      intro b hb hsep
      have hsub : ∀ c ∈ utf8 ":\\/", forbidden.contains c = true := by decide +kernel
      exact ha.2 b hb (hsub b hsep)
    simpa [checkName, hne, h0, hlen, hutf rfl] using hsep

lemma nativeName_of_checkName {os : Os} {m : CanonicalMetadata} {x : Xattr}
    (hx : x ∈ m.metadata.xattrs) (hc : checkName os x.class_ x.name = .ok ()) :
    nativeName os x = .ok (leading os x.class_ ++ x.name) := by
  have hroom : (leading os x.class_).length + x.name.length
      < (List.replicate 256 (0 : UInt8)).length := by
    rw [List.length_replicate]
    cases hclass : x.class_ with
    | logical =>
      have hlen := length_le_of_validateLogicalName (validateLogicalName_of_mem hx hclass)
      have hlead : (leading os .logical).length ≤ 5 := by
        cases os <;> decide
      omega
    | raw =>
      have hlen := length_le_of_validateXattrName (validateXattrName_of_mem hx)
      rw [leading_raw, List.length_nil]
      omega
  rw [nativeName, toNative_fst hc hroom]

/-- The condition on an attribute that is stored natively: capture does not skip its native name,
and a raw name is no native spelling of a logical one and, where native names are text, it is
text. -/
structure KeepsClass (os : Os) (x : Xattr) : Prop where
  kept : excludedXattr os (leading os x.class_ ++ x.name) = false
  raw : x.class_ = .raw → ¬SpellsLogical os x.name
  text : x.class_ = .raw → os = .mswin → isUtf8 x.name = true

/-- An attribute that is captured as itself keeps its class. -/
lemma keepsClass_of_capture {os : Os} {m : CanonicalMetadata} {x : Xattr}
    (hx : x ∈ m.metadata.xattrs) {native : List UInt8} (hnative : nativeName os x = .ok native)
    (hsame : capture os native = some (x.class_, x.name)) : KeepsClass os x := by
  obtain ⟨hcheck, rfl⟩ := nativeName_eq_ok hnative
  refine ⟨(capture_eq_some hsame).2, fun hc => ?_, fun hc => ?_⟩
  · rw [hc, leading_raw, List.nil_append] at hsame
    exact ((capture_raw (isTransportName_of_mem hx)).mp hsame).1
  · rintro rfl
    simp only [checkName, hc, ite_error_eq_ok, Bool.or_eq_true, Bool.and_eq_true, not_or,
      not_and, Bool.not_eq_true] at hcheck
    simpa using (hcheck.1.2 rfl).2

/-- An attribute that keeps its class has a native name, off the transport, from which it is
captured. -/
lemma capture_of_keepsClass {os : Os} {m : CanonicalMetadata} {x : Xattr}
    (hx : x ∈ m.metadata.xattrs) (hstored : storedNatively os x = true)
    (hkeeps : KeepsClass os x) :
    ∃ native, nativeName os x = .ok native ∧ capture os native = some (x.class_, x.name) := by
  have ht := isTransportName_of_mem hx
  have hkept := hkeeps.kept
  refine ⟨leading os x.class_ ++ x.name, ?_⟩
  cases hc : x.class_ with
  | logical =>
    have hv := validateLogicalName_of_mem hx hc
    rw [hc] at hkept
    refine ⟨?_, (capture_logical hv ht).mpr hkept⟩
    rw [← hc]
    exact nativeName_of_checkName hx (by rw [hc, checkName, hv]; rfl)
  | raw =>
    have hvalid := validateXattrName_of_mem hx
    rw [storedNatively, hc] at hstored
    rw [hc] at hvalid
    rw [hc, leading_raw, List.nil_append] at hkept
    refine ⟨?_, ?_⟩
    · rw [← hc]
      exact nativeName_of_checkName hx
        (by rw [hc]; exact checkName_of_rawAccepted hvalid hstored (hkeeps.text hc))
    · rw [leading_raw, List.nil_append]
      exact (capture_raw ht).mpr ⟨hkeeps.raw hc, hkept⟩

/-- A record comes back from the native attributes restore makes of it exactly when all that are
stored natively keep their class. -/
theorem survives_iff (os : Os) (m : CanonicalMetadata) :
    Survives os m.metadata ↔ ∀ x ∈ m.metadata.xattrs, storedNatively os x = true →
      KeepsClass os x := by
  constructor
  · intro h x hx hs
    obtain ⟨native, hnative, hsame⟩ := h.same x hx hs
    exact keepsClass_of_capture hx hnative hsame
  · intro h
    -- the native name is unique, so what is captured from it is too
    have hat : ∀ x ∈ m.metadata.xattrs, storedNatively os x = true → ∀ native,
        nativeName os x = .ok native → capture os native = some (x.class_, x.name) := by
      intro x hx hs native hn
      obtain ⟨native', hnative, hread⟩ := capture_of_keepsClass hx hs (h x hx hs)
      obtain rfl := Except.ok.inj (hnative.symm.trans hn)
      exact hread
    refine ⟨fun x hx hs => capture_of_keepsClass hx hs (h x hx hs), ?_,
      fun x hx hs native hn => (capture_eq_some (hat x hx hs native hn)).1⟩
    intro i j x y hi hj hsx hsy native hnx hny
    have hx := hat x (List.mem_of_getElem? hi) hsx native hnx
    have hy := hat y (List.mem_of_getElem? hj) hsy native hny
    obtain ⟨hc, hn⟩ := Prod.mk.inj (Option.some.inj (hx.symm.trans hy))
    exact index_eq_of_key hi hj hc hn

/-- A record with one raw attribute, as macOS captures a native `user.note`. -/
def userNote : CanonicalMetadata :=
  ⟨{ Metadata.default with xattrs := [⟨.raw, utf8 "user.note", []⟩] }, by decide⟩

/-- Linux stores it under the native name of the logical attribute `note` and reads that back. -/
theorem userNote_not_survives : ¬Survives .linux userNote.metadata := by
  intro h
  obtain ⟨native, hnative, hsame⟩ :=
    h.same ⟨.raw, utf8 "user.note", []⟩ (by decide) (by decide)
  have huser : nativeName .linux ⟨.raw, utf8 "user.note", []⟩ = .ok (utf8 "user.note") := by
    decide +kernel
  obtain rfl := Except.ok.inj (huser.symm.trans hnative)
  exact absurd hsame (by decide +kernel)

/-! ### Names the planner counts on -/

/-- A name the planner would store natively has a native name in every buffer of the size callers
use: 256 bytes for raw names, 133 for logical ones. -/
def MapsPlanned (os : Os) (name : List UInt8) : Prop :=
  (validateXattrName .raw name = .ok () → rawAccepted os name = true →
    ∀ output : List UInt8, 256 ≤ output.length →
      ∃ native, (toNative os .raw name output).1 = .ok native) ∧
  (validateXattrName .logical name = .ok () →
    ∀ output : List UInt8, 133 ≤ output.length →
      ∃ native, (toNative os .logical name output).1 = .ok native)

lemma toNative_logical {os : Os} {name output : List UInt8}
    (hv : validateXattrName .logical name = .ok ()) (hlen : 133 ≤ output.length) :
    ∃ native, (toNative os .logical name output).1 = .ok native := by
  simp only [validateXattrName, ite_error_eq_ok] at hv
  have hcheck : checkName os .logical name = .ok () := by
    rw [checkName, hv.2.2]
    rfl
  have hname := length_le_of_validateLogicalName hv.2.2
  have hlead : (leading os .logical).length ≤ 5 := by
    cases os <;> decide
  exact ⟨_, toNative_fst hcheck (by omega)⟩

/-- The only names in the way are raw ones that are no text where native names are text. -/
theorem mapsPlanned_iff (os : Os) (name : List UInt8) :
    MapsPlanned os name ↔ (os = .mswin → validateXattrName .raw name = .ok () →
      rawAccepted os name = true → isUtf8 name = true) := by
  constructor
  · rintro ⟨hraw, -⟩ rfl hv ha
    obtain ⟨native, hnative⟩ := hraw hv ha (List.replicate 256 0)
      (le_of_eq List.length_replicate.symm)
    have hmapped : nativeName .mswin ⟨.raw, name, []⟩ = .ok native := hnative
    have hcheck := (nativeName_eq_ok hmapped).1
    simp only [checkName, ite_error_eq_ok, Bool.or_eq_true, Bool.and_eq_true, not_or,
      not_and, Bool.not_eq_true] at hcheck
    simpa using (hcheck.1.2 rfl).2
  · intro htext
    refine ⟨fun hv ha output hlen => ?_, fun hv output hlen => toNative_logical hv hlen⟩
    have hcheck := checkName_of_rawAccepted hv ha fun hos => htext hos hv ha
    have hname := length_le_of_validateXattrName hv
    refine ⟨_, toNative_fst hcheck ?_⟩
    rw [leading_raw, List.length_nil]
    omega

/-- A single byte that is no text is accepted on Windows and cannot be mapped. -/
theorem mapsPlanned_not_text : ¬ MapsPlanned .mswin [0xff] := by
  intro h
  obtain ⟨native, hnative⟩ := h.1 (by decide) (by decide) (List.replicate 256 0)
    (le_of_eq List.length_replicate.symm)
  exact absurd hnative (by
    rw [toNative, show checkName .mswin .raw [0xff] = .error .invalidName by decide]
    simp)

/-! ### The mapping by itself -/

/-- Either the whole name is written, or nothing. -/
lemma toNative_eq (os : Os) (class_ : XattrClass) (name output : List UInt8) :
    toNative os class_ name output =
      if checkName os class_ name = .ok () ∧ (leading os class_ ++ name).length < output.length then
        (.ok (leading os class_ ++ name), leading os class_ ++ name ++ [0]
          ++ output.drop ((leading os class_ ++ name).length + 1))
      else (.error .invalidName, output) := by
  cases hcheck : checkName os class_ name with
  | error e => simp [toNative, hcheck]
  | ok u =>
    by_cases hlen : (leading os class_ ++ name).length < output.length
    · rw [if_pos ⟨rfl, hlen⟩]
      rw [List.length_append] at hlen ⊢
      refine Prod.ext (toNative_fst hcheck hlen) ?_
      rw [toNative, hcheck]
      dsimp only
      rw [if_neg (not_le.mpr hlen)]
    · rw [if_neg fun h => hlen h.2]
      rw [List.length_append, not_lt] at hlen
      rw [toNative, hcheck]
      dsimp only
      rw [if_pos hlen]

lemma toNative_eq_ok {os : Os} {class_ : XattrClass} {name output native buffer : List UInt8} :
    toNative os class_ name output = (.ok native, buffer) ↔
      checkName os class_ name = .ok () ∧ native.length < output.length ∧
      native = leading os class_ ++ name ∧
      buffer = native ++ [0] ++ output.drop (native.length + 1) := by
  rw [toNative_eq]
  split_ifs with h
  · rw [Prod.mk.injEq, Except.ok.injEq]
    constructor
    · intro heq
      obtain ⟨rfl, rfl⟩ := heq
      exact ⟨h.1, h.2, rfl, rfl⟩
    · intro heq
      obtain ⟨-, -, rfl, rfl⟩ := heq
      exact ⟨rfl, rfl⟩
  · refine iff_of_false (by simp) fun heq => h ?_
    obtain ⟨hcheck, hlen, rfl, -⟩ := heq
    exact ⟨hcheck, hlen⟩

lemma fromNative_leading {os : Os} {class_ : XattrClass} {name : List UInt8}
    (h : checkName os class_ name = .ok ()) :
    fromNative os class_ (leading os class_ ++ name) = some name := by
  cases class_ with
  | raw => rw [leading_raw, List.nil_append, fromNative]
  | logical =>
    refine fromNative_logical_eq_some.mpr ⟨rfl, ?_⟩
    rw [checkName, mapError_eq_ok] at h
    exact h

/-- A failure leaves the buffer as it was. A success writes the native name with its terminator at
the front and nothing else; the name holds no NUL and maps back. So the check of the terminator
never fails: a valid name with room in the buffer is mapped. A native name that is read under a
logical one is what that one is written as, and no two logical names are written the same. -/
theorem toNative_exact (os : Os) :
    (∀ class_ name output e buffer,
      toNative os class_ name output = (.error e, buffer) → buffer = output) ∧
    (∀ class_ name output native buffer,
      toNative os class_ name output = (.ok native, buffer) →
        native = leading os class_ ++ name ∧ native.length < output.length ∧
        buffer = native ++ [0] ++ output.drop (native.length + 1) ∧ 0 ∉ native ∧
        fromNative os class_ native = some name) ∧
    (∀ class_ name output, checkName os class_ name = .ok () →
      (leading os class_ ++ name).length < output.length →
        ∃ native buffer, toNative os class_ name output = (.ok native, buffer)) ∧
    (∀ native name output, fromNative os .logical native = some name →
      native.length < output.length →
        ∃ buffer, toNative os .logical name output = (.ok native, buffer)) ∧
    (∀ name name' output output' native buffer buffer',
      toNative os .logical name output = (.ok native, buffer) →
      toNative os .logical name' output' = (.ok native, buffer') → name = name') := by
  refine ⟨fun class_ name output e buffer h => ?_, fun class_ name output native buffer h => ?_,
    fun class_ name output hcheck hlen => ?_, fun native name output h hlen => ?_,
    fun name name' output output' native buffer buffer' h h' => ?_⟩
  · rw [toNative_eq] at h
    split_ifs at h with hfits
    · exact absurd (congrArg Prod.fst h) (by simp)
    · exact (congrArg Prod.snd h).symm
  · obtain ⟨hcheck, hlen, rfl, hbuffer⟩ := toNative_eq_ok.mp h
    have hlead : 0 ∉ leading os class_ := by
      rw [leading]
      split_ifs <;> decide
    have hnul : 0 ∉ leading os class_ ++ name := by
      simp [hlead, not_mem_of_checkName hcheck]
    exact ⟨rfl, hlen, hbuffer, hnul, fromNative_leading hcheck⟩
  · exact ⟨_, _, toNative_eq_ok.mpr ⟨hcheck, hlen, rfl, rfl⟩⟩
  · obtain ⟨rfl, hvalid⟩ := fromNative_logical_eq_some.mp h
    have hcheck : checkName os .logical name = .ok () := by
      rw [checkName, hvalid]
      rfl
    exact ⟨_, toNative_eq_ok.mpr ⟨hcheck, hlen, rfl, rfl⟩⟩
  · obtain ⟨-, -, rfl, -⟩ := toNative_eq_ok.mp h
    obtain ⟨-, -, hsame, -⟩ := toNative_eq_ok.mp h'
    exact List.append_cancel_left hsame

end AttributeName

end Metadata

end Difz
