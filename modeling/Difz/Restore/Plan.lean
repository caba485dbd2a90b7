import Difz.Restore.Object

/-!
# Restore plans

Which fields of a record the target system takes itself and which are kept in sidecars, as
`rust/src/metadata_restore.rs` and `planRestore` of `src/metadata.zig` decide it. Both go through
the fields in the same order, stop where a sidecar is needed and there is no place for one, and
note every sidecar in a list of fixed capacity.

`planned` is the decision without the order: each action by itself, in terms of the record and the
capabilities. Both programs compute it.
-/

namespace Difz

open Wire Metadata

namespace Metadata

open Zig (CompromiseCode)

/-! ### Plans -/

inductive RestoreError
  | planImpossible
  deriving DecidableEq, Repr

structure Capabilities where
  os : Os
  setBtime : Bool
  punchHoles : Bool
  hardlink : Bool
  portableAcl : Bool
  nativeAcl : Bool
  bsdFlags : Bool
  finderInfo : Bool
  logicalXattr : Bool
  deriving DecidableEq, Repr

@[ext]
structure RestoreActions where
  logicalXattr : Bool := false
  rawXattr : Bool := false
  rawXattrSidecar : Bool := false
  portableAcl : Bool := false
  portableAclSidecar : Bool := false
  nativeAcl : Bool := false
  nativeAclSidecar : Bool := false
  mtimeAtime : Bool := false
  btime : Bool := false
  btimeSidecar : Bool := false
  bsdFlags : Bool := false
  bsdFlagsSidecar : Bool := false
  finderInfo : Bool := false
  finderInfoSidecar : Bool := false
  punchHoles : Bool := false
  sparseSidecar : Bool := false
  hardlink : Bool := false
  hardlinkCopy : Bool := false
  deriving DecidableEq, Repr

/-- The actions and the notes taken so far. -/
@[ext]
structure Plan (γ : Type) where
  actions : RestoreActions := {}
  compromises : List γ := []
  deriving DecidableEq

variable {γ : Type}

def requireTransport (caps : Capabilities) : Except RestoreError Unit :=
  if caps.logicalXattr then .ok () else .error .planImpossible

/-- One field: the target takes it, or it is kept in a sidecar and noted. -/
def planField (push : Plan γ → γ → Except RestoreError (Plan γ)) (caps : Capabilities)
    (present able : Bool) (native sidecar : RestoreActions → RestoreActions) (item : γ)
    (plan : Plan γ) : Except RestoreError (Plan γ) :=
  if present then
    if able then .ok { plan with actions := native plan.actions }
    else do
      requireTransport caps
      push { plan with actions := sidecar plan.actions } item
  else .ok plan

/-! ### `RestorePlan::new` -/

/-- Associated data exists only for the native list. -/
inductive Compromise
  | nativeAclPreserved (origin : Os) (portableAclApplied : Bool)
  | portableAclPreserved
  | finderFlagsPreserved
  | finderInfoPreserved
  | birthTimePreserved
  | sparsePreserved
  | hardlinkCopied
  | rawXattrPreserved
  deriving DecidableEq, Repr

def Compromise.code : Compromise → CompromiseCode
  | nativeAclPreserved _ _ => .nativeAclPreserved
  | portableAclPreserved => .portableAclPreserved
  | finderFlagsPreserved => .finderFlagsPreserved
  | finderInfoPreserved => .finderInfoPreserved
  | birthTimePreserved => .birthTimePreserved
  | sparsePreserved => .sparsePreserved
  | hardlinkCopied => .hardlinkCopied
  | rawXattrPreserved => .rawXattrPreserved

def Compromise.family : Compromise → Family
  | nativeAclPreserved _ _ | portableAclPreserved => .acl
  | finderFlagsPreserved | finderInfoPreserved => .finder
  | birthTimePreserved => .timestamps
  | sparsePreserved => .sparse
  | hardlinkCopied => .hardlink
  | rawXattrPreserved => .xattr

/-- `CompromiseCode::ALL`. -/
def allCompromiseCodes : List CompromiseCode :=
  [.nativeAclPreserved, .portableAclPreserved, .finderFlagsPreserved, .finderInfoPreserved,
    .birthTimePreserved, .sparsePreserved, .hardlinkCopied, .rawXattrPreserved,
    .symlinkMetadataPreserved, .modificationTimePreserved]

abbrev RestorePlan := Plan Compromise

namespace RestorePlan

/-- The next free place of an array with `capacity` places. -/
def push (capacity : Nat) (plan : RestorePlan) (compromise : Compromise) :
    Except RestoreError RestorePlan :=
  if plan.compromises.length < capacity then
    .ok { plan with compromises := plan.compromises ++ [compromise] }
  else .error .planImpossible

def noteXattr (os : Os) (actions : RestoreActions) (attr : Xattr) : RestoreActions :=
  match attr.class_ with
  | .logical => { actions with logicalXattr := true }
  | .raw =>
    if rawAccepted os attr.name then { actions with rawXattr := true }
    else { actions with rawXattrSidecar := true }

def planXattrs (capacity : Nat) (m : Metadata) (caps : Capabilities) (plan : RestorePlan) :
    Except RestoreError RestorePlan := do
  let actions := m.xattrs.foldl (noteXattr caps.os) plan.actions
  if actions.logicalXattr || actions.rawXattrSidecar then requireTransport caps else .ok ()
  if actions.rawXattrSidecar then push capacity { plan with actions } .rawXattrPreserved
  else .ok { plan with actions }

def planAcl (capacity : Nat) (m : Metadata) (caps : Capabilities) (plan : RestorePlan) :
    Except RestoreError RestorePlan :=
  match m.nativeAcl with
  | some acl =>
    if caps.nativeAcl && acl.origin == caps.os then
      .ok { plan with actions := { plan.actions with nativeAcl := true } }
    else do
      requireTransport caps
      let applied := !m.aces.isEmpty && caps.portableAcl
      let actions := { plan.actions with
        nativeAclSidecar := true
        portableAcl := applied
        portableAclSidecar := !m.aces.isEmpty && !caps.portableAcl }
      let plan ← push capacity { plan with actions } (.nativeAclPreserved acl.origin applied)
      if plan.actions.portableAclSidecar then push capacity plan .portableAclPreserved else .ok plan
  | none =>
    planField (push capacity) caps (!m.aces.isEmpty) caps.portableAcl
      (fun a => { a with portableAcl := true }) (fun a => { a with portableAclSidecar := true })
      .portableAclPreserved plan

/-- The plan, for an array of any capacity. -/
def newWith (capacity : Nat) (c : CanonicalMetadata) (caps : Capabilities) :
    Except RestoreError RestorePlan := do
  let m := c.metadata
  let plan ← planXattrs capacity m caps {}
  let plan ← planAcl capacity m caps plan
  let plan := { plan with actions := { plan.actions with
    mtimeAtime := m.times.mtime.isSome || m.times.atime.isSome } }
  let plan ← planField (push capacity) caps m.times.btime.isSome caps.setBtime
    (fun a => { a with btime := true }) (fun a => { a with btimeSidecar := true })
    .birthTimePreserved plan
  let plan ← planField (push capacity) caps (m.finderFlags != 0) caps.bsdFlags
    (fun a => { a with bsdFlags := true }) (fun a => { a with bsdFlagsSidecar := true })
    .finderFlagsPreserved plan
  let plan ← planField (push capacity) caps m.finderInfo.isSome caps.finderInfo
    (fun a => { a with finderInfo := true }) (fun a => { a with finderInfoSidecar := true })
    .finderInfoPreserved plan
  let plan ← planField (push capacity) caps (!m.holes.isEmpty) caps.punchHoles
    (fun a => { a with punchHoles := true }) (fun a => { a with sparseSidecar := true })
    .sparsePreserved plan
  planField (push capacity) caps m.hardlinkTo.isSome caps.hardlink
    (fun a => { a with hardlink := true }) (fun a => { a with hardlinkCopy := true })
    .hardlinkCopied plan

def new (c : CanonicalMetadata) (caps : Capabilities) : Except RestoreError RestorePlan :=
  newWith allCompromiseCodes.length c caps

end RestorePlan

end Metadata

/-! ### `planRestore` -/

namespace Zig

open Metadata (Capabilities RestoreActions Plan requireTransport planField)

/-- A compromise of the native program is a flat record. -/
structure Compromise where
  code : CompromiseCode
  family : Family
  portableAclApplied : Bool := false
  origin : Option Os := none
  deriving DecidableEq, Repr

/-- The native array has eight places. -/
def pushCompromise (plan : Plan Compromise) (item : Compromise) :
    Except Metadata.RestoreError (Plan Compromise) :=
  if plan.compromises.length = 8 then .error .planImpossible
  else .ok { plan with compromises := plan.compromises ++ [item] }

def rawAccepted (os : Os) (name : List UInt8) : Bool :=
  match os with
  | .linux =>
    [utf8 "user.", utf8 "system.", utf8 "security.", utf8 "trusted."].any fun pre =>
      pre.isPrefixOf name && name.length > pre.length
  | .macos => name.length > 0 && name.length ≤ 127 && !name.contains 0x2f
  | .mswin =>
    if name.length = 0 ∨ name.length > 255 then false
    else name.all fun byte => !(utf8 "/\\:*?\"<>|").contains byte

lemma rawAccepted_eq (os : Os) (name : List UInt8) :
    rawAccepted os name = Metadata.rawAccepted os name := by
  cases os with
  | linux => rfl
  | macos => cases name <;> simp [rawAccepted, Metadata.rawAccepted]
  | mswin =>
    rw [rawAccepted, Metadata.rawAccepted]
    have hall : (name.all fun byte => !(utf8 "/\\:*?\"<>|").contains byte)
        = !name.any fun byte => forbidden.contains byte := by
      rw [List.not_any_eq_all_not]
      rfl
    split_ifs with h
    · rcases h with h | h
      · simp [List.length_eq_zero_iff.mp h]
      · simp [h]
    · push Not at h
      have hne : name.isEmpty = false := by
        rw [List.isEmpty_eq_false_iff, ne_eq, ← List.length_eq_zero_iff]
        exact h.1
      rw [hall, hne, decide_eq_true h.2]
      rfl

/-- The three flags of the loop over the attributes. -/
def xattrKinds (os : Os) (kinds : Bool × Bool × Bool) (x : Xattr) : Bool × Bool × Bool :=
  match x.class_ with
  | .logical => (true, kinds.2.1, kinds.2.2)
  | .raw => if rawAccepted os x.name then (kinds.1, true, kinds.2.2) else (kinds.1, kinds.2.1, true)

def planXattrs (m : Metadata) (caps : Capabilities) (plan : Plan Compromise) :
    Except Metadata.RestoreError (Plan Compromise) :=
  if m.xattrs.length ≠ 0 then
    let (logical, rawOk, rawBad) := m.xattrs.foldl (xattrKinds caps.os) (false, false, false)
    if (logical || rawBad) && !caps.logicalXattr then .error .planImpossible
    else
      let actions := { plan.actions with
        logicalXattr := logical
        rawXattr := rawOk
        rawXattrSidecar := rawBad }
      if rawBad then
        pushCompromise { plan with actions } { code := .rawXattrPreserved, family := .xattr }
      else .ok { plan with actions }
  else .ok plan

def planAcl (m : Metadata) (caps : Capabilities) (plan : Plan Compromise) :
    Except Metadata.RestoreError (Plan Compromise) :=
  match m.nativeAcl with
  | some native =>
    if caps.nativeAcl && native.origin == caps.os then
      .ok { plan with actions := { plan.actions with nativeAcl := true } }
    else do
      requireTransport caps
      let applyPortable := m.aces.length != 0 && caps.portableAcl
      let actions := { plan.actions with nativeAclSidecar := true, portableAcl := applyPortable }
      let actions := if m.aces.length != 0 && !caps.portableAcl then
        { actions with portableAclSidecar := true } else actions
      let plan ← pushCompromise { plan with actions }
        { code := .nativeAclPreserved, family := .acl, portableAclApplied := applyPortable,
          origin := some native.origin }
      if m.aces.length != 0 && !caps.portableAcl then
        pushCompromise plan { code := .portableAclPreserved, family := .acl }
      else .ok plan
  | none =>
    planField pushCompromise caps (m.aces.length != 0) caps.portableAcl
      (fun a => { a with portableAcl := true }) (fun a => { a with portableAclSidecar := true })
      { code := .portableAclPreserved, family := .acl } plan

def planRestore (m : Metadata) (caps : Capabilities) :
    Except Metadata.RestoreError (Plan Compromise) := do
  let plan ← planXattrs m caps {}
  let plan ← planAcl m caps plan
  let plan := if m.times.mtime.isSome || m.times.atime.isSome then
    { plan with actions := { plan.actions with mtimeAtime := true } } else plan
  let plan ← planField pushCompromise caps m.times.btime.isSome caps.setBtime
    (fun a => { a with btime := true }) (fun a => { a with btimeSidecar := true })
    { code := .birthTimePreserved, family := .timestamps } plan
  let plan ← planField pushCompromise caps (m.finderFlags != 0) caps.bsdFlags
    (fun a => { a with bsdFlags := true }) (fun a => { a with bsdFlagsSidecar := true })
    { code := .finderFlagsPreserved, family := .finder } plan
  let plan ← planField pushCompromise caps m.finderInfo.isSome caps.finderInfo
    (fun a => { a with finderInfo := true }) (fun a => { a with finderInfoSidecar := true })
    { code := .finderInfoPreserved, family := .finder } plan
  let plan ← planField pushCompromise caps (m.holes.length != 0) caps.punchHoles
    (fun a => { a with punchHoles := true }) (fun a => { a with sparseSidecar := true })
    { code := .sparsePreserved, family := .sparse } plan
  planField pushCompromise caps m.hardlinkTo.isSome caps.hardlink
    (fun a => { a with hardlink := true }) (fun a => { a with hardlinkCopy := true })
    { code := .hardlinkCopied, family := .hardlink } plan

end Zig

namespace Metadata

variable {γ : Type} {caps : Capabilities}

/-! ### Outcomes

A stage fails where transport is needed and not there, and otherwise yields a plan. -/

def Yields (caps : Capabilities) (x : Except RestoreError (Plan γ)) (need : Bool)
    (plan : Plan γ) : Prop :=
  x = if need && !caps.logicalXattr then .error .planImpossible else .ok plan

lemma Yields.bind {x : Except RestoreError (Plan γ)} {f : Plan γ → Except RestoreError (Plan γ)}
    {need need' : Bool} {plan plan' : Plan γ} (hx : Yields caps x need plan)
    (hf : Yields caps (f plan) need' plan') : Yields caps (x >>= f) (need || need') plan' := by
  unfold Yields at hx hf ⊢
  rw [hx]
  cases hneed : need && !caps.logicalXattr with
  | true =>
    obtain ⟨hn, hcaps⟩ := Bool.and_eq_true_iff.mp hneed
    simp [hn, hcaps, error_bind]
  | false =>
    rw [if_neg (by simp), ok_bind, hf]
    cases need <;> simp_all

lemma Yields.congr {x : Except RestoreError (Plan γ)} {need need' : Bool} {plan plan' : Plan γ}
    (h : Yields caps x need plan) (hneed : need = need') (hplan : plan = plan') :
    Yields caps x need' plan' := hneed ▸ hplan ▸ h

/-- Items noted under a condition. -/
def noted (condition : Bool) (item : γ) : List γ := if condition then [item] else []

@[simp] lemma noted_true (item : γ) : noted true item = [item] := rfl

@[simp] lemma noted_false (item : γ) : noted false item = [] := rfl

lemma length_noted_le (condition : Bool) (item : γ) : (noted condition item).length ≤ 1 := by
  cases condition <;> simp [noted]

lemma map_noted {δ : Type} (f : γ → δ) (condition : Bool) (item : γ) :
    (noted condition item).map f = noted condition (f item) := by
  cases condition <;> rfl

/-- There are places for `room` items in all. -/
def Roomy (room : Nat) (push : Plan γ → γ → Except RestoreError (Plan γ)) : Prop :=
  ∀ plan item, plan.compromises.length < room →
    push plan item = .ok { plan with compromises := plan.compromises ++ [item] }

lemma RestorePlan.roomy_push {room capacity : Nat} (h : room ≤ capacity) :
    Roomy room (RestorePlan.push capacity) := fun _ _ hlength =>
  if_pos (hlength.trans_le h)

lemma roomy_pushCompromise : Roomy 8 Zig.pushCompromise := fun _ _ hlength =>
  if_neg hlength.ne

def fieldActions (present able : Bool) (native sidecar : RestoreActions → RestoreActions)
    (actions : RestoreActions) : RestoreActions :=
  if present then if able then native actions else sidecar actions else actions

lemma planField_yields {room : Nat} {push : Plan γ → γ → Except RestoreError (Plan γ)}
    (hpush : Roomy room push) {present able : Bool} {native sidecar : RestoreActions → RestoreActions}
    {item : γ} {actions : RestoreActions} {items : List γ} (hroom : items.length < room) :
    Yields caps (planField push caps present able native sidecar item ⟨actions, items⟩)
      (present && !able)
      ⟨fieldActions present able native sidecar actions, items ++ noted (present && !able) item⟩ := by
  unfold Yields
  rw [planField, hpush _ _ hroom, requireTransport]
  cases present <;> cases able <;> cases caps.logicalXattr <;>
    simp [fieldActions, noted, ok_bind, error_bind]

/-- A sidecar with its note, and a second note under a condition. -/
lemma pushes_yield {room : Nat} {push : Plan γ → γ → Except RestoreError (Plan γ)}
    (hpush : Roomy room push) {actions : RestoreActions} {items : List γ} {item item' : γ}
    {second : Plan γ → Bool} {b : Bool} (hsecond : ∀ items, second ⟨actions, items⟩ = b)
    (hroom : items.length + 1 < room) :
    Yields caps (do
      requireTransport caps
      let plan ← push ⟨actions, items⟩ item
      if second plan then push plan item' else .ok plan) true
      ⟨actions, items ++ ([item] ++ noted b item')⟩ := by
  have hroom' : (items ++ [item]).length < room := by
    rw [List.length_append, List.length_singleton]
    exact hroom
  have hfirst := hpush ⟨actions, items⟩ item (by dsimp only; omega)
  unfold Yields
  rw [requireTransport]
  cases caps.logicalXattr with
  | false => rfl
  | true =>
    rw [if_pos rfl, ok_bind, hfirst, ok_bind, hsecond, hpush _ _ hroom']
    cases b <;> simp [noted]

/-! ### The decision -/

def hasLogical (m : Metadata) : Bool := m.xattrs.any fun x => decide (x.class_ = .logical)

def hasAccepted (m : Metadata) (caps : Capabilities) : Bool :=
  m.xattrs.any fun x => decide (x.class_ = .raw) && rawAccepted caps.os x.name

def hasRefused (m : Metadata) (caps : Capabilities) : Bool :=
  m.xattrs.any fun x => decide (x.class_ = .raw) && !rawAccepted caps.os x.name

/-- The target takes the native list of the record. -/
def takesNative (m : Metadata) (caps : Capabilities) : Bool :=
  m.nativeAcl.any fun acl => caps.nativeAcl && acl.origin == caps.os

def xattrActions (m : Metadata) (caps : Capabilities) : RestoreActions where
  logicalXattr := hasLogical m
  rawXattr := hasAccepted m caps
  rawXattrSidecar := hasRefused m caps

def aclActions (m : Metadata) (caps : Capabilities) : RestoreActions :=
  { xattrActions m caps with
    nativeAcl := takesNative m caps
    nativeAclSidecar := m.nativeAcl.isSome && !takesNative m caps
    portableAcl := !takesNative m caps && (!m.aces.isEmpty && caps.portableAcl)
    portableAclSidecar := !takesNative m caps && (!m.aces.isEmpty && !caps.portableAcl) }

/-- Every action by itself. -/
def plannedActions (m : Metadata) (caps : Capabilities) : RestoreActions :=
  { aclActions m caps with
    mtimeAtime := m.times.mtime.isSome || m.times.atime.isSome
    btime := m.times.btime.isSome && caps.setBtime
    btimeSidecar := m.times.btime.isSome && !caps.setBtime
    bsdFlags := m.finderFlags != 0 && caps.bsdFlags
    bsdFlagsSidecar := m.finderFlags != 0 && !caps.bsdFlags
    finderInfo := m.finderInfo.isSome && caps.finderInfo
    finderInfoSidecar := m.finderInfo.isSome && !caps.finderInfo
    punchHoles := !m.holes.isEmpty && caps.punchHoles
    sparseSidecar := !m.holes.isEmpty && !caps.punchHoles
    hardlink := m.hardlinkTo.isSome && caps.hardlink
    hardlinkCopy := m.hardlinkTo.isSome && !caps.hardlink }

/-- The notes on the access control lists. -/
def aclItems (m : Metadata) (caps : Capabilities) : List Compromise :=
  (match m.nativeAcl with
    | some acl => noted (aclActions m caps).nativeAclSidecar
        (.nativeAclPreserved acl.origin (aclActions m caps).portableAcl)
    | none => [])
    ++ noted (aclActions m caps).portableAclSidecar .portableAclPreserved

/-- The notes on the plain fields. -/
def fieldItems (m : Metadata) (caps : Capabilities) : List Compromise :=
  noted (plannedActions m caps).btimeSidecar .birthTimePreserved
    ++ (noted (plannedActions m caps).bsdFlagsSidecar .finderFlagsPreserved
    ++ (noted (plannedActions m caps).finderInfoSidecar .finderInfoPreserved
    ++ (noted (plannedActions m caps).sparseSidecar .sparsePreserved
    ++ noted (plannedActions m caps).hardlinkCopy .hardlinkCopied)))

/-- One note for every sidecar. -/
def plannedItems (m : Metadata) (caps : Capabilities) : List Compromise :=
  noted (hasRefused m caps) .rawXattrPreserved ++ aclItems m caps ++ fieldItems m caps

/-- A sidecar is set, or there is a logical attribute. -/
def needsTransport (m : Metadata) (caps : Capabilities) : Bool :=
  (hasLogical m || hasRefused m caps)
    || (((aclActions m caps).nativeAclSidecar || (aclActions m caps).portableAclSidecar)
    || ((plannedActions m caps).btimeSidecar || ((plannedActions m caps).bsdFlagsSidecar
    || ((plannedActions m caps).finderInfoSidecar || ((plannedActions m caps).sparseSidecar
    || (plannedActions m caps).hardlinkCopy)))))

/-! ### The plain fields

Birth time, flags, Finder information, extents and reference go through `planField` one after the
other, in both programs. -/

def planFields (push : Plan γ → γ → Except RestoreError (Plan γ)) (note : Compromise → γ)
    (m : Metadata) (caps : Capabilities) (plan : Plan γ) : Except RestoreError (Plan γ) := do
  let plan ← planField push caps m.times.btime.isSome caps.setBtime
    (fun a => { a with btime := true }) (fun a => { a with btimeSidecar := true })
    (note .birthTimePreserved) plan
  let plan ← planField push caps (m.finderFlags != 0) caps.bsdFlags
    (fun a => { a with bsdFlags := true }) (fun a => { a with bsdFlagsSidecar := true })
    (note .finderFlagsPreserved) plan
  let plan ← planField push caps m.finderInfo.isSome caps.finderInfo
    (fun a => { a with finderInfo := true }) (fun a => { a with finderInfoSidecar := true })
    (note .finderInfoPreserved) plan
  let plan ← planField push caps (!m.holes.isEmpty) caps.punchHoles
    (fun a => { a with punchHoles := true }) (fun a => { a with sparseSidecar := true })
    (note .sparsePreserved) plan
  planField push caps m.hardlinkTo.isSome caps.hardlink
    (fun a => { a with hardlink := true }) (fun a => { a with hardlinkCopy := true })
    (note .hardlinkCopied) plan

/-- The actions before the plain fields. -/
def timedActions (m : Metadata) (caps : Capabilities) : RestoreActions :=
  { aclActions m caps with mtimeAtime := m.times.mtime.isSome || m.times.atime.isSome }

section FieldActions

variable (present able : Bool) (a : RestoreActions)

/-! A field sets one of its two flags and no other. -/

lemma fieldActions_btime :
    fieldActions present able (fun a => { a with btime := true })
      (fun a => { a with btimeSidecar := true }) a
      = { a with
          btime := a.btime || (present && able)
          btimeSidecar := a.btimeSidecar || (present && !able) } := by
  cases present <;> cases able <;> simp [fieldActions]

lemma fieldActions_bsdFlags :
    fieldActions present able (fun a => { a with bsdFlags := true })
      (fun a => { a with bsdFlagsSidecar := true }) a
      = { a with
          bsdFlags := a.bsdFlags || (present && able)
          bsdFlagsSidecar := a.bsdFlagsSidecar || (present && !able) } := by
  cases present <;> cases able <;> simp [fieldActions]

lemma fieldActions_finderInfo :
    fieldActions present able (fun a => { a with finderInfo := true })
      (fun a => { a with finderInfoSidecar := true }) a
      = { a with
          finderInfo := a.finderInfo || (present && able)
          finderInfoSidecar := a.finderInfoSidecar || (present && !able) } := by
  cases present <;> cases able <;> simp [fieldActions]

lemma fieldActions_punchHoles :
    fieldActions present able (fun a => { a with punchHoles := true })
      (fun a => { a with sparseSidecar := true }) a
      = { a with
          punchHoles := a.punchHoles || (present && able)
          sparseSidecar := a.sparseSidecar || (present && !able) } := by
  cases present <;> cases able <;> simp [fieldActions]

lemma fieldActions_hardlink :
    fieldActions present able (fun a => { a with hardlink := true })
      (fun a => { a with hardlinkCopy := true }) a
      = { a with
          hardlink := a.hardlink || (present && able)
          hardlinkCopy := a.hardlinkCopy || (present && !able) } := by
  cases present <;> cases able <;> simp [fieldActions]

end FieldActions

lemma planFields_yields {push : Plan γ → γ → Except RestoreError (Plan γ)} (hpush : Roomy 8 push)
    (note : Compromise → γ) (m : Metadata) (caps : Capabilities) {items : List γ}
    (hitems : items.length ≤ 3) :
    Yields caps (planFields push note m caps ⟨timedActions m caps, items⟩)
      ((plannedActions m caps).btimeSidecar || ((plannedActions m caps).bsdFlagsSidecar
        || ((plannedActions m caps).finderInfoSidecar || ((plannedActions m caps).sparseSidecar
        || (plannedActions m caps).hardlinkCopy))))
      ⟨plannedActions m caps, items ++ (fieldItems m caps).map note⟩ := by
  have hone := fun (b : Bool) (item : γ) => length_noted_le b item
  refine Yields.congr (Yields.bind (planField_yields hpush ?_) (Yields.bind
    (planField_yields hpush ?_) (Yields.bind (planField_yields hpush ?_) (Yields.bind
    (planField_yields hpush ?_) (planField_yields hpush ?_))))) rfl (Plan.ext ?_ ?_)
  · omega
  · grind
  · grind
  · grind
  · grind
  · simp [fieldActions_btime, fieldActions_bsdFlags, fieldActions_finderInfo,
      fieldActions_punchHoles, fieldActions_hardlink, plannedActions, timedActions, aclActions,
      xattrActions]
  · simp [fieldItems, map_noted, plannedActions]

/-! ### `RestorePlan::new` computes the decision -/

lemma foldl_noteXattr (os : Os) (xs : List Xattr) (a : RestoreActions) :
    xs.foldl (RestorePlan.noteXattr os) a = { a with
      logicalXattr := a.logicalXattr || xs.any fun x => decide (x.class_ = .logical)
      rawXattr := a.rawXattr || xs.any fun x => decide (x.class_ = .raw) && rawAccepted os x.name
      rawXattrSidecar :=
        a.rawXattrSidecar || xs.any fun x => decide (x.class_ = .raw) && !rawAccepted os x.name } := by
  induction xs generalizing a with
  | nil => simp
  | cons x xs ih =>
    rw [List.foldl_cons, ih]
    cases hclass : x.class_ <;> cases haccepted : rawAccepted os x.name <;>
      simp [RestorePlan.noteXattr, hclass, haccepted]

lemma RestorePlan.planXattrs_yields {capacity : Nat} (h : 8 ≤ capacity) (m : Metadata)
    (caps : Capabilities) :
    Yields caps (RestorePlan.planXattrs capacity m caps {}) (hasLogical m || hasRefused m caps)
      ⟨xattrActions m caps, noted (hasRefused m caps) .rawXattrPreserved⟩ := by
  have hactions : m.xattrs.foldl (RestorePlan.noteXattr caps.os) {} = xattrActions m caps := by
    rw [foldl_noteXattr]
    simp [xattrActions, hasLogical, hasAccepted, hasRefused]
  have hpush := RestorePlan.roomy_push h ⟨xattrActions m caps, []⟩ .rawXattrPreserved (by simp)
  unfold Yields
  rw [RestorePlan.planXattrs]
  simp only [hactions, requireTransport, hpush]
  have hl : (xattrActions m caps).logicalXattr = hasLogical m := rfl
  have hr : (xattrActions m caps).rawXattrSidecar = hasRefused m caps := rfl
  rw [hl, hr]
  cases hasLogical m <;> cases hasRefused m caps <;> cases caps.logicalXattr <;>
    simp [noted, ok_bind, error_bind]

lemma RestorePlan.planAcl_yields {capacity : Nat} (h : 8 ≤ capacity) (m : Metadata)
    (caps : Capabilities) {items : List Compromise} (hitems : items.length ≤ 1) :
    Yields caps (RestorePlan.planAcl capacity m caps ⟨xattrActions m caps, items⟩)
      ((aclActions m caps).nativeAclSidecar || (aclActions m caps).portableAclSidecar)
      ⟨aclActions m caps, items ++ aclItems m caps⟩ := by
  have hroomy := RestorePlan.roomy_push h
  rw [RestorePlan.planAcl]
  cases hacl : m.nativeAcl with
  | none =>
    refine (planField_yields hroomy (by omega)).congr ?_ (Plan.ext ?_ ?_)
    · simp [aclActions, takesNative, hacl]
    · cases haces : m.aces <;> cases hportable : caps.portableAcl <;>
        simp [fieldActions, aclActions, xattrActions, takesNative, hacl, haces, hportable]
    · simp [aclItems, aclActions, takesNative, hacl]
  | some acl =>
    have htakes : takesNative m caps = (caps.nativeAcl && acl.origin == caps.os) := by
      simp [takesNative, hacl]
    simp only [← htakes]
    cases hnative : takesNative m caps with
    | true =>
      unfold Yields
      simp [aclActions, xattrActions, aclItems, hacl, hnative, noted]
    | false =>
      have hactions : aclActions m caps = { xattrActions m caps with
          nativeAclSidecar := true
          portableAcl := !m.aces.isEmpty && caps.portableAcl
          portableAclSidecar := !m.aces.isEmpty && !caps.portableAcl } := by
        simp [aclActions, xattrActions, hacl, hnative]
      have hsecond : ∀ items, (fun plan : RestorePlan => plan.actions.portableAclSidecar)
          ⟨aclActions m caps, items⟩ = (!m.aces.isEmpty && !caps.portableAcl) := by
        simp [hactions]
      rw [hactions] at hsecond
      refine (pushes_yield hroomy hsecond (by omega)).congr ?_ (Plan.ext hactions.symm ?_)
      · simp [hactions]
      · simp [aclItems, hacl, hactions, noted]

lemma length_aclItems_le (m : Metadata) (caps : Capabilities) : (aclItems m caps).length ≤ 2 := by
  have hportable := length_noted_le (aclActions m caps).portableAclSidecar
    Compromise.portableAclPreserved
  rw [aclItems, List.length_append]
  split
  · next acl _ =>
    have hnative := length_noted_le (aclActions m caps).nativeAclSidecar
      (Compromise.nativeAclPreserved acl.origin (aclActions m caps).portableAcl)
    omega
  · rw [List.length_nil]
    omega

/-- With eight places or more the outcome is the decision. -/
lemma RestorePlan.newWith_yields {capacity : Nat} (h : 8 ≤ capacity) (c : CanonicalMetadata)
    (caps : Capabilities) :
    Yields caps (RestorePlan.newWith capacity c caps) (needsTransport c.metadata caps)
      ⟨plannedActions c.metadata caps, plannedItems c.metadata caps⟩ := by
  have hxattrs := length_noted_le (hasRefused c.metadata caps) Compromise.rawXattrPreserved
  have hlength : (noted (hasRefused c.metadata caps) Compromise.rawXattrPreserved
      ++ aclItems c.metadata caps).length ≤ 3 := by
    have hacl := length_aclItems_le c.metadata caps
    rw [List.length_append]
    omega
  have hfields := planFields_yields (RestorePlan.roomy_push h) id c.metadata caps hlength
  rw [List.map_id] at hfields
  exact (RestorePlan.planXattrs_yields h c.metadata caps).bind
    ((RestorePlan.planAcl_yields h c.metadata caps hxattrs).bind hfields)

/-! ### `planRestore` computes the same decision -/

/-- The record of the native program. -/
def Compromise.flat : Compromise → Zig.Compromise
  | nativeAclPreserved origin applied => ⟨.nativeAclPreserved, .acl, applied, some origin⟩
  | c => ⟨c.code, c.family, false, none⟩

lemma foldl_xattrKinds (os : Os) (xs : List Xattr) (kinds : Bool × Bool × Bool) :
    xs.foldl (Zig.xattrKinds os) kinds =
      (kinds.1 || xs.any fun x => decide (x.class_ = .logical),
        kinds.2.1 || xs.any fun x => decide (x.class_ = .raw) && rawAccepted os x.name,
        kinds.2.2 || xs.any fun x => decide (x.class_ = .raw) && !rawAccepted os x.name) := by
  induction xs generalizing kinds with
  | nil => simp
  | cons x xs ih =>
    rw [List.foldl_cons, ih]
    cases hclass : x.class_ <;> cases haccepted : rawAccepted os x.name <;>
      simp [Zig.xattrKinds, Zig.rawAccepted_eq, hclass, haccepted]

lemma planXattrs_native_yields (m : Metadata) (caps : Capabilities) :
    Yields caps (Zig.planXattrs m caps {}) (hasLogical m || hasRefused m caps)
      ⟨xattrActions m caps,
        (noted (hasRefused m caps) Compromise.rawXattrPreserved).map Compromise.flat⟩ := by
  have hkinds : m.xattrs.foldl (Zig.xattrKinds caps.os) (false, false, false)
      = (hasLogical m, hasAccepted m caps, hasRefused m caps) := by
    rw [foldl_xattrKinds]
    simp [hasLogical, hasAccepted, hasRefused]
  have hpush := roomy_pushCompromise ⟨xattrActions m caps, []⟩ Compromise.rawXattrPreserved.flat
    (by simp)
  unfold Yields
  rw [Zig.planXattrs, hkinds]
  by_cases hnil : m.xattrs = []
  · simp [hnil, hasLogical, hasAccepted, hasRefused, xattrActions, noted]
  · rw [if_pos (by simpa using hnil)]
    change (if (hasLogical m || hasRefused m caps) && !caps.logicalXattr then _
      else if hasRefused m caps then Zig.pushCompromise ⟨xattrActions m caps, []⟩ _
      else .ok ⟨xattrActions m caps, []⟩) = _
    split_ifs with hneed hrefused
    · rfl
    · rw [map_noted, hrefused]
      exact hpush
    · simp [noted, hrefused]

lemma planAcl_native_yields (m : Metadata) (caps : Capabilities) {items : List Zig.Compromise}
    (hitems : items.length ≤ 1) :
    Yields caps (Zig.planAcl m caps ⟨xattrActions m caps, items⟩)
      ((aclActions m caps).nativeAclSidecar || (aclActions m caps).portableAclSidecar)
      ⟨aclActions m caps, items ++ (aclItems m caps).map Compromise.flat⟩ := by
  have hempty : (m.aces.length != 0) = !m.aces.isEmpty := by
    cases m.aces <;> rfl
  rw [Zig.planAcl]
  simp only [hempty]
  cases hacl : m.nativeAcl with
  | none =>
    refine (planField_yields roomy_pushCompromise (by omega)).congr ?_ (Plan.ext ?_ ?_)
    · simp [aclActions, takesNative, hacl]
    · cases haces : m.aces <;> cases hportable : caps.portableAcl <;>
        simp [fieldActions, aclActions, xattrActions, takesNative, hacl, haces, hportable]
    · simp [aclItems, aclActions, takesNative, hacl, map_noted, Compromise.flat, Compromise.code,
        Compromise.family]
  | some acl =>
    have htakes : takesNative m caps = (caps.nativeAcl && acl.origin == caps.os) := by
      simp [takesNative, hacl]
    simp only [← htakes]
    cases hnative : takesNative m caps with
    | true =>
      unfold Yields
      simp [aclActions, xattrActions, aclItems, hacl, hnative, noted]
    | false =>
      have hactions : aclActions m caps = (if !m.aces.isEmpty && !caps.portableAcl then
          { xattrActions m caps with
            nativeAclSidecar := true
            portableAcl := !m.aces.isEmpty && caps.portableAcl
            portableAclSidecar := true }
        else { xattrActions m caps with
          nativeAclSidecar := true
          portableAcl := !m.aces.isEmpty && caps.portableAcl }) := by
        cases haces : m.aces <;> cases hportable : caps.portableAcl <;>
          simp [aclActions, xattrActions, hacl, hnative, haces, hportable]
      have hsecond : ∀ items, (fun _ : Plan Zig.Compromise => !m.aces.isEmpty && !caps.portableAcl)
          ⟨aclActions m caps, items⟩ = (!m.aces.isEmpty && !caps.portableAcl) := fun _ => rfl
      rw [hactions] at hsecond
      refine (pushes_yield roomy_pushCompromise hsecond (by omega)).congr ?_
        (Plan.ext hactions.symm ?_)
      · simp [aclActions, hacl, hnative]
      · simp [aclItems, aclActions, hacl, hnative, map_noted, Compromise.flat, Compromise.code,
          Compromise.family]

lemma planRestore_yields (m : Metadata) (caps : Capabilities) :
    Yields caps (Zig.planRestore m caps) (needsTransport m caps)
      ⟨plannedActions m caps, (plannedItems m caps).map Compromise.flat⟩ := by
  have hxattrs : ((noted (hasRefused m caps) Compromise.rawXattrPreserved).map
      Compromise.flat).length ≤ 1 := by
    rw [List.length_map]
    exact length_noted_le _ _
  have hlength : ((noted (hasRefused m caps) Compromise.rawXattrPreserved).map Compromise.flat
      ++ (aclItems m caps).map Compromise.flat).length ≤ 3 := by
    have hacl := length_aclItems_le m caps
    have hrefused := length_noted_le (hasRefused m caps) Compromise.rawXattrPreserved
    simp only [List.length_append, List.length_map]
    omega
  have htimed : ∀ items : List Zig.Compromise,
      (if m.times.mtime.isSome || m.times.atime.isSome then
        (⟨{ aclActions m caps with mtimeAtime := true }, items⟩ : Plan Zig.Compromise)
      else ⟨aclActions m caps, items⟩) = ⟨timedActions m caps, items⟩ := by
    intro items
    cases hm : m.times.mtime <;> cases ha : m.times.atime <;>
      simp [timedActions, aclActions, xattrActions, hm, ha]
  have hholes : (m.holes.length != 0) = !m.holes.isEmpty := by
    cases m.holes <;> rfl
  have hfields := planFields_yields roomy_pushCompromise Compromise.flat m caps hlength
  rw [planFields, ← htimed, ← hholes] at hfields
  rw [plannedItems, List.map_append, List.map_append]
  exact (planXattrs_native_yields m caps).bind
    ((planAcl_native_yields m caps hxattrs).bind hfields)

/-! ### Complete and honest plans -/

/-- One of two actions for what is there, neither for what is not. -/
def Covered (present : Prop) (native sidecar : Bool) : Prop :=
  (present → native ≠ sidecar) ∧ (¬present → native = false ∧ sidecar = false)

/-- The action that restores an attribute on the target. -/
def RestoreActions.nativeXattr (a : RestoreActions) (os : Os) (x : Xattr) : Bool :=
  match x.class_ with
  | .logical => a.logicalXattr
  | .raw => rawAccepted os x.name && a.rawXattr

/-- The action that keeps an attribute in a sidecar. -/
def RestoreActions.keptXattr (a : RestoreActions) (os : Os) (x : Xattr) : Bool :=
  match x.class_ with
  | .logical => false
  | .raw => !rawAccepted os x.name && a.rawXattrSidecar

/-- Every field of a record has its action, and no action is without a field. -/
structure Complete (m : Metadata) (caps : Capabilities) (a : RestoreActions) : Prop where
  xattrs : ∀ x ∈ m.xattrs, a.nativeXattr caps.os x ≠ a.keptXattr caps.os x
  logicalXattr : a.logicalXattr = true → ∃ x ∈ m.xattrs, x.class_ = .logical
  rawXattr : a.rawXattr = true → ∃ x ∈ m.xattrs, x.class_ = .raw ∧ rawAccepted caps.os x.name = true
  rawXattrSidecar : a.rawXattrSidecar = true →
    ∃ x ∈ m.xattrs, x.class_ = .raw ∧ rawAccepted caps.os x.name = false
  nativeAcl : Covered (m.nativeAcl ≠ none) a.nativeAcl a.nativeAclSidecar
  aces : a.nativeAcl = false → Covered (m.aces ≠ []) a.portableAcl a.portableAclSidecar
  acesLeft : a.nativeAcl = true → a.portableAcl = false ∧ a.portableAclSidecar = false
  btime : Covered (m.times.btime ≠ none) a.btime a.btimeSidecar
  finderFlags : Covered (m.finderFlags ≠ 0) a.bsdFlags a.bsdFlagsSidecar
  finderInfo : Covered (m.finderInfo ≠ none) a.finderInfo a.finderInfoSidecar
  holes : Covered (m.holes ≠ []) a.punchHoles a.sparseSidecar
  hardlink : Covered (m.hardlinkTo ≠ none) a.hardlink a.hardlinkCopy

/-- The action a code is a note on. -/
def RestoreActions.reported (a : RestoreActions) : Zig.CompromiseCode → Bool
  | .nativeAclPreserved => a.nativeAclSidecar
  | .portableAclPreserved => a.portableAclSidecar
  | .finderFlagsPreserved => a.bsdFlagsSidecar
  | .finderInfoPreserved => a.finderInfoSidecar
  | .birthTimePreserved => a.btimeSidecar
  | .sparsePreserved => a.sparseSidecar
  | .hardlinkCopied => a.hardlinkCopy
  | .rawXattrPreserved => a.rawXattrSidecar
  | .symlinkMetadataPreserved | .modificationTimePreserved => false

/-- Each sidecar or copy is reported once, and nothing else is. -/
structure Honest (plan : RestorePlan) : Prop where
  nodup : (plan.compromises.map Compromise.code).Nodup
  reported : ∀ code, code ∈ plan.compromises.map Compromise.code ↔
    plan.actions.reported code = true

/-- A field of the record has to go to a sidecar, or a link has to become a copy. -/
def RequiresSidecar (m : Metadata) (caps : Capabilities) : Prop :=
  (∃ x ∈ m.xattrs, x.class_ = .raw ∧ rawAccepted caps.os x.name = false) ∨
  (∃ acl, m.nativeAcl = some acl ∧ ¬(caps.nativeAcl = true ∧ acl.origin = caps.os)) ∨
  (m.nativeAcl = none ∧ m.aces ≠ [] ∧ caps.portableAcl = false) ∨
  (m.times.btime ≠ none ∧ caps.setBtime = false) ∨
  (m.finderFlags ≠ 0 ∧ caps.bsdFlags = false) ∨
  (m.finderInfo ≠ none ∧ caps.finderInfo = false) ∨
  (m.holes ≠ [] ∧ caps.punchHoles = false) ∨
  (m.hardlinkTo ≠ none ∧ caps.hardlink = false)

def NeedsTransport (m : Metadata) (caps : Capabilities) : Prop :=
  (∃ x ∈ m.xattrs, x.class_ = .logical) ∨ RequiresSidecar m caps

lemma covered_and {present able : Bool} {p : Prop} (h : present = true ↔ p) :
    Covered p (present && able) (present && !able) := by
  rw [← h]
  cases present <;> cases able <;> simp [Covered]

lemma hasLogical_iff {m : Metadata} :
    hasLogical m = true ↔ ∃ x ∈ m.xattrs, x.class_ = .logical := by
  simp [hasLogical]

lemma hasRefused_iff {m : Metadata} {caps : Capabilities} : hasRefused m caps = true ↔
    ∃ x ∈ m.xattrs, x.class_ = .raw ∧ rawAccepted caps.os x.name = false := by
  simp [hasRefused]

lemma hasAccepted_iff {m : Metadata} {caps : Capabilities} : hasAccepted m caps = true ↔
    ∃ x ∈ m.xattrs, x.class_ = .raw ∧ rawAccepted caps.os x.name = true := by
  simp [hasAccepted]

lemma complete_planned (m : Metadata) (caps : Capabilities) :
    Complete m caps (plannedActions m caps) where
  xattrs := by
    intro x hx
    rw [RestoreActions.nativeXattr, RestoreActions.keptXattr]
    cases hclass : x.class_ with
    | logical =>
      have : hasLogical m = true := hasLogical_iff.mpr ⟨x, hx, hclass⟩
      simp [plannedActions, aclActions, xattrActions, this]
    | raw =>
      cases haccepted : rawAccepted caps.os x.name with
      | true =>
        have : hasAccepted m caps = true := hasAccepted_iff.mpr ⟨x, hx, hclass, haccepted⟩
        simp [plannedActions, aclActions, xattrActions, this]
      | false =>
        have : hasRefused m caps = true := hasRefused_iff.mpr ⟨x, hx, hclass, haccepted⟩
        simp [plannedActions, aclActions, xattrActions, this]
  logicalXattr := hasLogical_iff.mp
  rawXattr := hasAccepted_iff.mp
  rawXattrSidecar := hasRefused_iff.mp
  nativeAcl := by
    cases hacl : m.nativeAcl with
    | none => simp [Covered, plannedActions, aclActions, takesNative, hacl]
    | some acl => simp [Covered, plannedActions, aclActions, hacl]
  aces := by
    intro h
    have htakes : takesNative m caps = false := h
    simp only [plannedActions, aclActions, htakes, Bool.not_false, Bool.true_and]
    exact covered_and (by simp)
  acesLeft := by
    intro h
    have htakes : takesNative m caps = true := h
    simp [plannedActions, aclActions, htakes]
  btime := covered_and (by simp [Option.isSome_iff_ne_none])
  finderFlags := covered_and (by simp)
  finderInfo := covered_and (by simp [Option.isSome_iff_ne_none])
  holes := covered_and (by simp)
  hardlink := covered_and (by simp [Option.isSome_iff_ne_none])

/-- The codes of the notes, in the order of the fields. -/
lemma map_code_plannedItems (m : Metadata) (caps : Capabilities) :
    (plannedItems m caps).map Compromise.code =
      noted (plannedActions m caps).rawXattrSidecar Zig.CompromiseCode.rawXattrPreserved
      ++ (noted (plannedActions m caps).nativeAclSidecar Zig.CompromiseCode.nativeAclPreserved
        ++ noted (plannedActions m caps).portableAclSidecar Zig.CompromiseCode.portableAclPreserved)
      ++ (noted (plannedActions m caps).btimeSidecar Zig.CompromiseCode.birthTimePreserved
        ++ (noted (plannedActions m caps).bsdFlagsSidecar Zig.CompromiseCode.finderFlagsPreserved
        ++ (noted (plannedActions m caps).finderInfoSidecar Zig.CompromiseCode.finderInfoPreserved
        ++ (noted (plannedActions m caps).sparseSidecar Zig.CompromiseCode.sparsePreserved
        ++ noted (plannedActions m caps).hardlinkCopy Zig.CompromiseCode.hardlinkCopied)))) := by
  have hnative : (match m.nativeAcl with
      | some acl => noted (aclActions m caps).nativeAclSidecar
          (Compromise.nativeAclPreserved acl.origin (aclActions m caps).portableAcl)
      | none => []).map Compromise.code
      = noted (plannedActions m caps).nativeAclSidecar Zig.CompromiseCode.nativeAclPreserved := by
    cases hacl : m.nativeAcl with
    | none => simp [plannedActions, aclActions, hacl]
    | some acl => exact map_noted _ _ _
  rw [plannedItems, aclItems, fieldItems]
  simp only [List.map_append, hnative, map_noted]
  rfl

lemma noted_sublist (condition : Bool) (item : γ) : (noted condition item).Sublist [item] := by
  cases condition
  · exact List.nil_sublist _
  · exact List.Sublist.refl _

lemma honest_planned (m : Metadata) (caps : Capabilities) :
    Honest ⟨plannedActions m caps, plannedItems m caps⟩ := by
  constructor
  · rw [map_code_plannedItems]
    refine List.Nodup.sublist (((noted_sublist _ _).append ((noted_sublist _ _).append
      (noted_sublist _ _))).append ((noted_sublist _ _).append ((noted_sublist _ _).append
      ((noted_sublist _ _).append ((noted_sublist _ _).append (noted_sublist _ _)))))) ?_
    decide
  · intro code
    rw [map_code_plannedItems]
    cases code <;> simp [noted, RestoreActions.reported]

lemma needsTransport_iff {m : Metadata} {caps : Capabilities} :
    needsTransport m caps = true ↔ NeedsTransport m caps := by
  have hacl : ((aclActions m caps).nativeAclSidecar || (aclActions m caps).portableAclSidecar)
      = true ↔ (∃ acl, m.nativeAcl = some acl ∧ ¬(caps.nativeAcl = true ∧ acl.origin = caps.os)) ∨
        (m.nativeAcl = none ∧ m.aces ≠ [] ∧ caps.portableAcl = false) := by
    cases hacl : m.nativeAcl with
    | none => simp [aclActions, takesNative, hacl]
    | some acl =>
      have htakes : takesNative m caps = true ↔ caps.nativeAcl = true ∧ acl.origin = caps.os := by
        simp [takesNative, hacl]
      have hor : ((aclActions m caps).nativeAclSidecar || (aclActions m caps).portableAclSidecar)
          = !takesNative m caps := by
        cases h : takesNative m caps <;> simp [aclActions, hacl, h]
      rw [hor, Bool.not_eq_true', ← Bool.not_eq_true, htakes]
      simp
  rw [needsTransport, NeedsTransport, RequiresSidecar, Bool.or_eq_true, Bool.or_eq_true,
    Bool.or_eq_true, hacl, hasLogical_iff, hasRefused_iff]
  simp only [plannedActions, Bool.or_eq_true, Bool.and_eq_true, Bool.not_eq_true', bne_iff_ne,
    List.isEmpty_eq_false_iff, Option.isSome_iff_ne_none, or_assoc]

/-- Planning succeeds exactly if the target has transport or none is needed. The plan then has one
action for each field that is there, reports every sidecar and copy once, and is the plan of the
native program; no capacity from eight places on makes a difference. -/
theorem restorePlan_spec (c : CanonicalMetadata) (caps : Capabilities) :
    ((∃ plan, RestorePlan.new c caps = .ok plan) ↔
      caps.logicalXattr = true ∨ ¬NeedsTransport c.metadata caps) ∧
    (∀ plan, RestorePlan.new c caps = .ok plan →
      Complete c.metadata caps plan.actions ∧ Honest plan) ∧
    (∀ capacity, 8 ≤ capacity → RestorePlan.newWith capacity c caps = RestorePlan.new c caps) ∧
    Zig.planRestore c.metadata caps = (RestorePlan.new c caps).map fun plan =>
      ⟨plan.actions, plan.compromises.map Compromise.flat⟩ := by
  have hyields : ∀ capacity, 8 ≤ capacity →
      RestorePlan.newWith capacity c caps = if needsTransport c.metadata caps && !caps.logicalXattr
        then .error .planImpossible
        else .ok ⟨plannedActions c.metadata caps, plannedItems c.metadata caps⟩ :=
    fun capacity h => RestorePlan.newWith_yields h c caps
  have hnew := hyields allCompromiseCodes.length (by decide)
  have hnative : Zig.planRestore c.metadata caps =
      if needsTransport c.metadata caps && !caps.logicalXattr then .error .planImpossible
      else .ok ⟨plannedActions c.metadata caps,
        (plannedItems c.metadata caps).map Compromise.flat⟩ := planRestore_yields c.metadata caps
  refine ⟨?_, fun plan hplan => ?_, fun capacity h => ?_, ?_⟩
  · rw [RestorePlan.new, hnew, ← needsTransport_iff]
    cases needsTransport c.metadata caps <;> cases caps.logicalXattr <;> simp
  · rw [RestorePlan.new, hnew, ite_error_eq_ok] at hplan
    obtain ⟨-, hplan⟩ := hplan
    rw [← Except.ok.inj hplan]
    exact ⟨complete_planned c.metadata caps, honest_planned c.metadata caps⟩
  · rw [hyields capacity h, RestorePlan.new, hnew]
  · rw [hnative, RestorePlan.new, hnew]
    split_ifs <;> rfl

end Metadata

end Difz
