import Difz.Program.Action
import Difz.Tree.Header

/-!
# The directory a tree is staged in

The parent directory of the output, as system calls see it: names lead to objects, and an object
has contents that can be changed through a handle. Calls can fail, and another process can make an
object under the output name between any two calls. What happens is fixed by an oracle that is
asked once for each call, so a statement about every oracle is one about every choice of failing
calls and every moment of interference.
-/

namespace Difz

open Program

namespace Stage

abbrev Name := List UInt8

inductive Error
  | snapshot (error : Directory.Error)
  | patch (error : TreePatch.Error)
  | notBasename
  | stagingNameConflict
  | outputAlreadyExists
  | stagedHashMismatch
  | unsupportedMode
  | fileNotFound
  | pathAlreadyExists
  | accessDenied
  | permissionDenied
  | notDir
  | dirNotEmpty
  | nameTooLong
  | readOnlyFileSystem
  | noSpaceLeft
  | fileSystem
  | symLinkLoop
  | badPathName
  | unexpected
  | operationUnsupported
  | crossDevice
  | linkQuotaExceeded
  | outOfMemory
  | other (code : Nat)

/-- Codes of the raw rename call, success apart. -/
inductive Errno
  | exist | noent | acces | perm | notdir | notempty | nametoolong | rofs | nospc | io | loop
  | ilseq
  | other (code : Nat)

/-- The object behind a name, by who made it and when. -/
inductive Inode
  | existing (n : Nat)
  | intruder (tick : Nat)
  | created (tick : Nat)
  deriving DecidableEq

def Inode.Foreign : Inode → Prop
  | .existing _ | .intruder _ => True
  | .created _ => False

variable {Tree : Type}

structure Disk (Tree : Type) where
  parent : Name → Option Inode
  content : Inode → Tree

/-- What the oracle decides for one call. -/
structure Choice (Tree : Type) where
  /-- made under the output name just before the call, if that name is free -/
  intruder : Option Tree
  fails : Option Error
  errno : Option Errno
  /-- what a failing call that works on a tree leaves of it -/
  damage : Tree → Tree

structure World (Tree : Type) where
  disk : Disk Tree
  clock : Nat
  /-- every disk there has been, the latest first -/
  past : List (Disk Tree)
  ownsStage : Bool
  /-- an error of the cleanup, which the caller does not see -/
  discarded : Option Error

abbrev Run (Tree : Type) := Action (World Tree) Error

def Disk.initial (parent : Name → Option Nat) (content : Nat → Tree) (empty : Tree) :
    Disk Tree where
  parent name := (parent name).map .existing
  content
    | .existing n => content n
    | .intruder _ | .created _ => empty

def World.initial (d : Disk Tree) : World Tree := ⟨d, 0, [], false, none⟩

/-- All disks of a run, in the order of time. -/
def World.moments (w : World Tree) : List (Disk Tree) := (w.disk :: w.past).reverse

def World.become (w : World Tree) (d : Disk Tree) : World Tree :=
  { w with disk := d, past := w.disk :: w.past }

def Disk.bind (d : Disk Tree) (name : Name) (inode : Option Inode) : Disk Tree :=
  { d with parent := Function.update d.parent name inode }

def Disk.fill (d : Disk Tree) (inode : Inode) (tree : Tree) : Disk Tree :=
  { d with content := Function.update d.content inode tree }

@[simp] lemma Disk.bind_parent_self (d : Disk Tree) (name : Name) (inode : Option Inode) :
    (d.bind name inode).parent name = inode := by
  simp [Disk.bind]

@[simp] lemma Disk.bind_parent_of_ne (d : Disk Tree) {name name' : Name} (h : name' ≠ name)
    (inode : Option Inode) : (d.bind name inode).parent name' = d.parent name' := by
  simp [Disk.bind, h]

@[simp] lemma Disk.bind_content (d : Disk Tree) (name : Name) (inode : Option Inode) :
    (d.bind name inode).content = d.content := rfl

@[simp] lemma Disk.fill_parent (d : Disk Tree) (inode : Inode) (tree : Tree) :
    (d.fill inode tree).parent = d.parent := rfl

@[simp] lemma Disk.fill_content_of_ne (d : Disk Tree) {inode inode' : Inode} (h : inode' ≠ inode)
    (tree : Tree) : (d.fill inode tree).content inode' = d.content inode' := by
  simp [Disk.fill, h]

/-- Another process makes an object under the output name. -/
def Disk.intrude (output : Name) (tick : Nat) (tree : Option Tree) (d : Disk Tree) : Disk Tree :=
  match tree, d.parent output with
  | some t, none => (d.fill (.intruder tick) t).bind output (some (.intruder tick))
  | some _, some _ | none, _ => d

/-- Interference does nothing or takes the free output name. -/
lemma Disk.intrude_cases (output : Name) (tick : Nat) (tree : Option Tree) (d : Disk Tree) :
    d.intrude output tick tree = d ∨ ∃ t, d.parent output = none ∧
      d.intrude output tick tree
        = (d.fill (.intruder tick) t).bind output (some (.intruder tick)) := by
  cases tree with
  | none => exact .inl rfl
  | some t =>
    cases hfree : d.parent output with
    | none => exact .inr ⟨t, rfl, by simp only [Disk.intrude, hfree]⟩
    | some i => exact .inl (by simp only [Disk.intrude, hfree])

section Calls

variable (oracle : Nat → Choice Tree) (output : Name)

/-- The world a call meets: time has gone on, and other processes may have been active. -/
def World.interfere (w : World Tree) : World Tree :=
  { w.become (w.disk.intrude output w.clock (oracle w.clock).intruder) with clock := w.clock + 1 }

/-- One call. `refusal` is what the oracle makes it fail with, and `damaged` what is left then. -/
def call {ε α : Type} (refusal : Choice Tree → Option ε)
    (damaged : (Tree → Tree) → Disk Tree → Disk Tree)
    (effect : Nat → Disk Tree → Except ε (α × Disk Tree)) : Action (World Tree) ε α := fun w =>
  let w' := w.interfere oracle output
  match refusal (oracle w.clock) with
  | some e => (.error e, w'.become (damaged (oracle w.clock).damage w'.disk))
  | none =>
    match effect w.clock w'.disk with
    | .ok (a, d) => (.ok a, w'.become d)
    | .error e => (.error e, w')

section Outcomes

variable {oracle output} {ε α : Type} {refusal : Choice Tree → Option ε}
  {damaged : (Tree → Tree) → Disk Tree → Disk Tree}
  {effect : Nat → Disk Tree → Except ε (α × Disk Tree)} {w : World Tree}

lemma call_of_refused {e : ε} (h : refusal (oracle w.clock) = some e) :
    call oracle output refusal damaged effect w = (.error e, (w.interfere oracle output).become
      (damaged (oracle w.clock).damage (w.interfere oracle output).disk)) := by
  simp only [call, h]

lemma call_of_error {e : ε} (h : refusal (oracle w.clock) = none)
    (he : effect w.clock (w.interfere oracle output).disk = .error e) :
    call oracle output refusal damaged effect w = (.error e, w.interfere oracle output) := by
  simp only [call, h, he]

lemma call_of_ok {a : α} {d : Disk Tree} (h : refusal (oracle w.clock) = none)
    (ha : effect w.clock (w.interfere oracle output).disk = .ok (a, d)) :
    call oracle output refusal damaged effect w
      = (.ok a, (w.interfere oracle output).become d) := by
  simp only [call, h, ha]

end Outcomes

/-- A call that changes nothing when it fails. -/
def atomicCall {α : Type} (effect : Nat → Disk Tree → Except Error (α × Disk Tree)) :
    Run Tree α :=
  call oracle output (·.fails) (fun _ d => d) effect

/-- A computation that can also fail for want of memory. -/
def fallible {α : Type} (x : Except Error α) : Run Tree α :=
  atomicCall oracle output fun _ d => x.map (·, d)

def statFile (name : Name) : Run Tree Unit :=
  atomicCall oracle output fun _ d =>
    match d.parent name with
    | none => .error .fileNotFound
    | some _ => .ok ((), d)

def createDir (empty : Tree) (name : Name) : Run Tree Unit :=
  atomicCall oracle output fun tick d =>
    match d.parent name with
    | none => .ok ((), (d.fill (.created tick) empty).bind name (some (.created tick)))
    | some _ => .error .pathAlreadyExists

def openDir (name : Name) : Run Tree Inode :=
  atomicCall oracle output fun _ d =>
    match d.parent name with
    | none => .error .fileNotFound
    | some inode => .ok (inode, d)

/-- A rename that never replaces: the effect shared by the calls of all systems. -/
def renameEffect {ε : Type} (exists_ missing : ε) (source target : Name) (d : Disk Tree) :
    Except ε (Unit × Disk Tree) :=
  match d.parent source, d.parent target with
  | none, _ => .error missing
  | some _, some _ => .error exists_
  | some inode, none => .ok ((), (d.bind source none).bind target (some inode))

def renamePreserve (source target : Name) : Run Tree Unit :=
  atomicCall oracle output fun _ =>
    renameEffect .pathAlreadyExists .fileNotFound source target

/-- `renameatx_np` with `RENAME_EXCL`. -/
def renameatxNp (source target : Name) : Action (World Tree) Errno Unit :=
  call oracle output (·.errno) (fun _ d => d) fun _ => renameEffect .exist .noent source target

/-- Remove a tree and its name. A failure leaves the name and any part of the tree. -/
def deleteTree (name : Name) : Run Tree Unit :=
  call oracle output (·.fails)
    (fun damage d =>
      match d.parent name with
      | none => d
      | some inode => d.fill inode (damage (d.content inode)))
    fun _ d => .ok ((), d.bind name none)

/-- A call on a tree through the handle of its root. -/
def treeCall (inode : Inode) (effect : Tree → Tree) : Run Tree Unit :=
  call oracle output (·.fails) (fun damage d => d.fill inode (damage (d.content inode)))
    fun _ d => .ok ((), d.fill inode (effect (d.content inode)))

/-- Calls that only look at a tree. -/
def readTree {α : Type} (inode : Inode) (read : Tree → Except Error α) : Run Tree α :=
  atomicCall oracle output fun _ d => (read (d.content inode)).map (·, d)

end Calls

end Stage

end Difz
