import Difz.Command.Arguments

/-!
# The system of a run

What the program of `src/difz.c` reads and writes: paths, the objects behind them, and the standard
streams. Writing an output changes one object, or puts a new file into one place, or adds to one
stream.
-/

namespace Difz

open Wire

namespace Command

/-! ### The system -/

/-- What is neither a file nor a directory is a device, which keeps what it got. -/
inductive Node
  | file (bytes : List UInt8)
  | directory
  | device (taken : List UInt8)
  deriving DecidableEq, Repr

inductive Errno
  | noEntry
  | isDirectory
  | code (number : Nat)
  deriving DecidableEq, Repr

/-- A path may itself be a symbolic link, and leads to a place in a directory, through links or not.
Several paths may lead to one place, and several places may hold one object. -/
structure World where
  linked : Arg → Bool
  place : Arg → Except Errno Nat
  held : Nat → Option Nat
  node : Nat → Node
  next : Nat
  bound : ∀ place i, held place = some i → i < next
  stdin : List UInt8
  stdout : List UInt8
  stderr : List UInt8

def isStdin (path : Arg) : Bool := path == utf8 "-" || path == utf8 "@stdin"

/-- `is_stdout_path` -/
def isStdoutPath : Option Arg → Bool
  | none => true
  | some path => path == utf8 "-" || path == utf8 "@stdout"

/-- `is_stream_path` -/
def isStreamPath (path : Option Arg) : Bool := isStdoutPath path || path == some (utf8 "@stderr")

namespace World

/-- The object that a path leads to. -/
def object (w : World) (path : Arg) : Except Errno Nat :=
  match w.place path with
  | .error e => .error e
  | .ok place =>
    match w.held place with
    | none => .error .noEntry
    | some i => .ok i

def complain (w : World) (text : List UInt8) : World := { w with stderr := w.stderr ++ text }

def print (w : World) (text : List UInt8) : World := { w with stdout := w.stdout ++ text }

def set (w : World) (i : Nat) (node : Node) : World :=
  { w with node := Function.update w.node i node }

/-- A new file in a free place. -/
def create (w : World) (place : Nat) (bytes : List UInt8) : World :=
  { w with
    held := Function.update w.held place (some w.next)
    node := Function.update w.node w.next (.file bytes)
    next := w.next + 1
    bound := by
      intro place' i h
      rw [Function.update_apply] at h
      split_ifs at h
      · cases h
        exact Nat.lt_succ_self _
      · exact (w.bound place' i h).trans (Nat.lt_succ_self _) }

/-- An output is opened, which makes a new file of an old one, and gets the bytes. -/
def write (w : World) (path : Option Arg) (bytes : List UInt8) : Except Errno World :=
  match path with
  | none => .ok (w.print bytes)
  | some name =>
    if isStdoutPath path then .ok (w.print bytes)
    else if name = utf8 "@stderr" then .ok (w.complain bytes)
    else match w.place name with
      | .error e => .error e
      | .ok place =>
        match w.held place with
        | none => .ok (w.create place bytes)
        | some i =>
          match w.node i with
          | .file _ => .ok (w.set i (.file bytes))
          | .device taken => .ok (w.set i (.device (taken ++ bytes)))
          | .directory => .error .isDirectory

/-! ### What is read -/

def found (w : World) (path : Arg) : Except Errno Node := (w.object path).map w.node

/-- The bytes of the regular file that a path leads to. -/
def contents (w : World) (path : Arg) : Option (List UInt8) :=
  match w.found path with
  | .ok (.file bytes) => some bytes
  | _ => none

def input (w : World) (path : Arg) : Option (List UInt8) :=
  if isStdin path then some w.stdin else w.contents path

/-- The standard input is read to its end. -/
def afterInput (w : World) (path : Arg) : World :=
  if isStdin path then { w with stdin := [] } else w

/-- The bytes of two inputs, one read behind the other. -/
def inputs (w : World) (first second : Arg) : Option (List UInt8 × List UInt8) := do
  let a ← w.input first
  let b ← (w.afterInput first).input second
  some (a, b)

def afterInputs (w : World) (first second : Arg) : World :=
  (w.afterInput first).afterInput second

/-! ### What is written -/

/-- Standard input may have been read and messages written, and nothing else has changed. -/
structure Quiet (w w' : World) : Prop where
  linked : w'.linked = w.linked
  place : w'.place = w.place
  held : w'.held = w.held
  node : w'.node = w.node
  next : w'.next = w.next
  stdout : w'.stdout = w.stdout
  stderr : w.stderr <+: w'.stderr

/-- Nothing but the output at a path and messages has changed: the object that the path leads to, or
a new file where the path leads to a free place, or the standard output. -/
structure Within (path : Option Arg) (w w' : World) : Prop where
  linked : w'.linked = w.linked
  place : w'.place = w.place
  held : ∀ place, w'.held place = w.held place ∨
    ∃ name, path = some name ∧ w.place name = .ok place ∧ w.held place = none ∧
      w'.held place = some w.next
  node : ∀ i < w.next, w'.node i = w.node i ∨ ∃ name, path = some name ∧ w.object name = .ok i
  stdout : isStdoutPath path = false → w'.stdout = w.stdout
  stderr : w.stderr <+: w'.stderr

lemma Quiet.refl (w : World) : Quiet w w := ⟨rfl, rfl, rfl, rfl, rfl, rfl, List.prefix_rfl⟩

lemma Quiet.trans {w w' w'' : World} (h : Quiet w w') (h' : Quiet w' w'') : Quiet w w'' where
  linked := h'.linked.trans h.linked
  place := h'.place.trans h.place
  held := h'.held.trans h.held
  node := h'.node.trans h.node
  next := h'.next.trans h.next
  stdout := h'.stdout.trans h.stdout
  stderr := h.stderr.trans h'.stderr

lemma Quiet.object {w w' : World} (h : Quiet w w') (path : Arg) :
    w'.object path = w.object path := by
  rw [World.object, World.object, h.place, h.held]

lemma Within.refl (path : Option Arg) (w : World) : Within path w w :=
  ⟨rfl, rfl, fun _ => .inl rfl, fun _ _ => .inl rfl, fun _ => rfl, List.prefix_rfl⟩

/-- What changes at an output, before and behind quiet changes. -/
lemma Within.of_quiet {path : Option Arg} {v v' w w' : World} (hbefore : Quiet v w)
    (h : Within path w w') (hafter : Quiet w' v') : Within path v v' where
  linked := hafter.linked.trans (h.linked.trans hbefore.linked)
  place := hafter.place.trans (h.place.trans hbefore.place)
  held place := by
    have hheld := h.held place
    rwa [hbefore.held, hbefore.place, hbefore.next, ← hafter.held] at hheld
  node i hi := by
    have hnode := h.node i (by rwa [hbefore.next])
    simp only [hbefore.object] at hnode
    rwa [hbefore.node, ← hafter.node] at hnode
  stdout hpath := hafter.stdout.trans ((h.stdout hpath).trans hbefore.stdout)
  stderr := hbefore.stderr.trans (h.stderr.trans hafter.stderr)

lemma Quiet.within {w w' : World} (h : Quiet w w') (path : Option Arg) : Within path w w' :=
  .of_quiet h (.refl path _) (.refl _)

/-! ### Writing -/

end World

end Command

end Difz
