import Mathlib.Data.List.Basic
import Mathlib.Logic.Relation

/-!
# Path resolution

Resolving the parts of a path against a tree of directories and symbolic links: a name that is a
directory is entered, a name that is a link is replaced by the parts of its target, and an `up`
part leaves the directory reached so far. `contained_iff` reduces the safety of all chains of
links to a condition on one target at a time, for trees whose targets are lexically contained.
-/

namespace Difz

namespace Resolve

variable {N : Type*}

/-- One component of a path. -/
inductive Component (N : Type*)
  | here
  | up
  | name (n : N)
  deriving DecidableEq, Repr

/-- What can stand below the root, other than a plain file. -/
inductive Node (N : Type*)
  | directory
  | link (target : List (Component N))
  deriving DecidableEq, Repr

/-- The nodes of a tree by their path from the root. -/
abbrev Layout (N : Type*) := List N → Option (Node N)

/-- The directory reached so far and the parts still to resolve. -/
@[ext]
structure State (N : Type*) where
  dir : List N
  pending : List (Component N)

/-- A link at `path` is resolved from the directory holding it. -/
def start (path : List N) (target : List (Component N)) : State N := ⟨path.dropLast, target⟩

variable (tree : Layout N)

/-- A step that follows no link. -/
inductive Walk : State N → State N → Prop
  | here {dir : List N} {rest : List (Component N)} : Walk ⟨dir, .here :: rest⟩ ⟨dir, rest⟩
  | up {dir : List N} {n : N} {rest : List (Component N)} :
      Walk ⟨dir ++ [n], .up :: rest⟩ ⟨dir, rest⟩
  | enter {dir : List N} {n : N} {rest : List (Component N)} :
      tree (dir ++ [n]) = some .directory → Walk ⟨dir, .name n :: rest⟩ ⟨dir ++ [n], rest⟩

/-- A step that replaces a link by its target. -/
inductive Follow : State N → State N → Prop
  | link {dir : List N} {n : N} {rest target : List (Component N)} :
      tree (dir ++ [n]) = some (.link target) →
        Follow ⟨dir, .name n :: rest⟩ ⟨dir, target ++ rest⟩

def Step (s t : State N) : Prop := Walk tree s t ∨ Follow tree s t

def Reaches : State N → State N → Prop := Relation.ReflTransGen (Step tree)

/-- A run that follows at least one link. -/
def ThroughLink (s t : State N) : Prop :=
  ∃ u v, Reaches tree s u ∧ Follow tree u v ∧ Reaches tree v t

/-- The next step would leave the root. -/
def State.Escapes (s : State N) : Prop := s.dir = [] ∧ s.pending.head? = some .up

/-- Resolving a link at `path` never comes to a point where an `up` part leaves the root. -/
def StaysInside (path : List N) (target : List (Component N)) : Prop :=
  ∀ s, Reaches tree (start path target) s → ¬s.Escapes

/-- No `up` part of the target comes right after a prefix that leads, through another link, to the
root. -/
def UpGuarded (path : List N) (target : List (Component N)) : Prop :=
  ∀ pre post, target = pre ++ .up :: post → ¬ThroughLink tree (start path pre) ⟨[], []⟩

/-- All links of the tree stay inside. -/
def Contained : Prop :=
  ∀ path target, tree path = some (.link target) → StaysInside tree path target

def Guarded : Prop :=
  ∀ path target, tree path = some (.link target) → UpGuarded tree path target

variable {tree}

/-! ### Framing

A run never looks past the parts it consumes. -/

/-- Add parts behind the pending ones. -/
def State.append (s : State N) (rest : List (Component N)) : State N := ⟨s.dir, s.pending ++ rest⟩

lemma Walk.append {s t : State N} (h : Walk tree s t) (rest : List (Component N)) :
    Walk tree (s.append rest) (t.append rest) := by
  cases h with
  | here => exact .here
  | up => exact .up
  | enter hdir => exact .enter hdir

lemma Follow.append {s t : State N} (h : Follow tree s t) (rest : List (Component N)) :
    Follow tree (s.append rest) (t.append rest) := by
  cases h with
  | link hlink =>
    simp only [State.append, List.append_assoc]
    exact .link hlink

lemma Reaches.append {s t : State N} (h : Reaches tree s t) (rest : List (Component N)) :
    Reaches tree (s.append rest) (t.append rest) :=
  Relation.ReflTransGen.lift (State.append · rest)
    (fun _ _ => Or.imp (Walk.append · rest) (Follow.append · rest)) s t h

lemma ThroughLink.reaches {s t : State N} (h : ThroughLink tree s t) : Reaches tree s t := by
  obtain ⟨u, v, hsu, huv, hvt⟩ := h
  exact (hsu.tail (.inr huv)).trans hvt

/-- A run follows a link or only walks. -/
lemma Reaches.walk_or_throughLink {s t : State N} (h : Reaches tree s t) :
    Relation.ReflTransGen (Walk tree) s t ∨ ThroughLink tree s t := by
  induction h with
  | refl => exact .inl .refl
  | tail hsu hut ih =>
    rcases hut with hwalk | hfollow
    · rcases ih with ih | ⟨a, b, hsa, hab, hbu⟩
      · exact .inl (ih.tail hwalk)
      · exact .inr ⟨a, b, hsa, hab, hbu.tail (.inl hwalk)⟩
    · exact .inr ⟨_, _, hsu, hfollow, .refl⟩

/-! ### Lexical depth -/

/-- The depth reached by reading `parts` from `depth`, counting every name as one level down. -/
def lexicalDepth : Nat → List (Component N) → Option Nat
  | depth, [] => some depth
  | depth, .here :: parts => lexicalDepth depth parts
  | 0, .up :: _ => none
  | depth + 1, .up :: parts => lexicalDepth depth parts
  | depth, .name _ :: parts => lexicalDepth (depth + 1) parts

/-- Walking keeps the lexical depth of what lies ahead. -/
lemma Walk.lexicalDepth_eq {s t : State N} (h : Walk tree s t) :
    lexicalDepth s.dir.length s.pending = lexicalDepth t.dir.length t.pending := by
  cases h with
  | here => rw [lexicalDepth]
  | up => rw [List.length_append, List.length_singleton, lexicalDepth]
  | enter => rw [lexicalDepth, List.length_append, List.length_singleton]

lemma lexicalDepth_eq_of_walks {s t : State N} (h : Relation.ReflTransGen (Walk tree) s t) :
    lexicalDepth s.dir.length s.pending = lexicalDepth t.dir.length t.pending := by
  induction h with
  | refl => rfl
  | tail _ hstep ih => rw [ih, hstep.lexicalDepth_eq]

lemma State.Escapes.lexicalDepth_eq_none {s : State N} (h : s.Escapes) :
    lexicalDepth s.dir.length s.pending = none := by
  obtain ⟨hdir, hhead⟩ := h
  obtain ⟨rest, hrest⟩ := List.head?_eq_some_iff.mp hhead
  rw [hdir, hrest, List.length_nil, lexicalDepth]

/-- Reading `parts` from the directory `dir` with nothing but the names: `up` takes the last name
away, and there is no result when there is none to take. -/
def normalize : List N → List (Component N) → Option (List N)
  | dir, [] => some dir
  | dir, .here :: parts => normalize dir parts
  | dir, .up :: parts => if dir.isEmpty then none else normalize dir.dropLast parts
  | dir, .name n :: parts => normalize (dir ++ [n]) parts

/-- The depth is the length of the directory the names lead to. -/
lemma lexicalDepth_eq_length_normalize (dir : List N) (parts : List (Component N)) :
    lexicalDepth dir.length parts = (normalize dir parts).map List.length := by
  induction parts generalizing dir with
  | nil => rfl
  | cons part parts ih =>
    cases part with
    | here => exact ih dir
    | name n =>
      rw [lexicalDepth, normalize, ← ih, List.length_append, List.length_singleton]
    | up =>
      rcases List.eq_nil_or_concat dir with rfl | ⟨init, last, hdir⟩
      · rfl
      · rw [List.concat_eq_append] at hdir
        subst hdir
        rw [List.length_append, List.length_singleton, lexicalDepth, normalize, ih init]
        simp

/-! ### Where pending parts come from -/

/-- Every pending part stands in the target of some link, and resolving that target up to the part
leads to where the parts pending before it start. -/
def Traced (tree : Layout N) (s : State N) : Prop :=
  ∀ before part after, s.pending = before ++ part :: after →
    ∃ path target pre post, tree path = some (.link target) ∧
      target = pre ++ part :: post ∧ Reaches tree (start path pre) ⟨s.dir, before⟩

lemma traced_start {path : List N} {target : List (Component N)}
    (h : tree path = some (.link target)) : Traced tree (start path target) :=
  fun before _ after hsplit => ⟨path, target, before, after, h, hsplit, .refl⟩

/-- An element behind `before` in `xs ++ ys` lies in `ys` or in `xs`. -/
lemma append_eq_append_cons {α : Type*} {xs ys before after : List α} {x : α}
    (h : xs ++ ys = before ++ x :: after) :
    (∃ mid, before = xs ++ mid ∧ ys = mid ++ x :: after) ∨ ∃ post, xs = before ++ x :: post := by
  rcases List.append_eq_append_iff.mp h with ⟨mid, rfl, hys⟩ | ⟨mid, rfl, hmid⟩
  · exact .inl ⟨mid, rfl, hys⟩
  · cases mid with
    | nil => exact .inl ⟨[], by simp, hmid.symm⟩
    | cons m mid =>
      obtain ⟨rfl, -⟩ := List.cons.inj hmid
      exact .inr ⟨mid, rfl⟩

/-- A step that consumes one part and is the same whatever follows. -/
lemma Traced.consume {dir dir' : List N} {part : Component N} {rest : List (Component N)}
    (hs : Traced tree ⟨dir, part :: rest⟩)
    (hstep : ∀ rest, Step tree ⟨dir, part :: rest⟩ ⟨dir', rest⟩) :
    Traced tree ⟨dir', rest⟩ := by
  intro before p after h
  obtain rfl := h
  obtain ⟨path, target, pre, post, hlink, htarget, hrun⟩ := hs (part :: before) p after rfl
  exact ⟨path, target, pre, post, hlink, htarget, hrun.tail (hstep before)⟩

lemma Traced.step {s t : State N} (hs : Traced tree s) (h : Step tree s t) : Traced tree t := by
  rcases h with h | h
  · cases h with
    | here => exact hs.consume fun _ => .inl .here
    | up => exact hs.consume fun _ => .inl .up
    | enter hdir => exact hs.consume fun _ => .inl (.enter hdir)
  · cases h with
    | @link dir n rest target hlink =>
      intro before part after hsplit
      -- the part was pending before, or stands in the target just inserted
      rcases append_eq_append_cons hsplit with ⟨mid, rfl, hrest⟩ | ⟨post, rfl⟩
      · obtain ⟨path, target', pre, post, hlink', htarget, hrun⟩ :=
          hs (.name n :: mid) part after (by rw [hrest, List.cons_append])
        exact ⟨path, target', pre, post, hlink', htarget, hrun.tail (.inr (.link hlink))⟩
      · refine ⟨dir ++ [n], _, before, post, hlink, rfl, ?_⟩
        rw [start, List.dropLast_concat]
        exact .refl

lemma Traced.reaches {s t : State N} (hs : Traced tree s) (h : Reaches tree s t) :
    Traced tree t := by
  induction h with
  | refl => exact hs
  | tail _ hstep ih => exact ih.step hstep

/-! ### Containment -/

/-- When every target is lexically contained, links escape only by an `up` part behind a prefix
that leads to the root through another link. -/
theorem contained_iff
    (hlex : ∀ path target, tree path = some (.link target) →
      lexicalDepth path.dropLast.length target ≠ none) :
    Contained tree ↔ Guarded tree := by
  constructor
  · intro hcontained path target hlink pre post hx hthrough
    obtain rfl := hx
    have hrun := hthrough.reaches.append (.up :: post)
    exact hcontained path _ hlink _ hrun ⟨rfl, rfl⟩
  · intro hguarded path target hlink s hrun hesc
    obtain ⟨after, hafter⟩ := List.head?_eq_some_iff.mp hesc.2
    obtain ⟨path', target', pre, post, hlink', htarget, hrun'⟩ :=
      ((traced_start hlink).reaches hrun) [] .up after hafter
    rw [hesc.1] at hrun'
    rcases hrun'.walk_or_throughLink with hwalk | hthrough
    · -- a prefix without links ends at its lexical depth, which is not the root
      apply hlex path' target' hlink'
      have happend : Relation.ReflTransGen (Walk tree) ((start path' pre).append (.up :: post))
          (State.append ⟨[], []⟩ (.up :: post)) :=
        Relation.ReflTransGen.lift (State.append · (.up :: post))
          (fun _ _ h => Walk.append h _) _ _ hwalk
      rw [htarget]
      exact (lexicalDepth_eq_of_walks happend).trans
        (State.Escapes.lexicalDepth_eq_none ⟨rfl, rfl⟩)
    · exact hguarded path' target' hlink' pre post htarget hthrough

/-- A link is followed only if there is a name to resolve. -/
lemma ThroughLink.exists_name {s t : State N} (h : ThroughLink tree s t) :
    ∃ n, Component.name n ∈ s.pending := by
  obtain ⟨u, v, hsu, huv, -⟩ := h
  -- where a name is pending, one was pending at the start
  have hfirst : ∀ {u}, Reaches tree s u → (∃ n, Component.name n ∈ u.pending) →
      ∃ n, Component.name n ∈ s.pending := by
    intro u hrun
    induction hrun with
    | refl => exact id
    | tail _ hstep ih =>
      intro hx
      obtain ⟨n, hn⟩ := hx
      rcases hstep with hstep | hstep
      · cases hstep with
        | here => exact ih ⟨n, List.mem_cons_of_mem _ hn⟩
        | up => exact ih ⟨n, List.mem_cons_of_mem _ hn⟩
        | enter => exact ih ⟨n, List.mem_cons_of_mem _ hn⟩
      · cases hstep with
        | @link _ m => exact ih ⟨m, List.mem_cons_self⟩
  cases huv with
  | @link _ n => exact hfirst hsu ⟨n, List.mem_cons_self⟩

end Resolve

end Difz
