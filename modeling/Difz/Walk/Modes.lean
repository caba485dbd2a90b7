import Difz.Walk.Permissions

/-!
# Modes and attributes at the end of a tree

The loops of `writeSnapshotWith` that restore metadata and modes. Every object is still open when
metadata are restored, and leaving a round it is open again. What can go wrong are attributes that
have to be written to an object that is shut already: the sidecar of an access list comes after the
list, and that of a modification time after the modes of later names of the file.
`writeSnapshot_modes` says that these are the only obstacles, and which modes there are where none
of them stands in the way.
-/

namespace Difz

open Wire

namespace Walk

open Program
open Program.Action (fold gets handle lift modify)
open Zig (Entry Omit Related validateSnapshot validateMetadataRelations)
open Hardlink (groupPath)

namespace Owner

section Writing

variable {blake3 : List UInt8 → Digest} {entries before after : List Entry} {e : Entry}
  {g : Guarded} {natives : Natives} {mask : Omit}

/-! ### Attributes and access lists -/

/-- Another of these entries is a name of the same file. -/
def NameIn (after : List Entry) (e : Entry) : Prop :=
  e.kind = .file ∧ ∃ f ∈ after, f.kind = .file ∧ groupPath f = groupPath e

/-- The loop over modes has come to the entries of `after`. -/
structure Halfway (entries before after : List Entry) (g : Guarded) : Prop where
  root : Open g []
  waiting : ∀ e ∈ before, e.kind ≠ .symlink → ¬ NameIn after e →
    g.mode (objectAt entries e) = writableMode (objectAt entries e)
  done : ∀ e ∈ after, e.kind ≠ .symlink → g.mode (objectAt entries e) = e.mode

/-- Two entries of one object are one entry, or names of one file. -/
lemma objectAt_eq (h : Accepted blake3 entries) {f : Entry} (he : e ∈ entries) (hf : f ∈ entries)
    (hek : e.kind ≠ .symlink) (hfk : f.kind ≠ .symlink)
    (hsame : objectAt entries f = objectAt entries e) :
    f = e ∨ (f.kind = .file ∧ e.kind = .file ∧ groupPath f = groupPath e) := by
  have hfile : ∀ d : Entry, d.kind ≠ .symlink → d.kind ≠ .directory → d.kind = .file := by
    intro d hlink hdir
    cases hk : d.kind with
    | directory => exact absurd hk hdir
    | file => rfl
    | symlink => exact absurd hk hlink
  rw [objectAt, objectAt] at hsame
  split_ifs at hsame with hfd hed hed
  · exact Or.inl (resolve_injective h hf he (Object.dir.inj hsame))
  · have hek := hfile e hek hed
    have hfk := hfile f hfk hfd
    exact Or.inr ⟨hfk, hek, (h.inodeOf_eq_iff hf hfk).mp (Object.file.inj hsame)⟩

/-- Names of one object have one mode. -/
lemma mode_of_objectAt_eq (h : Accepted blake3 entries) {f : Entry} (he : e ∈ entries)
    (hf : f ∈ entries) (hek : e.kind ≠ .symlink) (hfk : f.kind ≠ .symlink)
    (hsame : objectAt entries f = objectAt entries e) : e.mode = f.mode := by
  rcases objectAt_eq h he hf hek hfk hsame with rfl | ⟨hfk, hek, hgroup⟩
  · rfl
  · exact (Hardlink.links_of_groupPath_eq h.structured.sorted h.related he hf hek hfk hgroup
      none).mode.symm

/-- No entry is the root. -/
lemma root_ne_objectAt (h : Accepted blake3 entries) (he : e ∈ entries) :
    Object.dir [] ≠ objectAt entries e := by
  rw [objectAt]
  split_ifs
  · exact fun hsame => (h.joined_resolve he).1 (Object.dir.inj hsame).symm
  · intro hsame
    cases hsame

/-- The mode of the entry is set. -/
lemma Halfway.next (h : Accepted blake3 entries) (hsplit : entries = before ++ e :: after)
    (hhalf : Halfway entries (before ++ [e]) after g) (hkind : e.kind ≠ .symlink) :
    Halfway entries before (e :: after) (g.change (objectAt entries e) fun _ => e.mode) := by
  have he : e ∈ entries := by simp [hsplit]
  refine ⟨?_, fun f hf hfk hname => ?_, fun f hf hfk => ?_⟩
  · rw [Open, change_mode_of_ne _ (root_ne_objectAt h he)]
    exact hhalf.root
  · have hother : objectAt entries f ≠ objectAt entries e := by
      intro hsame
      rcases objectAt_eq h he (by simp [hsplit, hf]) hkind hfk hsame with
        rfl | ⟨hfile, hek, hgroup⟩
      · exact h.path_notMem hsplit hf rfl
      · exact hname ⟨hfile, e, List.mem_cons_self, hek, hgroup.symm⟩
    rw [change_mode_of_ne _ hother]
    refine hhalf.waiting f (List.mem_append_left _ hf) hfk fun hlater => hname ?_
    exact ⟨hlater.1, hlater.2.imp fun _ hd => ⟨List.mem_cons_of_mem _ hd.1, hd.2⟩⟩
  · by_cases hsame : objectAt entries f = objectAt entries e
    · rw [hsame, change_mode_self]
      exact mode_of_objectAt_eq h he (by simp [hsplit, List.mem_cons.mp hf]) hkind hfk hsame
    · rw [change_mode_of_ne _ hsame]
      refine hhalf.done f ((List.mem_cons.mp hf).resolve_left fun hfe => ?_) hfk
      exact hsame (hfe ▸ rfl)

end Writing

/-- An empty directory that the owner has just made. -/
def freshDir : Guarded := ⟨FileSystem.empty, fun _ => 0o700⟩

/-- A directory that shuts its owner out, and a file with two names that does. -/
def shutEntries : List Entry :=
  [⟨utf8 "a", .directory, 0, [], Metadata.default⟩,
    ⟨utf8 "a-b", .file, 0, utf8 "data", Metadata.default⟩,
    ⟨utf8 "a/x", .file, 0, utf8 "data",
      { Metadata.default with hardlinkTo := some (utf8 "a-b") }⟩]

def keepAll : Omit := ⟨false, false, false, false, false, false⟩

/-- Access lists that take the right to write away, and need no sidecars. -/
def readOnlyLists (times : List Name → Bool) : Natives where
  acl _ mode := mode &&& 0o500
  writes what names :=
    match what with
    | .nativeAcl | .portableAcl => false
    | .modificationTime => times names
    | _ => true

end Owner

end Walk

end Difz
