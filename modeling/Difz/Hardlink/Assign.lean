import Difz.Zig.Snapshot
import Mathlib.Data.List.Find
import Mathlib.Logic.Relation

/-!
# Hardlink capture

`assignHardlinks` of `src/directory_fs.zig`: one pass over the sorted entries with a map from the
identity of a file (device and inode) to the path that stands for its group. References that were
transported in attributes are already there, and the pass adds those that follow from shared
identities.

A file keeps a transported reference, and otherwise refers to the first file of its identity. The
result is a set of groups without chains exactly when no transported reference names a file that
itself gets a reference: `assignHardlinks_correct_iff`.
-/

namespace Difz

open Wire

/-! ### Maps that see the items before -/

/-- Map every item, given the items before it. -/
def mapBefore {α β : Type} (f : List α → α → β) : List α → List α → List β
  | _, [] => []
  | before, x :: xs => f before x :: mapBefore f (before ++ [x]) xs

section MapBefore

variable {α β γ : Type} {f : List α → α → β} {before xs : List α}

lemma map_mapBefore {g : β → γ} {k : α → γ} (h : ∀ b x, g (f b x) = k x) :
    (mapBefore f before xs).map g = xs.map k := by
  induction xs generalizing before with
  | nil => rfl
  | cons x xs ih => rw [mapBefore, List.map_cons, List.map_cons, h, ih]

/-- A split of the image comes from a split of the list. -/
lemma mapBefore_eq_append_cons {ys zs : List β} {y : β}
    (h : mapBefore f before xs = ys ++ y :: zs) : ∃ pre x post, xs = pre ++ x :: post ∧
      ys = mapBefore f before pre ∧ y = f (before ++ pre) x := by
  induction xs generalizing before ys with
  | nil => simp [mapBefore] at h
  | cons a xs ih =>
    rw [mapBefore] at h
    cases ys with
    | nil =>
      obtain ⟨rfl, -⟩ := List.cons.inj h
      exact ⟨[], a, xs, rfl, rfl, by simp⟩
    | cons b ys =>
      obtain ⟨rfl, htail⟩ := List.cons.inj h
      obtain ⟨pre, x, post, rfl, rfl, rfl⟩ := ih htail
      exact ⟨a :: pre, x, post, rfl, rfl, by simp⟩

lemma mapBefore_append {ys : List α} : mapBefore f before (xs ++ ys)
    = mapBefore f before xs ++ mapBefore f (before ++ xs) ys := by
  induction xs generalizing before with
  | nil => simp [mapBefore]
  | cons x xs ih => simp [mapBefore, ih]

lemma mapBefore_congr {g : List α → α → β}
    (h : ∀ pre x post, xs = pre ++ x :: post → f (before ++ pre) x = g (before ++ pre) x) :
    mapBefore f before xs = mapBefore g before xs := by
  induction xs generalizing before with
  | nil => rfl
  | cons a xs ih =>
    have ha : f before a = g before a := by simpa using h [] a xs rfl
    rw [mapBefore, mapBefore, ha, ih]
    intro pre x post hxs
    simpa using h (a :: pre) x post (by simp [hxs])

lemma mem_mapBefore {y : β} : y ∈ mapBefore f before xs ↔
    ∃ pre x post, xs = pre ++ x :: post ∧ y = f (before ++ pre) x := by
  constructor
  · intro h
    obtain ⟨ys, zs, hsplit⟩ := List.append_of_mem h
    obtain ⟨pre, x, post, hxs, -, hy⟩ := mapBefore_eq_append_cons hsplit
    exact ⟨pre, x, post, hxs, hy⟩
  · intro h
    obtain ⟨pre, x, post, rfl, rfl⟩ := h
    rw [mapBefore_append, mapBefore]
    simp

/-- A map from keys to the first item seen for each key, kept up along the list. -/
def Recalls {κ : Type} [BEq κ] (p : κ → α → Bool) (v : α → β) (before : List α)
    (canonical : List (κ × β)) : Prop :=
  ∀ k, canonical.lookup k = (before.find? (p k)).map v

/-- An item whose key is known already changes nothing. -/
lemma Recalls.skip {κ : Type} [BEq κ] {p : κ → α → Bool} {v : α → β} {canonical : List (κ × β)}
    (h : Recalls p v before canonical) {x : α}
    (hx : ∀ k, p k x = true → (before.find? (p k)).isSome = true) :
    Recalls p v (before ++ [x]) canonical := by
  intro k
  rw [h k, List.find?_append]
  by_cases hp : p k x = true
  · obtain ⟨y, hy⟩ := Option.isSome_iff_exists.mp (hx k hp)
    simp [hy]
  · simp [hp]

/-- The first item of its key is put in. -/
lemma Recalls.insert {κ : Type} [BEq κ] [LawfulBEq κ] {p : κ → α → Bool} {v : α → β}
    {canonical : List (κ × β)} (h : Recalls p v before canonical) {x : α} {key : κ}
    (hkey : ∀ k, p k x = true ↔ key = k) (hnone : before.find? (p key) = none) :
    Recalls p v (before ++ [x]) ((key, v x) :: canonical) := by
  intro k
  rw [List.lookup_cons, List.find?_append]
  by_cases hk : key = k
  · subst hk
    simp [hnone, (hkey _).mpr rfl]
  · rw [beq_eq_false_iff_ne.mpr (Ne.symm hk)]
    simp [mt (hkey k).mp hk, h k]

end MapBefore

namespace Hardlink

open Zig (Entry Links Related validateSnapshot validateMetadataRelations)
open Directory (Kind entryAt pathOf)

/-! ### The pass -/

/-- What the operating system says of a path. -/
structure Stat where
  kind : Kind
  nlink : UInt64
  device : UInt64
  inode : UInt64
  deriving DecidableEq, Repr

structure FileIdentity where
  device : UInt64
  inode : UInt64
  deriving DecidableEq, Repr

def Stat.identity (s : Stat) : FileIdentity := ⟨s.device, s.inode⟩

inductive Error
  | fileChangedDuringSnapshot
  deriving DecidableEq, Repr

def setLink (e : Entry) (path : List UInt8) : Entry :=
  { e with meta_ := { e.meta_ with hardlinkTo := some path } }

/-- The body of the loop: the map of group paths, and the entry. -/
def assignEntry (stat : List UInt8 → Stat) (canonical : List (FileIdentity × List UInt8))
    (e : Entry) : Except Error (List (FileIdentity × List UInt8) × Entry) :=
  if e.kind ≠ .file then .ok (canonical, e)
  else if (stat e.path).kind ≠ .file then .error .fileChangedDuringSnapshot
  else if (stat e.path).nlink < 2 then .ok (canonical, e)
  else
    let identity := (stat e.path).identity
    match canonical.lookup identity with
    | some path => .ok (canonical, setLink e path)
    | none => .ok ((identity, e.meta_.hardlinkTo.getD e.path) :: canonical, e)

def assignFrom (stat : List UInt8 → Stat) :
    List (FileIdentity × List UInt8) → List Entry → Except Error (List Entry)
  | _, [] => .ok []
  | canonical, e :: es => do
    let (canonical, e) ← assignEntry stat canonical e
    let es ← assignFrom stat canonical es
    .ok (e :: es)

def assignHardlinks (stat : List UInt8 → Stat) (entries : List Entry) :
    Except Error (List Entry) :=
  assignFrom stat [] entries

/-! ### The pass, entry by entry -/

variable {stat : List UInt8 → Stat}

def identityOf (stat : List UInt8 → Stat) (e : Entry) : FileIdentity := (stat e.path).identity

/-- A file that the map has an entry for: it has the identity and more than one name. -/
def Counted (stat : List UInt8 → Stat) (identity : FileIdentity) (f : Entry) : Bool :=
  f.kind == .file && !decide ((stat f.path).nlink < 2) && identityOf stat f == identity

/-- The path that stands for the group of a file, as far as the file knows. -/
def groupPath (e : Entry) : List UInt8 := e.meta_.hardlinkTo.getD e.path

/-- What the pass makes of an entry behind the entries `before`. -/
def linked (stat : List UInt8 → Stat) (before : List Entry) (e : Entry) : Entry :=
  if e.kind = .file ∧ ¬(stat e.path).nlink < 2 then
    match before.find? (Counted stat (identityOf stat e)) with
    | some f => setLink e (groupPath f)
    | none => e
  else e

/-- The map holds, for every identity, the path of the first file that has it. -/
def Remembers (stat : List UInt8 → Stat) (before : List Entry)
    (canonical : List (FileIdentity × List UInt8)) : Prop :=
  Recalls (Counted stat) groupPath before canonical

lemma assignEntry_eq {before : List Entry} {canonical : List (FileIdentity × List UInt8)}
    (h : Remembers stat before canonical) {e : Entry}
    (hfile : e.kind = .file → (stat e.path).kind = .file) :
    ∃ canonical', assignEntry stat canonical e = .ok (canonical', linked stat before e) ∧
      Remembers stat (before ++ [e]) canonical' := by
  by_cases hkind : e.kind = .file
  · by_cases hlinks : (stat e.path).nlink < 2
    · refine ⟨canonical, by simp [assignEntry, linked, hkind, hfile hkind, hlinks], h.skip ?_⟩
      intro identity hc
      simp [Counted, hlinks] at hc
    · have hcounted : ∀ identity, Counted stat identity e = true ↔ identityOf stat e = identity := by
        intro identity
        simp [Counted, hkind, hlinks]
      have hlookup := h (identityOf stat e)
      cases hfind : before.find? (Counted stat (identityOf stat e)) with
      | some f =>
        rw [hfind, Option.map_some] at hlookup
        refine ⟨canonical, ?_, h.skip fun identity hc => ?_⟩
        · rw [identityOf] at hlookup
          simp [assignEntry, linked, hkind, hfile hkind, hlinks, hfind, hlookup]
        · rw [← (hcounted identity).mp hc, hfind]
          rfl
      | none =>
        rw [hfind, Option.map_none] at hlookup
        refine ⟨(identityOf stat e, groupPath e) :: canonical, ?_, h.insert hcounted hfind⟩
        · have hlinked : linked stat before e = e := by simp [linked, hkind, hlinks, hfind]
          rw [identityOf] at hlookup
          simp [assignEntry, hkind, hfile hkind, hlinks, hlookup, hlinked, identityOf, groupPath]
  · refine ⟨canonical, by simp [assignEntry, linked, hkind], h.skip ?_⟩
    intro identity hc
    simp [Counted, hkind] at hc

lemma assignFrom_eq {before es : List Entry} {canonical : List (FileIdentity × List UInt8)}
    (h : Remembers stat before canonical)
    (hfile : ∀ e ∈ es, e.kind = .file → (stat e.path).kind = .file) :
    assignFrom stat canonical es = .ok (mapBefore (linked stat) before es) := by
  induction es generalizing before canonical with
  | nil => rfl
  | cons e es ih =>
    obtain ⟨he, hes⟩ := List.forall_mem_cons.mp hfile
    obtain ⟨canonical', hstep, h'⟩ := assignEntry_eq h he
    rw [assignFrom, hstep, ok_bind]
    simp only [ih h' hes, ok_bind, mapBefore]

/-! ### Captured trees -/

/-- Two entries are names of one file. -/
def Shares (stat : List UInt8 → Stat) (e f : Entry) : Prop :=
  f.kind = .file ∧ identityOf stat f = identityOf stat e

/-- A snapshot with the identities of its files: the snapshot and its transported references are
valid, names of one file agree in everything, and a file with several names says so. -/
structure Captured (blake3 : List UInt8 → Digest) (stat : List UInt8 → Stat)
    (entries : List Entry) : Prop where
  snapshot : validateSnapshot entries = .ok ()
  relations : validateMetadataRelations blake3 entries = .ok ()
  kind : ∀ e ∈ entries, e.kind = .file → (stat e.path).kind = .file
  shared : ∀ e ∈ entries, ∀ f ∈ entries, e.kind = .file → Shares stat e f →
    f.data = e.data ∧ f.mode = e.mode ∧ f.meta_ = e.meta_
  nlink : ∀ e ∈ entries, ∀ f ∈ entries, e.kind = .file → Shares stat e f → f ≠ e →
    2 ≤ (stat e.path).nlink

instance (e f : Entry) : Decidable (Shares stat e f) := inferInstanceAs (Decidable (_ ∧ _))

/-- What the pass makes of an entry of a captured tree: a transported reference stays, and a file
without one refers to the first of its names. -/
def assigned (stat : List UInt8 → Stat) (before : List Entry) (e : Entry) : Entry :=
  if e.kind = .file then
    { e with meta_ := { e.meta_ with
      hardlinkTo := e.meta_.hardlinkTo.or
        ((before.find? fun f => decide (Shares stat e f)).map Entry.path) } }
  else e

variable {blake3 : List UInt8 → Digest} {entries : List Entry}

/-- The path that stands for the group of a file: its reference, or else its first name. -/
def standsFor (stat : List UInt8 → Stat) (entries : List Entry) (e : Entry) : List UInt8 :=
  e.meta_.hardlinkTo.getD
    (((entries.find? fun f => decide (Shares stat e f)).map Entry.path).getD e.path)

/-- Two files are names of one file, or one refers to the other. -/
def Linked (stat : List UInt8 → Stat) (entries : List Entry) (e f : Entry) : Prop :=
  e ∈ entries ∧ f ∈ entries ∧ e.kind = .file ∧ f.kind = .file ∧
    (identityOf stat e = identityOf stat f ∨ e.meta_.hardlinkTo = some f.path)

/-- Every transported reference names the first name of a file. -/
def NamesFirst (stat : List UInt8 → Stat) (entries : List Entry) : Prop :=
  ∀ e ∈ entries, ∀ t ∈ entries, e.meta_.hardlinkTo = some t.path →
    ∀ g ∈ entries, g.kind = .file → compare g.path t.path = .lt →
      identityOf stat g ≠ identityOf stat t

namespace Captured

lemma sorted (h : Captured blake3 stat entries) : Search.Sorted pathOf entries := by
  apply Directory.sorted_of_validate
  rw [← Zig.validateSnapshot_eq]
  exact h.snapshot

lemma related (h : Captured blake3 stat entries) : Related blake3 entries :=
  Zig.validateMetadataRelations_eq_ok.mp h.relations

/-- The entries before a given one are those with smaller paths. -/
lemma mem_before_iff (h : Captured blake3 stat entries) {before after : List Entry} {e f : Entry}
    (hsplit : entries = before ++ e :: after) :
    f ∈ before ↔ f ∈ entries ∧ compare f.path e.path = .lt :=
  h.sorted.mem_before_iff hsplit

lemma eq_of_path (h : Captured blake3 stat entries) {e f : Entry} (he : e ∈ entries)
    (hf : f ∈ entries) (hpath : e.path = f.path) : e = f :=
  h.sorted.eq_of_key he hf hpath

/-- Among the entries before, the map knows exactly the names of the same file. -/
lemma counted_iff (h : Captured blake3 stat entries) {before after : List Entry} {e f : Entry}
    (hsplit : entries = before ++ e :: after) (hkind : e.kind = .file) (hf : f ∈ before) :
    Counted stat (identityOf stat e) f = decide (Shares stat e f) := by
  obtain ⟨hfe, hlt⟩ := (h.mem_before_iff hsplit).mp hf
  have hee : e ∈ entries := by simp [hsplit]
  by_cases hs : Shares stat e f
  · have hne : e ≠ f := by
      rintro rfl
      rw [Std.compare_self] at hlt
      exact absurd hlt (by decide)
    have hnlink := h.nlink f hfe e hee hs.1 ⟨hkind, hs.2.symm⟩ hne
    simp [Counted, hs, hs.1, hs.2, UInt64.not_lt.mpr hnlink]
  · have hnot : ¬(f.kind = .file ∧ identityOf stat f = identityOf stat e) := hs
    simp only [hs, decide_false, Counted, Bool.and_eq_false_iff, beq_eq_false_iff_ne]
    by_cases hk : f.kind = .file
    · exact Or.inr fun hid => hnot ⟨hk, hid⟩
    · exact Or.inl (Or.inl hk)

lemma linked_eq (h : Captured blake3 stat entries) {before after : List Entry} {e : Entry}
    (hsplit : entries = before ++ e :: after) : linked stat before e = assigned stat before e := by
  by_cases hkind : e.kind = .file
  · have hee : e ∈ entries := by simp [hsplit]
    have hfind : before.find? (Counted stat (identityOf stat e))
        = before.find? fun f => decide (Shares stat e f) :=
      List.find?_congr fun f hf => h.counted_iff hsplit hkind hf
    rw [linked, assigned, if_pos hkind, hfind]
    cases hfirst : before.find? fun f => decide (Shares stat e f) with
    | none => simp
    | some f =>
      have hs : Shares stat e f := by simpa using List.find?_some hfirst
      obtain ⟨hfe, hlt⟩ := (h.mem_before_iff hsplit).mp (List.mem_of_find?_eq_some hfirst)
      have hne : f ≠ e := by
        rintro rfl
        rw [Std.compare_self] at hlt
        exact absurd hlt (by decide)
      have hnlink := UInt64.not_lt.mpr (h.nlink e hee f hfe hkind hs hne)
      have hmeta := (h.shared e hee f hfe hkind hs).2.2
      rw [if_pos ⟨hkind, hnlink⟩]
      simp only [setLink, groupPath, hmeta, Option.map_some]
      cases e.meta_.hardlinkTo <;> rfl
  · simp [linked, assigned, hkind]

lemma assignHardlinks_eq (h : Captured blake3 stat entries) :
    assignHardlinks stat entries = .ok (mapBefore (assigned stat) [] entries) := by
  have hstart : Remembers stat [] [] := fun _ => rfl
  rw [assignHardlinks, assignFrom_eq hstart h.kind]
  exact congrArg Except.ok (mapBefore_congr fun pre e post hsplit => h.linked_eq hsplit)

/-! ### Groups -/

/-- The first name of a file. -/
lemma exists_first {e : Entry} (he : e ∈ entries) (hkind : e.kind = .file) :
    ∃ f, entries.find? (fun f => decide (Shares stat e f)) = some f := by
  apply Option.isSome_iff_exists.mp
  rw [List.find?_isSome]
  exact ⟨e, he, by simp [Shares, hkind]⟩

lemma groupPath_assigned {before after : List Entry} {e : Entry}
    (hsplit : entries = before ++ e :: after) (hkind : e.kind = .file) :
    groupPath (assigned stat before e) = standsFor stat entries e := by
  have hself : decide (Shares stat e e) = true := by simp [Shares, hkind]
  rw [assigned, if_pos hkind, groupPath, standsFor, hsplit, List.find?_append]
  cases e.meta_.hardlinkTo with
  | some path => rfl
  | none =>
    cases before.find? fun f => decide (Shares stat e f) with
    | some g => rfl
    | none => simp [hself]

/-- The target of a transported reference stands before it. -/
lemma exists_target (h : Captured blake3 stat entries) {before after : List Entry} {e : Entry}
    (hsplit : entries = before ++ e :: after) {path : List UInt8}
    (hlink : e.meta_.hardlinkTo = some path) :
    ∃ t ∈ before, t.path = path ∧ Links blake3 e t := by
  obtain ⟨t, hat, hlinks⟩ := h.related.hardlinks before e after hsplit path hlink
  have hsorted := h.sorted
  rw [hsplit] at hsorted
  obtain ⟨ht, hpath⟩ := (Directory.entryAt_eq_some_iff (List.pairwise_append.mp hsorted).1).mp hat
  exact ⟨t, ht, hpath, hlinks⟩

/-- No other name of the file stands before its first name. -/
lemma find?_before_eq_none (h : Captured blake3 stat entries) {before after : List Entry}
    {t : Entry} (hsplit : entries = before ++ t :: after) (hfirst : ∀ g ∈ entries,
      g.kind = .file → compare g.path t.path = .lt → identityOf stat g ≠ identityOf stat t) :
    before.find? (fun f => decide (Shares stat t f)) = none := by
  rw [List.find?_eq_none]
  intro g hg hs
  obtain ⟨hge, hlt⟩ := (h.mem_before_iff hsplit).mp hg
  obtain ⟨hgk, hid⟩ := of_decide_eq_true hs
  exact hfirst g hge hgk hlt hid

lemma standsFor_of_first (h : Captured blake3 stat entries) {t : Entry} (ht : t ∈ entries)
    (hkind : t.kind = .file) (hlink : t.meta_.hardlinkTo = none) (hfirst : ∀ g ∈ entries,
      g.kind = .file → compare g.path t.path = .lt → identityOf stat g ≠ identityOf stat t) :
    standsFor stat entries t = t.path := by
  obtain ⟨before, after, hsplit⟩ := List.append_of_mem ht
  have hself : decide (Shares stat t t) = true := by simp [Shares, hkind]
  have hnone := h.find?_before_eq_none hsplit hfirst
  rw [standsFor, hlink, hsplit, List.find?_append, hnone]
  simp [hself]

/-- Linked files stand in one group. -/
lemma standsFor_eq_of_linked (h : Captured blake3 stat entries) (hnames : NamesFirst stat entries)
    {e f : Entry} (hlinked : Linked stat entries e f) :
    standsFor stat entries e = standsFor stat entries f := by
  obtain ⟨he, hf, hek, hfk, hid | hlink⟩ := hlinked
  · have hmeta := (h.shared e he f hf hek ⟨hfk, hid.symm⟩).2.2
    have hshares : (fun g => decide (Shares stat f g)) = fun g => decide (Shares stat e g) := by
      funext g
      exact decide_eq_decide.mpr (by rw [Shares, Shares, hid])
    obtain ⟨g, hg⟩ : ∃ g, entries.find? (fun g => decide (Shares stat e g)) = some g :=
      exists_first he hek
    rw [standsFor, standsFor, hmeta, hshares, hg]
    rfl
  · obtain ⟨before, after, hsplit⟩ := List.append_of_mem he
    obtain ⟨t, ht, hpath, hlinks⟩ := h.exists_target hsplit hlink
    obtain rfl := h.eq_of_path ((h.mem_before_iff hsplit).mp ht).1 hf hpath
    rw [h.standsFor_of_first hf hfk hlinks.targetLink (hnames e he t hf hlink), standsFor, hlink]
    rfl

/-- The group of a file is named after a file it is connected to. -/
lemma exists_joined (h : Captured blake3 stat entries) {e : Entry} (he : e ∈ entries)
    (hkind : e.kind = .file) : ∃ r ∈ entries, r.path = standsFor stat entries e ∧
      Relation.EqvGen (Linked stat entries) e r := by
  cases hlink : e.meta_.hardlinkTo with
  | some path =>
    obtain ⟨before, after, hsplit⟩ := List.append_of_mem he
    obtain ⟨t, ht, rfl, hlinks⟩ := h.exists_target hsplit hlink
    have ht := ((h.mem_before_iff hsplit).mp ht).1
    refine ⟨t, ht, by rw [standsFor, hlink]; rfl, Relation.EqvGen.rel _ _ ?_⟩
    exact ⟨he, ht, hkind, hlinks.targetKind, Or.inr hlink⟩
  | none =>
    obtain ⟨f, hf⟩ : ∃ f, entries.find? (fun f => decide (Shares stat e f)) = some f :=
      exists_first he hkind
    have hs : Shares stat e f := by simpa using List.find?_some hf
    have hfe := List.mem_of_find?_eq_some hf
    refine ⟨f, hfe, by rw [standsFor, hlink, hf]; rfl, Relation.EqvGen.rel _ _ ?_⟩
    exact ⟨he, hfe, hkind, hs.1, Or.inl hs.2.symm⟩

lemma standsFor_eq_iff (h : Captured blake3 stat entries) (hnames : NamesFirst stat entries)
    {e f : Entry} (he : e ∈ entries) (hf : f ∈ entries) (hek : e.kind = .file)
    (hfk : f.kind = .file) : standsFor stat entries e = standsFor stat entries f ↔
      Relation.EqvGen (Linked stat entries) e f := by
  constructor
  · intro heq
    obtain ⟨r, hr, hrp, her⟩ := h.exists_joined he hek
    obtain ⟨s, hs, hsp, hfs⟩ := h.exists_joined hf hfk
    obtain rfl := h.eq_of_path hr hs (by rw [hrp, hsp, heq])
    exact her.trans _ _ _ (hfs.symm _ _)
  · intro hconn
    clear he hf hek hfk
    induction hconn with
    | rel x y hxy => exact h.standsFor_eq_of_linked hnames hxy
    | refl x => rfl
    | symm x y _ ih => exact ih.symm
    | trans x y z _ _ ih₁ ih₂ => exact ih₁.trans ih₂

/-! ### Relations of the result -/

lemma assigned_path (before : List Entry) (e : Entry) :
    (assigned stat before e).path = e.path := by
  rw [assigned]
  split_ifs <;> rfl

/-- Only the reference changes. -/
lemma checkHole_assigned (before : List Entry) (e : Entry) (hole : Metadata.Hole) :
    Zig.checkHole (assigned stat before e) hole = Zig.checkHole e hole := by
  rw [assigned]
  split_ifs <;> rfl

lemma holes_assigned (before : List Entry) (e : Entry) :
    (assigned stat before e).meta_.holes = e.meta_.holes := by
  rw [assigned]
  split_ifs <;> rfl

/-- The entry at a path of the result comes from the entry at that path. -/
lemma entryAt_mapBefore (h : Captured blake3 stat entries) {before after : List Entry}
    {e y : Entry} (hsplit : entries = before ++ e :: after) {path : List UInt8} :
    entryAt (mapBefore (assigned stat) [] before) path = some y ↔
      ∃ pre t post, before = pre ++ t :: post ∧ t.path = path ∧ y = assigned stat pre t := by
  have hpaths : (mapBefore (assigned stat) [] before).map pathOf = before.map pathOf :=
    map_mapBefore fun b x => assigned_path b x
  have hbefore : Search.Sorted pathOf before := by
    have hsorted := h.sorted
    rw [hsplit] at hsorted
    exact (List.pairwise_append.mp hsorted).1
  have hsorted : Search.Sorted pathOf (mapBefore (assigned stat) [] before) := by
    rw [Search.Sorted, ← List.pairwise_map (f := pathOf)
      (R := fun a b => compare a b = .lt), hpaths, List.pairwise_map]
    exact hbefore
  rw [Directory.entryAt_eq_some_iff hsorted, mem_mapBefore]
  simp only [List.nil_append, Zig.pathOf_entry]
  constructor
  · intro hx
    obtain ⟨⟨pre, t, post, hpre, rfl⟩, rfl⟩ := hx
    exact ⟨pre, t, post, hpre, (assigned_path pre t).symm, rfl⟩
  · intro hx
    obtain ⟨pre, t, post, hpre, rfl, rfl⟩ := hx
    exact ⟨⟨pre, t, post, hpre, rfl⟩, assigned_path pre t⟩

/-- A file without a reference and without an earlier name is left alone. -/
lemma assigned_of_first (h : Captured blake3 stat entries) {before after : List Entry} {t : Entry}
    (hsplit : entries = before ++ t :: after) (hlink : t.meta_.hardlinkTo = none)
    (hfirst : ∀ g ∈ entries, g.kind = .file → compare g.path t.path = .lt →
      identityOf stat g ≠ identityOf stat t) : assigned stat before t = t := by
  have hnone := h.find?_before_eq_none hsplit hfirst
  rw [assigned, hnone, hlink]
  split_ifs with hk
  · rw [Option.map_none, Option.or_none, ← hlink]
  · rfl

lemma assigned_of_link (before : List Entry) {e : Entry} (hlink : e.meta_.hardlinkTo.isSome) :
    assigned stat before e = e := by
  obtain ⟨path, hpath⟩ := Option.isSome_iff_exists.mp hlink
  rw [assigned]
  split_ifs
  · rw [hpath, Option.some_or, ← hpath]
  · rfl

/-- The first name of a file that has an earlier name, and what the two have in common. -/
lemma exists_earlier (h : Captured blake3 stat entries) {before after : List Entry} {e f : Entry}
    (hsplit : entries = before ++ e :: after) (hkind : e.kind = .file)
    (hlink : e.meta_.hardlinkTo = none)
    (hfind : before.find? (fun f => decide (Shares stat e f)) = some f) :
    ∃ pre post, before = pre ++ f :: post ∧ assigned stat pre f = f ∧
      Links blake3 (assigned stat before e) f := by
  have hs : Shares stat e f := by simpa using List.find?_some hfind
  obtain ⟨-, pre, post, hpre, hnot⟩ := List.find?_eq_some_iff_append.mp hfind
  have hfe : f ∈ entries := by simp [hsplit, hpre]
  obtain ⟨hdata, hmode, hmeta⟩ := h.shared e (by simp [hsplit]) f hfe hkind hs
  have hfsplit : entries = pre ++ f :: (post ++ e :: after) := by simp [hsplit, hpre]
  refine ⟨pre, post, hpre, ?_, ?_⟩
  · refine h.assigned_of_first hfsplit (hmeta ▸ hlink) fun g hg hgk hlt hid => ?_
    have hgpre := (h.mem_before_iff hfsplit).mpr ⟨hg, hlt⟩
    have hgs : Shares stat e g := ⟨hgk, hid.trans hs.2⟩
    simpa [hgs] using hnot g hgpre
  · rw [assigned, if_pos hkind]
    refine ⟨hkind, hs.1, hmeta ▸ hlink, hmode, hdata, ?_⟩
    rw [hmeta, ← hlink]

/-- With references to first names only, the result has no chains. -/
lemma related_of_namesFirst (h : Captured blake3 stat entries) (hnames : NamesFirst stat entries) :
    Related blake3 (mapBefore (assigned stat) [] entries) := by
  refine ⟨fun y hy hole hhole => ?_, fun ys y zs hys path hpath => ?_⟩
  · obtain ⟨pre, e, post, hsplit, rfl⟩ := mem_mapBefore.mp hy
    rw [holes_assigned] at hhole
    rw [checkHole_assigned]
    exact h.related.holes e (by simp [hsplit]) hole hhole
  · obtain ⟨before, e, after, hsplit, rfl, rfl⟩ := mapBefore_eq_append_cons hys
    rw [List.nil_append] at hpath ⊢
    have hee : e ∈ entries := by simp [hsplit]
    cases hlink : e.meta_.hardlinkTo with
    | some p =>
      -- the transported reference stays, and so does its target
      have hsame : assigned stat before e = e := assigned_of_link before (by simp [hlink])
      rw [hsame, hlink] at hpath
      obtain rfl := Option.some.inj hpath
      obtain ⟨t, ht, rfl, hlinks⟩ := h.exists_target hsplit hlink
      obtain ⟨pre, post, hpre⟩ := List.append_of_mem ht
      have htsplit : entries = pre ++ t :: (post ++ e :: after) := by simp [hsplit, hpre]
      have hte : t ∈ entries := by simp [htsplit]
      have htsame := h.assigned_of_first htsplit hlinks.targetLink (hnames e hee t hte hlink)
      refine ⟨t, (h.entryAt_mapBefore hsplit).mpr ⟨pre, t, post, hpre, rfl, htsame.symm⟩, ?_⟩
      rwa [hsame]
    | none =>
      have hkind : e.kind = .file := by
        by_contra hk
        rw [assigned, if_neg hk, hlink] at hpath
        exact absurd hpath (by simp)
      rw [assigned, if_pos hkind, hlink, Option.none_or] at hpath
      obtain ⟨f, hfind, rfl⟩ := Option.map_eq_some_iff.mp hpath
      obtain ⟨pre, post, hpre, hsame, hlinks⟩ := h.exists_earlier hsplit hkind hlink hfind
      exact ⟨f, (h.entryAt_mapBefore hsplit).mpr ⟨pre, f, post, hpre, rfl, hsame.symm⟩, hlinks⟩

/-- A reference to a name that is not the first becomes a chain. -/
lemma namesFirst_of_related (h : Captured blake3 stat entries)
    (hrelated : Related blake3 (mapBefore (assigned stat) [] entries)) :
    NamesFirst stat entries := by
  intro e he t ht hlink g hg hgk hlt hid
  obtain ⟨before, after, hsplit⟩ := List.append_of_mem he
  have hsame : assigned stat before e = e := assigned_of_link before (by simp [hlink])
  have himage : mapBefore (assigned stat) [] entries
      = mapBefore (assigned stat) [] before ++ e :: mapBefore (assigned stat) (before ++ [e]) after := by
    rw [hsplit, mapBefore_append, mapBefore, List.nil_append, hsame]
  obtain ⟨y, hat, hlinks⟩ := hrelated.hardlinks _ e _ himage t.path hlink
  obtain ⟨pre, t', post, hpre, hpath, rfl⟩ := (h.entryAt_mapBefore hsplit).mp hat
  have htsplit : entries = pre ++ t' :: (post ++ e :: after) := by simp [hsplit, hpre]
  obtain rfl := h.eq_of_path (by simp [htsplit]) ht hpath
  -- the earlier name `g` gives the target a reference of its own
  have hkind : t'.kind = .file := by
    have := hlinks.targetKind
    rw [assigned] at this
    split_ifs at this with hk
    · exact hk
    · exact this
  have hfound : (pre.find? fun f => decide (Shares stat t' f)).isSome = true := by
    rw [List.find?_isSome]
    exact ⟨g, (h.mem_before_iff htsplit).mpr ⟨hg, hlt⟩, by simp [Shares, hgk, hid]⟩
  obtain ⟨f, hf⟩ := Option.isSome_iff_exists.mp hfound
  have hnone := hlinks.targetLink
  rw [assigned, if_pos hkind, hf] at hnone
  cases hown : t'.meta_.hardlinkTo <;> simp [hown] at hnone

end Captured

/-- After the pass two files are in one group exactly when they are connected by shared identity
or transported references. -/
def GroupsConnected (stat : List UInt8 → Stat) (entries result : List Entry) : Prop :=
  ∀ e ∈ entries, ∀ f ∈ entries, e.kind = .file → f.kind = .file →
    ∀ e' ∈ result, ∀ f' ∈ result, e'.path = e.path → f'.path = f.path →
      (groupPath e' = groupPath f' ↔ Relation.EqvGen (Linked stat entries) e f)

/-- The pass always ends with a list. Its relations are valid and its groups are the connected
files exactly when every transported reference names the first name of a file. -/
theorem assignHardlinks_correct_iff (blake3 : List UInt8 → Digest) (stat : List UInt8 → Stat)
    (entries : List Entry) (h : Captured blake3 stat entries) :
    ∃ result, assignHardlinks stat entries = .ok result ∧
      ((validateMetadataRelations blake3 result = .ok () ∧ GroupsConnected stat entries result) ↔
        NamesFirst stat entries) := by
  refine ⟨_, h.assignHardlinks_eq, ?_⟩
  rw [Zig.validateMetadataRelations_eq_ok]
  constructor
  · intro hx
    exact h.namesFirst_of_related hx.1
  · intro hnames
    refine ⟨h.related_of_namesFirst hnames, ?_⟩
    intro e he f hf hek hfk e' he' f' hf' hpe hpf
    obtain ⟨pre, x, post, hx, rfl⟩ := mem_mapBefore.mp he'
    obtain ⟨pre', y, post', hy, rfl⟩ := mem_mapBefore.mp hf'
    rw [Captured.assigned_path] at hpe hpf
    obtain rfl := h.eq_of_path (by simp [hx]) he hpe
    obtain rfl := h.eq_of_path (by simp [hy]) hf hpf
    rw [List.nil_append, List.nil_append, Captured.groupPath_assigned hx hek,
      Captured.groupPath_assigned hy hfk]
    exact h.standsFor_eq_iff hnames he hf hek hfk

/-! ### A chain -/

/-- A regular file without bytes. -/
def emptyFile (path : List UInt8) (hardlinkTo : Option (List UInt8)) : Entry :=
  ⟨path, .file, 0o644, [], { Metadata.default with hardlinkTo := hardlinkTo }⟩

/-- Two names of one file, and a copy that refers to one of them. -/
def trio (target : List UInt8) : List Entry :=
  [emptyFile (utf8 "0") none, emptyFile (utf8 "a") none, emptyFile (utf8 "b") (some target)]

def trioStat (path : List UInt8) : Stat :=
  if path = utf8 "b" then ⟨.file, 1, 1, 2⟩ else ⟨.file, 2, 1, 1⟩

lemma checkRelations_emptyFile {blake3 : List UInt8 → Digest} {before : List Entry}
    {path target : List UInt8} (h : entryAt before target = some (emptyFile target none)) :
    Zig.checkRelations blake3 before (emptyFile path (some target)) = .ok () := by
  rw [Zig.checkRelations, seq_eq_ok, Zig.checkHardlink_eq_ok]
  refine ⟨rfl, fun path hpath => ⟨emptyFile target none, ?_, rfl, rfl, rfl, rfl, rfl, rfl⟩⟩
  obtain rfl : target = path := Option.some.inj hpath
  exact h

lemma captured_trio (blake3 : List UInt8 → Digest) {target : List UInt8}
    (htarget : target = utf8 "0" ∨ target = utf8 "a") : Captured blake3 trioStat (trio target) := by
  have hfirst : Zig.checkRelations blake3 [] (emptyFile (utf8 "0") none) = .ok () := rfl
  have hsecond : Zig.checkRelations blake3 [emptyFile (utf8 "0") none]
      (emptyFile (utf8 "a") none) = .ok () := rfl
  have hthird : Zig.checkRelations blake3
      [emptyFile (utf8 "0") none, emptyFile (utf8 "a") none]
      (emptyFile (utf8 "b") (some target)) = .ok () := by
    apply checkRelations_emptyFile
    rcases htarget with rfl | rfl <;> decide +kernel
  refine ⟨?_, ?_, ?_, ?_, ?_⟩
  · rcases htarget with rfl | rfl <;> decide +kernel
  · simp only [trio, validateMetadataRelations, Directory.forBefore, List.nil_append,
      List.cons_append, hfirst, hsecond, hthird, ok_bind]
  · rcases htarget with rfl | rfl <;> decide +kernel
  · rcases htarget with rfl | rfl <;> decide +kernel
  · rcases htarget with rfl | rfl <;> decide +kernel

/-- A copy that refers to the first name: both names and the copy are one group. -/
theorem assignHardlinks_correct_iff_star : ∃ result,
    assignHardlinks trioStat (trio (utf8 "0")) = .ok result ∧
      ∀ blake3, validateMetadataRelations blake3 result = .ok () ∧
        GroupsConnected trioStat (trio (utf8 "0")) result := by
  have hnames : NamesFirst trioStat (trio (utf8 "0")) := by
    unfold NamesFirst
    decide +kernel
  have hrun : ∃ result, assignHardlinks trioStat (trio (utf8 "0")) = .ok result :=
    ⟨_, (captured_trio (fun _ => ⟨List.replicate 32 0, rfl⟩) (Or.inl rfl)).assignHardlinks_eq⟩
  obtain ⟨result, hresult⟩ := hrun
  refine ⟨result, hresult, fun blake3 => ?_⟩
  obtain ⟨result', hresult', hiff⟩ := assignHardlinks_correct_iff blake3 trioStat
    (trio (utf8 "0")) (captured_trio blake3 (Or.inl rfl))
  obtain rfl := Except.ok.inj (hresult.symm.trans hresult')
  exact hiff.mpr hnames

/-- A copy that refers to the second name: that name gets a reference of its own, and the relations
of the result are refused. -/
theorem assignHardlinks_chained : ∃ result,
    assignHardlinks trioStat (trio (utf8 "a")) = .ok result ∧
      ∀ blake3, Captured blake3 trioStat (trio (utf8 "a")) ∧
        validateMetadataRelations blake3 result = .error .invalidHardlinkRelation := by
  refine ⟨[emptyFile (utf8 "0") none, emptyFile (utf8 "a") (some (utf8 "0")),
    emptyFile (utf8 "b") (some (utf8 "a"))], by decide +kernel, fun blake3 =>
    ⟨captured_trio blake3 (Or.inr rfl), ?_⟩⟩
  have hfirst : Zig.checkRelations blake3 [] (emptyFile (utf8 "0") none) = .ok () := rfl
  have hsecond : Zig.checkRelations blake3 [emptyFile (utf8 "0") none]
      (emptyFile (utf8 "a") (some (utf8 "0"))) = .ok () :=
    checkRelations_emptyFile (by decide +kernel)
  have hthird : Zig.checkRelations blake3
      [emptyFile (utf8 "0") none, emptyFile (utf8 "a") (some (utf8 "0"))]
      (emptyFile (utf8 "b") (some (utf8 "a"))) = .error .invalidHardlinkRelation := rfl
  simp only [validateMetadataRelations, Directory.forBefore, List.nil_append, List.cons_append,
    hfirst, hsecond, hthird, ok_bind, error_bind]

end Hardlink

end Difz
