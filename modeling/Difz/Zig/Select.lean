import Difz.Directory.Contract
import Difz.Zig.Glob
import Difz.Zig.Snapshot

/-!
# Selection by rules

`selectEntries` of `src/directory_fs.zig`: the entries that a filter includes, and the directories
above them whether the filter includes these or not. The directories are found by binary search
and marked in an array of flags, so that the order of the snapshot is kept.
-/

namespace Difz

open Wire

/-! ### Flags -/

/-- The items whose flag is set. -/
def flagged {α : Type} : List α → List Bool → List α
  | x :: xs, include_ :: flags => if include_ then x :: flagged xs flags else flagged xs flags
  | _, _ => []

section Flagged

variable {α : Type}

lemma flagged_sublist (xs : List α) (flags : List Bool) : (flagged xs flags).Sublist xs := by
  induction xs generalizing flags with
  | nil => exact .slnil
  | cons x xs ih =>
    cases flags with
    | nil => exact List.nil_sublist _
    | cons b flags =>
      rw [flagged]
      split_ifs
      · exact (ih flags).cons_cons x
      · exact (ih flags).cons x

lemma mem_flagged {xs : List α} {flags : List Bool} {x : α} :
    x ∈ flagged xs flags ↔ ∃ i : Nat, xs[i]? = some x ∧ flags[i]? = some true := by
  induction xs generalizing flags with
  | nil => simp [flagged]
  | cons y xs ih =>
    cases flags with
    | nil => simp [flagged]
    | cons b flags =>
      have hstep : (∃ i : Nat, (y :: xs)[i]? = some x ∧ (b :: flags)[i]? = some true) ↔
          (y = x ∧ b = true) ∨ ∃ i : Nat, xs[i]? = some x ∧ flags[i]? = some true := by
        constructor
        · intro h
          obtain ⟨i, hx, hb⟩ := h
          cases i with
          | zero => exact .inl ⟨by simpa using hx, by simpa using hb⟩
          | succ i => exact .inr ⟨i, by simpa using hx, by simpa using hb⟩
        · intro h
          rcases h with ⟨rfl, rfl⟩ | ⟨i, hx, hb⟩
          · exact ⟨0, rfl, rfl⟩
          · exact ⟨i + 1, by simpa using hx, by simpa using hb⟩
      rw [hstep, ← ih, flagged]
      cases b <;> simp [eq_comm]

/-- The flags of a list say which of its items satisfy `p`. -/
structure Flags (xs : List α) (p : α → Prop) (flags : List Bool) : Prop where
  length : flags.length = xs.length
  iff : ∀ (i : Nat) x, xs[i]? = some x → (flags[i]? = some true ↔ p x)

lemma Flags.none (xs : List α) : Flags xs (fun _ => False) (List.replicate xs.length false) := by
  refine ⟨List.length_replicate, fun i x hx => ?_⟩
  simp [List.getElem?_replicate]

lemma Flags.congr {xs : List α} {p q : α → Prop} {flags : List Bool} (h : Flags xs p flags)
    (hpq : ∀ x ∈ xs, p x ↔ q x) : Flags xs q flags :=
  ⟨h.length, fun i x hx => (h.iff i x hx).trans (hpq x (List.mem_of_getElem? hx))⟩

/-- Setting the flag of an item that occurs once. -/
lemma Flags.set {xs : List α} {p : α → Prop} {flags : List Bool} (h : Flags xs p flags) {i : Nat}
    {x : α} (hx : xs[i]? = some x) (hnodup : xs.Nodup) :
    Flags xs (fun y => p y ∨ y = x) (flags.set i true) := by
  refine ⟨by rw [List.length_set, h.length], fun j y hy => ?_⟩
  have hi : i < flags.length := by
    rw [h.length]
    exact (List.getElem?_eq_some_iff.mp hx).1
  by_cases hij : i = j
  · subst hij
    obtain rfl := Option.some.inj (hx.symm.trans hy)
    simp [hi]
  · rw [List.getElem?_set_ne hij, h.iff j y hy]
    have hne : y ≠ x := by
      rintro rfl
      obtain ⟨hi', hxi⟩ := List.getElem?_eq_some_iff.mp hx
      obtain ⟨hj', hyj⟩ := List.getElem?_eq_some_iff.mp hy
      exact hij ((hnodup.getElem_inj_iff).mp (hxi.trans hyj.symm))
    simp [hne]

lemma Flags.mem_flagged_iff {xs : List α} {p : α → Prop} {flags : List Bool} (h : Flags xs p flags)
    {x : α} : x ∈ flagged xs flags ↔ x ∈ xs ∧ p x := by
  rw [mem_flagged]
  constructor
  · intro hx
    obtain ⟨i, hi, hflag⟩ := hx
    exact ⟨List.mem_of_getElem? hi, (h.iff i x hi).mp hflag⟩
  · intro hx
    obtain ⟨hmem, hp⟩ := hx
    obtain ⟨i, hi⟩ := List.mem_iff_getElem?.mp hmem
    exact ⟨i, hi, (h.iff i x hi).mpr hp⟩

end Flagged

namespace Zig

open Directory (pathOf parentPath IsAncestor Structured)

/-! ### The passes -/

/-- `findEntry` of the file system layer: the position of a path, by binary search. -/
def findEntryIndex (entries : List Entry) (path : List UInt8) : Option Nat :=
  Search.find pathOf entries path

/-- Mark the directories above a path, from the nearest one up. -/
def markParents (raw : List Entry) (selected : List Bool) (path : List UInt8) :
    Except Error (List Bool) :=
  match _h : parentPath path with
  | none => .ok selected
  | some parent =>
    match findEntryIndex raw parent with
    | none => .error .missingParent
    | some index => markParents raw (selected.set index true) parent
  termination_by path.length
  decreasing_by exact (Directory.isAncestor_of_parentPath _h).length_lt

variable {pcre2 : Pcre2}

/-- The loop over the entries from position `index` on. -/
def markFrom (filter : Filter pcre2) (raw : List Entry) :
    List Bool → Nat → List Entry → Except Error (List Bool)
  | selected, _, [] => .ok selected
  | selected, index, e :: es => do
    if ← filter.includes e.path then
      let selected ← markParents raw (selected.set index true) e.path
      markFrom filter raw selected (index + 1) es
    else markFrom filter raw selected (index + 1) es

def selectEntries (pcre2 : Pcre2) (raw : List Entry) (rules : List Rule) :
    Except Error (List Entry) := do
  let filter ← Filter.compile pcre2 rules
  let selected ← markFrom filter raw (List.replicate raw.length false) 0 raw
  .ok (flagged raw selected)

/-! ### The marks -/

/-- The filter includes the path. -/
def Filter.Includes (filter : Filter pcre2) (path : List UInt8) : Prop :=
  filter.includes path = .ok true

/-- The entry is included, or a directory above an entry that is. -/
def InScope (filter : Filter pcre2) (entries : List Entry) (e : Entry) : Prop :=
  ∃ f ∈ entries, filter.Includes f.path ∧ (e = f ∨ IsAncestor e.path f.path)

lemma findEntryIndex_of_mem {raw : List Entry} (hs : Search.Sorted pathOf raw) {d : Entry}
    (hd : d ∈ raw) : ∃ i, findEntryIndex raw d.path = some i ∧ raw[i]? = some d := by
  obtain ⟨i, hi⟩ := List.mem_iff_getElem?.mp hd
  exact ⟨i, (Search.find_eq_some_iff hs).mpr ⟨d, hi, rfl⟩, hi⟩

/-- The directories above a path are found and marked, all of them and nothing else. -/
lemma markParents_eq {raw : List Entry} (hs : Search.Sorted pathOf raw) {p : Entry → Prop}
    {selected : List Bool} (hflags : Flags raw p selected) {path : List UInt8}
    (hanc : ∀ ancestor, IsAncestor ancestor path → ∃ d ∈ raw, d.path = ancestor) :
    ∃ selected', markParents raw selected path = .ok selected' ∧
      Flags raw (fun e => p e ∨ IsAncestor e.path path) selected' := by
  rw [markParents]
  split
  · next hnone =>
    refine ⟨selected, rfl, hflags.congr fun e _ => ?_⟩
    have hnot : ¬IsAncestor e.path path := by
      rw [Directory.isAncestor_iff, hnone]
      simp
    simp [hnot]
  · next parent hparent =>
    obtain ⟨d, hd, rfl⟩ := hanc parent (Directory.isAncestor_of_parentPath hparent)
    obtain ⟨i, hfind, hi⟩ := findEntryIndex_of_mem hs hd
    have hup : ∀ ancestor, IsAncestor ancestor d.path → ∃ d' ∈ raw, d'.path = ancestor :=
      fun ancestor h => hanc ancestor (Directory.isAncestor_iff.mpr ⟨d.path, hparent, .inr h⟩)
    have hshorter : d.path.length < path.length :=
      (Directory.isAncestor_of_parentPath hparent).length_lt
    obtain ⟨selected', hrun, hmarked⟩ := markParents_eq hs (hflags.set hi hs.nodup) hup
    refine ⟨selected', by rw [hfind]; exact hrun, hmarked.congr fun e he => ?_⟩
    have hself : e = d ↔ e.path = d.path := ⟨congrArg _, hs.eq_of_key he hd⟩
    have hstep : IsAncestor e.path path ↔ e.path = d.path ∨ IsAncestor e.path d.path := by
      rw [Directory.isAncestor_iff, hparent]
      simp
    rw [hstep, or_assoc, hself]
termination_by path.length

lemma includes_of_valid (filter : Filter pcre2) {path : List UInt8}
    (h : Directory.ValidPath path) : ∃ included, filter.includes path = .ok included := by
  rw [Filter.includes, Directory.validatePath_eq_ok.mpr h]
  exact ⟨_, rfl⟩

/-- The loop from the entry behind `before` on. -/
lemma markFrom_eq {filter : Filter pcre2} {raw before es : List Entry} (hraw : Structured raw)
    (hsplit : raw = before ++ es) {selected : List Bool}
    (hflags : Flags raw (InScope filter before) selected) :
    ∃ selected', markFrom filter raw selected before.length es = .ok selected' ∧
      Flags raw (InScope filter raw) selected' := by
  induction es generalizing before selected with
  | nil =>
    rw [List.append_nil] at hsplit
    subst hsplit
    exact ⟨selected, rfl, hflags⟩
  | cons e es ih =>
    have he : e ∈ raw := by simp [hsplit]
    have hnext : raw = (before ++ [e]) ++ es := by simp [hsplit]
    have hindex : raw[before.length]? = some e := by simp [hsplit]
    obtain ⟨included, hincluded⟩ := includes_of_valid filter (hraw.paths e he)
    rw [Zig.pathOf_entry] at hincluded
    rw [markFrom, hincluded, ok_bind]
    have hlength : (before ++ [e]).length = before.length + 1 := by simp
    rw [← hlength]
    cases included with
    | false =>
      refine ih hnext (hflags.congr fun x _ => ?_)
      have hnot : ¬filter.Includes e.path := by
        rw [Filter.Includes, hincluded]
        simp
      simp [InScope, hnot]
    | true =>
      have habove : ∀ ancestor, IsAncestor ancestor e.path → ∃ d ∈ raw, d.path = ancestor := by
        intro ancestor hanc
        obtain ⟨d, hd, hpath, -⟩ := hraw.ancestors before e es hsplit ancestor hanc
        exact ⟨d, by simp [hsplit, hd], hpath⟩
      obtain ⟨selected', hrun, hmarked⟩ :=
        markParents_eq hraw.sorted (hflags.set hindex hraw.sorted.nodup) habove
      rw [if_pos rfl, hrun, ok_bind]
      refine ih hnext (hmarked.congr fun x _ => ?_)
      have hyes : filter.Includes e.path := hincluded
      simp only [InScope, List.mem_append, List.mem_singleton, or_assoc]
      constructor
      · intro h
        rcases h with ⟨f, hf, hf'⟩ | rfl | hanc
        · exact ⟨f, .inl hf, hf'⟩
        · exact ⟨x, .inr rfl, hyes, .inl rfl⟩
        · exact ⟨e, .inr rfl, hyes, .inr hanc⟩
      · intro h
        obtain ⟨f, hf | rfl, hinc, hor⟩ := h
        · exact .inl ⟨f, hf, hinc, hor⟩
        · exact .inr hor

/-! ### The selection -/

/-- The selection is a part of the list and has the entries in scope. -/
lemma selectEntries_eq {rules : List Rule} {filter : Filter pcre2}
    (hcompile : Filter.compile pcre2 rules = .ok filter) {raw : List Entry}
    (hraw : Structured raw) : ∃ result, selectEntries pcre2 raw rules = .ok result ∧
      result.Sublist raw ∧ ∀ e, e ∈ result ↔ e ∈ raw ∧ InScope filter raw e := by
  have hnone : Flags raw (InScope filter []) (List.replicate raw.length false) :=
    (Flags.none raw).congr fun e _ => by simp [InScope]
  obtain ⟨selected, hrun, hflags⟩ := markFrom_eq hraw (List.nil_append raw).symm hnone
  refine ⟨flagged raw selected, ?_, flagged_sublist raw selected, fun e => hflags.mem_flagged_iff⟩
  rw [selectEntries, hcompile, ok_bind]
  exact (congrArg (· >>= _) hrun).trans rfl

lemma isAncestor_trans {a b c : List UInt8} (hab : IsAncestor a b) (hbc : IsAncestor b c) :
    IsAncestor a c := by
  obtain ⟨rest, rfl⟩ := hab
  obtain ⟨rest', rfl⟩ := hbc
  exact ⟨rest ++ 0x2f :: rest', by simp⟩

/-- What is above an entry in scope is in scope. -/
lemma InScope.above {filter : Filter pcre2} {raw : List Entry} {d e : Entry}
    (he : InScope filter raw e) (hanc : IsAncestor d.path e.path) : InScope filter raw d := by
  obtain ⟨f, hf, hincludes, hor⟩ := he
  refine ⟨f, hf, hincludes, .inr ?_⟩
  rcases hor with rfl | hup
  · exact hanc
  · exact isAncestor_trans hanc hup

/-- A part that contains what is above its entries is well structured. -/
lemma structured_of_sublist {raw result : List Entry} (hraw : Structured raw)
    (hsub : result.Sublist raw)
    (hclosed : ∀ e ∈ result, ∀ d ∈ raw, IsAncestor d.path e.path → d ∈ result) :
    Structured result := by
  have hsorted : Search.Sorted pathOf result := hraw.sorted.sublist hsub
  refine ⟨hsub.length_le.trans hraw.bounded, fun e he => hraw.paths e (hsub.mem he),
    fun e he => hraw.modes e (hsub.mem he), fun e he => hraw.kinds e (hsub.mem he), hsorted, ?_⟩
  intro before e after hsplit ancestor hanc
  have he : e ∈ result := by simp [hsplit]
  obtain ⟨pre, post, hpre⟩ := List.append_of_mem (hsub.mem he)
  obtain ⟨d, hd, rfl, hkind⟩ := hraw.ancestors pre e post hpre ancestor hanc
  obtain ⟨hdraw, hlt⟩ := (hraw.sorted.mem_before_iff hpre).mp hd
  exact ⟨d, (hsorted.mem_before_iff hsplit).mpr ⟨hclosed e he d hdraw hanc, hlt⟩, rfl, hkind⟩

/-- A snapshot with the same entries in scope has the same selection. -/
lemma selectEntries_eq_of_mem_iff {rules : List Rule} {filter : Filter pcre2}
    (hcompile : Filter.compile pcre2 rules = .ok filter) {raw result : List Entry}
    (hraw : Structured raw) (hresult : Search.Sorted pathOf result)
    (h : ∀ e, e ∈ result ↔ e ∈ raw ∧ InScope filter raw e) :
    selectEntries pcre2 raw rules = .ok result := by
  obtain ⟨result', hrun, hsub, hmem⟩ := selectEntries_eq hcompile hraw
  have hsorted : Search.Sorted pathOf result' := hraw.sorted.sublist hsub
  rw [hrun, hsorted.eq_of_mem_iff hresult fun e => (hmem e).trans (h e).symm]

lemma structured_of_validateSnapshot {entries : List Entry}
    (h : validateSnapshot entries = .ok ()) : Structured entries := by
  rw [validateSnapshot_eq] at h
  exact Directory.validate_iff_structured.mp h

lemma inScope_iff {filter : Filter pcre2} {raw : List Entry} {e : Entry} (he : e ∈ raw) :
    InScope filter raw e ↔ filter.Includes e.path ∨
      ∃ f ∈ raw, filter.Includes f.path ∧ IsAncestor e.path f.path := by
  constructor
  · intro h
    obtain ⟨f, hf, hincludes, rfl | hanc⟩ := h
    · exact .inl hincludes
    · exact .inr ⟨f, hf, hincludes, hanc⟩
  · intro h
    rcases h with hincludes | ⟨f, hf, hincludes, hanc⟩
    · exact ⟨e, he, hincludes, .inl rfl⟩
    · exact ⟨f, hf, hincludes, .inr hanc⟩

/-- The selection of a snapshot by rules that compile: what the filter includes and the directories
above, in the order of the snapshot. It is a snapshot, selecting from it changes nothing, and
neither do entries outside of it. -/
theorem selectEntries_spec (pcre2 : Pcre2) (raw : List Entry) (rules : List Rule)
    (filter : Filter pcre2) (hsnapshot : validateSnapshot raw = .ok ())
    (hcompile : Filter.compile pcre2 rules = .ok filter) :
    ∃ result, selectEntries pcre2 raw rules = .ok result ∧
      result.Sublist raw ∧ result.Nodup ∧
      (∀ e, e ∈ result ↔ e ∈ raw ∧ (filter.Includes e.path ∨
        ∃ f ∈ raw, filter.Includes f.path ∧ IsAncestor e.path f.path)) ∧
      validateSnapshot result = .ok () ∧
      selectEntries pcre2 result rules = .ok result ∧
      ∀ raw', validateSnapshot raw' = .ok () → (∀ e ∈ result, e ∈ raw') →
        (∀ e ∈ raw', filter.Includes e.path → ∃ f ∈ raw, f.path = e.path) →
        selectEntries pcre2 raw' rules = .ok result := by
  have hraw := structured_of_validateSnapshot hsnapshot
  obtain ⟨result, hrun, hsub, hmem⟩ := selectEntries_eq hcompile hraw
  have hsorted : Search.Sorted pathOf result := hraw.sorted.sublist hsub
  have hresult : Structured result := by
    refine structured_of_sublist hraw hsub fun e he d hd hanc => (hmem d).mpr ⟨hd, ?_⟩
    exact ((hmem e).mp he).2.above hanc
  -- an included entry is in the selection by itself
  have hincluded : ∀ f ∈ raw, filter.Includes f.path → f ∈ result := fun f hf hincludes =>
    (hmem f).mpr ⟨hf, f, hf, hincludes, .inl rfl⟩
  refine ⟨result, hrun, hsub, hsorted.nodup, fun e => ?_, ?_, ?_, ?_⟩
  · rw [hmem]
    exact and_congr_right inScope_iff
  · rw [validateSnapshot_eq]
    exact Directory.validate_iff_structured.mpr hresult
  · refine selectEntries_eq_of_mem_iff hcompile hresult hsorted fun e => ?_
    constructor
    · intro he
      obtain ⟨f, hf, hincludes, hor⟩ := ((hmem e).mp he).2
      exact ⟨he, f, hincluded f hf hincludes, hincludes, hor⟩
    · exact And.left
  · intro raw' hsnapshot' hkept hnew
    have hraw' := structured_of_validateSnapshot hsnapshot'
    refine selectEntries_eq_of_mem_iff hcompile hraw' hsorted fun e => ?_
    constructor
    · intro he
      obtain ⟨f, hf, hincludes, hor⟩ := ((hmem e).mp he).2
      exact ⟨hkept e he, f, hkept f (hincluded f hf hincludes), hincludes, hor⟩
    · intro h
      obtain ⟨he, f, hf, hincludes, hor⟩ := h
      -- the included entry was there before, and so were the directories above it
      obtain ⟨g, hg, hpath⟩ := hnew f hf hincludes
      have hgr := hincluded g hg (hpath ▸ hincludes)
      obtain rfl := hraw'.sorted.eq_of_key (hkept g hgr) hf hpath
      rcases hor with rfl | hanc
      · exact hgr
      · obtain ⟨before, after, hsplit⟩ := List.append_of_mem hgr
        obtain ⟨d, hd, hdpath, -⟩ := hresult.ancestors before g after hsplit e.path hanc
        have hdr : d ∈ result := by simp [hsplit, hd]
        obtain rfl := hraw'.sorted.eq_of_key (hkept d hdr) he hdpath
        exact hdr

/-- The library on regular expressions of plain characters between the two anchors. -/
def Pcre2.plain : Pcre2 where
  Regex := List UInt8
  compile text :=
    let inner := (text.drop 2).dropLast.dropLast
    if text = utf8 "\\A" ++ inner ++ utf8 "\\z"
        ∧ inner.all (fun b => isAsciiAlphabetic b || b == 0x2f) then some inner
    else none
  isMatch regex subject := regex == subject

/-- Two files, one of them in a directory. -/
def nested : List Entry :=
  [⟨utf8 "d", .directory, 0o755, [], Metadata.default⟩,
    ⟨utf8 "d/a", .file, 0o644, [], Metadata.default⟩,
    ⟨utf8 "e", .file, 0o644, [], Metadata.default⟩]

/-- Including the file in the directory selects both. -/
theorem selectEntries_spec_nested :
    selectEntries Pcre2.plain nested [⟨.include_, utf8 "d/a"⟩] = .ok (nested.take 2) ∧
      selectEntries Pcre2.plain (nested.take 2) [⟨.include_, utf8 "d/a"⟩] = .ok (nested.take 2) := by
  have hisSome : (Filter.compile Pcre2.plain [⟨.include_, utf8 "d/a"⟩]).toOption.isSome = true := by
    decide +kernel
  cases hcompile : Filter.compile Pcre2.plain [⟨.include_, utf8 "d/a"⟩] with
  | error e => simp [hcompile, Except.toOption] at hisSome
  | ok filter =>
    have hselect : selectEntries Pcre2.plain nested [⟨.include_, utf8 "d/a"⟩]
        = .ok (nested.take 2) := by decide +kernel
    obtain ⟨result, hrun, -, -, -, -, hagain, -⟩ := selectEntries_spec Pcre2.plain nested
      [⟨.include_, utf8 "d/a"⟩] filter (by decide +kernel) hcompile
    obtain rfl := Except.ok.inj (hselect.symm.trans hrun)
    exact ⟨hselect, hagain⟩

end Zig

end Difz
