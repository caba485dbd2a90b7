import Mathlib.Data.List.Nodup

/-!
# Finite directory trees

The contents of a directory in the order of some enumeration: names that stand for a leaf or for a
directory with contents of its own. `get` looks up a path, `put` creates an object in a directory
that exists, and `objects` lists everything. Where siblings have distinct names the list is the
graph of the lookup, `mem_objects_iff`, and creating an object changes the lookup at one path,
`get_put`.
-/

/-- The contents of a directory. -/
inductive Forest (ν α : Type*)
  | nil
  | leaf (name : ν) (value : α) (rest : Forest ν α)
  | node (name : ν) (children rest : Forest ν α)
  deriving DecidableEq

namespace Forest

variable {ν α : Type*}

def names : Forest ν α → List ν
  | nil => []
  | leaf n _ rest => n :: names rest
  | node n _ rest => n :: names rest

/-- No name occurs twice in a directory. -/
def Distinct : Forest ν α → Prop
  | nil => True
  | leaf n _ rest => n ∉ rest.names ∧ rest.Distinct
  | node n children rest => n ∉ rest.names ∧ children.Distinct ∧ rest.Distinct

/-- Every object with its path, a directory without a value. -/
def objects : List ν → Forest ν α → List (List ν × Option α)
  | _, nil => []
  | pre, leaf n a rest => (pre ++ [n], some a) :: objects pre rest
  | pre, node n children rest =>
    (pre ++ [n], none) :: (objects (pre ++ [n]) children ++ objects pre rest)

section Lookup

variable [DecidableEq ν]

/-- What a name stands for: a leaf, or the contents of a directory. -/
def find (name : ν) : Forest ν α → Option (α ⊕ Forest ν α)
  | nil => none
  | leaf n a rest => if n = name then some (.inl a) else find name rest
  | node n children rest => if n = name then some (.inr children) else find name rest

/-- What is at a path; the empty path is the directory itself. -/
def get : Forest ν α → List ν → Option (Option α)
  | _, [] => some none
  | f, n :: path =>
    match f.find n with
    | none => none
    | some (.inl a) => if path = [] then some (some a) else none
    | some (.inr children) => get children path

/-- Why an object cannot be created. -/
inductive Refusal
  | alreadyExists
  | missing
  | notDirectory
  deriving DecidableEq, Repr

/-- New contents for the directory of that name. -/
def refill (name : ν) : Forest ν α → Forest ν α → Forest ν α
  | nil, _ => nil
  | leaf n a rest, children => leaf n a (refill name rest children)
  | node n old rest, children =>
    if n = name then node n children rest else node n old (refill name rest children)

/-- A new object in front of the others. -/
def create (name : ν) : Option α → Forest ν α → Forest ν α
  | some a, f => leaf name a f
  | none, f => node name nil f

/-- Create a leaf or an empty directory; every directory above has to exist. -/
def put (value : Option α) : Forest ν α → List ν → Except Refusal (Forest ν α)
  | _, [] => .error .alreadyExists
  | f, [n] =>
    match f.find n with
    | none => .ok (create n value f)
    | some _ => .error .alreadyExists
  | f, n :: m :: path =>
    match f.find n with
    | none => .error .missing
    | some (.inl _) => .error .notDirectory
    | some (.inr children) => (put value children (m :: path)).map fun c => f.refill n c

/-! ### Lookup -/

variable {f g : Forest ν α} {n m : ν} {path : List ν} {value : Option α}

lemma find_eq_none_iff : f.find n = none ↔ n ∉ f.names := by
  induction f with
  | nil => simp [find, names]
  | leaf k a rest ih =>
    rw [find, names, List.mem_cons, not_or, ← ih]
    split_ifs with h
    · simp [h]
    · simp [Ne.symm h]
  | node k children rest _ ih =>
    rw [find, names, List.mem_cons, not_or, ← ih]
    split_ifs with h
    · simp [h]
    · simp [Ne.symm h]

lemma find_refill {old children : Forest ν α} (h : f.find n = some (.inr old)) :
    (f.refill n children).find m = if m = n then some (.inr children) else f.find m := by
  induction f with
  | nil => simp [find] at h
  | leaf k a rest ih =>
    rw [find] at h
    split_ifs at h with hk
    · exact absurd (Option.some.inj h) (by simp)
    · rw [refill, find, find, ih h]
      split_ifs with hkm hmn
      · exact absurd (hkm.trans hmn) hk
      · rfl
      · rfl
      · rfl
  | node k c rest _ ih =>
    rw [find] at h
    split_ifs at h with hk
    · rw [refill, if_pos hk, find, find, hk]
      split_ifs with h₁ h₂ h₂
      · rfl
      · exact absurd h₁.symm h₂
      · exact absurd h₂.symm h₁
      · rfl
    · rw [refill, if_neg hk, find, find, ih h]
      split_ifs with hkm hmn
      · exact absurd (hkm.trans hmn) hk
      · rfl
      · rfl
      · rfl

lemma names_refill (children : Forest ν α) : (f.refill n children).names = f.names := by
  induction f with
  | nil => rfl
  | leaf k a rest ih => rw [refill, names, names, ih]
  | node k c rest _ ih =>
    rw [refill]
    split_ifs
    · rfl
    · rw [names, names, ih]

/-! ### Paths -/

lemma get_leaf {a : α} {rest : Forest ν α} : get (leaf n a rest) (m :: path)
    = if n = m then (if path = [] then some (some a) else none) else get rest (m :: path) := by
  rw [get, get, find]
  split_ifs <;> simp_all

lemma get_node {children rest : Forest ν α} : get (node n children rest) (m :: path)
    = if n = m then get children path else get rest (m :: path) := by
  rw [get, get, find]
  split_ifs <;> rfl

/-- A path that leads somewhere begins with a name of the directory. -/
lemma mem_names_of_get (h : get f (n :: path) = some value) : n ∈ f.names := by
  by_contra hn
  rw [get, find_eq_none_iff.mpr hn] at h
  exact absurd h (by simp)

/-- Everything above an object is a directory. -/
lemma get_of_append {p q : List ν} (h : get f (p ++ q) = some value) (hq : q ≠ []) :
    get f p = some none := by
  induction p generalizing f with
  | nil => rfl
  | cons k p ih =>
    rw [List.cons_append, get] at h
    rw [get]
    cases hfind : f.find k with
    | none => simp [hfind] at h
    | some found =>
      cases found with
      | inl a => simp [hfind, hq] at h
      | inr children =>
        rw [hfind] at h
        exact ih h

/-- Where siblings have distinct names, the objects are the graph of the lookup. -/
theorem mem_objects_iff (h : f.Distinct) {pre p : List ν} : (p, value) ∈ f.objects pre ↔
    ∃ q, q ≠ [] ∧ p = pre ++ q ∧ get f q = some value := by
  induction f generalizing pre with
  | nil =>
    simp only [objects, List.not_mem_nil, false_iff, not_exists, not_and]
    intro q hq _ hget
    obtain ⟨k, q, rfl⟩ := List.exists_cons_of_ne_nil hq
    exact absurd (mem_names_of_get hget) (by simp [names])
  | leaf n a rest ih =>
    obtain ⟨hn, hrest⟩ := h
    rw [objects, List.mem_cons, ih hrest]
    constructor
    · rintro (heq | ⟨q, hq, hp, hget⟩)
      · obtain ⟨rfl, rfl⟩ := Prod.mk.inj heq
        exact ⟨[n], by simp, rfl, by simp [get_leaf]⟩
      · obtain ⟨k, q, rfl⟩ := List.exists_cons_of_ne_nil hq
        have hk : n ≠ k := fun hk => hn (hk ▸ mem_names_of_get hget)
        exact ⟨k :: q, hq, hp, by rw [get_leaf, if_neg hk, hget]⟩
    · rintro ⟨q, hq, rfl, hget⟩
      obtain ⟨k, q, rfl⟩ := List.exists_cons_of_ne_nil hq
      rw [get_leaf] at hget
      split_ifs at hget with hk hnil
      · subst hk hnil
        exact .inl (by rw [Option.some.inj hget])
      · exact .inr ⟨k :: q, hq, rfl, hget⟩
  | node n children rest ihc ihr =>
    obtain ⟨hn, hchildren, hrest⟩ := h
    rw [objects, List.mem_cons, List.mem_append, ihc hchildren, ihr hrest]
    constructor
    · rintro (heq | ⟨q, -, rfl, hget⟩ | ⟨q, hq, hp, hget⟩)
      · obtain ⟨rfl, rfl⟩ := Prod.mk.inj heq
        exact ⟨[n], by simp, rfl, by rw [get_node, if_pos rfl, get]⟩
      · exact ⟨n :: q, by simp, by simp, by rw [get_node, if_pos rfl, hget]⟩
      · obtain ⟨k, q, rfl⟩ := List.exists_cons_of_ne_nil hq
        have hk : n ≠ k := fun hk => hn (hk ▸ mem_names_of_get hget)
        exact ⟨k :: q, hq, hp, by rw [get_node, if_neg hk, hget]⟩
    · rintro ⟨q, hq, rfl, hget⟩
      obtain ⟨k, q, rfl⟩ := List.exists_cons_of_ne_nil hq
      rw [get_node] at hget
      split_ifs at hget with hk
      · subst hk
        cases q with
        | nil => exact .inl (by rw [← Option.some.inj hget])
        | cons l q => exact .inr (.inl ⟨l :: q, by simp, by simp, hget⟩)
      · exact .inr (.inr ⟨k :: q, hq, rfl, hget⟩)

theorem mem_objects_nil_iff (h : f.Distinct) {p : List ν} :
    (p, value) ∈ f.objects [] ↔ p ≠ [] ∧ get f p = some value := by
  rw [mem_objects_iff h]
  constructor
  · rintro ⟨q, hq, rfl, hget⟩
    exact ⟨hq, hget⟩
  · rintro ⟨hp, hget⟩
    exact ⟨p, hp, rfl, hget⟩

/-- Only the order of the list is not in the lookup. -/
lemma get_eq_of_perm (hf : f.Distinct) (hg : g.Distinct)
    (h : (f.objects []).Perm (g.objects [])) (p : List ν) : get f p = get g p := by
  by_cases hp : p = []
  · rw [hp, get, get]
  · refine Option.ext fun value => ?_
    have hmem := h.mem_iff (a := (p, value))
    rw [mem_objects_nil_iff hf, mem_objects_nil_iff hg] at hmem
    simpa [hp] using hmem

/-- No object is listed twice. -/
theorem nodup_objects (h : f.Distinct) {pre : List ν} :
    ((f.objects pre).map Prod.fst).Nodup := by
  induction f generalizing pre with
  | nil => exact List.nodup_nil
  | leaf n a rest ih =>
    obtain ⟨hn, hrest⟩ := h
    rw [objects, List.map_cons, List.nodup_cons]
    refine ⟨fun hmem => ?_, ih hrest⟩
    obtain ⟨⟨p, v⟩, hp, hpn⟩ := List.mem_map.mp hmem
    obtain ⟨q, hq, rfl, hget⟩ := (mem_objects_iff hrest).mp hp
    obtain rfl : q = [n] := List.append_cancel_left hpn
    exact hn (mem_names_of_get hget)
  | node n children rest ihc ihr =>
    obtain ⟨hn, hchildren, hrest⟩ := h
    -- a path of the rest begins with another name
    have hapart : ∀ q, pre ++ n :: q ∉ (rest.objects pre).map Prod.fst := by
      intro q hmem
      obtain ⟨⟨p, v⟩, hp, hpn⟩ := List.mem_map.mp hmem
      obtain ⟨q', hq', rfl, hget⟩ := (mem_objects_iff hrest).mp hp
      obtain rfl : q' = n :: q := List.append_cancel_left hpn
      exact hn (mem_names_of_get hget)
    rw [objects, List.map_cons, List.map_append, List.nodup_cons, List.mem_append,
      List.nodup_append']
    refine ⟨?_, ihc hchildren, ihr hrest, fun p hp hp' => ?_⟩
    · rintro (hmem | hmem)
      · obtain ⟨⟨p, v⟩, hp, hpn⟩ := List.mem_map.mp hmem
        obtain ⟨q, hq, rfl, -⟩ := (mem_objects_iff hchildren).mp hp
        exact hq (List.append_right_eq_self.mp hpn)
      · exact hapart [] hmem
    · obtain ⟨⟨_, v⟩, hmem, rfl⟩ := List.mem_map.mp hp
      obtain ⟨q, -, rfl, -⟩ := (mem_objects_iff hchildren).mp hmem
      rw [List.append_assoc] at hp'
      exact hapart q hp'

/-! ### Creating objects -/

lemma find_create : (create n value f).find m
    = if m = n then some (value.elim (.inr nil) .inl) else f.find m := by
  cases value with
  | none =>
    rw [create, find]
    simp only [eq_comm (a := n), Option.elim_none]
  | some a =>
    rw [create, find]
    simp only [eq_comm (a := n), Option.elim_some]

/-- An object appears in the directory itself, or in one of its directories. -/
lemma put_eq_ok (h : put value f (n :: path) = .ok g) :
    (path = [] ∧ f.find n = none ∧ g = create n value f) ∨
    ∃ children c, f.find n = some (.inr children) ∧ put value children path = .ok c ∧
      g = f.refill n c := by
  cases path with
  | nil =>
    rw [put] at h
    cases hfind : f.find n with
    | some found => simp [hfind] at h
    | none =>
      rw [hfind] at h
      exact .inl ⟨rfl, rfl, (Except.ok.inj h).symm⟩
  | cons m path =>
    rw [put] at h
    cases hfind : f.find n with
    | none => simp [hfind] at h
    | some found =>
      cases found with
      | inl a => simp [hfind] at h
      | inr children =>
        rw [hfind] at h
        dsimp only at h
        cases hput : put value children (m :: path) with
        | error e => simp [hput, Except.map] at h
        | ok c =>
          rw [hput] at h
          exact .inr ⟨children, c, rfl, hput, (Except.ok.inj h).symm⟩

/-- Creating an object adds one path. -/
theorem get_put {q : List ν} (h : put value f path = .ok g) :
    get g q = if q = path then some value else get f q := by
  induction path generalizing f g q with
  | nil => simp [put] at h
  | cons n path ih =>
    cases q with
    | nil => simp [get]
    | cons k q =>
      obtain ⟨rfl, hfind, rfl⟩ | ⟨children, c, hfind, hput, rfl⟩ := put_eq_ok h
      · rw [get, get, find_create]
        by_cases hk : k = n
        · subst hk
          rw [if_pos rfl, hfind]
          cases value with
          | none => cases q <;> simp [get, find]
          | some a => simp
        · simp [hk]
      · rw [get, get, find_refill hfind]
        by_cases hk : k = n
        · subst hk
          rw [if_pos rfl, hfind]
          simp only [ih hput, List.cons.injEq, true_and]
        · simp [hk]

/-- An object can be created where there is none, in a directory that exists. -/
theorem exists_put_iff : (∃ g, put value f path = .ok g) ↔
    path ≠ [] ∧ get f path.dropLast = some none ∧ get f path = none := by
  induction path generalizing f with
  | nil => simp [put]
  | cons n path ih =>
    cases path with
    | nil =>
      rw [put]
      cases hfind : f.find n with
      | none => simp [get, hfind]
      | some found => cases found <;> simp [get, hfind]
    | cons m path =>
      rw [put, List.dropLast_cons_cons, get, get]
      cases hfind : f.find n with
      | none => simp
      | some found =>
        cases found with
        | inl a => simp
        | inr children =>
          have ih := @ih children
          simp only [ne_eq, reduceCtorEq, not_false_eq_true, true_and] at ih ⊢
          rw [← ih]
          constructor
          · rintro ⟨g, hg⟩
            cases hput : put value children (m :: path) with
            | error e => simp [hput, Except.map] at hg
            | ok c => exact ⟨c, rfl⟩
          · rintro ⟨c, hc⟩
            exact ⟨_, by rw [hc]; rfl⟩

lemma distinct_refill {children : Forest ν α} (hf : f.Distinct) (hc : children.Distinct) :
    (f.refill n children).Distinct := by
  induction f with
  | nil => exact hf
  | leaf k a rest ih =>
    obtain ⟨hk, hrest⟩ := hf
    exact ⟨by rwa [names_refill], ih hrest⟩
  | node k old rest _ ih =>
    obtain ⟨hk, hold, hrest⟩ := hf
    rw [refill]
    split_ifs
    · exact ⟨hk, hc, hrest⟩
    · exact ⟨by rwa [names_refill], hold, ih hrest⟩

lemma distinct_of_find {children : Forest ν α} (hf : f.Distinct)
    (h : f.find n = some (.inr children)) : children.Distinct := by
  induction f with
  | nil => simp [find] at h
  | leaf k a rest ih =>
    rw [find] at h
    split_ifs at h
    · simp at h
    · exact ih hf.2 h
  | node k old rest _ ih =>
    rw [find] at h
    split_ifs at h
    · obtain rfl := Sum.inr.inj (Option.some.inj h)
      exact hf.2.1
    · exact ih hf.2.2 h

/-- Names stay distinct. -/
theorem distinct_put (hf : f.Distinct) (h : put value f path = .ok g) : g.Distinct := by
  induction path generalizing f g with
  | nil => simp [put] at h
  | cons n path ih =>
    obtain ⟨rfl, hfind, rfl⟩ | ⟨children, c, hfind, hput, rfl⟩ := put_eq_ok h
    · have hn := find_eq_none_iff.mp hfind
      cases value with
      | none => exact ⟨hn, trivial, hf⟩
      | some a => exact ⟨hn, hf⟩
    · exact distinct_refill hf (ih (distinct_of_find hf hfind) hput)

end Lookup

end Forest
