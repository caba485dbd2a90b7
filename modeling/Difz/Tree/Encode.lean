import Difz.Directory.Identity
import Difz.Directory.Projection
import Difz.Tree.Decode

/-!
# The tree patch encoder

Projection, the choice of an operation for every target entry, and the bounded writer
(`rust/src/tree_patch_encode.rs`). A patch that `create` returns is the layout of a well-formed
patch whose entries describe the projected target, `create_eq_ok`.
-/

namespace Difz

open Wire Metadata Directory

namespace TreePatch

open PathFilter (Rule Filter)

/-! ### Projection -/

def projectEntry (mask : Omit) (e : Entry) : Except Error Entry := do
  let metadata ← (e.metadata.borrowingOmitting mask).mapError Error.metadata
  .ok ⟨e.path, e.content, metadata⟩

def project (source : CanonicalSnapshot) (mask : Omit) : Except Error CanonicalSnapshot := do
  let entries ← source.snapshot.entries.mapM (projectEntry mask)
  let root ← (source.snapshot.root.borrowingOmitting mask).mapError Error.metadata
  (CanonicalSnapshot.new ⟨entries, root⟩).mapError Error.snapshot

/-- Projection always succeeds. -/
theorem project_eq (source : CanonicalSnapshot) (mask : Omit) :
    project source mask = .ok (source.retain mask) := by
  have hmap : ∀ entries : List Entry,
      entries.mapM (projectEntry mask) = .ok (entries.map (Entry.retain mask)) := by
    intro entries
    induction entries with
    | nil => rfl
    | cons e entries ih =>
      rw [List.mapM_cons, ih, projectEntry, CanonicalMetadata.borrowingOmitting_eq]
      rfl
  rw [project, hmap, CanonicalMetadata.borrowingOmitting_eq]
  exact mapError_eq_ok.mpr (CanonicalSnapshot.new_eq_ok.mpr rfl)

/-- The snapshot identities are computed on: the source itself when nothing is omitted. -/
def masked (source : CanonicalSnapshot) (mask : Omit) : Except Error CanonicalSnapshot :=
  if mask.bits = 0 then .ok source else project source mask

lemma masked_eq (source : CanonicalSnapshot) (mask : Omit) :
    masked source mask = .ok (source.retain mask) := by
  rw [masked, project_eq]
  split_ifs with h
  · rw [Omit.eq_default_iff] at h
    rw [h, CanonicalSnapshot.retain_default]
  · rfl

/-! ### The writer -/

/-- Append to the output, up to the maximum length. -/
def put (maximum : UInt64) (output bytes : List UInt8) : Except Error (List UInt8) :=
  match CanonicalMetadata.checkedAdd output.length bytes.length with
  | none => .error .limitExceeded
  | some length => if length > maximum.toNat then .error .limitExceeded else .ok (output ++ bytes)

def putMetadata (maximum limit : UInt64) (output : List UInt8) (m : CanonicalMetadata) :
    Except Error (List UInt8) := do
  let bytes ← m.encode.mapError Error.metadata
  if bytes.length > limit.toNat then .error .limitExceeded
  else if bytes.length ≥ 2 ^ 32 then .error .limitExceeded
  else do
    let output ← put maximum output (toLeBytes (UInt32.ofNat bytes.length))
    put maximum output bytes

def putRule (limits : Limits) (output : List UInt8) (rule : Rule) : Except Error (List UInt8) := do
  let pattern := utf8 rule.pattern
  if pattern.isEmpty ∨ pattern.length > limits.maxPatternBytes.toNat then .error .limitExceeded
  else do
    let output ← put limits.envelope.maxPatchBytes output [actionTag rule.action, 0, 0, 0]
    let output ← put limits.envelope.maxPatchBytes output (toLeBytes (UInt32.ofNat pattern.length))
    put limits.envelope.maxPatchBytes output pattern

/-! ### Entries -/

variable (native : Native)

/-- The operation for a target entry and its payload. -/
def selectOperation (limits : Limits) (source : CanonicalSnapshot) (e : Entry) :
    Except Error (Operation × List UInt8) :=
  match e.content with
  | .directory _ => .ok (.directory, [])
  | .symlink target =>
    if target.bytes.length > limits.maxSymlinkBytes.toNat then .error .limitExceeded
    else .ok (.symlink, target.bytes)
  | .file _ bytes =>
    match e.metadata.metadata.hardlinkTo with
    | some link => .ok (.fileHardlink, link)
    | none =>
      match contentAt source.snapshot.entries e.path with
      | some (.file _ previous) =>
        if previous = bytes then .ok (.fileCopy, [])
        else do
          let delta ← (File.encode native previous.bytes bytes.bytes).mapError Error.file
          .ok (.fileDelta, delta)
      | some (.directory _) | some (.symlink _) | none => .ok (.fileRaw, bytes.bytes)

def putEntry (limits : Limits) (source : CanonicalSnapshot) (output : List UInt8) (e : Entry) :
    Except Error (List UInt8) := do
  let (operation, payload) ← selectOperation native limits source e
  if payload.length > limits.maxPayloadBytes.toNat then .error .limitExceeded
  else do
    let put := put limits.envelope.maxPatchBytes
    let output ← put output [operation.tag, 0]
    let output ← put output (toLeBytes e.content.mode.bits)
    let output ← put output (toLeBytes (UInt32.ofNat e.path.length))
    let output ← put output (toLeBytes (UInt64.ofNat payload.length))
    let output ← put output e.path
    let output ← put output payload
    putMetadata limits.envelope.maxPatchBytes limits.maxPayloadBytes output e.metadata

/-! ### Patches -/

structure CreateOptions where
  rules : List Rule
  mask : Omit

/-- The header for projected snapshots. -/
def headerFor (source target : CanonicalSnapshot) (options : CreateOptions) : Header where
  neededReader := 2
  rootMetadata := !target.snapshot.root.metadata.isEmpty
  mask := options.mask
  ruleCount := UInt32.ofNat options.rules.length
  entryCount := UInt32.ofNat target.snapshot.entries.length
  sourceHash := source.hash native.blake3
  targetHash := target.hash native.blake3

def putRoot (limits : Limits) (header : Header) (output : List UInt8) (root : CanonicalMetadata) :
    Except Error (List UInt8) :=
  if header.rootMetadata then
    putMetadata limits.envelope.maxPatchBytes limits.maxPayloadBytes output root
  else .ok output

/-- Everything behind the projection. -/
def createMasked (source target : CanonicalSnapshot) (options : CreateOptions) :
    Except Error (List UInt8) := do
  let limits := Limits.default
  if options.rules.length > limits.envelope.maxRules.toNat then .error .limitExceeded
  else do
    let _ ← (Filter.compile options.rules).mapError Error.filter
    let header := headerFor native source target options
    let output ← put limits.envelope.maxPatchBytes [] (List.replicate headerLen 0)
    let output ← options.rules.foldlM (putRule limits) output
    let output ← target.snapshot.entries.foldlM (putEntry native limits source) output
    let output ← putRoot limits header output target.snapshot.root
    let body := output.drop headerLen
    .ok (header.encode native.blake3 body ++ body)

def create (source target : CanonicalSnapshot) (options : CreateOptions) :
    Except Error (List UInt8) := do
  let maskedSource ← masked source options.mask
  let maskedTarget ← masked target options.mask
  createMasked native maskedSource maskedTarget options

/-! ### What the writer appends -/

variable {native}

lemma put_eq_ok {maximum : UInt64} {output bytes result : List UInt8} :
    put maximum output bytes = .ok result ↔
      result = output ++ bytes ∧ result.length ≤ maximum.toNat := by
  have := maximum.toNat_lt
  rw [put, CanonicalMetadata.checkedAdd]
  split_ifs with h
  · simp only [ite_error_eq_ok, Except.ok.injEq, not_lt]
    constructor
    · intro hx
      obtain ⟨hle, rfl⟩ := hx
      exact ⟨rfl, by simpa using hle⟩
    · intro hx
      obtain ⟨rfl, hle⟩ := hx
      exact ⟨by simpa using hle, rfl⟩
  · simp only [false_iff, not_and]
    rintro rfl
    rw [List.length_append]
    omega

lemma putMetadata_eq_ok {limits : Limits} {output result : List UInt8} {m : CanonicalMetadata}
    (h : putMetadata limits.envelope.maxPatchBytes limits.maxPayloadBytes output m = .ok result) :
    result = output ++ recordWire m ∧ RecordFits limits m ∧
      result.length ≤ limits.envelope.maxPatchBytes.toNat := by
  simp only [putMetadata, Wire.bind_eq_ok, mapError_eq_ok, ite_error_eq_ok, put_eq_ok,
    CanonicalMetadata.encode_eq] at h
  obtain ⟨bytes, hbytes, hlimit, h32, mid, ⟨rfl, -⟩, rfl, hlen⟩ := h
  split_ifs at hbytes
  obtain rfl := Except.ok.inj hbytes
  exact ⟨by simp [recordWire], ⟨by omega, by omega⟩, hlen⟩

lemma putRoot_eq_ok {limits : Limits} {header : Header} {output result : List UInt8}
    {root : CanonicalMetadata} (h : putRoot limits header output root = .ok result)
    (hlen : output.length ≤ limits.envelope.maxPatchBytes.toNat) :
    result = output ++ rootWire header root ∧
      (header.rootMetadata = true → RecordFits limits root) ∧
      result.length ≤ limits.envelope.maxPatchBytes.toNat := by
  rw [putRoot] at h
  split_ifs at h with hroot
  · obtain ⟨rfl, hfits, hle⟩ := putMetadata_eq_ok h
    exact ⟨by rw [rootWire, if_pos hroot], fun _ => hfits, hle⟩
  · obtain rfl := Except.ok.inj h
    exact ⟨by rw [rootWire, if_neg hroot, List.append_nil], fun hc => absurd hc hroot, hlen⟩

lemma putRule_eq_ok {limits : Limits} {output result : List UInt8} {rule : Rule}
    (h : putRule limits output rule = .ok result) :
    result = output ++ ruleWire rule ∧ RuleFits limits rule ∧
      result.length ≤ limits.envelope.maxPatchBytes.toNat := by
  simp only [putRule, Wire.bind_eq_ok, ite_error_eq_ok, put_eq_ok, not_or, not_lt,
    Bool.not_eq_true, List.isEmpty_eq_false_iff, ne_eq, utf8_eq_nil_iff] at h
  obtain ⟨⟨hne, hle⟩, out₁, ⟨rfl, -⟩, out₂, ⟨rfl, -⟩, rfl, hlen⟩ := h
  refine ⟨?_, ⟨hne, hle⟩, hlen⟩
  have h₁ : toLeBytes (0 : UInt8) = [0] := rfl
  have h₂ : toLeBytes (0 : UInt16) = [0, 0] := rfl
  simp [ruleWire, h₁, h₂]

/-- The descriptor `d` stands for the entry `e` in a patch against `source`. -/
structure Describes (native : Native) (source : CanonicalSnapshot) (e : Entry) (d : DecodedEntry) :
    Prop where
  path : d.path = e.path
  mode : d.mode = e.content.mode.bits
  metadata : d.metadata = e.metadata
  operation : selectOperation native Limits.default source e = .ok (d.operation, d.payload)

lemma putEntry_eq_ok {source : CanonicalSnapshot} {output result : List UInt8} {e : Entry}
    (h : putEntry native Limits.default source output e = .ok result) :
    ∃ d, Describes native source e d ∧ result = output ++ d.wire ∧
      d.payload.length ≤ Limits.default.maxPayloadBytes.toNat ∧
      RecordFits Limits.default d.metadata ∧
      result.length ≤ Limits.default.envelope.maxPatchBytes.toNat := by
  simp only [putEntry, Wire.bind_eq_ok, Prod.exists, ite_error_eq_ok, put_eq_ok, not_lt] at h
  obtain ⟨op, payload, hop, hle, out₁, ⟨rfl, -⟩, out₂, ⟨rfl, -⟩, out₃, ⟨rfl, -⟩, out₄, ⟨rfl, -⟩,
    out₅, ⟨rfl, -⟩, out₆, ⟨rfl, -⟩, h⟩ := h
  obtain ⟨rfl, hfits, hlen⟩ := putMetadata_eq_ok h
  refine ⟨⟨e.path, e.content.mode.bits, op, payload, e.metadata⟩, ⟨rfl, rfl, rfl, hop⟩, ?_, hle,
    hfits, hlen⟩
  have h₁ : toLeBytes (0 : UInt8) = [0] := rfl
  simp [DecodedEntry.wire, h₁]

/-- A fold of writers appends the encodings of what the writers describe. -/
lemma foldlM_put {α β : Type} {f : List UInt8 → α → Except Error (List UInt8)}
    (R : α → β → Prop) (enc : β → List UInt8) {maximum : Nat}
    (hf : ∀ output x result, f output x = .ok result →
      ∃ y, R x y ∧ result = output ++ enc y ∧ result.length ≤ maximum)
    {xs : List α} {output result : List UInt8} (h : xs.foldlM f output = .ok result)
    (hlen : output.length ≤ maximum) :
    ∃ ys, List.Forall₂ R xs ys ∧ result = output ++ ys.flatMap enc ∧ result.length ≤ maximum := by
  induction xs generalizing output with
  | nil =>
    obtain rfl := Except.ok.inj h
    exact ⟨[], .nil, by simp, hlen⟩
  | cons x xs ih =>
    rw [List.foldlM_cons, Wire.bind_eq_ok] at h
    obtain ⟨mid, hmid, h⟩ := h
    obtain ⟨y, hy, rfl, hle⟩ := hf _ _ _ hmid
    obtain ⟨ys, hys, rfl, hres⟩ := ih h hle
    exact ⟨y :: ys, .cons hy hys, by simp, hres⟩

/-! ### Descriptors -/

namespace Describes

variable {source : CanonicalSnapshot} {e : Entry} {d : DecodedEntry}

/-- The kinds of operation that describe a content. -/
lemma operation_cases (h : Describes native source e d) :
    (∃ mode, e.content = .directory mode ∧ d.operation = .directory ∧ d.payload = []) ∨
    (∃ target, e.content = .symlink target ∧ d.operation = .symlink ∧ d.payload = target.bytes ∧
      target.bytes.length ≤ Limits.default.maxSymlinkBytes.toNat) ∨
    (∃ mode bytes, e.content = .file mode bytes ∧
      ((∃ link, e.metadata.metadata.hardlinkTo = some link ∧ d.operation = .fileHardlink ∧
        d.payload = link) ∨
      (e.metadata.metadata.hardlinkTo = none ∧
        ((∃ m, contentAt source.snapshot.entries e.path = some (.file m bytes) ∧
          d.operation = .fileCopy ∧ d.payload = []) ∨
        (∃ m previous, contentAt source.snapshot.entries e.path = some (.file m previous) ∧
          d.operation = .fileDelta ∧
          File.encode native previous.bytes bytes.bytes = .ok d.payload) ∨
        (d.operation = .fileRaw ∧ d.payload = bytes.bytes))))) := by
  have hop := h.operation
  rw [selectOperation] at hop
  cases hc : e.content with
  | directory mode =>
    simp only [hc, Except.ok.injEq, Prod.mk.injEq] at hop
    exact Or.inl ⟨mode, rfl, hop.1.symm, hop.2.symm⟩
  | symlink target =>
    simp only [hc, ite_error_eq_ok, Except.ok.injEq, Prod.mk.injEq, not_lt] at hop
    exact Or.inr (Or.inl ⟨target, rfl, hop.2.1.symm, hop.2.2.symm, hop.1⟩)
  | file mode bytes =>
    refine Or.inr (Or.inr ⟨mode, bytes, rfl, ?_⟩)
    cases hl : e.metadata.metadata.hardlinkTo with
    | some link =>
      simp only [hc, hl, Except.ok.injEq, Prod.mk.injEq] at hop
      exact Or.inl ⟨link, rfl, hop.1.symm, hop.2.symm⟩
    | none =>
      refine Or.inr ⟨rfl, ?_⟩
      have raw : (Except.ok (Operation.fileRaw, bytes.bytes) : Except Error _)
          = .ok (d.operation, d.payload) → d.operation = .fileRaw ∧ d.payload = bytes.bytes := by
        intro h
        obtain ⟨h₁, h₂⟩ := Prod.mk.inj (Except.ok.inj h)
        exact ⟨h₁.symm, h₂.symm⟩
      cases hold : contentAt source.snapshot.entries e.path with
      | none =>
        simp only [hc, hl, hold] at hop
        exact Or.inr (Or.inr (raw hop))
      | some old =>
        cases old with
        | directory m =>
          simp only [hc, hl, hold] at hop
          exact Or.inr (Or.inr (raw hop))
        | symlink t =>
          simp only [hc, hl, hold] at hop
          exact Or.inr (Or.inr (raw hop))
        | file m previous =>
          simp only [hc, hl, hold] at hop
          split_ifs at hop with heq
          · obtain ⟨h₁, h₂⟩ := Prod.mk.inj (Except.ok.inj hop)
            exact Or.inl ⟨m, by rw [heq], h₁.symm, h₂.symm⟩
          · simp only [Wire.bind_eq_ok, mapError_eq_ok, Except.ok.injEq, Prod.mk.injEq] at hop
            obtain ⟨delta, hdelta, h₁, rfl⟩ := hop
            exact Or.inr (Or.inl ⟨m, previous, rfl, h₁.symm, hdelta⟩)

lemma shapeOf_eq (h : Describes native source e d) : shapeOf d = shapeOf e := by
  have hrecord : View.record d = ⟨e.path, e.content.mode.bits, d.operation.kind, d.payload⟩ := by
    rw [← h.path, ← h.mode]
    rfl
  have hentry : View.record e = e.structure := rfl
  rw [shapeOf, shapeOf, hrecord, hentry, Entry.structure]
  rcases h.operation_cases with ⟨mode, hc, ho, hp⟩ | ⟨target, hc, ho, hp, -⟩ | ⟨mode, bytes, hc, h⟩
  · rw [hc, ho, hp]
    rfl
  · rw [hc, ho, hp]
    rfl
  · rcases h with ⟨link, -, ho, -⟩ | ⟨-, ⟨m, -, ho, -⟩ | ⟨m, previous, -, ho, -⟩ | ⟨ho, -⟩⟩ <;>
      (rw [hc, ho]; rfl)

/-- In a canonical target, operation, payload and reference agree. -/
lemma consistent (h : Describes native source e d) {before : List Entry}
    (hlink : checkHardlink before e = .ok ()) : d.Consistent := by
  have hnone : (∀ mode bytes, e.content ≠ .file mode bytes) →
      e.metadata.metadata.hardlinkTo = none := by
    intro hne
    rw [Option.eq_none_iff_forall_not_mem]
    intro path hpath
    obtain ⟨mode, bytes, -, hc, -⟩ := checkHardlink_eq_ok.mp hlink path hpath
    exact hne mode bytes hc
  rcases h.operation_cases with ⟨mode, hc, ho, hp⟩ | ⟨target, hc, ho, hp, -⟩ | ⟨mode, bytes, hc, hf⟩
  · exact ⟨fun _ => hp, by simp [ho], fun _ => h.metadata ▸ hnone (by simp [hc])⟩
  · exact ⟨by simp [ho], by simp [ho], fun _ => h.metadata ▸ hnone (by simp [hc])⟩
  · rcases hf with ⟨link, hl, ho, hp⟩ | ⟨hl, ⟨m, -, ho, hp⟩ | ⟨m, previous, -, ho, -⟩ | ⟨ho, -⟩⟩
    · exact ⟨by simp [ho], fun _ => by rw [h.metadata, hl, hp], fun hne => absurd ho hne⟩
    · exact ⟨fun _ => hp, by simp [ho], fun _ => h.metadata ▸ hl⟩
    · exact ⟨by simp [ho], by simp [ho], fun _ => h.metadata ▸ hl⟩
    · exact ⟨by simp [ho], by simp [ho], fun _ => h.metadata ▸ hl⟩

lemma link_length (h : Describes native source e d) (hs : d.operation = .symlink) :
    d.payload.length ≤ Limits.default.maxSymlinkBytes.toNat := by
  rcases h.operation_cases with
    ⟨mode, hc, ho, hp⟩ | ⟨target, hc, ho, hp, hle⟩ | ⟨mode, bytes, hc, h⟩
  · simp [hs] at ho
  · rwa [hp]
  · rcases h with ⟨link, -, ho, -⟩ | ⟨-, ⟨m, -, ho, -⟩ | ⟨m, previous, -, ho, -⟩ | ⟨ho, -⟩⟩ <;>
      simp [hs] at ho

end Describes

/-! ### Created patches -/

lemma exists_of_forall₂ {α β : Type} {R : α → β → Prop} {xs : List α} {ys : List β}
    (h : List.Forall₂ R xs ys) {y : β} (hy : y ∈ ys) : ∃ x ∈ xs, R x y := by
  induction h with
  | nil => simp at hy
  | cons hr _ ih =>
    rcases List.mem_cons.mp hy with rfl | hy
    · exact ⟨_, List.mem_cons_self, hr⟩
    · obtain ⟨x, hx, hr⟩ := ih hy
      exact ⟨x, List.mem_cons_of_mem _ hx, hr⟩

lemma path_ne_nil {s : CanonicalSnapshot} {e : Entry} (he : e ∈ s.snapshot.entries) :
    e.path ≠ [] := by
  obtain ⟨before, after, h⟩ := List.append_of_mem he
  have hpath := (entryOk_of_validate s.isValid.structure_ h).path
  rw [pathOf_entry, validatePath, ite_error_eq_ok] at hpath
  simpa using hpath.1

/-- Descriptors of a canonical target pass the checks of the decoder. -/
lemma describes_entries {source target : CanonicalSnapshot} {mask : Omit} {ds : List DecodedEntry}
    (hds : List.Forall₂ (fun e d => Describes native source e d ∧
      d.payload.length ≤ Limits.default.maxPayloadBytes.toNat ∧
      RecordFits Limits.default d.metadata) (target.retain mask).snapshot.entries ds) :
    (∀ d ∈ ds, d.Fits Limits.default ∧ d.Consistent) ∧
      (∀ d ∈ ds, hasOmitted d.metadata.metadata mask = false) ∧ validate ds = .ok () := by
  refine ⟨fun d hd => ?_, fun d hd => ?_, ?_⟩
  · obtain ⟨e, he, h, hlen, hfits⟩ := exists_of_forall₂ hds hd
    obtain ⟨before, after, hsplit⟩ := List.append_of_mem he
    refine ⟨⟨?_, ?_, hlen, h.link_length, hfits⟩,
      h.consistent ((target.retain mask).isValid.hardlinks before e after hsplit)⟩
    · rw [h.path]
      exact path_ne_nil he
    · rw [h.path]
      exact length_path_le he
  · obtain ⟨e, he, h, -⟩ := exists_of_forall₂ hds hd
    obtain ⟨e', -, rfl⟩ := List.mem_map.mp he
    rw [h.metadata]
    exact hasOmitted_retain _ mask
  · rw [← (target.retain mask).isValid.structure_]
    apply validate_congr
    rw [← List.forall₂_eq_eq_eq, List.forall₂_map_left_iff, List.forall₂_map_right_iff]
    exact List.Forall₂.flip (hds.imp fun e d h => h.1.shapeOf_eq)

/-- A created patch is the layout of a well-formed patch for the projected snapshots. -/
theorem create_eq_ok {source target : CanonicalSnapshot} {options : CreateOptions}
    {patch : List UInt8} (h : create native source target options = .ok patch) :
    ∃ p : ParsedPatch, patch = p.layout native.blake3 ∧ p.WellFormed Limits.default ∧
      p.header =
        headerFor native (source.retain options.mask) (target.retain options.mask) options ∧
      p.rules = options.rules ∧ p.root = (target.retain options.mask).snapshot.root ∧
      List.Forall₂ (Describes native (source.retain options.mask))
        (target.retain options.mask).snapshot.entries p.entries := by
  simp only [create, masked_eq, ok_bind] at h
  simp only [createMasked, ite_error_eq_ok, Wire.bind_eq_ok, mapError_eq_ok, put_eq_ok,
    not_lt, Except.ok.injEq] at h
  obtain ⟨hcount, f, hfilter, _, ⟨rfl, hlen₀⟩, _, hrules, _, hentries, _, hroot, rfl⟩ := h
  obtain ⟨rules, hR, rfl, hlen₁⟩ := foldlM_put
    (fun r r' => r = r' ∧ RuleFits Limits.default r') ruleWire
    (fun output r result hr => by
      obtain ⟨h₁, h₂, h₃⟩ := putRule_eq_ok hr
      exact ⟨r, ⟨rfl, h₂⟩, h₁, h₃⟩) hrules hlen₀
  obtain ⟨ds, hD, rfl, hlen₂⟩ := foldlM_put
    (fun e d => Describes native (source.retain options.mask) e d ∧
      d.payload.length ≤ Limits.default.maxPayloadBytes.toNat ∧
      RecordFits Limits.default d.metadata) DecodedEntry.wire
    (fun output e result he => by
      obtain ⟨d, h₁, h₂, h₃, h₄, h₅⟩ := putEntry_eq_ok he
      exact ⟨d, ⟨h₁, h₃, h₄⟩, h₂, h₅⟩) hentries hlen₁
  obtain ⟨rfl, hfits, hlen₃⟩ := putRoot_eq_ok hroot hlen₂
  obtain rfl : options.rules = rules :=
    List.forall₂_eq_eq_eq ▸ hR.imp fun r r' h => h.1
  obtain ⟨hok, hretained, hstructure⟩ := describes_entries hD
  have hds : List.Forall₂ (Describes native (source.retain options.mask))
      (target.retain options.mask).snapshot.entries ds := hD.imp fun e d h => h.1
  have hbody : ∀ w : List UInt8,
      ((([] ++ List.replicate headerLen 0) ++ options.rules.flatMap ruleWire)
        ++ ds.flatMap DecodedEntry.wire ++ w).drop headerLen
      = options.rules.flatMap ruleWire ++ (ds.flatMap DecodedEntry.wire ++ w) := by
    intro w
    rw [List.nil_append, List.append_assoc, List.append_assoc]
    exact List.drop_left' (by simp)
  rw [hbody]
  refine ⟨⟨headerFor native (source.retain options.mask) (target.retain options.mask) options,
    options.rules, ds, (target.retain options.mask).snapshot.root⟩, rfl, ?_, rfl, rfl, rfl, hds⟩
  have hentries : (target.retain options.mask).snapshot.entries.length ≤ 1000000 :=
    length_entries_le _
  have hrules : options.rules.length ≤ 4096 := hcount
  have hr32 : (UInt32.ofNat options.rules.length).toNat = options.rules.length :=
    UInt32.toNat_ofNat_of_lt' (hrules.trans_lt (by decide))
  have he32 : (UInt32.ofNat (target.retain options.mask).snapshot.entries.length).toNat
      = (target.retain options.mask).snapshot.entries.length :=
    UInt32.toNat_ofNat_of_lt' (hentries.trans_lt (by decide))
  have hroot := (target.retain options.mask).isValid
  exact
    { reader := (by decide : (2 : UInt16) ≤ version)
      ruleCount := hr32.symm
      entryCount := hds.length_eq.symm.trans he32.symm
      maxRules := UInt32.le_iff_toNat_le.mpr (hr32.trans_le hrules)
      maxEntries := UInt32.le_iff_toNat_le.mpr (he32.trans_le hentries)
      maxBytes := by
        refine le_of_eq_of_le ?_ hlen₃
        simp [ParsedPatch.body]
      rules := fun r hr => by
        obtain ⟨r', -, rfl, hfit⟩ := exists_of_forall₂ hR hr
        exact hfit
      filter := ⟨f, hfilter⟩
      entries := hok
      retained := hretained
      structure_ := hstructure
      root := ⟨rfl, hroot.rootHoles, hroot.rootHardlink, hasOmitted_retain _ _, hfits⟩ }

end TreePatch

end Difz
