import Difz.Tree.Apply

/-!
# Created patches apply

The loop of `apply`, run on the descriptors the encoder wrote, rebuilds the projected target entry
by entry, and fails only where the budget runs out.
-/

namespace Difz

open Wire Metadata Directory

namespace TreePatch

open PathFilter (Rule)

variable {native : Native}

/-- What is left of a budget after a content, if the budget covers it. -/
def spend {α : Type} (remaining : UInt64) (length : Nat) (x : α) : Except Error (α × UInt64) :=
  if length ≤ remaining.toNat then .ok (x, UInt64.ofNat (remaining.toNat - length))
  else .error .limitExceeded

lemma account_slice (remaining : UInt64) (slice : Slice) :
    account remaining slice.bytes = spend remaining slice.bytes.length slice := by
  rw [account, spend]
  split_ifs <;> rfl

lemma spend_bind {α β : Type} (remaining : UInt64) (length : Nat) (x : α) (f : α → β) :
    (spend remaining length x >>= fun p => .ok (f p.1, p.2)) = spend remaining length (f x) := by
  rw [spend, spend]
  split_ifs <;> rfl

/-- One round on the descriptor of a target entry. -/
lemma rebuild_describes (hz : native.Inverts) {source : CanonicalSnapshot} {built : List Entry}
    {e : Entry} {d : DecodedEntry} (h : Describes native source e d)
    (hlink : checkHardlink built e = .ok ()) (remaining : UInt64) :
    rebuild native source built remaining d
      = spend remaining e.content.bytes.length e.content := by
  have hmode : (Mode.fromBits d.mode).mapError Error.snapshot = .ok e.content.mode := by
    rw [mapError_eq_ok, Mode.fromBits_eq_ok, h.mode]
  have hfile : ∀ m b, contentAt source.snapshot.entries e.path = some (.file m b) →
      sourceFile source d.path = .ok b := by
    intro m b hc
    rw [sourceFile, h.path, hc]
  rw [rebuild, hmode, ok_bind]
  rcases h.operation_cases with ⟨mode, hc, ho, hp⟩ | ⟨t, hc, ho, hp, -⟩ | ⟨mode, bytes, hc, hf⟩
  · rw [ho, hc]
    simp [spend, Content.bytes, Content.mode]
  · rw [ho, hc, hp]
    dsimp only
    rw [account_slice]
    exact spend_bind remaining _ t Content.symlink
  · have hcm : e.content.mode = mode := by rw [hc, Content.mode]
    have hfinish : (spend remaining bytes.bytes.length bytes >>= fun p =>
        (.ok (Content.file mode p.1, p.2) : Except Error _))
        = spend remaining (Content.file mode bytes).bytes.length (Content.file mode bytes) :=
      spend_bind remaining _ bytes (Content.file mode)
    rw [hcm, hc]
    rcases hf with ⟨link, hl, ho, hp⟩ | ⟨-, ⟨m, hat, ho, -⟩ | ⟨m, previous, hat, ho, hd⟩ | ⟨ho, hp⟩⟩
    · obtain ⟨m', b', target, hc', hat, htc, htl, -⟩ := checkHardlink_eq_ok.mp hlink link hl
      obtain ⟨rfl, rfl⟩ := Content.file.inj (hc.symm.trans hc')
      have hlinked : linkedFile built d.payload = .ok bytes := by
        simp [linkedFile, hp, hat, htl, htc]
      rw [ho]
      dsimp only
      rw [hlinked, ok_bind, account_slice]
      exact hfinish
    · rw [ho]
      dsimp only
      rw [hfile m bytes hat, ok_bind, account_slice]
      exact hfinish
    · rw [ho]
      dsimp only
      rw [hfile m previous hat, ok_bind, delta_encode hz hd]
      by_cases hle : bytes.bytes.length ≤ remaining.toNat
      · rw [if_pos hle, ok_bind, account_slice]
        exact hfinish
      · rw [if_neg hle, error_bind]
        exact (if_neg hle).symm
    · rw [ho, hp]
      dsimp only
      rw [account_slice]
      exact hfinish

/-- A whole run on the descriptors of a target, behind the entries already rebuilt. -/
lemma foldlM_describes (hz : native.Inverts) {source : CanonicalSnapshot} {es : List Entry}
    {ds : List DecodedEntry} (h : List.Forall₂ (Describes native source) es ds)
    (built : List Entry)
    (hlink : ∀ before e after, built ++ es = before ++ e :: after → checkHardlink before e = .ok ())
    (remaining : UInt64) :
    ds.foldlM (rebuildEntry native source) (built, remaining)
      = spend remaining (totalBytes es) (built ++ es) := by
  induction h generalizing built remaining with
  | nil => simp [spend, pure, Except.pure]
  | @cons e d es ds he _ ih =>
    have hstep : rebuildEntry native source (built, remaining) d
        = spend remaining e.content.bytes.length (built ++ [e]) := by
      rw [rebuildEntry, rebuild_describes hz he (hlink built e es rfl), he.path, he.metadata]
      exact spend_bind remaining _ e.content fun c => built ++ [⟨e.path, c, e.metadata⟩]
    rw [List.foldlM_cons, hstep, spend, totalBytes_cons, spend]
    by_cases hle : e.content.bytes.length ≤ remaining.toNat
    · have hsub : (UInt64.ofNat (remaining.toNat - e.content.bytes.length)).toNat
          = remaining.toNat - e.content.bytes.length :=
        UInt64.toNat_ofNat_of_lt' ((Nat.sub_le _ _).trans_lt remaining.toNat_lt)
      rw [if_pos hle, ok_bind, ih _ (by simpa using hlink), spend, hsub]
      by_cases hsum : totalBytes es ≤ remaining.toNat - e.content.bytes.length
      · rw [if_pos hsum, if_pos (by omega), Nat.sub_sub, List.append_assoc, List.singleton_append]
      · rw [if_neg hsum, if_neg (by omega)]
    · rw [if_neg hle, error_bind, if_neg (by omega)]

/-- A created patch decodes to what was asked for and applies within the budget. -/
lemma apply_create (hz : native.Inverts) {source target : CanonicalSnapshot}
    {options : CreateOptions} {patch : List UInt8}
    (h : create native source target options = .ok patch) :
    (∃ p, ParsedPatch.decode native.blake3 patch Limits.default = .ok p ∧
      p.rules = options.rules ∧ p.header.mask = options.mask) ∧
    ∀ budget : UInt64, apply native source patch ⟨Limits.default, budget⟩ =
      if totalBytes (target.retain options.mask).snapshot.entries ≤ budget.toNat then
        .ok (target.retain options.mask)
      else .error .limitExceeded := by
  obtain ⟨p, rfl, hwf, hheader, hrules, hroot, hds⟩ := create_eq_ok h
  have hdecode : ParsedPatch.decode native.blake3 (p.layout native.blake3) Limits.default = .ok p :=
    ParsedPatch.decode_eq_ok.mpr ⟨rfl, hwf⟩
  have hmask : p.header.mask = options.mask := by rw [hheader, headerFor]
  refine ⟨⟨p, hdecode, hrules, hmask⟩, fun budget => ?_⟩
  have hsource : (source.retain options.mask).hash native.blake3 = p.header.sourceHash := by
    rw [hheader, headerFor]
  have htarget : (target.retain options.mask).hash native.blake3 = p.header.targetHash := by
    rw [hheader, headerFor]
  have hrun : p.entries.foldlM (rebuildEntry native source) ([], budget)
      = spend budget (totalBytes (target.retain options.mask).snapshot.entries)
        (target.retain options.mask).snapshot.entries := by
    rw [← rebuildEntry_retain source options.mask]
    have := foldlM_describes hz hds [] (fun before e after hsplit =>
      (target.retain options.mask).isValid.hardlinks before e after hsplit) budget
    simpa using this
  have hnew : CanonicalSnapshot.new ⟨(target.retain options.mask).snapshot.entries, p.root⟩
      = .ok (target.retain options.mask) := by
    rw [CanonicalSnapshot.new_eq_ok, hroot]
  rw [apply, hdecode, ok_bind, expand, hmask, masked_eq, ok_bind, ensure, if_pos hsource, ok_bind,
    hrun, spend]
  split_ifs with hle
  · rw [ok_bind]
    dsimp only
    rw [hnew]
    change (ensure _ _ >>= fun _ => Except.ok (target.retain options.mask)) = _
    rw [ensure, if_pos htarget, ok_bind]
  · rfl

/-- Tree round trip. A patch that `create` returns decodes under the default limits to the given
rules and mask, and applies to its source: the result is the projected target when the budget
covers every content of it, and a budget failure otherwise. -/
theorem create_apply_round_trip (native : Native) (hz : native.Inverts)
    (source target : CanonicalSnapshot) (rules : List Rule) (mask : Omit) (patch : List UInt8)
    (h : create native source target ⟨rules, mask⟩ = .ok patch) :
    (∃ p, ParsedPatch.decode native.blake3 patch Limits.default = .ok p ∧ p.rules = rules ∧
      p.header.mask = mask) ∧
    ∃ projected, project target mask = .ok projected ∧
      ∀ budget : UInt64, apply native source patch ⟨Limits.default, budget⟩ =
        if totalBytes projected.snapshot.entries ≤ budget.toNat then .ok projected
        else .error .limitExceeded := by
  obtain ⟨hdecode, happly⟩ := apply_create hz h
  exact ⟨hdecode, target.retain mask, project_eq _ _, happly⟩

/-! ### A small tree -/

/-- A tree with the file `a`. -/
def fileTree : CanonicalSnapshot :=
  ⟨⟨[⟨utf8 "a", .file ⟨0o644, by decide⟩ ⟨utf8 "x", by decide⟩, .default⟩], .default⟩, by decide⟩

def linkRecord : CanonicalMetadata :=
  ⟨{ Metadata.default with hardlinkTo := some (utf8 "a") }, by decide⟩

/-- The tree with the file rewritten and linked a second time. -/
def linkedTree : CanonicalSnapshot :=
  ⟨⟨[⟨utf8 "a", .file ⟨0o644, by decide⟩ ⟨utf8 "y", by decide⟩, .default⟩,
    ⟨utf8 "b", .file ⟨0o644, by decide⟩ ⟨utf8 "y", by decide⟩, linkRecord⟩], .default⟩, by decide⟩

/-- One rule with its exclamation mark, and timestamps left out. -/
def linkOptions : CreateOptions := ⟨[⟨.include_, "!a"⟩], ⟨4, by decide⟩⟩

/-- The BLAKE3 digests of the two files and of the two metadata records. -/
def recordDigests : List (List UInt8 × Digest) :=
  [ (utf8 "x", ⟨File.ofHex
      "3ae7d805f6789a6402acb70ad4096a85a56bf6804eaf25c0493ac697548d30b5".toList, by decide⟩)
  , (utf8 "y", ⟨File.ofHex
      "08112a9e334ce73042b531c25668cf5cb12a1ee040a4326afeac065461079a06".toList, by decide⟩)
  , (utf8 "DIFZMETA\x01" ++ Metadata.default.wire, ⟨File.ofHex
      "99db979b83139627ce6421e759bf1edcb4715a4424a4b9683b09991097f0da13".toList, by decide⟩)
  , (utf8 "DIFZMETA\x01" ++ linkRecord.metadata.wire, ⟨File.ofHex
      "f71670f27751b301a622855a5162338c4e7dd73e5d4c3807a52b2cc461244522".toList, by decide⟩) ]

/-- Together with those of the two trees. -/
def treeDigests : List (List UInt8 × Digest) :=
  recordDigests ++
  [ (fileTree.hashInput (CanonicalMetadata.hash (File.tabulated recordDigests)), ⟨File.ofHex
      "467ea09c4a3df355c2e6d240d10d92737762b449680b64c43be2b451cdac5e26".toList, by decide⟩)
  , (linkedTree.hashInput (CanonicalMetadata.hash (File.tabulated recordDigests)), ⟨File.ofHex
      "079ba151606b1cb27cbfb5f8fba8437c1bcd19a291681a9047fda571e6858665".toList, by decide⟩) ]

/-- Together with the checksum of the patch between them. -/
def patchDigests : List (List UInt8 × Digest) :=
  let unsealed := (create (File.stored treeDigests) fileTree linkedTree linkOptions).toOption.getD []
  treeDigests ++
  [ (utf8 "DIFZTREE-PATCH\x02" ++ unsealed.take checksumOffset ++ unsealed.drop headerLen,
      ⟨File.ofHex "3f1bfb57227ee2ddc48b40942109663c1b0f34cadf523312ab831a442299a4c5".toList,
      by decide⟩) ]

lemma exists_create : ∃ patch,
    create (File.stored patchDigests) fileTree linkedTree linkOptions = .ok patch := by
  have h : (create (File.stored patchDigests) fileTree linkedTree linkOptions).toOption.isSome
      = true := by decide +kernel
  cases hc : create (File.stored patchDigests) fileTree linkedTree linkOptions with
  | error e => simp [hc, Except.toOption] at h
  | ok patch => exact ⟨patch, rfl⟩

/-- The delta and the link of the small tree survive the round trip, rule and all. The two copies
of the file count twice against the budget. -/
theorem create_apply_round_trip_linked :
    ∃ patch p projected,
      create (File.stored patchDigests) fileTree linkedTree linkOptions = .ok patch ∧
      ParsedPatch.decode (File.tabulated patchDigests) patch Limits.default = .ok p ∧
      p.rules = [⟨.include_, "!a"⟩] ∧
      apply (File.stored patchDigests) fileTree patch ⟨Limits.default, 2⟩ = .ok projected ∧
      apply (File.stored patchDigests) fileTree patch ⟨Limits.default, 1⟩
        = .error .limitExceeded := by
  obtain ⟨patch, hpatch⟩ := exists_create
  obtain ⟨⟨p, hp, hrules, -⟩, projected, hproj, happly⟩ := create_apply_round_trip
    (File.stored patchDigests) (File.stored_inverts _) fileTree linkedTree linkOptions.rules
    linkOptions.mask patch hpatch
  have htotal : totalBytes projected.snapshot.entries = 2 := by
    rw [project_eq] at hproj
    rw [← Except.ok.inj hproj]
    rfl
  refine ⟨patch, p, projected, hpatch, hp, hrules, ?_, ?_⟩
  · rw [happly, htotal]
    rfl
  · rw [happly, htotal]
    rfl

end TreePatch

end Difz
