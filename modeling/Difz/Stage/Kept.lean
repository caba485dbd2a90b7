import Difz.Stage.World

/-!
# What a run leaves alone

`Kept` relates two disks of a run: everything that is not the run's own is still there and has not
changed. Every call of the run and every interference keeps it, so it holds between any two moments
(`Sound`). `call_triple` is the rule for one call; the specification of each kind of call follows.
-/

namespace Difz

open Program

namespace Stage

variable {Tree : Type}

/-- Nothing foreign is lost or changed on the way from one disk to another. -/
structure Kept (output staging : Name) (d d' : Disk Tree) : Prop where
  existing : ∀ n, d'.content (.existing n) = d.content (.existing n)
  foreign : ∀ name inode, d.parent name = some inode → inode.Foreign →
    d'.parent name = some inode ∧ d'.content inode = d.content inode
  others : ∀ name, name ≠ output → name ≠ staging → d'.parent name = d.parent name
  /-- other processes are active at the output name only -/
  home : ∀ name k, d'.parent name = some (.intruder k) →
    d.parent name = some (.intruder k) ∨ name = output

variable {output staging : Name} {d d' d'' : Disk Tree}

namespace Kept

lemma refl (d : Disk Tree) : Kept output staging d d :=
  ⟨fun _ => rfl, fun _ _ h _ => ⟨h, rfl⟩, fun _ _ _ => rfl, fun _ _ h => .inl h⟩

lemma trans (h : Kept output staging d d') (h' : Kept output staging d' d'') :
    Kept output staging d d'' where
  existing n := (h'.existing n).trans (h.existing n)
  foreign name inode hname hforeign := by
    obtain ⟨hname', hcontent⟩ := h.foreign name inode hname hforeign
    obtain ⟨hname'', hcontent'⟩ := h'.foreign name inode hname' hforeign
    exact ⟨hname'', hcontent'.trans hcontent⟩
  others name ho hs := (h'.others name ho hs).trans (h.others name ho hs)
  home name k hname := by
    rcases h'.home name k hname with hname' | ho
    · exact h.home name k hname'
    · exact .inr ho

/-- New contents for an object that no name of someone else leads to. -/
lemma fill {inode : Inode} (hnew : ∀ n, inode ≠ .existing n)
    (hfree : inode.Foreign → ∀ name, d.parent name ≠ some inode) (tree : Tree) :
    Kept output staging d (d.fill inode tree) where
  existing n := d.fill_content_of_ne (hnew n).symm tree
  foreign name i hname hforeign := by
    refine ⟨hname, d.fill_content_of_ne ?_ tree⟩
    rintro rfl
    exact hfree hforeign name hname
  others _ _ _ := rfl
  home _ _ h := .inl h

lemma fill_created (k : Nat) (tree : Tree) : Kept output staging d (d.fill (.created k) tree) :=
  fill (by simp) (by simp [Inode.Foreign]) tree

/-- A new meaning for the output or staging name, if it does not stand for a foreign object. -/
lemma bind {name : Name} {inode : Option Inode} (hname : name = output ∨ name = staging)
    (hfree : ∀ i, d.parent name = some i → ¬i.Foreign)
    (hhome : ∀ k, inode = some (.intruder k) → name = output) :
    Kept output staging d (d.bind name inode) where
  existing _ := rfl
  foreign n i hn hforeign := by
    have hne : n ≠ name := by
      rintro rfl
      exact hfree i hn hforeign
    exact ⟨(d.bind_parent_of_ne hne inode).trans hn, rfl⟩
  others n ho hs := by
    have hne : n ≠ name := by
      rintro rfl
      exact hname.elim ho hs
    exact d.bind_parent_of_ne hne inode
  home n k h := by
    by_cases hn : n = name
    · subst hn
      rw [Disk.bind_parent_self] at h
      exact .inr (hhome k h)
    · rw [d.bind_parent_of_ne hn] at h
      exact .inl h

/-- Interference at a free output name. -/
lemma intrude (hhome : ∀ name k, d.parent name = some (.intruder k) → name = output) (tick : Nat)
    (tree : Option Tree) : Kept output staging d (d.intrude output tick tree) := by
  obtain h | ⟨t, hfree, h⟩ := d.intrude_cases output tick tree
  · rw [h]
    exact refl d
  · have hfill : Kept output staging d (d.fill (.intruder tick) t) := by
      refine fill (by simp) (fun _ name hname => ?_) t
      rw [hhome name tick hname, hfree] at hname
      exact absurd hname (by simp)
    rw [h]
    refine hfill.trans (bind (.inl rfl) (fun i hi => ?_) fun _ _ => rfl)
    rw [Disk.fill_parent, hfree] at hi
    exact absurd hi (by simp)

end Kept

/-! ### Sound worlds -/

/-- The output name does not lead to a tree of the run. -/
def Hidden (output : Name) (d : Disk Tree) : Prop := ∀ k, d.parent output ≠ some (.created k)

/-- No name leads to a tree of the run. -/
def Clean (d : Disk Tree) : Prop := ∀ name k, d.parent name ≠ some (.created k)

/-- The staging name, and no other, leads to the tree of the run. -/
structure Staged (staging : Name) (k : Nat) (d : Disk Tree) : Prop where
  here : d.parent staging = some (.created k)
  only : ∀ name, name ≠ staging → ∀ k', d.parent name ≠ some (.created k')

lemma Clean.hidden (h : Clean d) : Hidden output d := h output

lemma Staged.hidden {k : Nat} (h : Staged staging k d) (hne : output ≠ staging) :
    Hidden output d :=
  h.only output hne

/-- Interference leaves the run's own trees where and as they are. -/
lemma parent_intrude_eq_created {tick k : Nat} {tree : Option Tree} {name : Name} :
    (d.intrude output tick tree).parent name = some (.created k) ↔
      d.parent name = some (.created k) := by
  obtain h | ⟨t, hfree, h⟩ := d.intrude_cases output tick tree
  · rw [h]
  · rw [h]
    by_cases hname : name = output
    · subst hname
      simp [hfree]
    · simp [hname]

lemma content_intrude {tick k : Nat} {tree : Option Tree} :
    (d.intrude output tick tree).content (.created k) = d.content (.created k) := by
  obtain h | ⟨t, -, h⟩ := d.intrude_cases output tick tree
  · rw [h]
  · rw [h]
    simp

lemma Clean.intrude (h : Clean d) (tick : Nat) (tree : Option Tree) :
    Clean (d.intrude output tick tree) :=
  fun name k hname => h name k (parent_intrude_eq_created.mp hname)

lemma Staged.intrude {k : Nat} (h : Staged staging k d) (tick : Nat) (tree : Option Tree) :
    Staged staging k (d.intrude output tick tree) :=
  ⟨parent_intrude_eq_created.mpr h.here,
    fun name hne k' hname => h.only name hne k' (parent_intrude_eq_created.mp hname)⟩

lemma Staged.fill {k : Nat} (h : Staged staging k d) (inode : Inode) (tree : Tree) :
    Staged staging k (d.fill inode tree) :=
  ⟨h.here, h.only⟩

/-- Giving up the staging name touches nothing foreign. -/
lemma Staged.kept_unbind {k : Nat} (h : Staged staging k d) :
    Kept output staging d (d.bind staging none) := by
  refine Kept.bind (.inr rfl) (fun i hi => ?_) (by simp)
  obtain rfl := Option.some.inj (h.here.symm.trans hi)
  exact fun hforeign => hforeign

/-- The run has kept, at every moment so far, what was there at every earlier one. -/
structure Sound (output staging : Name) (d₀ : Disk Tree) (w : World Tree) : Prop where
  since : ∀ d ∈ w.disk :: w.past, Kept output staging d₀ d
  chronicle : (w.disk :: w.past).Pairwise fun later earlier => Kept output staging earlier later
  unpublished : ∀ d ∈ w.past, Hidden output d

/-- A sound world of a run that has not met a failing cleanup. -/
structure At (output staging : Name) (d₀ : Disk Tree) (owns : Bool) (A : Disk Tree → Prop)
    (w : World Tree) : Prop where
  sound : Sound output staging d₀ w
  here : A w.disk
  owns : w.ownsStage = owns
  discarded : w.discarded = none

variable {d₀ : Disk Tree} {w : World Tree}

lemma sound_initial : Sound output staging d₀ (World.initial d₀) := by
  refine ⟨fun d hd => ?_, List.pairwise_singleton _ _, by simp [World.initial]⟩
  obtain rfl : d = d₀ := by simpa [World.initial] using hd
  exact Kept.refl d

/-- Soundness is about the disks of a run only. -/
lemma Sound.congr {w' : World Tree} (h : Sound output staging d₀ w) (hdisk : w'.disk = w.disk)
    (hpast : w'.past = w.past) : Sound output staging d₀ w' := by
  refine ⟨?_, ?_, ?_⟩
  · rw [hdisk, hpast]
    exact h.since
  · rw [hdisk, hpast]
    exact h.chronicle
  · rw [hpast]
    exact h.unpublished

lemma At.imp {owns : Bool} {A B : Disk Tree → Prop} (h : At output staging d₀ owns A w)
    (hAB : ∀ d, A d → B d) : At output staging d₀ owns B w :=
  ⟨h.sound, hAB _ h.here, h.owns, h.discarded⟩

/-- A kept change of the disk, made while nothing is published. -/
lemma Sound.become (h : Sound output staging d₀ w) (hd : Kept output staging w.disk d)
    (hhidden : Hidden output w.disk) : Sound output staging d₀ (w.become d) where
  since := List.forall_mem_cons.mpr ⟨(h.since w.disk List.mem_cons_self).trans hd, h.since⟩
  chronicle := by
    refine List.pairwise_cons.mpr ⟨fun earlier hearlier => ?_, h.chronicle⟩
    rcases List.mem_cons.mp hearlier with rfl | hpast
    · exact hd
    · exact ((List.pairwise_cons.mp h.chronicle).1 earlier hpast).trans hd
  unpublished := List.forall_mem_cons.mpr ⟨hhidden, h.unpublished⟩

lemma Sound.home (h : Sound output staging d₀ w)
    (hd₀ : ∀ name k, d₀.parent name ≠ some (.intruder k)) {name : Name} {k : Nat}
    (hname : w.disk.parent name = some (.intruder k)) : name = output :=
  ((h.since w.disk List.mem_cons_self).home name k hname).resolve_left (hd₀ name k)

lemma Sound.interfere {oracle : Nat → Choice Tree} (h : Sound output staging d₀ w)
    (hd₀ : ∀ name k, d₀.parent name ≠ some (.intruder k)) (hhidden : Hidden output w.disk) :
    Sound output staging d₀ (w.interfere oracle output) := by
  have hkept : Kept output staging w.disk
      (w.disk.intrude output w.clock (oracle w.clock).intruder) :=
    Kept.intrude (fun _ _ => h.home hd₀) _ _
  exact (h.become hkept hhidden).congr rfl rfl

/-! ### One call -/

section Calls

variable {oracle : Nat → Choice Tree} {owns : Bool} {A E : Disk Tree → Prop}

/-- Conditions on the disk under which a run can go on, whatever other processes do. -/
structure Steady (output : Name) (A : Disk Tree → Prop) : Prop where
  hidden : ∀ d, A d → Hidden output d
  intrude : ∀ d tick tree, A d → A (d.intrude output tick tree)

lemma steady_clean : Steady output (Clean : Disk Tree → Prop) :=
  ⟨fun _ h => h.hidden, fun _ tick tree h => h.intrude tick tree⟩

lemma steady_staged (hne : output ≠ staging) (k : Nat) :
    Steady output (Staged staging k : Disk Tree → Prop) :=
  ⟨fun _ h => h.hidden hne, fun _ tick tree h => h.intrude tick tree⟩

/-- A steady condition together with one on the contents of the staged tree. -/
lemma Steady.and_content (hA : Steady output A) (k : Nat) (φ : Tree → Prop) :
    Steady output fun d => A d ∧ φ (d.content (.created k)) :=
  ⟨fun d h => hA.hidden d h.1, fun d tick tree h => ⟨hA.intrude d tick tree h.1, by
    rw [content_intrude]
    exact h.2⟩⟩

/-- The rule for a call: what it needs survives interference, and each outcome keeps what is
foreign. -/
lemma call_triple {ε α : Type} {B : α → Disk Tree → Prop} {refusal : Choice Tree → Option ε}
    {damaged : (Tree → Tree) → Disk Tree → Disk Tree}
    {effect : Nat → Disk Tree → Except ε (α × Disk Tree)}
    (hd₀ : ∀ name k, d₀.parent name ≠ some (.intruder k)) (hA : Steady output A)
    (hrefused : ∀ d damage, A d → Kept output staging d (damaged damage d) ∧ E (damaged damage d))
    (herror : ∀ d tick e, A d → effect tick d = .error e → E d)
    (hok : ∀ d tick a d', A d → effect tick d = .ok (a, d') → Kept output staging d d' ∧ B a d') :
    Triple (At output staging d₀ owns A) (call oracle output refusal damaged effect)
      (fun a => At output staging d₀ owns (B a)) (At output staging d₀ owns E) := by
  intro w h
  obtain ⟨hsound, hhere, howns, hdiscarded⟩ := h
  have hsound' : Sound output staging d₀ (w.interfere oracle output) :=
    hsound.interfere hd₀ (hA.hidden _ hhere)
  have hhere' : A (w.interfere oracle output).disk := hA.intrude _ _ _ hhere
  cases hrefusal : refusal (oracle w.clock) with
  | some e =>
    rw [call_of_refused hrefusal]
    obtain ⟨hk, hE⟩ := hrefused _ (oracle w.clock).damage hhere'
    exact ⟨hsound'.become hk (hA.hidden _ hhere'), hE, howns, hdiscarded⟩
  | none =>
    cases heffect : effect w.clock (w.interfere oracle output).disk with
    | error e =>
      rw [call_of_error hrefusal heffect]
      exact ⟨hsound', herror _ _ e hhere' heffect, howns, hdiscarded⟩
    | ok r =>
      rw [call_of_ok hrefusal heffect]
      obtain ⟨hk, hB⟩ := hok _ _ r.1 r.2 hhere' heffect
      exact ⟨hsound'.become hk (hA.hidden _ hhere'), hB, howns, hdiscarded⟩

variable (hd₀ : ∀ name k, d₀.parent name ≠ some (.intruder k))
include hd₀

/-- A call that only looks. -/
lemma read_triple {α : Type} (φ : α → Disk Tree → Prop)
    {effect : Nat → Disk Tree → Except Error (α × Disk Tree)} (hA : Steady output A)
    (heffect : ∀ tick d a d', effect tick d = .ok (a, d') → d' = d ∧ φ a d) :
    Triple (At output staging d₀ owns A) (atomicCall oracle output effect)
      (fun a => At output staging d₀ owns fun d => A d ∧ φ a d) (At output staging d₀ owns A) := by
  refine call_triple hd₀ hA (fun d _ h => ⟨Kept.refl d, h⟩)
    (fun _ _ _ h _ => h) fun d tick a d' h hrun => ?_
  obtain ⟨rfl, hφ⟩ := heffect tick d a d' hrun
  exact ⟨Kept.refl d', h, hφ⟩

lemma fallible_bind {α β : Type} {x : Except Error α} {f : α → Run Tree β}
    {R : β → World Tree → Prop} {F : World Tree → Prop} (hA : Steady output A)
    (hF : ∀ w, At output staging d₀ owns A w → F w)
    (hf : ∀ a, x = .ok a → Triple (At output staging d₀ owns A) (f a) R F) :
    Triple (At output staging d₀ owns A) (fallible oracle output x >>= f) R F := by
  refine Triple.bind ((read_triple hd₀ (fun a _ => x = .ok a) hA ?_).mono (fun _ h => h)
    (fun _ _ h => h) hF) fun a => ?_
  · intro tick d a d' h
    cases x with
    | error e => exact absurd h (by simp [Except.map])
    | ok b =>
      obtain ⟨rfl, rfl⟩ : b = a ∧ d = d' := by simpa [Except.map] using h
      exact ⟨rfl, rfl⟩
  · intro w h'
    obtain ⟨hsound, ⟨hA, hx⟩, howns, hdiscarded⟩ := h'
    exact hf a hx w ⟨hsound, hA, howns, hdiscarded⟩

lemma readTree_triple {α : Type} (inode : Inode) (read : Tree → Except Error α)
    (hA : Steady output A) :
    Triple (At output staging d₀ owns A) (readTree oracle output inode read)
      (fun a => At output staging d₀ owns fun d => A d ∧ read (d.content inode) = .ok a)
      (At output staging d₀ owns A) := by
  refine read_triple hd₀ (fun a d => read (d.content inode) = .ok a) hA fun tick d a d' h => ?_
  cases hread : read (d.content inode) with
  | error e => exact absurd h (by simp [hread, Except.map])
  | ok b =>
    obtain ⟨rfl, rfl⟩ : b = a ∧ d = d' := by simpa [hread, Except.map] using h
    exact ⟨rfl, rfl⟩

lemma readTree_keeps {α : Type} (inode : Inode) (read : Tree → Except Error α)
    (hA : Steady output A) :
    Keeps (At output staging d₀ owns A) (readTree oracle output inode read) :=
  (readTree_triple hd₀ inode read hA).mono (fun _ h => h)
    (fun _ _ h => h.imp fun _ hd => hd.1) fun _ h => h

lemma statFile_keeps (name : Name) (hA : Steady output A) :
    Keeps (At output staging d₀ owns A) (statFile oracle output name) := by
  refine (read_triple hd₀ (fun _ _ => True) hA fun tick d a d' h => ?_).mono (fun _ h => h)
    (fun _ _ h => h.imp fun _ hd => hd.1) fun _ h => h
  cases hname : d.parent name with
  | none => exact absurd h (by simp [hname])
  | some i => exact ⟨by simpa [hname, eq_comm] using h, trivial⟩

lemma openDir_triple (name : Name) (hA : Steady output A) :
    Triple (At output staging d₀ owns A) (openDir oracle output name)
      (fun inode => At output staging d₀ owns fun d => A d ∧ d.parent name = some inode)
      (At output staging d₀ owns A) := by
  refine read_triple hd₀ (fun inode d => d.parent name = some inode) hA fun tick d a d' h => ?_
  cases hname : d.parent name with
  | none => exact absurd h (by simp [hname])
  | some i =>
    obtain ⟨rfl, rfl⟩ : i = a ∧ d = d' := by simpa [hname] using h
    exact ⟨rfl, rfl⟩

lemma createDir_triple (empty : Tree) :
    Triple (At output staging d₀ owns Clean) (createDir oracle output empty staging)
      (fun _ => At output staging d₀ owns fun d => ∃ k, Staged staging k d)
      (At output staging d₀ owns Clean) := by
  rw [createDir, atomicCall]
  refine call_triple hd₀ steady_clean (fun d _ h => ⟨Kept.refl d, h⟩) (fun _ _ _ h _ => h)
    fun d tick a d' h hrun => ?_
  cases hname : d.parent staging with
  | some i => exact absurd hrun (by simp [hname])
  | none =>
    obtain rfl : (d.fill (.created tick) empty).bind staging (some (.created tick)) = d' := by
      simpa [hname] using hrun
    refine ⟨(Kept.fill_created tick empty).trans (Kept.bind (.inr rfl) ?_ (by simp)), tick,
      by simp, fun name hne k => ?_⟩
    · simp [hname]
    · rw [Disk.bind_parent_of_ne _ hne]
      exact h name k

variable {k : Nat} (hne : output ≠ staging)
include hne

/-- A call on the staged tree. -/
lemma treeCall_keeps (effect : Tree → Tree) :
    Keeps (At output staging d₀ owns (Staged staging k))
      (treeCall oracle output (.created k) effect) := by
  refine call_triple hd₀ (steady_staged hne k)
    (fun d damage h => ⟨Kept.fill_created k _, h.fill _ _⟩) (fun _ _ _ h _ => h)
    fun d tick a d' h hrun => ?_
  obtain ⟨-, rfl⟩ := Prod.mk.inj (Except.ok.inj hrun)
  exact ⟨Kept.fill_created k _, h.fill _ _⟩

lemma deleteTree_triple :
    Triple (At output staging d₀ owns (Staged staging k)) (deleteTree oracle output staging)
      (fun _ => At output staging d₀ owns Clean)
      (At output staging d₀ owns (Staged staging k)) := by
  refine call_triple hd₀ (steady_staged hne k) (fun d damage h => ?_) (fun _ _ _ h _ => h)
    fun d tick a d' h hrun => ?_
  · rw [h.here]
    exact ⟨Kept.fill_created k _, h.fill _ _⟩
  · obtain ⟨-, rfl⟩ := Prod.mk.inj (Except.ok.inj hrun)
    refine ⟨h.kept_unbind, fun name k' => ?_⟩
    by_cases hname : name = staging
    · subst hname
      simp
    · rw [Disk.bind_parent_of_ne _ hname]
      exact h.only name hname k'

/-- A rename that succeeds moves the staged tree, as it is, to the output name. -/
lemma rename_triple {ε : Type} {refusal : Choice Tree → Option ε} {exists_ missing : ε}
    (φ : Tree → Prop) :
    Triple (At output staging d₀ owns fun d => Staged staging k d ∧ φ (d.content (.created k)))
      (call oracle output refusal (fun _ d => d)
        fun _ => renameEffect exists_ missing staging output)
      (fun _ => At output staging d₀ owns fun d =>
        d.parent output = some (.created k) ∧ φ (d.content (.created k)))
      (At output staging d₀ owns (Staged staging k)) := by
  have hA : Steady output fun d : Disk Tree => Staged staging k d ∧ φ (d.content (.created k)) :=
    (steady_staged hne k).and_content k φ
  refine call_triple hd₀ hA (fun d _ h => ⟨Kept.refl d, h.1⟩)
    (fun _ _ _ h _ => h.1) fun d tick a d' h hrun => ?_
  rw [renameEffect, h.1.here] at hrun
  cases hout : d.parent output with
  | some i => exact absurd hrun (by simp [hout])
  | none =>
    obtain rfl : (d.bind staging none).bind output (some (.created k)) = d' := by
      simpa [hout] using hrun
    refine ⟨h.1.kept_unbind.trans (Kept.bind (.inl rfl) ?_ (by simp)), by simp, h.2⟩
    simp [hne, hout]

end Calls

end Stage

end Difz
