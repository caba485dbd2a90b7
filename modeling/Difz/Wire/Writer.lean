import Difz.Wire.Reader

/-!
# Bounded writers

A writer appends to an output of bounded length, or fails. `Appends maximum f W` says which bytes
`f` appends when it succeeds, and that it fails otherwise: the words of `W`, of which there is at
most one in practice, as long as the output stays within the maximum. Writers built from parts
append what their parts append, so two implementations of one layout are compared word by word.
-/

namespace Wire

variable {ε δ α : Type} {maximum : Nat} {V W : List UInt8 → Prop}

/-- What a writer appends, from any output within the maximum. -/
def Appends (maximum : Nat) (f : List UInt8 → Except ε (List UInt8)) (W : List UInt8 → Prop) :
    Prop :=
  ∀ output result, output.length ≤ maximum →
    (f output = .ok result ↔ ∃ w, W w ∧ result = output ++ w ∧ result.length ≤ maximum)

/-- The words of a list, one behind the other. -/
def Joined (W : α → List UInt8 → Prop) (xs : List α) (w : List UInt8) : Prop :=
  ∃ ws, List.Forall₂ W xs ws ∧ w = ws.flatten

namespace Appends

variable {f g : List UInt8 → Except ε (List UInt8)}

lemma congr (hf : Appends maximum f V) (h : ∀ w, V w ↔ W w) : Appends maximum f W := by
  intro output result hlen
  rw [hf output result hlen]
  simp only [h]

/-- A writer of one word. -/
lemma word {w : List UInt8} (h : ∀ output result, output.length ≤ maximum →
    (f output = .ok result ↔ result = output ++ w ∧ result.length ≤ maximum)) :
    Appends maximum f (· = w) := by
  intro output result hlen
  rw [h output result hlen]
  simp

lemma seq (hf : Appends maximum f V) (hg : Appends maximum g W) :
    Appends maximum (fun output => f output >>= g) fun u => ∃ v w, V v ∧ W w ∧ u = v ++ w := by
  intro output result hlen
  rw [bind_eq_ok]
  constructor
  · intro h
    obtain ⟨middle, hmiddle, h⟩ := h
    obtain ⟨v, hv, rfl, hle⟩ := (hf _ _ hlen).mp hmiddle
    obtain ⟨w, hw, rfl, hle'⟩ := (hg _ _ hle).mp h
    exact ⟨v ++ w, ⟨v, w, hv, hw, rfl⟩, by rw [List.append_assoc], hle'⟩
  · intro h
    obtain ⟨_, ⟨v, w, hv, hw, rfl⟩, rfl, hle⟩ := h
    have hmiddle : (output ++ v).length ≤ maximum := by
      simp only [List.length_append] at hle ⊢
      omega
    refine ⟨output ++ v, (hf _ _ hlen).mpr ⟨v, hv, rfl, hmiddle⟩, ?_⟩
    exact (hg _ _ hmiddle).mpr ⟨w, hw, by rw [List.append_assoc], hle⟩

lemma seq_word {v w : List UInt8} (hf : Appends maximum f (· = v)) (hg : Appends maximum g (· = w)) :
    Appends maximum (fun output => f output >>= g) (· = v ++ w) :=
  (hf.seq hg).congr fun u => by simp

/-- A word in front of a word that has to meet a condition. -/
lemma seq_guarded {p : Prop} {v w : List UInt8} (hf : Appends maximum f (· = v))
    (hg : Appends maximum g fun u => p ∧ u = w) :
    Appends maximum (fun output => f output >>= g) fun u => p ∧ u = v ++ w :=
  (hf.seq hg).congr fun u => by simp

lemma nothing : Appends maximum (fun output => (.ok output : Except ε _)) (· = []) := by
  refine word fun output result hlen => ?_
  rw [Except.ok.injEq, List.append_nil]
  constructor
  · rintro rfl
    exact ⟨rfl, hlen⟩
  · intro h
    exact h.1.symm

lemma ite_error {p : Prop} [Decidable p] {e : ε} (hf : Appends maximum f W) :
    Appends maximum (fun output => if p then .error e else f output) fun w => ¬p ∧ W w := by
  intro output result hlen
  dsimp only
  rw [ite_error_eq_ok, hf output result hlen]
  simp [and_assoc]

/-- A writer behind a computation that does not look at the output. -/
lemma bind {x : Except ε α} {f : α → List UInt8 → Except ε (List UInt8)}
    {W : α → List UInt8 → Prop} (h : ∀ a, x = .ok a → Appends maximum (f a) (W a)) :
    Appends maximum (fun output => x >>= fun a => f a output) fun w => ∃ a, x = .ok a ∧ W a w := by
  intro output result hlen
  dsimp only
  rw [bind_eq_ok]
  constructor
  · intro hx
    obtain ⟨a, ha, hf⟩ := hx
    obtain ⟨w, hw, hresult⟩ := (h a ha output result hlen).mp hf
    exact ⟨w, ⟨a, ha, hw⟩, hresult⟩
  · intro hx
    obtain ⟨w, ⟨a, ha, hw⟩, hresult⟩ := hx
    exact ⟨a, ha, (h a ha output result hlen).mpr ⟨w, hw, hresult⟩⟩

lemma foldlM {f : List UInt8 → α → Except ε (List UInt8)} {W : α → List UInt8 → Prop} {xs : List α}
    (h : ∀ x ∈ xs, Appends maximum (f · x) (W x)) :
    Appends maximum (fun output => xs.foldlM f output) (Joined W xs) := by
  induction xs with
  | nil =>
    refine nothing.congr fun w => ?_
    simp [Joined]
  | cons x xs ih =>
    obtain ⟨hx, hxs⟩ := List.forall_mem_cons.mp h
    refine (hx.seq (ih hxs)).congr fun u => ?_
    constructor
    · intro hu
      obtain ⟨v, _, hv, ⟨ws, hws, rfl⟩, rfl⟩ := hu
      exact ⟨v :: ws, .cons hv hws, rfl⟩
    · intro hu
      obtain ⟨_, hws, rfl⟩ := hu
      cases hws with
      | cons hv hws => exact ⟨_, _, hv, ⟨_, hws, rfl⟩, rfl⟩

/-- A word and what another writer appends to it, with a last step that cannot fail. -/
lemma finish {v : List UInt8} (hf : Appends maximum f (· = v)) (hg : Appends maximum g W)
    (F : List UInt8 → α) (a : α) :
    ((f [] >>= g) >>= fun output => .ok (F output)) = .ok a ↔
      ∃ w, W w ∧ v.length + w.length ≤ maximum ∧ F (v ++ w) = a := by
  simp only [bind_eq_ok, Except.ok.injEq, (hf.seq hg) [] _ (Nat.zero_le _), List.nil_append]
  constructor
  · intro h
    obtain ⟨output, ⟨_, ⟨_, w, rfl, hw, rfl⟩, rfl, hle⟩, ha⟩ := h
    exact ⟨w, hw, by rwa [← List.length_append], ha⟩
  · intro h
    obtain ⟨w, hw, hle, ha⟩ := h
    exact ⟨v ++ w, ⟨_, ⟨v, w, rfl, hw, rfl⟩, rfl, by rwa [List.length_append]⟩, ha⟩

end Appends

end Wire
