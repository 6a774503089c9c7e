import GoIo.Basic

/-!
# Loops with fuel

Each `for` loop of `io.go` that calls out is a `step` to the next state or to the result;
`loop step fuel` runs it for at most `fuel` rounds, `none` when the fuel runs out. Invariants give
partial correctness (`loop_inv`), a measure gives termination (`loop_spec`, `loop_wf`).
-/

namespace GoIo

variable {α β : Type}

/-- Run `step` from `a` for at most `fuel` rounds. -/
def loop (step : α → α ⊕ β) : Nat → α → Option β
  | 0, _ => none
  | n + 1, a =>
    match step a with
    | .inl a' => loop step n a'
    | .inr b => some b

variable {step : α → α ⊕ β} {a a' : α} {b : β} {n : Nat}

@[simp] theorem loop_zero (a : α) : loop step 0 a = none := rfl

theorem loop_succ_inl (h : step a = .inl a') (n : Nat) : loop step (n + 1) a = loop step n a' := by
  simp [loop, h]

theorem loop_succ_inr (h : step a = .inr b) (n : Nat) : loop step (n + 1) a = some b := by
  simp [loop, h]

/-- More fuel does not change a result. -/
theorem loop_mono {m : Nat} (h : loop step n a = some b) (hnm : n ≤ m) : loop step m a = some b := by
  induction n generalizing m a with
  | zero => simp at h
  | succ n ih =>
    obtain ⟨m, rfl⟩ : ∃ k, m = k + 1 := ⟨m - 1, by omega⟩
    cases hs : step a with
    | inl a' => rw [loop_succ_inl hs] at h ⊢; exact ih h (by omega)
    | inr b' => rw [loop_succ_inr hs] at h ⊢; exact h

/-! ## Invariants and termination -/

/-- From a state in `I`, a round of `step` goes on in `I` or stops with a result in `Q`. -/
def Keeps (step : α → α ⊕ β) (I : α → Prop) (Q : β → Prop) : Prop :=
  ∀ a, I a → Sum.elim I Q (step a)

/-- Every round that goes on from a state in `I` lowers `μ`. -/
def Decreases (step : α → α ⊕ β) (I : α → Prop) (μ : α → Nat) : Prop :=
  ∀ a a', I a → step a = .inl a' → μ a' < μ a

variable {I : α → Prop} {Q : β → Prop}

theorem Keeps.with {J : α → Prop} {Q' : β → Prop} (hk : Keeps step I Q)
    (hj : ∀ a, I a → J a → Sum.elim J Q' (step a)) :
    Keeps step (fun a => I a ∧ J a) fun b => Q b ∧ Q' b := fun a ⟨h, h'⟩ => by
  have h₁ := hk a h
  have h₂ := hj a h h'
  cases hs : step a <;> simp only [hs, Sum.elim_inl, Sum.elim_inr] at h₁ h₂ ⊢ <;> exact ⟨h₁, h₂⟩

theorem Keeps.and {I' : α → Prop} {Q' : β → Prop} (hk : Keeps step I Q) (hk' : Keeps step I' Q') :
    Keeps step (fun a => I a ∧ I' a) fun b => Q b ∧ Q' b :=
  hk.with fun a _ h => hk' a h

theorem Keeps.inl (hk : Keeps step I Q) (ha : I a) (h : step a = .inl a') : I a' := by
  simpa [h] using hk a ha

theorem Keeps.inr (hk : Keeps step I Q) (ha : I a) (h : step a = .inr b) : Q b := by
  simpa [h] using hk a ha

/-- Partial correctness: every result of a run from `I` is in `Q`. -/
theorem loop_inv (hk : Keeps step I Q) (ha : I a) (h : loop step n a = some b) : Q b := by
  induction n generalizing a with
  | zero => simp at h
  | succ n ih =>
    cases hs : step a with
    | inl a' => rw [loop_succ_inl hs] at h; exact ih (hk.inl ha hs) h
    | inr b' => rw [loop_succ_inr hs] at h; cases h; exact hk.inr ha hs

/-- Total correctness: from `I`, the loop returns a result in `Q` within `μ a + 1` rounds. -/
theorem loop_spec {μ : α → Nat} (hk : Keeps step I Q) (hd : Decreases step I μ) (ha : I a)
    (hn : μ a < n) : ∃ b, loop step n a = some b ∧ Q b := by
  induction n generalizing a with
  | zero => omega
  | succ n ih =>
    cases hs : step a with
    | inl a' =>
      rw [loop_succ_inl hs]
      exact ih (hk.inl ha hs) (by have := hd a a' ha hs; omega)
    | inr b' => exact ⟨b', loop_succ_inr hs n, hk.inr ha hs⟩

/-- Total correctness for a well-founded order that every round going on descends. -/
theorem loop_wf {R : α → α → Prop} (hwf : WellFounded R) (hk : Keeps step I Q)
    (hd : ∀ a a', I a → step a = .inl a' → R a' a) (ha : I a) :
    ∃ n b, loop step n a = some b ∧ Q b := by
  induction a using hwf.induction with
  | h a ih =>
    cases hs : step a with
    | inl a' =>
      obtain ⟨n, b, hb, hq⟩ := ih a' (hd a a' ha hs) (hk.inl ha hs)
      exact ⟨n + 1, b, by rw [loop_succ_inl hs]; exact hb, hq⟩
    | inr b => exact ⟨1, b, loop_succ_inr hs 0, hk.inr ha hs⟩

/-! ## The states of a run -/

/-- `a'` is a state a run of `step` from `a` passes through. -/
def Reaches (step : α → α ⊕ β) : α → α → Prop :=
  Relation.ReflTransGen fun a a' => step a = .inl a'

theorem Keeps.reaches (hk : Keeps step I Q) (ha : I a) (h : Reaches step a a') : I a' := by
  induction h with
  | refl => exact ha
  | tail _ hs ih => exact hk.inl ih hs

/-- A result of the loop is the stop of a state its run passes through. -/
theorem loop_reaches (h : loop step n a = some b) : ∃ a', Reaches step a a' ∧ step a' = .inr b := by
  induction n generalizing a with
  | zero => simp at h
  | succ n ih =>
    cases hs : step a with
    | inl a' =>
      rw [loop_succ_inl hs] at h
      obtain ⟨c, hc, hcb⟩ := ih h
      exact ⟨c, Relation.ReflTransGen.head hs hc, hcb⟩
    | inr b' => rw [loop_succ_inr hs] at h; cases h; exact ⟨a, .refl, hs⟩

theorem Keeps.of_elim {R : α → β → Prop} (hk : ∀ a, I a → Sum.elim I (R a) (step a)) :
    Keeps step I fun _ => True := fun a h => by
  have := hk a h
  cases hs : step a <;> simp only [hs, Sum.elim_inl, Sum.elim_inr] at this ⊢
  exact this

/-- A result of a run from `I` is in `R` of a state in `I` that the run passes through. -/
theorem loop_last {R : α → β → Prop} (hk : ∀ a, I a → Sum.elim I (R a) (step a)) (ha : I a)
    (h : loop step n a = some b) : ∃ a', Reaches step a a' ∧ I a' ∧ R a' b := by
  obtain ⟨a', hr, hs⟩ := loop_reaches h
  have hi := (Keeps.of_elim hk).reaches ha hr
  have := hk a' hi
  rw [hs] at this
  exact ⟨a', hr, hi, this⟩

end GoIo
