import GoIo.Basic

/-!
# Streams

What the results about copies and reads require of the source they drain: it delivers bytes
`s` and then an error `e` in chunks of any size (`Delivers`, or `Streams` when the world does not
fix the future), and it does not answer `(0, nil)` forever (`Progress`, `Drains`).
-/

namespace GoIo

variable {ω : Type}

/-- Where `rest w = some (s, e)`, reads hand back the next bytes of `s`, and `e` with the last. -/
def Delivers (r : ReadFn ω) (rest : ω → Option (Bytes × Error)) : Prop :=
  ∀ w p s e, rest w = some (s, e) →
    match (r w p).err with
    | none => ∃ s', s = (r w p).data ++ s' ∧ rest (r w p).w = some (s', e)
    | some e' => e' = e ∧ s = (r w p).data

/-- While it has a stream to deliver, `r` never answers `(0, nil)` to a non-empty buffer. -/
def Progress (r : ReadFn ω) (rest : ω → Option (Bytes × Error)) : Prop :=
  ∀ w p, (rest w).isSome → p ≠ [] → 0 < (r w p).n ∨ (r w p).err ≠ none

/-! ## Futures -/

section Futures

variable {r : ReadFn ω} {F : ω → Bytes → Error → Prop}

/-- `F w s e`: from `w`, `r` may yet deliver `s` and then `e`; a read hands back the start of one. -/
def Streams (r : ReadFn ω) (F : ω → Bytes → Error → Prop) : Prop :=
  ∀ w p s e, F w s e →
    match (r w p).err with
    | none => (∃ s' e', F (r w p).w s' e') ∧
        ∀ s' e', F (r w p).w s' e' → F w ((r w p).data ++ s') e'
    | some e' => F w (r w p).data e'

/-- The one future a `rest` function gives each world. -/
def restFuture (rest : ω → Option (Bytes × Error)) (w : ω) (s : Bytes) (e : Error) : Prop :=
  rest w = some (s, e)

theorem Delivers.streams {rest : ω → Option (Bytes × Error)} (hd : Delivers r rest) :
    Streams r (restFuture rest) := by
  intro w p s e h
  have := hd w p s e h
  cases herr : (r w p).err with
  | none =>
    simp only [herr] at this
    obtain ⟨s', rfl, h'⟩ := this
    refine ⟨⟨s', e, h'⟩, fun s'' e'' h'' => ?_⟩
    obtain ⟨rfl, rfl⟩ : s' = s'' ∧ e = e'' := by simpa [restFuture, h'] using h''
    exact h
  | some e' =>
    simp only [herr] at this
    obtain ⟨rfl, rfl⟩ := this; exact h

/-- Reads took the source from `w₀` to `w`, handing back `c`. -/
def Consumed (F : ω → Bytes → Error → Prop) (w₀ : ω) (c : Bytes) (w : ω) : Prop :=
  (∃ s e, F w s e) ∧ ∀ s e, F w s e → F w₀ (c ++ s) e

theorem consumed_start {w₀ : ω} {s : Bytes} {e : Error} (h : F w₀ s e) : Consumed F w₀ [] w₀ :=
  ⟨⟨s, e, h⟩, fun _ _ h' => h'⟩

variable {w₀ w : ω} {c : Bytes}

theorem Consumed.congr {w' : ω} (h : Consumed F w₀ c w) (hF : F w' = F w) : Consumed F w₀ c w' := by
  rwa [Consumed, hF]

theorem Streams.read_none (hs : Streams r F) (h : Consumed F w₀ c w) (p : Bytes)
    (herr : (r w p).err = none) : Consumed F w₀ (c ++ (r w p).data) (r w p).w := by
  obtain ⟨⟨s, e, hF⟩, hcl⟩ := h
  have := hs w p s e hF
  simp only [herr] at this
  exact ⟨this.1, fun s' e' h' => by rw [List.append_assoc]; exact hcl _ _ (this.2 s' e' h')⟩

theorem Streams.read_some (hs : Streams r F) (h : Consumed F w₀ c w) (p : Bytes) {e : Error}
    (herr : (r w p).err = some e) : F w₀ (c ++ (r w p).data) e := by
  obtain ⟨⟨s, e', hF⟩, hcl⟩ := h
  have := hs w p s e' hF
  simp only [herr] at this
  exact hcl _ _ this

end Futures

/-! ## Stalls -/

section Stalls

variable {r : ReadFn ω} {rest : ω → Option (Bytes × Error)}

/-- `w'` follows `w` by a read of a non-empty buffer that answered `(0, nil)`. -/
def Stalls (r : ReadFn ω) (rest : ω → Option (Bytes × Error)) (w' w : ω) : Prop :=
  (rest w).isSome ∧ ∃ p, p ≠ [] ∧ (r w p).n = 0 ∧ (r w p).err = none ∧ (r w p).w = w'

theorem Progress.stalls_wf (hp : Progress r rest) : WellFounded (Stalls r rest) :=
  ⟨fun w => ⟨w, fun w' ⟨hl, p, hp', hn, he, _⟩ => by have := hp w p hl hp'; simp_all⟩⟩

/-- The bytes a world's stream has left. -/
def restLen (rest : ω → Option (Bytes × Error)) (w : ω) : Nat :=
  ((rest w).map fun x => x.1.length).getD 0

/-- `w'` is nearer the end of the stream than `w`: fewer bytes left, or as many after a stall. -/
def Drains (r : ReadFn ω) (rest : ω → Option (Bytes × Error)) : ω → ω → Prop :=
  InvImage (Prod.Lex (· < ·) (Stalls r rest)) fun w => (restLen rest w, w)

theorem drains_iff {w' w : ω} : Drains r rest w' w ↔
    restLen rest w' < restLen rest w ∨ restLen rest w' = restLen rest w ∧ Stalls r rest w' w :=
  Prod.lex_def

theorem drains_wf (hwf : WellFounded (Stalls r rest)) : WellFounded (Drains r rest) :=
  InvImage.wf _ (Prod.lex Nat.lt_wfRel ⟨_, hwf⟩).wf

theorem Delivers.drains (hr : r.Obeys) (hd : Delivers r rest) {w : ω} {s : Bytes} {e : Error}
    (h : rest w = some (s, e)) {p : Bytes} (hp : p ≠ []) (herr : (r w p).err = none) :
    Drains r rest (r w p).w w := by
  have hds := hd w p s e h
  simp only [herr] at hds
  obtain ⟨s', rfl, h'⟩ := hds
  have hlen := hr.data_length w p
  obtain ⟨-, hn0, -⟩ := hr w p
  have hl : restLen rest (r w p).w + (r w p).n.toNat = restLen rest w := by
    simp only [restLen, h, h', Option.map_some', Option.getD_some, List.length_append, hlen]
    omega
  rw [drains_iff]
  by_cases hn : (r w p).n = 0
  · exact .inr ⟨by omega, by simp [h], p, hp, hn, herr, rfl⟩
  · exact .inl (by omega)

end Stalls

/-! ## In a larger world -/

section Lifts

variable {σ τ : Type} {r : ReadFn σ} {rest : σ → Option (Bytes × Error)}

theorem Delivers.logged (hd : Delivers r rest) : Delivers r.logged (fun w => rest w.1) :=
  fun w p s e h => by simpa using hd w.1 p s e h

theorem Delivers.onFst (hd : Delivers r rest) : Delivers (r.onFst (τ := τ)) (fun w => rest w.1) :=
  fun w p s e h => by simpa using hd w.1 p s e h

theorem Progress.logged (hp : Progress r rest) : Progress r.logged (fun w => rest w.1) :=
  fun w p h hp' => by simpa using hp w.1 p h hp'

theorem Progress.onFst (hp : Progress r rest) : Progress (r.onFst (τ := τ)) (fun w => rest w.1) :=
  fun w p h hp' => by simpa using hp w.1 p h hp'

theorem Drains.onFst_logged {w w' : (σ × τ) × List Event}
    (h : Drains r.onFst.logged (fun w => rest w.1.1) w' w) : Drains r rest w'.1.1 w.1.1 := by
  rw [drains_iff] at h ⊢
  rcases h with h | ⟨h, hl, p, hp, hn, he, rfl⟩
  · exact .inl h
  · exact .inr ⟨h, hl, p, hp, hn, he, rfl⟩

end Lifts

/-! ## The fixtures -/

theorem sliceReader_delivers : Delivers sliceReader fun s => some (s, .eof) := by
  rintro s p s' e ⟨⟩
  by_cases hs : s = []
  · simp [sliceReader, hs, ReadOut.data]
  · have hm : (s.take p.length).length = min p.length s.length := List.length_take ..
    simp only [sliceReader, hs, if_false, ReadOut.data, Int.toNat_ofNat, ← hm, List.take_left]
    exact ⟨_, (List.take_append_drop _ _).symm, rfl⟩

theorem sliceReader_progress : Progress sliceReader fun s => some (s, .eof) := by
  intro s p _ hp
  by_cases hs : s = []
  · simp [sliceReader, hs]
  · have := List.length_pos.2 hp
    have := List.length_pos.2 hs
    simp only [sliceReader, hs, if_false]; omega

end GoIo
