import GoIo.ReadAll

/-!
# The tests' `alphaReader`

The tests' `alphaReader` masks every byte read that is not an ASCII letter to `0`, after a read
with a nil error only. Over a source that reports errors with no bytes, `ReadAll` through it
returns the masked stream (`readAll_alphaReader`).
-/

namespace GoIo

/-- `alpha(r)`: an ASCII letter (`'A'..'Z'`, `'a'..'z'`) stays, any other byte is `0`. -/
def alpha (r : UInt8) : UInt8 :=
  if (r ≥ 65 ∧ r ≤ 90) ∨ (r ≥ 97 ∧ r ≤ 122) then r else 0

variable {ω : Type}

/-- `(*alphaReader).Read`. -/
def alphaReader (r : ReadFn ω) : ReadFn ω := fun w p =>
  let o := r w p
  match o.err with
  | some _ => o
  | none => ⟨o.w, (o.p.take o.n.toNat).map alpha ++ o.p.drop o.n.toNat, o.n, none⟩

/-- While it has a stream to deliver, `r` reports an error only with no bytes. -/
def ErrAlone (r : ReadFn ω) (rest : ω → Option (Bytes × Error)) : Prop :=
  ∀ w p, (rest w).isSome → (r w p).err ≠ none → (r w p).n = 0

/-- The stream of `rest` with every byte that is not a letter made `0`. -/
def masked (rest : ω → Option (Bytes × Error)) (w : ω) : Option (Bytes × Error) :=
  (rest w).map fun se => (se.1.map alpha, se.2)

section Alpha

variable {r : ReadFn ω} {rest : ω → Option (Bytes × Error)}

theorem alphaReader_of_err {w : ω} {p : Bytes} (h : (r w p).err ≠ none) :
    alphaReader r w p = r w p := by
  cases herr : (r w p).err with
  | none => exact absurd herr h
  | some e => simp only [alphaReader, herr]

theorem alphaReader_of_nil {w : ω} {p : Bytes} (h : (r w p).err = none) :
    alphaReader r w p = ⟨(r w p).w, ((r w p).p.take (r w p).n.toNat).map alpha ++
      (r w p).p.drop (r w p).n.toNat, (r w p).n, none⟩ := by
  simp only [alphaReader, h]

theorem alphaReader_wne (w : ω) (p : Bytes) :
    (alphaReader r w p).w = (r w p).w ∧ (alphaReader r w p).n = (r w p).n ∧
      (alphaReader r w p).err = (r w p).err := by
  by_cases h : (r w p).err = none
  · rw [alphaReader_of_nil h, h]; exact ⟨rfl, rfl, rfl⟩
  · rw [alphaReader_of_err h]; exact ⟨rfl, rfl, rfl⟩

theorem alphaReader_obeys (hr : r.Obeys) : (alphaReader r).Obeys := fun w p => by
  obtain ⟨hpl, hn0, hnq⟩ := hr w p
  by_cases h : (r w p).err = none
  · rw [alphaReader_of_nil h]
    refine ⟨?_, hn0, hnq⟩
    simp only [List.length_append, List.length_map, List.length_take, List.length_drop, hpl]
    omega
  · rw [alphaReader_of_err h]; exact ⟨hpl, hn0, hnq⟩

theorem alphaReader_data (hr : r.Obeys) {w : ω} {p : Bytes} (h : (r w p).err = none) :
    (alphaReader r w p).data = (r w p).data.map alpha := by
  obtain ⟨hpl, hn0, hnq⟩ := hr w p
  rw [alphaReader_of_nil h, ReadOut.data, ReadOut.data, List.map_take,
    List.take_left' (by simp only [List.length_map, List.length_take, hpl]; omega)]

theorem alphaReader_delivers (hr : r.Obeys) (hd : Delivers r rest) (ha : ErrAlone r rest) :
    Delivers (alphaReader r) (masked rest) := by
  intro w p s e h
  obtain ⟨⟨s₀, e₀⟩, hrest, hse⟩ := Option.map_eq_some'.1 h
  obtain ⟨rfl, rfl⟩ := Prod.mk.injEq _ _ _ _ ▸ hse
  have hds := hd w p s₀ e₀ hrest
  cases herr : (r w p).err with
  | none =>
    rw [herr] at hds
    obtain ⟨s', rfl, h'⟩ := hds
    rw [show (alphaReader r w p).err = none from (alphaReader_wne w p).2.2.trans herr]
    refine ⟨s'.map alpha, by rw [alphaReader_data hr herr, List.map_append], ?_⟩
    rw [(alphaReader_wne w p).1, masked, h']
    rfl
  | some e' =>
    rw [herr] at hds
    obtain ⟨rfl, rfl⟩ := hds
    have hn := ha w p (by rw [hrest]; rfl) (by rw [herr]; exact Option.noConfusion)
    rw [alphaReader_of_err (by rw [herr]; exact Option.noConfusion), herr]
    refine ⟨rfl, ?_⟩
    rw [ReadOut.data, hn]
    rfl

theorem alphaReader_progress (hp : Progress r rest) : Progress (alphaReader r) (masked rest) :=
  fun w p h hne => by
    obtain ⟨-, hn, herr⟩ := alphaReader_wne (r := r) w p
    rw [hn, herr]
    exact hp w p (by simpa [masked] using h) hne

end Alpha

/-- `ReadAll(newAlphaReader(r))` from a stream `s` then `e` that reports errors with no bytes:
within `|s| + 1` reads it returns `s` masked by `alpha`; and `alphaReader` keeps the `Reader`
contract. -/
theorem readAll_alphaReader (g : Growth) (r : ReadFn ω) (rest : ω → Option (Bytes × Error))
    (hr : r.Obeys) (hd : Delivers r rest) (hp : Progress r rest) (ha : ErrAlone r rest) (s₀ : ω)
    (s : Bytes) (e : Error) (h₀ : rest s₀ = some (s, e)) :
    (alphaReader r).Obeys ∧ ∃ w, readAll (s.length + 1) g (alphaReader r).logged (s₀, []) =
      some (.ok ⟨w, s.map alpha, eofToNil e⟩) := by
  have hr' := alphaReader_obeys hr
  refine ⟨hr', ?_⟩
  have hd' := alphaReader_delivers hr hd ha
  have hm : masked rest s₀ = some (s.map alpha, e) := by rw [masked, h₀]; rfl
  obtain ⟨res, h, o, rfl, e', hF, herr, -⟩ := loop_spec (readAllStep_keeps hr' hd' g (s₀, []))
    (readAllStep_decreases hr' hd' (alphaReader_progress hp) g (s₀, []))
    (show ReadAllInv (masked rest) (s₀, []) ⟨(s₀, []), List.replicate 512 0, 0⟩ from
      ⟨Nat.zero_le _, consumed_start (show masked rest s₀ = _ from hm), fun _ h => by cases h⟩)
    (show restLen (masked rest) s₀ < s.length + 1 by simp [restLen, hm])
  obtain ⟨hb, rfl⟩ : s.map alpha = o.b ∧ e = e' := by simpa [restFuture, hm] using hF
  exact ⟨o.w, by rw [readAll, h, ← herr, hb]⟩

/-- A `strings.Reader` reports `EOF` only with no bytes. -/
theorem sliceReader_errAlone : ErrAlone sliceReader fun s => some (s, .eof) := by
  intro s p _ h
  by_cases hs : s = []
  · simp [sliceReader, hs]
  · simp [sliceReader, hs] at h

theorem readAll_alphaReader_slice :
    (alphaReader sliceReader).Obeys ∧ ∃ w, readAll (([72, 33, 105] : Bytes).length + 1) doubling (alphaReader sliceReader).logged
      ([72, 33, 105], []) = some (.ok ⟨w, ([72, 33, 105] : Bytes).map alpha, eofToNil .eof⟩) :=
  readAll_alphaReader doubling sliceReader _ sliceReader_obeys sliceReader_delivers
    sliceReader_progress sliceReader_errAlone [72, 33, 105] [72, 33, 105] .eof rfl

set_option maxRecDepth 4000 in
/-- Last bytes that come with `EOF` pass unmasked: `"a!"` keeps its `'!'`. -/
example : readAll 1 doubling (alphaReader fun s p =>
    (⟨[], s.take p.length ++ p.drop s.length, (min s.length p.length : Nat), some .eof⟩ :
      ReadOut Bytes)) [97, 33] = some (.ok ⟨[], [97, 33], none⟩) := by
  rfl

end GoIo
