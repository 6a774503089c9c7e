import GoIo.Discard
import GoIo.LimitedReader

/-!
# `CopyN`

`CopyN(dst, src, n)` copies from `LimitReader(src, n)` and fixes the result (`copyNEnd`). A
negative `n` gives `(0, nil)` (`copyN_negative`); from `n ≥ 0`, `err == nil` exactly when
`written == n` (`copyN_count`); from a stream, `(n, nil)` or `(|s|, e)` (`copyN_transfers`).
-/

namespace GoIo

variable {ω : Type}

/-- The end of `CopyN`: a short count with a nil error gets `EOF`. -/
def copyNEnd (n : Int) (res : WriteOut ω) : WriteOut ω :=
  if res.n = n then ⟨res.w, n, none⟩
  else if res.n < n ∧ res.err = none then ⟨res.w, res.n, some .eof⟩
  else res

/-- `CopyN(dst, src, n)`, the limited reader in the last component of the world. -/
def copyN (fuel : Nat) (dst : Dst (ω × Int)) (src : ReadFn ω) (n : Int) (w : ω) :
    Option (WriteOut (ω × Int)) :=
  (copy fuel dst (limitReader src) (w, n)).map (copyNEnd n)

/-- A writer with no `ReadFrom`, in the caller's world. -/
def plainIn (wr : WriteFn ω) : Dst (ω × Int) := ⟨wr.onFst, none⟩

/-- `Discard`, with `blackHolePool` in the caller's world. -/
def discardIn (pool : ω → List Bytes) (setPool : ω → List Bytes → ω) : Dst (ω × Int) :=
  discard (fun w => pool w.1) fun w b => (setPool w.1 b, w.2)

@[simp] theorem copyNEnd_w (n : Int) (res : WriteOut ω) : (copyNEnd n res).w = res.w := by
  unfold copyNEnd; split <;> (try split) <;> rfl

theorem copyN_eq_some {fuel : Nat} {dst : Dst (ω × Int)} {src : ReadFn ω} {n : Int} {w : ω}
    {res : WriteOut (ω × Int)} (h : copyN fuel dst src n w = some res) :
    ∃ res₀, copy fuel dst (limitReader src) (w, n) = some res₀ ∧ res = copyNEnd n res₀ := by
  obtain ⟨res₀, h₀, rfl⟩ := Option.map_eq_some'.1 h
  exact ⟨res₀, h₀, rfl⟩

/-! ## A negative count -/

theorem copyStep_of_read_err {src : ReadFn ω} {dst : WriteFn ω} {st : CopyState ω} {w' : ω}
    {p' : Bytes} {e : Error} (h : src st.w st.buf = ⟨w', p', 0, some e⟩) :
    copyStep src dst st = .inr ⟨w', st.written, eofToNil e⟩ := by
  simp [copyStep, h, readEnd]

theorem discardStep_of_read_err {r : ReadFn ω} {put : ω → Bytes → ω} {st : CopyState ω} {w' : ω}
    {p' : Bytes} {e : Error} (h : r st.w st.buf = ⟨w', p', 0, some e⟩) :
    discardStep r put st = .inr ⟨put w' p', toInt64 st.written, eofToNil e⟩ := by
  simp only [discardStep, h, Int.add_zero]

/-- With `n < 0`, `CopyN` to a plain writer or to `Discard` returns `(0, nil)`. -/
theorem copyN_negative (src : ReadFn ω) (k fuel : Nat) (w : ω) :
    (∀ wr : WriteFn (ω × Int),
      ∃ w', copyN (fuel + 1) ⟨wr, none⟩ src (-(k + 1)) w = some ⟨w', 0, none⟩) ∧
    ∀ (pool : ω → List Bytes) setPool,
      ∃ w', copyN (fuel + 1) (discardIn pool setPool) src (-(k + 1)) w = some ⟨w', 0, none⟩ := by
  have hN : ((w, -((k : Int) + 1)) : ω × Int).2 ≤ 0 := by dsimp only; omega
  have hend (w' : ω × Int) : copyNEnd (-((k : Int) + 1)) ⟨w', 0, none⟩ = ⟨w', 0, none⟩ := by
    simp only [copyNEnd]; rw [if_neg (by omega), if_neg (by omega)]
  constructor
  · intro wr
    rw [copyN, copy, copyBuffer_staged _ _ _ _ _ rfl rfl, loop_succ_inr (copyStep_of_read_err
      (LimitedReader.read_of_nonpos src hN _)), Option.map_some', eofToNil_eof]
    exact ⟨_, congrArg some (hend _)⟩
  · intro pool setPool
    have hst : (discardStart (fun w => pool w.1) (fun w b => (setPool w.1 b, w.2))
        (w, -((k : Int) + 1))).w.2 ≤ 0 := hN
    rw [copyN, discardIn, copy_discard _ _ _ (limitReader src) rfl, discardReadFrom]
    dsimp only [limitReader]
    rw [loop_succ_inr (discardStep_of_read_err (LimitedReader.read_of_nonpos src hst _)),
      Option.map_some', eofToNil_eof, show toInt64 (discardStart _ _ _).written = 0 from toInt64_zero]
    exact ⟨_, congrArg some (hend _)⟩

/-! ## The doc comment's law from `n ≥ 0` -/

section Count

variable {src : ReadFn ω} {n : Int}

/-- The count so far and the limited reader's `N` are not negative and add up to at most `n`. -/
def CountInv (n : Int) (st : CopyState (ω × Int)) : Prop :=
  0 ≤ st.written ∧ 0 ≤ st.w.2 ∧ st.written + st.w.2 ≤ n

theorem copyStep_countInv (hsrc : src.Obeys) (wr : WriteFn ω) (hn : n ≤ maxInt64) :
    Keeps (copyStep (LimitedReader.read src) wr.onFst) (CountInv n)
      fun res => 0 ≤ res.n ∧ res.n ≤ n := by
  rintro st ⟨hw0, hN0, hsum⟩
  obtain ⟨ho0, hN', hNeq⟩ := LimitedReader.read_budget hsrc hN0 (by omega) st.buf
  generalize ho : LimitedReader.read src st.w st.buf = o at ho0 hN' hNeq
  unfold maxInt64 at hn
  rcases copyStep_cases ho rfl with ⟨-, h⟩ | ⟨-, -, e, h⟩ | ⟨-, -, -, h⟩ <;> rw [h]
  · exact readEnd_elim _ ⟨hw0, hN', show st.written + o.w.2 ≤ n by omega⟩
      fun _ => ⟨hw0, show st.written ≤ n by omega⟩
  · obtain ⟨hc0, hc⟩ := @checkWrite_fst_mem o.n (wr.onFst o.w (o.p.take o.n.toNat)).n
      (wr.onFst o.w (o.p.take o.n.toNat)).err ho0
    generalize (checkWrite o.n _ _).1 = c at hc0 hc ⊢
    rw [toInt64_of_isInt64 ⟨by omega, by omega⟩]
    exact show 0 ≤ st.written + c ∧ st.written + c ≤ n from ⟨by omega, by omega⟩
  · have hq : 0 ≤ st.written + o.n ∧ st.written + o.n ≤ n := ⟨by omega, by omega⟩
    rw [toInt64_of_isInt64 ⟨by omega, by omega⟩]
    exact readEnd_elim _ ⟨hq.1, hN', show st.written + o.n + o.w.2 ≤ n by omega⟩ fun _ => hq

theorem discardStep_countInv (hsrc : src.Obeys) {put : ω × Int → Bytes → ω × Int}
    (hn : n ≤ maxInt64) :
    Keeps (discardStep (LimitedReader.read src) put) (CountInv n)
      fun res => 0 ≤ res.n ∧ res.n ≤ n := by
  rintro st ⟨hw0, hN0, hsum⟩
  obtain ⟨ho0, hN', hNeq⟩ := LimitedReader.read_budget hsrc hN0 (by omega) st.buf
  unfold maxInt64 at hn
  have hwr : toInt64 (st.written + (LimitedReader.read src st.w st.buf).n) =
      st.written + (LimitedReader.read src st.w st.buf).n := toInt64_of_isInt64 ⟨by omega, by omega⟩
  have hq : 0 ≤ st.written + (LimitedReader.read src st.w st.buf).n ∧
      st.written + (LimitedReader.read src st.w st.buf).n ≤ n := ⟨by omega, by omega⟩
  simp only [discardStep, hwr]
  cases (LimitedReader.read src st.w st.buf).err with
  | none => exact ⟨hq.1, hN', show st.written + (LimitedReader.read src st.w st.buf).n +
      (LimitedReader.read src st.w st.buf).w.2 ≤ n by omega⟩
  | some e => exact ⟨hq.1, hq.2⟩

theorem copyNEnd_count {res : WriteOut ω} (h0 : 0 ≤ res.n) (hn : res.n ≤ n) :
    0 ≤ (copyNEnd n res).n ∧ (copyNEnd n res).n ≤ n ∧
      ((copyNEnd n res).err = none ↔ (copyNEnd n res).n = n) := by
  unfold copyNEnd
  split <;> rename_i h1
  · exact ⟨Int.le_trans h0 hn, Int.le_refl n, iff_of_true rfl rfl⟩
  · split <;> rename_i h2
    · exact ⟨h0, hn, iff_of_false (fun h => by cases h) h1⟩
    · exact ⟨h0, hn, fun he => absurd ⟨by omega, he⟩ h2, fun h => absurd h h1⟩

end Count

/-! ## From a stream -/

theorem copyNEnd_limEnd {n : Int} (hn : IsInt64 n) {s s' : Bytes} {e e' : Error}
    (h : LimEnd n s e s' e') {res : WriteOut ω} (hres : res.n = toInt64 s'.length)
    (herr : res.err = eofToNil e') :
    (0 ≤ n → n ≤ s.length → (copyNEnd n res).n = n ∧ (copyNEnd n res).err = none) ∧
    (s.length < n → (copyNEnd n res).n = s.length ∧ (copyNEnd n res).err = some e) := by
  obtain ⟨rfl, he⟩ := h
  unfold IsInt64 at hn
  rw [List.length_take, toInt64_of_isInt64 (by unfold IsInt64; omega)] at hres
  unfold copyNEnd
  refine ⟨fun h0 h1 => by rw [if_pos (by rw [hres]; omega)]; exact ⟨rfl, rfl⟩, fun h1 => ?_⟩
  obtain rfl : e' = e := by rcases he with ⟨-, h⟩ | ⟨h, -⟩ <;> first | omega | exact h
  rw [if_neg (by rw [hres]; omega)]
  by_cases hee : e' = .eof
  · subst hee
    rw [if_pos ⟨by rw [hres]; omega, herr⟩]
    exact ⟨by simp only [hres]; omega, rfl⟩
  · rw [if_neg fun h => hee (eofToNil_eq_none.1 (herr ▸ h.2))]
    exact ⟨by rw [hres]; omega, by rw [herr, eofToNil, if_neg hee]⟩

section Transfer

variable {σ τ : Type} {r : ReadFn σ} {rest : σ → Option (Bytes × Error)}

/-- `Discard`, the pool being the sink's state. -/
def discardPair : Dst (Pair σ (List Bytes) × Int) :=
  discardIn (fun w => w.1.2) fun w b => ((w.1.1, b), w.2)

/-- `CopyN`'s result from `s` then `e`: at most `max(n, 0)` bytes read, then `(n, nil)` or
`(|s|, e)`. -/
def CopyNResult (n : Int) (s : Bytes) (e : Error) (res : WriteOut (Pair σ τ × Int)) : Prop :=
  readsOf res.w.1.2 ≤ max n 0 ∧ (0 ≤ n → n ≤ s.length → res.n = n ∧ res.err = none) ∧
    (s.length < n → res.n = s.length ∧ res.err = some e)

theorem takes_plainIn {wr : WriteFn τ} (hw : Accepts wr) :
    Takes (LimitedReader.read r.onFst.logged) (wr.onSnd.logged.onFst)
      (limFuture fun w : Pair σ τ => rest w.1.1) fun w => writesOf w.1.2 where
  accepts w q := by simpa using hw w.1.1.2 q
  future_write _ _ := rfl
  got_write _ _ := by simp
  got_read w p := by
    by_cases hpos : 0 < w.2
    · rw [LimitedReader.read_of_pos _ hpos]; simp
    · rw [LimitedReader.read_of_nonpos _ (by omega)]

/-- The limited reader and the sink keep `LimState`: `N` is `n` less the bytes read. -/
theorem limState_plainIn (hr : r.Obeys) {n : Int} (hn : IsInt64 n) (wr : WriteFn τ) :
    Keeps (copyStep (LimitedReader.read r.onFst.logged) (wr.onSnd.logged.onFst))
      (fun st => LimState n st.w) fun res => LimState n res.w :=
  copyStep_world (fun _ p h => limState_read hr.onFst hn h p) fun _ _ h => by
    simpa [LimState] using h

variable {n : Int} {s₀ : σ} {s : Bytes} {e : Error}

theorem copyNResult_of_end (hn : IsInt64 n) (h₀ : rest s₀ = some (s, e)) {w₀ : Pair σ τ}
    (hw₀ : w₀.1.1 = s₀) {res : WriteOut (Pair σ τ × Int)} {s' : Bytes} {e' : Error}
    (hend : StreamEnd (limFuture fun w : Pair σ τ => rest w.1.1) (w₀, n) s' e' res)
    (hlim : LimState n res.w) : CopyNResult n s e (copyNEnd n res) ∧ s' = s.take n.toNat := by
  obtain ⟨⟨-, s₂, e₂, hrest, hle⟩, hres, herr⟩ := hend
  obtain ⟨rfl, rfl⟩ : s = s₂ ∧ e = e₂ := by simpa [hw₀, h₀] using hrest
  have := copyNEnd_limEnd hn hle hres herr
  exact ⟨⟨by simpa using hlim.2.2, this.1, this.2⟩, hle.1⟩

/-- The limited reader's stream from the start of `CopyN`. -/
theorem limFuture_start (hn : IsInt64 n) (h₀ : rest s₀ = some (s, e)) (t₀ : τ) :
    ∃ s' e', limFuture (fun w : Pair σ τ => rest w.1.1) (((s₀, t₀), []), n) s' e' :=
  let ⟨s', e', h⟩ := limEnd_exists n s e
  ⟨s', e', hn, s, e, h₀, h⟩

/-- `CopyN` to a writer that takes every write. -/
theorem copyN_plain (hr : r.Obeys) (hd : Delivers r rest) (hn : IsInt64 n)
    (h₀ : rest s₀ = some (s, e)) {wr : WriteFn τ} (hw : Accepts wr) (t₀ : τ) :
    (∀ fuel res, copyN fuel (plainIn wr.onSnd.logged) r.onFst.logged n ((s₀, t₀), []) = some res →
      CopyNResult n s e res ∧ writesOf res.w.1.2 = s.take n.toNat) ∧
    (WellFounded (Stalls r rest) →
      ∃ fuel res, copyN fuel (plainIn wr.onSnd.logged) r.onFst.logged n ((s₀, t₀), []) = some res) := by
  have hlr := LimitedReader.obeys (hr.onFst (τ := τ)).logged
  have hs := limitedReader_streams (hr.onFst (τ := τ)).logged (hd.onFst (τ := τ)).logged
  obtain ⟨s', e', hF⟩ := limFuture_start hn h₀ t₀
  have inv₀ : CopyInv (limFuture fun w : Pair σ τ => rest w.1.1) (fun w => writesOf w.1.2)
      (((s₀, t₀), []), n) (stagedStart (limitReader r.onFst.logged) none (((s₀, t₀), []), n)) :=
    ⟨stagedStart_buf_ne_nil _ (by simp) _, [], (List.append_nil _).symm, toInt64_zero.symm,
      consumed_start hF⟩
  refine ⟨fun fuel res h => ?_, fun hwf => ?_⟩
  · obtain ⟨res₀, h', rfl⟩ := copyN_eq_some h
    rw [copy, copyBuffer_staged _ _ _ _ _ rfl rfl] at h'
    obtain ⟨⟨s', e', hend, hgot⟩, hlim⟩ := loop_inv
      ((copyStep_keeps hlr hs (takes_plainIn hw) _).and (limState_plainIn hr hn wr))
      ⟨inv₀, by simp only [LimState, stagedStart, readsOf_nil]; omega⟩ h'
    obtain ⟨hres, rfl⟩ := copyNResult_of_end hn h₀ rfl hend hlim
    exact ⟨hres, by simpa using hgot⟩
  · obtain ⟨fuel, res₀, h, -⟩ := copyLoop_terminates hlr hs (takes_plainIn hw) (drains_wf hwf)
      (π := fun w => w.1.1.1) (fun _ _ => rfl)
      (fun _ _ _ _ hF hp herr => (limitedReader_drains hr.onFst.logged hd.onFst.logged hF hp
        herr).onFst_logged) inv₀
    refine ⟨fuel, copyNEnd n res₀, ?_⟩
    rw [copyN, copy, copyBuffer_staged _ _ _ _ _ rfl rfl]
    exact congrArg _ h

/-- `CopyN` to `Discard`. -/
theorem copyN_discard (hr : r.Obeys) (hd : Delivers r rest) (hn : IsInt64 n)
    (h₀ : rest s₀ = some (s, e)) (pool : List Bytes) :
    (∀ fuel res, copyN fuel discardPair r.onFst.logged n ((s₀, pool), []) = some res →
      CopyNResult n s e res) ∧
    (WellFounded (Stalls r rest) → PoolOk pool →
      ∃ fuel res, copyN fuel discardPair r.onFst.logged n ((s₀, pool), []) = some res) := by
  have hlr := LimitedReader.obeys (hr.onFst (τ := List Bytes)).logged
  have hs := limitedReader_streams (hr.onFst (τ := List Bytes)).logged
    (hd.onFst (τ := List Bytes)).logged
  obtain ⟨s', e', hF⟩ := limFuture_start hn h₀ pool
  have inv₀ : DiscardInv (limFuture fun w : Pair σ (List Bytes) => rest w.1.1) (((s₀, pool), []), n)
      (discardStart (fun w => w.1.1.2) (fun w b => (((w.1.1.1, b), w.1.2), w.2))
        (((s₀, pool), []), n)) := ⟨[], toInt64_zero.symm, (consumed_start hF).congr rfl⟩
  refine ⟨fun fuel res h => ?_, fun hwf hpool => ?_⟩
  · obtain ⟨res₀, h', rfl⟩ := copyN_eq_some h
    rw [discardPair, discardIn, copy_discard _ _ _ _ rfl, discardReadFrom] at h'
    have hk : Keeps (discardStep (LimitedReader.read r.onFst.logged)
        fun w b => (((w.1.1.1, b :: w.1.1.2), w.1.2), w.2)) (fun st => LimState n st.w)
        fun res => LimState n res.w :=
      discardStep_world (fun _ p h => limState_read hr.onFst hn h p) fun _ _ h => h
    obtain ⟨⟨s', e', hend⟩, hlim⟩ := loop_inv ((discardStep_keeps hlr hs _).and hk)
      ⟨inv₀, by simp only [LimState, discardStart, readsOf_nil]; omega⟩ h'
    exact (copyNResult_of_end hn h₀ rfl hend hlim).1
  · obtain ⟨fuel, res₀, h, -⟩ := discardLoop_terminates hlr hs (drains_wf hwf)
      (π := fun w => w.1.1.1)
      (fun _ _ _ _ hF hp herr => (limitedReader_drains hr.onFst.logged hd.onFst.logged hF hp
        herr).onFst_logged) (poolGet_ne_nil hpool) inv₀
    refine ⟨fuel, copyNEnd n res₀, ?_⟩
    rw [copyN, discardPair, discardIn, copy_discard _ _ _ _ rfl, discardReadFrom]
    exact congrArg _ h

/-- `CopyN` from `s` then `e` to a writer that takes every write and to `Discard`: at most
`max(n, 0)` bytes read, `(n, nil)` with `s[0:n]` written for `n ≤ |s|`, else `(|s|, e)`; and it
returns unless the source stalls forever. -/
theorem copyN_transfers (r : ReadFn σ) (rest : σ → Option (Bytes × Error)) (hr : r.Obeys)
    (hd : Delivers r rest) (n : Int) (hn : IsInt64 n) (s₀ : σ) (s : Bytes) (e : Error)
    (h₀ : rest s₀ = some (s, e)) (wr : WriteFn τ) (hw : Accepts wr) (t₀ : τ)
    (pool : List Bytes) :
    (∀ fuel res, copyN fuel (plainIn wr.onSnd.logged) r.onFst.logged n ((s₀, t₀), []) = some res →
      CopyNResult n s e res ∧ writesOf res.w.1.2 = s.take n.toNat) ∧
    (∀ fuel res, copyN fuel discardPair r.onFst.logged n ((s₀, pool), []) = some res →
      CopyNResult n s e res) ∧
    (WellFounded (Stalls r rest) →
      (∃ fuel res, copyN fuel (plainIn wr.onSnd.logged) r.onFst.logged n ((s₀, t₀), []) = some res) ∧
      (PoolOk pool →
        ∃ fuel res, copyN fuel discardPair r.onFst.logged n ((s₀, pool), []) = some res)) :=
  have hp := copyN_plain hr hd hn h₀ hw t₀
  have hq := copyN_discard hr hd hn h₀ pool
  ⟨hp.1, hq.1, fun hwf => ⟨hp.2 hwf, hq.2 hwf⟩⟩

theorem copyN_transfers_slice :
    (∀ fuel res, copyN fuel (plainIn acceptAll.onSnd.logged) sliceReader.onFst.logged 1
        (([1, 2], ()), []) = some res →
      CopyNResult 1 [1, 2] .eof res ∧ writesOf res.w.1.2 = [1, 2].take (1 : Int).toNat) ∧
    (∀ fuel res, copyN fuel discardPair sliceReader.onFst.logged 1 (([1, 2], []), []) = some res →
      CopyNResult 1 [1, 2] .eof res) ∧
    (WellFounded (Stalls sliceReader fun s => some (s, .eof)) →
      (∃ fuel res, copyN fuel (plainIn acceptAll.onSnd.logged) sliceReader.onFst.logged 1
        (([1, 2], ()), []) = some res) ∧
      (PoolOk [] →
        ∃ fuel res, copyN fuel discardPair sliceReader.onFst.logged 1 (([1, 2], []), []) = some res)) :=
  copyN_transfers sliceReader _ sliceReader_obeys sliceReader_delivers 1 (by decide) [1, 2] [1, 2]
    .eof rfl acceptAll acceptAll_accepts () []

end Transfer

end GoIo
