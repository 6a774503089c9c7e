import GoIo.Copy

/-!
# `Discard`

`Copy` to `Discard` takes its `ReadFrom`, which reads into a buffer from `blackHolePool` until an
error and puts the buffer back. The pool is a list of buffers in the world; `Get` takes the first
or makes one of 8192 bytes, `Put` adds one in front.
-/

namespace GoIo

variable {ω : Type}

/-- `discard.Write`. -/
def discardWrite : WriteFn ω := fun w p => ⟨w, p.length, none⟩

/-- `blackHolePool.Get()`: the first buffer of the pool, or one of 8192 bytes made by `New`. -/
def poolGet : List Bytes → Bytes × List Bytes
  | [] => (List.replicate 8192 0, [])
  | b :: bs => (b, bs)

/-- One round of `discard.ReadFrom`'s loop, `put` putting a buffer back in the pool. -/
def discardStep (r : ReadFn ω) (put : ω → Bytes → ω) (st : CopyState ω) :
    CopyState ω ⊕ WriteOut ω :=
  let o := r st.w st.buf
  let n := toInt64 (st.written + o.n)
  match o.err with
  | none => .inl ⟨o.w, o.p, n⟩
  | some e => .inr ⟨put o.w o.p, n, eofToNil e⟩

/-- The first state of `discard.ReadFrom`'s loop: the buffer taken from the pool, and `n = 0`. -/
def discardStart (pool : ω → List Bytes) (setPool : ω → List Bytes → ω) (w : ω) : CopyState ω :=
  ⟨setPool w (poolGet (pool w)).2, (poolGet (pool w)).1, 0⟩

/-- `discard.ReadFrom(r)`, with `blackHolePool` the part `pool` of the world. -/
def discardReadFrom (pool : ω → List Bytes) (setPool : ω → List Bytes → ω) (fuel : Nat)
    (r : ReadFn ω) (w : ω) : Option (WriteOut ω) :=
  loop (discardStep r fun w b => setPool w (b :: pool w)) fuel (discardStart pool setPool w)

/-- `Discard`. -/
def discard (pool : ω → List Bytes) (setPool : ω → List Bytes → ω) : Dst ω :=
  ⟨discardWrite, some (discardReadFrom pool setPool)⟩

/-- A pool whose buffers `New` made: 8192 bytes each. -/
def PoolOk (pool : List Bytes) : Prop := ∀ b ∈ pool, b.length = 8192

theorem poolGet_ne_nil {pool : List Bytes} (h : PoolOk pool) : (poolGet pool).1 ≠ [] := by
  cases pool with
  | nil => rw [poolGet, ← List.length_pos, List.length_replicate]; decide
  | cons b bs => rw [poolGet, ← List.length_pos, h b (List.mem_cons_self _ _)]; decide

theorem copy_discard (fuel : Nat) (pool : ω → List Bytes) (setPool : ω → List Bytes → ω)
    (src : Src ω) (hs : src.writeTo = none) (w : ω) :
    copy fuel (discard pool setPool) src w = discardReadFrom pool setPool fuel src.read w := by
  simp [copy, copyBuffer, hs, discard]

/-! ## The loop of `ReadFrom` -/

section Loop

variable {r : ReadFn ω} {put : ω → Bytes → ω} {F : ω → Bytes → Error → Prop}

/-- The invariant from the world `w₀`: the reads since consumed `c`, which `n` counts. -/
def DiscardInv (F : ω → Bytes → Error → Prop) (w₀ : ω) (st : CopyState ω) : Prop :=
  ∃ c, st.written = toInt64 c.length ∧ Consumed F w₀ c st.w

theorem discardStep_keeps (hr : r.Obeys) (hs : Streams r F) (w₀ : ω) :
    Keeps (discardStep r put) (DiscardInv F w₀) fun res => ∃ s e, StreamEnd F w₀ s e res := by
  rintro st ⟨c, hwr, hc⟩
  have hcnt := toInt64_count hr hwr st.w st.buf
  simp only [discardStep]
  cases herr : (r st.w st.buf).err with
  | none => exact ⟨_, hcnt, hs.read_none hc st.buf herr⟩
  | some e => exact ⟨_, e, hs.read_some hc st.buf herr, hcnt, rfl⟩

theorem discardStep_world {P : ω → Prop} (hsrc : ∀ w p, P w → P (r w p).w)
    (hput : ∀ w b, P w → P (put w b)) :
    Keeps (discardStep r put) (fun st => P st.w) fun res => P res.w := by
  intro st h
  simp only [discardStep]
  cases (r st.w st.buf).err with
  | none => exact hsrc _ _ h
  | some e => exact hput _ _ (hsrc _ _ h)

/-- The loop returns with its buffer, of its length still, back in front of the pool. -/
theorem discardStep_pool (hr : r.Obeys) (pool : ω → List Bytes)
    (hpr : ∀ w p, pool (r w p).w = pool w) (hput : ∀ w b, pool (put w b) = b :: pool w)
    (P : List Bytes) (L : Nat) :
    Keeps (discardStep r put) (fun st => pool st.w = P ∧ st.buf.length = L)
      fun res => ∃ b, pool res.w = b :: P ∧ b.length = L := by
  rintro st ⟨hP, hL⟩
  have hl := (hr st.w st.buf).1
  simp only [discardStep]
  cases (r st.w st.buf).err with
  | none => exact ⟨by rw [hpr, hP], by rw [hl, hL]⟩
  | some e => exact ⟨_, by rw [hput, hpr, hP], by rw [hl, hL]⟩

theorem discardLoop_terminates (hr : r.Obeys) (hs : Streams r F) {α : Type} {π : ω → α}
    {R : α → α → Prop} (hwf : WellFounded R)
    (hdr : ∀ w p s e, F w s e → p ≠ [] → (r w p).err = none → R (π (r w p).w) (π w))
    {w₀ : ω} {st : CopyState ω} (hbuf : st.buf ≠ []) (hst : DiscardInv F w₀ st) :
    ∃ fuel res, loop (discardStep r put) fuel st = some res ∧ ∃ s e, StreamEnd F w₀ s e res := by
  have hk : Keeps (discardStep r put) (fun st => st.buf ≠ [] ∧ DiscardInv F w₀ st)
      fun res => ∃ s e, StreamEnd F w₀ s e res := by
    rintro st ⟨hb, hi⟩
    have h := @discardStep_keeps _ _ put _ hr hs w₀ st hi
    revert h
    simp only [discardStep]
    cases (r st.w st.buf).err with
    | none =>
      refine fun h => ⟨?_, h⟩
      rw [← List.length_pos, (hr st.w st.buf).1]; exact List.length_pos.2 hb
    | some e => exact id
  refine loop_wf (InvImage.wf (fun st => π st.w) hwf) hk ?_ ⟨hbuf, hst⟩
  rintro st st' ⟨hb, c, -, ⟨s, e, hF⟩, -⟩ hstep
  simp only [discardStep] at hstep
  cases herr : (r st.w st.buf).err with
  | none =>
    simp only [herr, Sum.inl.injEq] at hstep
    subst hstep
    exact hdr _ _ s e hF hb herr
  | some e' => simp [herr] at hstep

end Loop

/-! ## `Copy` to `Discard` against the staging loop -/

section Pair

variable {σ : Type} {r : ReadFn σ} {rest : σ → Option (Bytes × Error)} {s₀ : σ} {s : Bytes}
  {e : Error}

/-- `Discard`, the pool being the sink's state. -/
def pairDiscard : Dst (Pair σ (List Bytes)) :=
  discard (fun w => w.1.2) fun w b => ((w.1.1, b), w.2)

theorem copy_discard_end (hr : r.Obeys) (hd : Delivers r rest) (h₀ : rest s₀ = some (s, e))
    (lim : Option (Pair σ (List Bytes) → Int)) (pool : List Bytes) {fuel : Nat}
    {res : WriteOut (Pair σ (List Bytes))}
    (h : copy fuel pairDiscard (pairSrc r lim) ((s₀, pool), []) = some res) :
    res.n = toInt64 s.length ∧ res.err = eofToNil e ∧
      ∃ b, res.w.1.2 = b :: (poolGet pool).2 ∧ b.length = (poolGet pool).1.length := by
  rw [pairDiscard, copy_discard _ _ _ _ rfl, discardReadFrom] at h
  obtain ⟨⟨s', e', ⟨hF, hn, herr⟩⟩, hpool⟩ := loop_inv
    ((discardStep_keeps hr.onFst.logged hd.onFst.logged.streams _).and
      (discardStep_pool hr.onFst.logged (fun w : Pair σ (List Bytes) => w.1.2)
        (fun _ _ => rfl) (fun _ _ => rfl) (poolGet pool).2 (poolGet pool).1.length))
    ⟨⟨[], toInt64_zero.symm, consumed_start (show restFuture (fun w : Pair σ (List Bytes) => rest w.1.1)
      ((s₀, (poolGet pool).2), []) s e from h₀)⟩, rfl, rfl⟩ h
  obtain ⟨rfl, rfl⟩ : s = s' ∧ e = e' := by simpa [restFuture, discardStart, h₀] using hF
  exact ⟨hn, herr, hpool⟩

theorem copy_discard_returns (hr : r.Obeys) (hd : Delivers r rest) (hp : Progress r rest)
    (h₀ : rest s₀ = some (s, e)) (lim : Option (Pair σ (List Bytes) → Int)) {pool : List Bytes}
    (hpool : PoolOk pool) :
    ∃ fuel res, copy fuel pairDiscard (pairSrc r lim) ((s₀, pool), []) = some res := by
  obtain ⟨fuel, res, h, -⟩ := discardLoop_terminates hr.onFst.logged hd.onFst.logged.streams
    (drains_wf hp.stalls_wf) (π := fun w : Pair σ (List Bytes) => w.1.1)
    (fun _ _ _ _ hF hp' herr => (hd.onFst.logged.drains hr.onFst.logged hF hp' herr).onFst_logged)
    (show (discardStart (fun w : Pair σ (List Bytes) => w.1.2) (fun w b => ((w.1.1, b), w.2))
      ((s₀, pool), [])).buf ≠ [] from poolGet_ne_nil hpool)
    ⟨[], toInt64_zero.symm, consumed_start (show restFuture (fun w : Pair σ (List Bytes) => rest w.1.1)
      ((s₀, (poolGet pool).2), []) s e from h₀)⟩
  exact ⟨fuel, res, by rw [pairDiscard, copy_discard _ _ _ _ rfl, discardReadFrom]; exact h⟩

/-- `Copy(Discard, src)` from a stream `s` then `e` returns, from a pool `New` filled, what the
staging loop returns to any sink that takes every write through any non-empty buffer, and puts its
buffer back. -/
theorem copy_discard_staged (r : ReadFn σ) (rest : σ → Option (Bytes × Error)) (hr : r.Obeys)
    (hd : Delivers r rest) (hp : Progress r rest) (s₀ : σ) (s : Bytes) (e : Error)
    (h₀ : rest s₀ = some (s, e)) (lim : Option (Pair σ (List Bytes) → Int)) (pool : List Bytes) :
    (PoolOk pool → ∃ fuel res, copy fuel pairDiscard (pairSrc r lim) ((s₀, pool), []) = some res) ∧
    ∀ fuel res, copy fuel pairDiscard (pairSrc r lim) ((s₀, pool), []) = some res →
      (∀ (τ : Type) (wr : WriteFn τ), Accepts wr → ∀ (limitN : Option (Pair σ τ → Int))
        (buf : Option Bytes), buf ≠ some [] → ∀ t₀ : τ,
        ∃ res', copyBuffer (s.length + 1) (pairDst wr) (pairSrc r limitN) buf ((s₀, t₀), []) =
          some res' ∧ res'.n = res.n ∧ res'.err = res.err) ∧
      res.n = toInt64 s.length ∧ res.err = eofToNil e ∧
      ∃ b, res.w.1.2 = b :: (poolGet pool).2 ∧ b.length = (poolGet pool).1.length := by
  refine ⟨copy_discard_returns hr hd hp h₀ lim, fun fuel res h => ?_⟩
  obtain ⟨hn, herr, hpool⟩ := copy_discard_end hr hd h₀ lim pool h
  refine ⟨fun τ wr hw limitN buf hbuf t₀ => ?_, hn, herr, hpool⟩
  obtain ⟨res', hres, hn', herr', -⟩ := copyLoop_transfers hr.onFst.logged hd.onFst.logged
    hp.onFst.logged (@takes_pair _ _ r (restFuture rest) _ hw) (fun _ _ => rfl)
    (stagedStart_buf_ne_nil (pairSrc r limitN) hbuf ((s₀, t₀), [])) rfl h₀ (Nat.lt_succ_self _)
  exact ⟨res', by rw [copyBuffer_staged _ _ _ _ _ rfl rfl]; exact hres, hn'.trans hn.symm,
    herr'.trans herr.symm⟩

theorem copy_discard_staged_slice :
    (PoolOk [] → ∃ fuel res, copy fuel pairDiscard (pairSrc sliceReader none) (([1, 2], []), []) =
      some res) ∧
    ∀ fuel res, copy fuel pairDiscard (pairSrc sliceReader none) (([1, 2], []), []) = some res →
      (∀ (τ : Type) (wr : WriteFn τ), Accepts wr → ∀ (limitN : Option (Pair Bytes τ → Int))
        (buf : Option Bytes), buf ≠ some [] → ∀ t₀ : τ,
        ∃ res', copyBuffer ([1, 2].length + 1) (pairDst wr) (pairSrc sliceReader limitN) buf
          (([1, 2], t₀), []) = some res' ∧ res'.n = res.n ∧ res'.err = res.err) ∧
      res.n = toInt64 [1, 2].length ∧ res.err = eofToNil .eof ∧
      ∃ b, res.w.1.2 = b :: (poolGet []).2 ∧ b.length = (poolGet []).1.length :=
  copy_discard_staged sliceReader _ sliceReader_obeys sliceReader_delivers sliceReader_progress
    [1, 2] [1, 2] .eof rfl none []

/-- `Copy(Discard, src)` of `2^63` bytes never returns `(2^63, nil)`. -/
theorem copy_discard_count_wraps :
    ¬∃ fuel w, copy fuel pairDiscard (pairSrc sliceReader none)
      ((List.replicate 9223372036854775808 0, []), []) = some ⟨w, 9223372036854775808, none⟩ := by
  rintro ⟨fuel, w, h⟩
  have hn := (copy_discard_end sliceReader_obeys sliceReader_delivers rfl none [] h).1
  dsimp only at hn
  rw [List.length_replicate] at hn
  unfold toInt64 at hn
  omega

end Pair

end GoIo
