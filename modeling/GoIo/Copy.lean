import GoIo.Loop
import GoIo.Stream

/-!
# `Copy`, `CopyBuffer` and `copyBuffer`

`copyBuffer` tries the fast paths (`WriteTo`, then `ReadFrom`) and otherwise stages the copy
through a buffer (`copyStep`). Against a sink that accepts every write, the copy of a stream `s`
then `e` gives the sink `s` and returns `|s|` as an `int64` (`copyBuffer_transfers`).
-/

namespace GoIo

variable {ω : Type}

/-- A source as `copyBuffer` sees it: `Read`, `WriteTo` if any, `N` of a `*LimitedReader`. -/
structure Src (ω : Type) where
  read : ReadFn ω
  writeTo : Option (Nat → WriteFn ω → ω → Option (WriteOut ω))
  limitN : Option (ω → Int)

/-- A destination as `copyBuffer` sees it: its `Write`, and its `ReadFrom` if it has one. -/
structure Dst (ω : Type) where
  write : WriteFn ω
  readFrom : Option (Nat → ReadFn ω → ω → Option (WriteOut ω))

/-- The length of the buffer `copyBuffer` makes: 32 KiB, or a smaller `N` (at least 1). -/
def bufSize : Option Int → Nat
  | some n => if 32 * 1024 > n then (if n < 1 then 1 else n.toNat) else 32 * 1024
  | none => 32 * 1024

theorem bufSize_pos (l : Option Int) : 0 < bufSize l := by
  unfold bufSize; split <;> (try split) <;> (try split) <;> omega

/-- `copyBuffer`'s check of what `Write` returned for a chunk of `nr` bytes. -/
def checkWrite (nr nw : Int) (ew : Option Error) : Int × Option Error :=
  if nw < 0 ∨ nr < nw then (0, if ew = none then some .errInvalidWrite else ew) else (nw, ew)

/-- The state of the staging loop between two reads. -/
structure CopyState (ω : Type) where
  w : ω
  buf : Bytes
  written : Int

/-- The end of a round: an error from `Read` stops the copy, `EOF` counting as success. -/
def readEnd (er : Option Error) (st : CopyState ω) : CopyState ω ⊕ WriteOut ω :=
  match er with
  | none => .inl st
  | some e => .inr ⟨st.w, st.written, eofToNil e⟩

/-- One round of `copyBuffer`'s `for` loop. -/
def copyStep (src : ReadFn ω) (dst : WriteFn ω) (st : CopyState ω) : CopyState ω ⊕ WriteOut ω :=
  let o := src st.w st.buf
  if 0 < o.n then
    let ow := dst o.w (o.p.take o.n.toNat)
    let c := checkWrite o.n ow.n ow.err
    let written := toInt64 (st.written + c.1)
    match c.2 with
    | some e => .inr ⟨ow.w, written, some e⟩
    | none =>
      if o.n ≠ c.1 then .inr ⟨ow.w, written, some .errShortWrite⟩
      else readEnd o.err ⟨ow.w, o.p, written⟩
  else readEnd o.err ⟨o.w, o.p, st.written⟩

/-- The staging loop's first state: the buffer given, or one of `bufSize` bytes. -/
def stagedStart (src : Src ω) (buf : Option Bytes) (w : ω) : CopyState ω :=
  ⟨w, buf.getD (List.replicate (bufSize (src.limitN.map (· w))) 0), 0⟩

/-- `copyBuffer(dst, src, buf)`, with `buf = none` for a nil buffer. -/
def copyBuffer (fuel : Nat) (dst : Dst ω) (src : Src ω) (buf : Option Bytes) (w : ω) :
    Option (WriteOut ω) :=
  match src.writeTo with
  | some writeTo => writeTo fuel dst.write w
  | none =>
    match dst.readFrom with
    | some readFrom => readFrom fuel src.read w
    | none => loop (copyStep src.read dst.write) fuel (stagedStart src buf w)

/-- `Copy(dst, src)`. -/
def copy (fuel : Nat) (dst : Dst ω) (src : Src ω) (w : ω) : Option (WriteOut ω) :=
  copyBuffer fuel dst src none w

/-- `CopyBuffer(dst, src, buf)`, which panics on a non-nil empty buffer. -/
def CopyBuffer (fuel : Nat) (dst : Dst ω) (src : Src ω) (buf : Option Bytes) (w : ω) :
    Except String (Option (WriteOut ω)) :=
  if buf = some [] then .error "empty buffer in CopyBuffer" else .ok (copyBuffer fuel dst src buf w)

theorem copyBuffer_staged (fuel : Nat) (dst : Dst ω) (src : Src ω) (buf : Option Bytes) (w : ω)
    (hs : src.writeTo = none) (hd : dst.readFrom = none) :
    copyBuffer fuel dst src buf w = loop (copyStep src.read dst.write) fuel (stagedStart src buf w) := by
  simp [copyBuffer, hs, hd]

theorem stagedStart_buf_ne_nil (src : Src ω) {buf : Option Bytes} (hbuf : buf ≠ some []) (w : ω) :
    (stagedStart src buf w).buf ≠ [] := by
  cases buf with
  | none => simpa [stagedStart] using Nat.pos_iff_ne_zero.mp (bufSize_pos _)
  | some b => simpa [stagedStart] using hbuf

/-! ## Against a sink that accepts every write -/

section Transfer

variable {src : ReadFn ω} {dst : WriteFn ω}

theorem checkWrite_fst_mem {nr nw : Int} {ew : Option Error} (h : 0 ≤ nr) :
    0 ≤ (checkWrite nr nw ew).1 ∧ (checkWrite nr nw ew).1 ≤ nr := by
  unfold checkWrite; split <;> simp only <;> omega

theorem readEnd_elim {I : CopyState ω → Prop} {Q : WriteOut ω → Prop} (er : Option Error)
    {st : CopyState ω} (hi : I st) (hq : ∀ e, Q ⟨st.w, st.written, e⟩) :
    Sum.elim I Q (readEnd er st) := by
  cases er with
  | none => exact hi
  | some e => exact hq _

theorem checkWrite_eq_of_snd {nr nw : Int} {ew : Option Error} (h : (checkWrite nr nw ew).2 = none) :
    ew = none ∧ (checkWrite nr nw ew).1 = nw := by
  unfold checkWrite at h ⊢
  by_cases hc : nw < 0 ∨ nr < nw
  · simp only [hc, if_true] at h; split at h <;> simp_all
  · simp only [hc, if_false] at h ⊢; exact ⟨h, trivial⟩

theorem checkWrite_full {nr : Int} (h : 0 ≤ nr) : checkWrite nr nr none = (nr, none) := by
  unfold checkWrite; split <;> simp_all; omega

/-- The three ways a round goes: nothing read, a failed or short write, a full write. -/
theorem copyStep_cases {src : ReadFn ω} {dst : WriteFn ω} {st : CopyState ω} {o : ReadOut ω}
    {ow : WriteOut ω} (ho : src st.w st.buf = o) (how : dst o.w (o.p.take o.n.toNat) = ow) :
    (o.n ≤ 0 ∧ copyStep src dst st = readEnd o.err ⟨o.w, o.p, st.written⟩) ∨
    (0 < o.n ∧ ¬(ow.n = o.n ∧ ow.err = none) ∧
      ∃ e, copyStep src dst st = .inr ⟨ow.w, toInt64 (st.written + (checkWrite o.n ow.n ow.err).1), some e⟩) ∨
    (0 < o.n ∧ ow.n = o.n ∧ ow.err = none ∧
      copyStep src dst st = readEnd o.err ⟨ow.w, o.p, toInt64 (st.written + o.n)⟩) := by
  by_cases hpos : 0 < o.n
  · have hfull (h : ow.n = o.n ∧ ow.err = none) : checkWrite o.n ow.n ow.err = (o.n, none) := by
      rw [h.1, h.2]; exact checkWrite_full (by omega)
    cases hc : (checkWrite o.n ow.n ow.err).2 with
    | some e =>
      refine .inr (.inl ⟨hpos, fun h => by rw [hfull h] at hc; exact Option.noConfusion hc, e, ?_⟩)
      simp only [copyStep, ho, how, if_pos hpos, hc]
    | none =>
      obtain ⟨hew, hc1⟩ := checkWrite_eq_of_snd hc
      by_cases hshort : o.n = (checkWrite o.n ow.n ow.err).1
      · refine .inr (.inr ⟨hpos, by omega, hew, ?_⟩)
        simp only [copyStep, ho, how, if_pos hpos, hc, ← hshort, ne_eq, not_true_eq_false, if_false]
      · refine .inr (.inl ⟨hpos, fun h => hshort (by rw [hfull h]), .errShortWrite, ?_⟩)
        simp only [copyStep, ho, how, if_pos hpos, hc, ne_eq, hshort, not_false_eq_true, if_true]
  · exact .inl ⟨by omega, by simp only [copyStep, ho, if_neg hpos]⟩

theorem copyStep_of_accepts (hr : src.Obeys) (hw : Accepts dst) (st : CopyState ω) :
    copyStep src dst st =
      readEnd (src st.w st.buf).err
        (if 0 < (src st.w st.buf).n then
          ⟨(dst (src st.w st.buf).w (src st.w st.buf).data).w, (src st.w st.buf).p,
            toInt64 (st.written + (src st.w st.buf).n)⟩
        else ⟨(src st.w st.buf).w, (src st.w st.buf).p, st.written⟩) := by
  by_cases hpos : 0 < (src st.w st.buf).n
  · obtain ⟨hn, he⟩ := hw (src st.w st.buf).w (src st.w st.buf).data
    have hlen := hr.data_length st.w st.buf
    have hnw : (dst (src st.w st.buf).w (src st.w st.buf).data).n = (src st.w st.buf).n := by
      rw [hn, hlen]; omega
    have hneg : ¬(src st.w st.buf).n < 0 := by omega
    simp only [ReadOut.data] at hnw he
    simp [copyStep, checkWrite, hpos, hnw, he, hneg, ReadOut.data]
  · simp [copyStep, hpos]

theorem toInt64_count (hr : src.Obeys) {k : Int} {c : Bytes} (hk : k = toInt64 c.length)
    (w : ω) (p : Bytes) : toInt64 (k + (src w p).n) = toInt64 (c ++ (src w p).data).length := by
  have := (hr w p).2.1
  rw [hk, toInt64_add_toInt64, List.length_append, hr.data_length]
  exact congrArg toInt64 (by omega)

theorem copyStep_world {P : ω → Prop} (hsrc : ∀ w p, P w → P (src w p).w)
    (hdst : ∀ w q, P w → P (dst w q).w) :
    Keeps (copyStep src dst) (fun st => P st.w) fun res => P res.w := by
  intro st h
  have h1 := hsrc st.w st.buf h
  have h2 := hdst _ ((src st.w st.buf).p.take (src st.w st.buf).n.toNat) h1
  simp only [copyStep]
  split
  · split
    · exact h2
    · split
      · exact h2
      · cases (src st.w st.buf).err <;> exact h2
  · cases (src st.w st.buf).err <;> exact h1

variable {F : ω → Bytes → Error → Prop} {got : ω → Bytes}

/-- A sink that accepts every write, leaves the source alone, and records what it got. -/
structure Takes (src : ReadFn ω) (dst : WriteFn ω) (F : ω → Bytes → Error → Prop)
    (got : ω → Bytes) : Prop where
  accepts : Accepts dst
  future_write : ∀ w q, F (dst w q).w = F w
  got_write : ∀ w q, got (dst w q).w = got w ++ q
  got_read : ∀ w p, got (src w p).w = got w

/-- `res` ends the future `s` then `e`: `|s|` as an `int64`, and `nil` for `EOF`. -/
def StreamEnd (F : ω → Bytes → Error → Prop) (w₀ : ω) (s : Bytes) (e : Error)
    (res : WriteOut ω) : Prop :=
  F w₀ s e ∧ res.n = toInt64 s.length ∧ res.err = eofToNil e

/-- The staging loop's invariant: the reads consumed `c`, given to the sink and counted. -/
def CopyInv (F : ω → Bytes → Error → Prop) (got : ω → Bytes) (w₀ : ω) (st : CopyState ω) : Prop :=
  st.buf ≠ [] ∧ ∃ c, got st.w = got w₀ ++ c ∧ st.written = toInt64 c.length ∧ Consumed F w₀ c st.w

def CopyPost (F : ω → Bytes → Error → Prop) (got : ω → Bytes) (w₀ : ω) (res : WriteOut ω) : Prop :=
  ∃ s e, StreamEnd F w₀ s e res ∧ got res.w = got w₀ ++ s

theorem copyStep_keeps (hr : src.Obeys) (hs : Streams src F) (ht : Takes src dst F got) (w₀ : ω) :
    Keeps (copyStep src dst) (CopyInv F got w₀) (CopyPost F got w₀) := by
  rintro st ⟨hbuf, c, hgot, hwr, hc⟩
  have hlen := hr.data_length st.w st.buf
  obtain ⟨hpl, hn0, -⟩ := hr st.w st.buf
  obtain ⟨st', hst, hp', hgot', hwr', hF'⟩ : ∃ st' : CopyState ω,
      copyStep src dst st = readEnd (src st.w st.buf).err st' ∧ st'.buf = (src st.w st.buf).p ∧
      got st'.w = got w₀ ++ (c ++ (src st.w st.buf).data) ∧
      st'.written = toInt64 (c ++ (src st.w st.buf).data).length ∧ F st'.w = F (src st.w st.buf).w := by
    rw [copyStep_of_accepts hr ht.accepts]
    split <;> rename_i hpos
    · exact ⟨_, rfl, rfl, by rw [ht.got_write, ht.got_read, hgot, List.append_assoc],
        toInt64_count hr hwr st.w st.buf, ht.future_write _ _⟩
    · have hnil : (src st.w st.buf).data = [] := List.length_eq_zero.1 (by rw [hlen]; omega)
      rw [hnil, List.append_nil]
      exact ⟨_, rfl, rfl, by rw [ht.got_read, hgot], hwr, rfl⟩
  rw [hst]
  cases herr : (src st.w st.buf).err with
  | none =>
    refine ⟨?_, _, hgot', hwr', (hs.read_none hc st.buf herr).congr hF'⟩
    rw [hp', ← List.length_pos, hpl]; exact List.length_pos.2 hbuf
  | some e => exact ⟨_, e, ⟨hs.read_some hc st.buf herr, hwr', rfl⟩, hgot'⟩

theorem copyStep_inl (hr : src.Obeys) (ha : Accepts dst) {α : Type} {π : ω → α}
    (hπ : ∀ w q, π (dst w q).w = π w) {st st' : CopyState ω} (h : copyStep src dst st = .inl st') :
    (src st.w st.buf).err = none ∧ π st'.w = π (src st.w st.buf).w := by
  rw [copyStep_of_accepts hr ha] at h
  cases herr : (src st.w st.buf).err with
  | none =>
    simp only [herr, readEnd, Sum.inl.injEq] at h
    subst h
    exact ⟨rfl, by split <;> simp [hπ]⟩
  | some e => simp [herr, readEnd] at h

theorem copyStep_decreases {rest : ω → Option (Bytes × Error)} (hr : src.Obeys)
    (hd : Delivers src rest) (hp : Progress src rest) (ht : Takes src dst (restFuture rest) got)
    (hfr : ∀ w q, rest (dst w q).w = rest w) (w₀ : ω) :
    Decreases (copyStep src dst) (CopyInv (restFuture rest) got w₀) fun st => restLen rest st.w := by
  rintro st st' ⟨hbuf, -, -, -, ⟨s, e, hrest⟩, -⟩ hstep
  obtain ⟨herr, hst'⟩ := copyStep_inl hr ht.accepts hfr hstep
  unfold restFuture at hrest
  have hpos : 0 < (src st.w st.buf).n := by
    simpa [herr] using hp st.w st.buf (by simp [hrest]) hbuf
  have hds := hd st.w st.buf s e hrest
  simp only [herr] at hds
  obtain ⟨s', rfl, hrest'⟩ := hds
  simp only [restLen, hst', hrest', hrest, Option.map_some', Option.getD_some, List.length_append,
    hr.data_length]
  omega

/-- The staging loop returns within `|s| + 1` rounds, having given the sink `s`. -/
theorem copyLoop_transfers {rest : ω → Option (Bytes × Error)} (hr : src.Obeys)
    (hd : Delivers src rest) (hp : Progress src rest) (ht : Takes src dst (restFuture rest) got)
    (hfr : ∀ w q, rest (dst w q).w = rest w) {st : CopyState ω} (hbuf : st.buf ≠ [])
    (h0 : st.written = 0) {s : Bytes} {e : Error} (h₀ : rest st.w = some (s, e)) {fuel : Nat}
    (hfuel : s.length < fuel) :
    ∃ res, loop (copyStep src dst) fuel st = some res ∧ res.n = toInt64 s.length ∧
      res.err = eofToNil e ∧ got res.w = got st.w ++ s := by
  obtain ⟨res, hres, s', e', ⟨hF, hn, herr⟩, hgot⟩ :=
    loop_spec (copyStep_keeps hr hd.streams ht st.w) (copyStep_decreases hr hd hp ht hfr st.w)
      ⟨hbuf, [], (List.append_nil _).symm, by simp [h0], consumed_start h₀⟩
      (by simpa [restLen, h₀] using hfuel)
  obtain ⟨rfl, rfl⟩ : s = s' ∧ e = e' := by simpa [restFuture, h₀] using hF
  exact ⟨res, hres, hn, herr, hgot⟩

theorem copyLoop_terminates (hr : src.Obeys) (hs : Streams src F) (ht : Takes src dst F got)
    {α : Type} {π : ω → α} {R : α → α → Prop} (hwf : WellFounded R)
    (hπ : ∀ w q, π (dst w q).w = π w)
    (hdr : ∀ w p s e, F w s e → p ≠ [] → (src w p).err = none → R (π (src w p).w) (π w))
    {w₀ : ω} {st : CopyState ω} (hst : CopyInv F got w₀ st) :
    ∃ fuel res, loop (copyStep src dst) fuel st = some res ∧ CopyPost F got w₀ res :=
  loop_wf (InvImage.wf (fun st => π st.w) hwf) (copyStep_keeps hr hs ht w₀)
    (fun st st' ⟨hbuf, _, _, _, ⟨⟨s, e, hF⟩, _⟩⟩ hstep => by
      obtain ⟨herr, hst'⟩ := copyStep_inl hr ht.accepts hπ hstep
      show R (π st'.w) (π st.w)
      rw [hst']; exact hdr _ _ s e hF hbuf herr) hst

end Transfer

/-! ## A source and a sink of their own -/

section Pair

variable {σ τ : Type}

/-- The world of a copy: the source's and the sink's states, and the log of calls. -/
abbrev Pair (σ τ : Type) := (σ × τ) × List Event

/-- The source `r`, with no `WriteTo`; `limitN` is its `N` if it is a `*LimitedReader`. -/
def pairSrc (r : ReadFn σ) (limitN : Option (Pair σ τ → Int)) : Src (Pair σ τ) :=
  ⟨r.onFst.logged, none, limitN⟩

/-- The sink `wr`, with no `ReadFrom`. -/
def pairDst (wr : WriteFn τ) : Dst (Pair σ τ) := ⟨wr.onSnd.logged, none⟩

theorem takes_pair {r : ReadFn σ} {F : σ → Bytes → Error → Prop} {wr : WriteFn τ}
    (hw : Accepts wr) :
    Takes (r.onFst.logged) (wr.onSnd.logged) (fun w : Pair σ τ => F w.1.1)
      (fun w => writesOf w.2) where
  accepts w q := by simpa using hw w.1.2 q
  future_write _ _ := rfl
  got_write _ _ := by simp
  got_read _ _ := by simp

/-- `Copy` and `CopyBuffer` without fast paths, from a stream `s` then `e` to a sink that takes
every write: within `|s| + 1` reads the writes make up `s`, and it returns `|s|` as an `int64`. -/
theorem copyBuffer_transfers (r : ReadFn σ) (rest : σ → Option (Bytes × Error)) (hr : r.Obeys)
    (hd : Delivers r rest) (hp : Progress r rest) (wr : WriteFn τ) (hw : Accepts wr)
    (limitN : Option (Pair σ τ → Int)) (buf : Option Bytes) (hbuf : buf ≠ some [])
    (s₀ : σ) (t₀ : τ) (s : Bytes) (e : Error) (h₀ : rest s₀ = some (s, e)) (fuel : Nat)
    (hfuel : s.length < fuel) :
    ∃ w, copyBuffer fuel (pairDst wr) (pairSrc r limitN) buf ((s₀, t₀), []) =
      some ⟨w, toInt64 s.length, eofToNil e⟩ ∧ writesOf w.2 = s := by
  rw [copyBuffer_staged _ _ _ _ _ rfl rfl]
  obtain ⟨res, hres, hn, herr, hgot⟩ := copyLoop_transfers hr.onFst.logged hd.onFst.logged
    hp.onFst.logged (takes_pair (F := restFuture rest) hw) (fun _ _ => rfl)
    (stagedStart_buf_ne_nil (pairSrc r limitN) hbuf ((s₀, t₀), [])) rfl h₀ hfuel
  exact ⟨res.w, by rw [← hn, ← herr]; exact hres, by simpa using hgot⟩

theorem copyBuffer_transfers_slice :
    ∃ w, copyBuffer 3 (pairDst acceptAll) (pairSrc sliceReader none) none (([1, 2], ()), []) =
      some ⟨w, toInt64 2, none⟩ ∧ writesOf w.2 = [1, 2] :=
  copyBuffer_transfers sliceReader _ sliceReader_obeys sliceReader_delivers sliceReader_progress
    acceptAll acceptAll_accepts none none (by simp) [1, 2] () [1, 2] .eof rfl 3 (by decide)

/-- `Copy` of `2^63` bytes counts them in an `int64`: it never returns `(2^63, nil)`. -/
theorem copy_count_wraps :
    ¬∃ fuel w, copy fuel (pairDst acceptAll) (pairSrc sliceReader none)
      ((List.replicate 9223372036854775808 0, ()), []) = some ⟨w, 9223372036854775808, none⟩ := by
  rintro ⟨fuel, w, h⟩
  rw [copy, copyBuffer_staged _ _ _ _ _ rfl rfl] at h
  obtain ⟨res, hres, hn, -⟩ := copyLoop_transfers sliceReader_obeys.onFst.logged
    sliceReader_delivers.onFst.logged sliceReader_progress.onFst.logged
    (@takes_pair _ _ sliceReader (restFuture fun s => some (s, .eof)) _ acceptAll_accepts)
    (fun _ _ => rfl)
    (stagedStart_buf_ne_nil (pairSrc sliceReader none) (show (none : Option Bytes) ≠ some [] by simp)
      ((List.replicate 9223372036854775808 0, ()), []))
    rfl rfl (show (List.replicate 9223372036854775808 (0 : UInt8)).length <
      max fuel 9223372036854775808 + 1 by rw [List.length_replicate]; omega)
  have h' := loop_mono h (Nat.le_succ_of_le (Nat.le_max_left fuel 9223372036854775808))
  obtain rfl := Option.some.inj (h'.symm.trans hres)
  dsimp only [stagedStart] at hn
  rw [List.length_replicate] at hn
  unfold toInt64 at hn
  omega

end Pair

end GoIo
