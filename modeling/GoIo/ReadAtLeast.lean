import GoIo.Loop
import GoIo.Stream

/-!
# `ReadAtLeast` and `ReadFull`

`ReadAtLeast(r, buf, min)` reads into `buf[n:]` while `n < min` and no read failed. From any
reader, `err == nil` exactly when `n ≥ min` (`readAtLeast_count`); from a stream, `buf[0:n]` is
the stream's start (`readAtLeast_stream`).
-/

namespace GoIo

variable {ω : Type}

/-- The end of `ReadAtLeast`: `n ≥ min` drops the error, `EOF` after bytes is `ErrUnexpectedEOF`. -/
def readAtLeastEnd (min : Int) (st : ReadOut ω) : ReadOut ω :=
  if min ≤ st.n then { st with err := none }
  else if 0 < st.n ∧ st.err = some .eof then { st with err := some .errUnexpectedEOF }
  else st

/-- One round of `ReadAtLeast`'s `for` loop: read into `buf[n:]` and add the count. -/
def readAtLeastStep (r : ReadFn ω) (min : Int) (st : ReadOut ω) :
    ReadOut ω ⊕ Except String (ReadOut ω) :=
  if st.n < min ∧ st.err = none then
    match slice st.p st.n st.p.length with
    | .ok q =>
      let o := r st.w q
      .inl ⟨o.w, st.p.take st.n.toNat ++ o.p, st.n + o.n, o.err⟩
    | .error m => .inr (.error m)
  else .inr (.ok (readAtLeastEnd min st))

/-- `ReadAtLeast(r, buf, min)`: the world, `buf` and `(n, err)` after it, or a panic. -/
def readAtLeast (fuel : Nat) (r : ReadFn ω) (buf : Bytes) (min : Int) (w : ω) :
    Option (Except String (ReadOut ω)) :=
  if buf.length < min then some (.ok ⟨w, buf, 0, some .errShortBuffer⟩)
  else loop (readAtLeastStep r min) fuel ⟨w, buf, 0, none⟩

/-- `ReadFull(r, buf)`. -/
def readFull (fuel : Nat) (r : ReadFn ω) (buf : Bytes) (w : ω) :
    Option (Except String (ReadOut ω)) :=
  readAtLeast fuel r buf buf.length w

/-- The error of a short `ReadAtLeast` over the stream `s` then `e`. -/
def shortErr (s : Bytes) (e : Error) : Error :=
  if e = .eof ∧ s ≠ [] then .errUnexpectedEOF else e

@[simp] theorem readAtLeastEnd_n (min : Int) (st : ReadOut ω) : (readAtLeastEnd min st).n = st.n := by
  unfold readAtLeastEnd; split <;> (try split) <;> rfl

@[simp] theorem readAtLeastEnd_p (min : Int) (st : ReadOut ω) : (readAtLeastEnd min st).p = st.p := by
  unfold readAtLeastEnd; split <;> (try split) <;> rfl

@[simp] theorem readAtLeastEnd_w (min : Int) (st : ReadOut ω) : (readAtLeastEnd min st).w = st.w := by
  unfold readAtLeastEnd; split <;> (try split) <;> rfl

theorem readAtLeastEnd_err (min : Int) (st : ReadOut ω) :
    (readAtLeastEnd min st).err = if min ≤ st.n then none
      else if 0 < st.n ∧ st.err = some .eof then some .errUnexpectedEOF else st.err := by
  unfold readAtLeastEnd; split <;> (try split) <;> rfl

/-- A round reads into `buf[n:]`, panics with `n` outside `buf`, or ends the loop. -/
theorem readAtLeastStep_cases (r : ReadFn ω) (min : Int) (st : ReadOut ω) :
    (st.n < min ∧ st.err = none ∧ 0 ≤ st.n ∧ st.n ≤ st.p.length ∧
      readAtLeastStep r min st =
        .inl ⟨(r st.w (st.p.drop st.n.toNat)).w,
          st.p.take st.n.toNat ++ (r st.w (st.p.drop st.n.toNat)).p,
          st.n + (r st.w (st.p.drop st.n.toNat)).n, (r st.w (st.p.drop st.n.toNat)).err⟩) ∨
    (¬(0 ≤ st.n ∧ st.n ≤ st.p.length) ∧ ∃ m, readAtLeastStep r min st = .inr (.error m)) ∨
    (¬(st.n < min ∧ st.err = none) ∧ readAtLeastStep r min st = .inr (.ok (readAtLeastEnd min st))) := by
  by_cases hgo : st.n < min ∧ st.err = none
  · by_cases hin : 0 ≤ st.n ∧ st.n ≤ st.p.length
    · refine .inl ⟨hgo.1, hgo.2, hin.1, hin.2, ?_⟩
      simp only [readAtLeastStep, if_pos hgo, slice_to_length hin.1 hin.2]
    · refine .inr (.inl ⟨hin, "slice bounds out of range", ?_⟩)
      simp only [readAtLeastStep, if_pos hgo, slice]
      rw [if_neg fun h => hin ⟨h.1, h.2.1⟩]
  · exact .inr (.inr ⟨hgo, by simp only [readAtLeastStep, if_neg hgo]⟩)

/-! ## Any reader -/

section Any

variable {r : ReadFn ω}

/-- What the loop keeps for any reader: `buf` keeps its `L` bytes, and `0 ≤ n ≤ L`. -/
def RalBounds (L : Nat) (st : ReadOut ω) : Prop :=
  st.p.length = L ∧ 0 ≤ st.n ∧ st.n ≤ L

/-- No panic, `buf` of `L` bytes, `0 ≤ n ≤ L`, and `err == nil` exactly when `n ≥ min`. -/
def RalCount (L : Nat) (min : Int) (res : Except String (ReadOut ω)) : Prop :=
  ∃ o, res = .ok o ∧ o.p.length = L ∧ 0 ≤ o.n ∧ o.n ≤ L ∧ (o.err = none ↔ min ≤ o.n)

theorem readAtLeastStep_bounds (hr : r.Obeys) (L : Nat) (min : Int) :
    Keeps (readAtLeastStep r min) (RalBounds L) (RalCount L min) := by
  rintro st ⟨hL, h0, hn⟩
  rcases readAtLeastStep_cases r min st with ⟨-, -, -, -, hst⟩ | ⟨hbad, -⟩ | ⟨hstop, hst⟩
  · rw [hst]
    obtain ⟨hpl, hk0, hkq⟩ := hr st.w (st.p.drop st.n.toNat)
    simp only [List.length_drop] at hpl hkq
    have hl1 : (st.p.take st.n.toNat).length = st.n.toNat := List.length_take_of_le (by omega)
    exact ⟨by rw [List.length_append, hl1, hpl]; omega, show 0 ≤ st.n + _ by omega,
      show st.n + _ ≤ L by omega⟩
  · exact absurd ⟨h0, by omega⟩ hbad
  · rw [hst]
    refine ⟨_, rfl, by rw [readAtLeastEnd_p, hL], by rw [readAtLeastEnd_n]; exact h0,
      by rw [readAtLeastEnd_n]; exact hn, ?_⟩
    rw [readAtLeastEnd_n, readAtLeastEnd_err]
    by_cases hmin : min ≤ st.n
    · rw [if_pos hmin]; exact iff_of_true rfl hmin
    · have herr : st.err ≠ none := fun h => hstop ⟨by omega, h⟩
      rw [if_neg hmin]
      refine iff_of_false ?_ hmin
      split
      · exact Option.noConfusion
      · exact herr

/-- `ReadAtLeast` and `ReadFull` from any reader, `len(buf) ≥ min`: no panic, `0 ≤ n ≤ len(buf)`,
and `err == nil` exactly when `n ≥ min` (`n == len(buf)` for `ReadFull`). -/
theorem readAtLeast_count (r : ReadFn ω) (hr : r.Obeys) (buf : Bytes) (w : ω) (fuel : Nat) :
    (∀ min : Int, min ≤ buf.length → ∀ res, readAtLeast fuel r buf min w = some res →
      RalCount buf.length min res) ∧
    (∀ res, readFull fuel r buf w = some res →
      ∃ o, res = .ok o ∧ 0 ≤ o.n ∧ (o.err = none ↔ o.n = buf.length)) := by
  have hcount : ∀ min : Int, min ≤ buf.length → ∀ res, readAtLeast fuel r buf min w = some res →
      RalCount buf.length min res := by
    intro min hmin res h
    rw [readAtLeast, if_neg (by omega)] at h
    exact loop_inv (readAtLeastStep_bounds hr _ min)
      ⟨rfl, Int.le_refl 0, show (0 : Int) ≤ buf.length by omega⟩ h
  refine ⟨hcount, fun res h => ?_⟩
  obtain ⟨o, rfl, -, h0, hn, herr⟩ := hcount _ (Int.le_refl _) res h
  exact ⟨o, rfl, h0, herr.trans ⟨fun h => by omega, fun h => by omega⟩⟩

theorem readAtLeast_count_slice :
    (∀ min : Int, min ≤ ([0, 0] : Bytes).length → ∀ res,
      readAtLeast 3 sliceReader [0, 0] min [1, 2, 3] = some res → RalCount ([0, 0] : Bytes).length min res) ∧
    (∀ res, readFull 3 sliceReader [0, 0] [1, 2, 3] = some res →
      ∃ o, res = .ok o ∧ 0 ≤ o.n ∧ (o.err = none ↔ o.n = ([0, 0] : Bytes).length)) :=
  readAtLeast_count sliceReader sliceReader_obeys [0, 0] [1, 2, 3] 3

end Any

section Stream

variable {r : ReadFn ω} {F : ω → Bytes → Error → Prop}

/-- `buf[0:n]` holds what the reads consumed, and after an error it and the error are a future. -/
def RalInv (F : ω → Bytes → Error → Prop) (w₀ : ω) (L : Nat) (st : ReadOut ω) : Prop :=
  st.p.length = L ∧ 0 ≤ st.n ∧ st.n ≤ L ∧
    match st.err with
    | none => Consumed F w₀ (st.p.take st.n.toNat) st.w
    | some e => F w₀ (st.p.take st.n.toNat) e

/-- `buf[0:n]` is `s[0:n]`, `err == nil` exactly when `n ≥ min`, a short count is `|s|`. -/
def RalOut (s : Bytes) (e : Error) (L : Nat) (min : Int) (o : ReadOut ω) : Prop :=
  o.p.length = L ∧ 0 ≤ o.n ∧ o.n ≤ L ∧ o.p.take o.n.toNat = s.take o.n.toNat ∧
    (o.err = none ↔ min ≤ o.n) ∧
    (o.n < min → o.n = s.length ∧ o.err = some (shortErr s e))

def RalPost (F : ω → Bytes → Error → Prop) (w₀ : ω) (L : Nat) (min : Int)
    (res : Except String (ReadOut ω)) : Prop :=
  ∃ o, res = .ok o ∧ ∃ s e, F w₀ s e ∧ RalOut s e L min o

theorem ralInv_read (hr : r.Obeys) (hs : Streams r F) {w₀ : ω} {L : Nat} {st : ReadOut ω}
    (h : RalInv F w₀ L st) (herr : st.err = none) :
    RalInv F w₀ L ⟨(r st.w (st.p.drop st.n.toNat)).w, st.p.take st.n.toNat ++ (r st.w (st.p.drop st.n.toNat)).p,
      st.n + (r st.w (st.p.drop st.n.toNat)).n, (r st.w (st.p.drop st.n.toNat)).err⟩ := by
  obtain ⟨hL, h0, hn, hc⟩ := h
  rw [herr] at hc
  obtain ⟨hpl, hk0, hkq⟩ := hr st.w (st.p.drop st.n.toNat)
  simp only [List.length_drop] at hpl hkq
  have hl1 : (st.p.take st.n.toNat).length = st.n.toNat := List.length_take_of_le (by omega)
  have htake : (st.p.take st.n.toNat ++ (r st.w (st.p.drop st.n.toNat)).p).take
      (st.n + (r st.w (st.p.drop st.n.toNat)).n).toNat =
      st.p.take st.n.toNat ++ (r st.w (st.p.drop st.n.toNat)).data := by
    rw [List.take_append_eq_append_take, Int.toNat_add h0 hk0, hl1, Nat.add_sub_cancel_left,
      List.take_of_length_le (by rw [hl1]; omega)]
    rfl
  dsimp only [RalInv]
  refine ⟨by rw [List.length_append, hl1, hpl]; omega, by omega, by omega, ?_⟩
  rw [htake]
  cases herr' : (r st.w (st.p.drop st.n.toNat)).err with
  | none => exact hs.read_none hc _ herr'
  | some e => exact hs.read_some hc _ herr'

theorem RalInv.future {w₀ : ω} {L : Nat} {st : ReadOut ω} (h : RalInv F w₀ L st) :
    ∃ s e, F w₀ s e ∧ s.take st.n.toNat = st.p.take st.n.toNat ∧
      ∀ e', st.err = some e' → s = st.p.take st.n.toNat ∧ e = e' := by
  obtain ⟨hL, h0, hn, hc⟩ := h
  have hlen : (st.p.take st.n.toNat).length = st.n.toNat := by simp only [List.length_take]; omega
  cases herr : st.err with
  | none =>
    rw [herr] at hc
    obtain ⟨⟨s', e', h⟩, hcl⟩ := hc
    exact ⟨_, e', hcl _ _ h, List.take_left' hlen, fun _ h => by cases h⟩
  | some e' =>
    rw [herr] at hc
    exact ⟨_, e', hc, List.take_of_length_le (by omega), fun _ h => ⟨rfl, Option.some.inj h⟩⟩

theorem ralPost_end {w₀ : ω} {L : Nat} {min : Int} {st : ReadOut ω} (h : RalInv F w₀ L st)
    (hstop : ¬(st.n < min ∧ st.err = none)) : RalPost F w₀ L min (.ok (readAtLeastEnd min st)) := by
  obtain ⟨s, e, hF, hpre, hfin⟩ := h.future
  obtain ⟨hL, h0, hn, -⟩ := h
  refine ⟨_, rfl, s, e, hF, ?_⟩
  simp only [RalOut, readAtLeastEnd_n, readAtLeastEnd_p, readAtLeastEnd_err]
  refine ⟨hL, h0, hn, hpre.symm, ?_⟩
  by_cases hmin : min ≤ st.n
  · simp only [if_pos hmin]; exact ⟨by simp [hmin], fun h => absurd hmin (by omega)⟩
  · obtain ⟨e', he'⟩ := Option.ne_none_iff_exists'.1 fun h => hstop ⟨by omega, h⟩
    obtain ⟨rfl, rfl⟩ := hfin e' he'
    have hne : st.p.take st.n.toNat ≠ [] ↔ 0 < st.n := by
      rw [Ne, ← List.length_eq_zero, List.length_take]; omega
    simp only [if_neg hmin, he', shortErr, hne, Option.some.injEq]
    refine ⟨iff_of_false (by split <;> exact Option.noConfusion) hmin,
      fun _ => ⟨by rw [List.length_take]; omega, ?_⟩⟩
    by_cases hc : 0 < st.n ∧ e = .eof
    · rw [if_pos hc, if_pos ⟨hc.2, hc.1⟩]
    · rw [if_neg hc, if_neg fun h => hc ⟨h.2, h.1⟩]

theorem readAtLeastStep_keeps (hr : r.Obeys) (hs : Streams r F) (w₀ : ω) (L : Nat) (min : Int) :
    Keeps (readAtLeastStep r min) (RalInv F w₀ L) (RalPost F w₀ L min) := by
  intro st h
  rcases readAtLeastStep_cases r min st with ⟨-, herr, -, -, hst⟩ | ⟨hbad, -⟩ | ⟨hstop, hst⟩
  · rw [hst]; exact ralInv_read hr hs h herr
  · exact absurd ⟨h.2.1, by have := h.2.2.1; have := h.1; omega⟩ hbad
  · rw [hst]; exact ralPost_end h hstop

/-- At most the rounds `ReadAtLeast` has left: `min - n` while it goes on. -/
def ralMeasure (min : Int) (st : ReadOut ω) : Nat :=
  if st.n < min ∧ st.err = none then (min - st.n).toNat else 0

theorem readAtLeastStep_decreases {rest : ω → Option (Bytes × Error)} (hp : Progress r rest)
    {w₀ : ω} {L : Nat} {min : Int} (hL : min ≤ L) :
    Decreases (readAtLeastStep r min) (RalInv (restFuture rest) w₀ L) (ralMeasure min) := by
  rintro st st' ⟨hlen, h0, hn, hc⟩ hstep
  rcases readAtLeastStep_cases r min st with ⟨hlt, herr, -, -, hs⟩ | ⟨-, m, hs⟩ | ⟨-, hs⟩ <;>
    rw [hs] at hstep <;> cases hstep
  rw [herr] at hc
  obtain ⟨⟨s', e', hF⟩, -⟩ := hc
  have hq : st.p.drop st.n.toNat ≠ [] := by
    rw [← List.length_pos, List.length_drop]; omega
  have hprog := hp st.w _ (by unfold restFuture at hF; rw [hF]; rfl) hq
  rw [show ralMeasure min st = (min - st.n).toNat from if_pos ⟨hlt, herr⟩, ralMeasure]
  dsimp only
  split <;> rename_i h
  · have : 0 < (r st.w (st.p.drop st.n.toNat)).n := hprog.resolve_right fun h' => h' h.2
    omega
  · omega

end Stream

/-! ## Counting the reads -/

section Reads

variable {σ : Type} {r : ReadFn σ} {rest : σ → Option (Bytes × Error)}

/-- At most `max(min, 0)` reads so far, and at most `n` while none failed. -/
def RalReads (min : Int) (st : ReadOut (σ × List Event)) : Prop :=
  st.w.2.length ≤ max min 0 ∧ (st.err = none → st.w.2.length ≤ st.n)

theorem readAtLeastStep_reads (hp : Progress r rest) {w₀ : σ × List Event} {L : Nat} {min : Int}
    (hL : min ≤ L) (st : ReadOut (σ × List Event))
    (hI : RalInv (restFuture fun w => rest w.1) w₀ L st) (hJ : RalReads min st) :
    Sum.elim (RalReads min) (fun res => ∀ o, res = .ok o → o.w.2.length ≤ max min 0)
      (readAtLeastStep r.logged min st) := by
  obtain ⟨hlen, h0, hn, hc⟩ := hI
  obtain ⟨hJ1, hJ2⟩ := hJ
  rcases readAtLeastStep_cases r.logged min st with ⟨hlt, herr, -, -, hs⟩ | ⟨hbad, -⟩ | ⟨-, hs⟩
  · rw [hs]
    rw [herr] at hc
    obtain ⟨⟨s', e', hF⟩, -⟩ := hc
    have hq : st.p.drop st.n.toNat ≠ [] := by
      rw [← List.length_pos, List.length_drop]; omega
    have hprog := hp.logged st.w _ (by unfold restFuture at hF; rw [hF]; rfl) hq
    have := hJ2 herr
    simp only [Sum.elim_inl, RalReads, ReadFn.logged_w, ReadFn.logged_n, ReadFn.logged_err,
      List.length_append, List.length_singleton] at hprog ⊢
    exact ⟨by omega, fun h => by have := hprog.resolve_right fun h' => h' h; omega⟩
  · exact absurd ⟨h0, by omega⟩ hbad
  · rw [hs]
    rintro o ⟨⟩
    rw [readAtLeastEnd_w]; exact hJ1

end Reads

/-! ## From a stream -/

section Result

variable {σ : Type} {r : ReadFn σ} {rest : σ → Option (Bytes × Error)} {s₀ : σ} {s : Bytes}
  {e : Error}

theorem ralInv_start (h₀ : rest s₀ = some (s, e)) (buf : Bytes) :
    RalInv (restFuture fun w : σ × List Event => rest w.1) (s₀, []) buf.length
      ⟨(s₀, []), buf, 0, none⟩ :=
  ⟨rfl, Int.le_refl 0, show (0 : Int) ≤ buf.length by omega, consumed_start (show rest s₀ = _ from h₀)⟩

theorem readAtLeast_post (hr : r.Obeys) (hd : Delivers r rest) (h₀ : rest s₀ = some (s, e))
    {buf : Bytes} {min : Int} (hmin : min ≤ buf.length) {fuel : Nat}
    {res : Except String (ReadOut (σ × List Event))}
    (h : readAtLeast fuel r.logged buf min (s₀, []) = some res) :
    ∃ o, res = .ok o ∧ RalOut s e buf.length min o := by
  rw [readAtLeast, if_neg (by omega)] at h
  obtain ⟨o, rfl, s', e', hF, hout⟩ :=
    loop_inv (readAtLeastStep_keeps hr.logged hd.logged.streams _ _ _) (ralInv_start h₀ buf) h
  obtain ⟨rfl, rfl⟩ : s = s' ∧ e = e' := by simpa [restFuture, h₀] using hF
  exact ⟨o, rfl, hout⟩

/-- From a reader that never stalls, `ReadAtLeast` returns within `max(min, 0)` reads. -/
theorem readAtLeast_returns (hr : r.Obeys) (hd : Delivers r rest) (hp : Progress r rest)
    (h₀ : rest s₀ = some (s, e)) (buf : Bytes) (min : Int) :
    ∃ o, readAtLeast ((max min 0).toNat + 1) r.logged buf min (s₀, []) = some (.ok o) ∧
      o.w.2.length ≤ max min 0 := by
  by_cases hmin : buf.length < min
  · exact ⟨⟨(s₀, []), buf, 0, some .errShortBuffer⟩, by rw [readAtLeast, if_pos hmin],
      show ((0 : Nat) : Int) ≤ max min 0 by omega⟩
  · have hμ : ralMeasure min (⟨(s₀, []), buf, 0, none⟩ : ReadOut (σ × List Event)) <
        (max min 0).toNat + 1 := by
      unfold ralMeasure; dsimp only; split <;> omega
    obtain ⟨res, h, ⟨o, rfl, -⟩, hJ⟩ := loop_spec
      ((readAtLeastStep_keeps hr.logged hd.logged.streams (s₀, []) buf.length min).with
        (readAtLeastStep_reads hp (by omega)))
      (fun a a' h => readAtLeastStep_decreases hp.logged (by omega) a a' h.1)
      ⟨ralInv_start h₀ buf, show ((0 : Nat) : Int) ≤ max min 0 by omega, fun _ => Int.le_refl 0⟩ hμ
    exact ⟨o, by rw [readAtLeast, if_neg hmin, h], hJ o rfl⟩

/-- `ReadFull` returns `(len(buf), nil)` exactly when the stream has `len(buf)` bytes. -/
theorem readFull_full (hr : r.Obeys) (hd : Delivers r rest) (h₀ : rest s₀ = some (s, e))
    {buf : Bytes} {fuel : Nat} {o : ReadOut (σ × List Event)}
    (h : readFull fuel r.logged buf (s₀, []) = some (.ok o)) :
    o.n = buf.length ∧ o.err = none ↔ buf.length ≤ s.length := by
  obtain ⟨o', ho, hl, -, hn, hpre, herr, hshort⟩ := readAtLeast_post hr hd h₀ (Int.le_refl _) h
  obtain rfl := Except.ok.inj ho
  constructor
  · rintro ⟨hn', -⟩
    have : (o.p.take o.n.toNat).length = o.n.toNat := by simp only [List.length_take]; omega
    rw [hpre, List.length_take] at this; omega
  · intro hs
    have hge : (buf.length : Int) ≤ o.n := by
      by_contra hlt; have := (hshort (by omega)).1; omega
    exact ⟨by omega, herr.2 hge⟩

/-- `ReadAtLeast(r, buf, min)` from a stream `s` then `e`: `(0, ErrShortBuffer)` for
`len(buf) < min`, else `RalOut`; from a reader that never stalls it returns within `max(min, 0)`
reads. `ReadFull` returns, and `(len(buf), nil)` exactly when `|s| ≥ len(buf)`. -/
theorem readAtLeast_stream (r : ReadFn σ) (rest : σ → Option (Bytes × Error)) (hr : r.Obeys)
    (hd : Delivers r rest) (s₀ : σ) (s : Bytes) (e : Error) (h₀ : rest s₀ = some (s, e))
    (buf : Bytes) (min : Int) :
    (buf.length < min → ∀ fuel, readAtLeast fuel r.logged buf min (s₀, []) =
      some (.ok ⟨(s₀, []), buf, 0, some .errShortBuffer⟩)) ∧
    (min ≤ buf.length → ∀ fuel res, readAtLeast fuel r.logged buf min (s₀, []) = some res →
      ∃ o, res = .ok o ∧ RalOut s e buf.length min o) ∧
    (Progress r rest → ∃ o, readAtLeast ((max min 0).toNat + 1) r.logged buf min (s₀, []) =
      some (.ok o) ∧ o.w.2.length ≤ max min 0) ∧
    (∀ fuel o, readFull fuel r.logged buf (s₀, []) = some (.ok o) →
      (o.n = buf.length ∧ o.err = none ↔ buf.length ≤ s.length)) ∧
    (Progress r rest → ∃ o, readFull (buf.length + 1) r.logged buf (s₀, []) = some (.ok o) ∧
      o.w.2.length ≤ buf.length ∧ (o.n = buf.length ∧ o.err = none ↔ buf.length ≤ s.length)) := by
  refine ⟨fun h fuel => by rw [readAtLeast, if_pos h],
    fun hmin _ _ => readAtLeast_post hr hd h₀ hmin, fun hp => readAtLeast_returns hr hd hp h₀ buf min,
    fun _ _ => readFull_full hr hd h₀, fun hp => ?_⟩
  obtain ⟨o, h, hl⟩ := readAtLeast_returns hr hd hp h₀ buf buf.length
  rw [show (max (buf.length : Int) 0).toNat = buf.length by omega] at h
  exact ⟨o, h, by omega, readFull_full hr hd h₀ h⟩

theorem readAtLeast_stream_slice :
    ((([0, 0, 0] : Bytes).length : Int) < 2 → ∀ fuel, readAtLeast fuel sliceReader.logged [0, 0, 0] 2
      ([1, 2], []) = some (.ok ⟨([1, 2], []), [0, 0, 0], 0, some .errShortBuffer⟩)) ∧
    (2 ≤ (([0, 0, 0] : Bytes).length : Int) → ∀ fuel res,
      readAtLeast fuel sliceReader.logged [0, 0, 0] 2 ([1, 2], []) = some res →
      ∃ o, res = .ok o ∧ RalOut [1, 2] .eof ([0, 0, 0] : Bytes).length 2 o) ∧
    (Progress sliceReader (fun s => some (s, .eof)) → ∃ o, readAtLeast ((max (2 : Int) 0).toNat + 1)
      sliceReader.logged [0, 0, 0] 2 ([1, 2], []) = some (.ok o) ∧ o.w.2.length ≤ max (2 : Int) 0) ∧
    (∀ fuel o, readFull fuel sliceReader.logged [0, 0, 0] ([1, 2], []) = some (.ok o) →
      (o.n = (([0, 0, 0] : Bytes).length : Int) ∧ o.err = none ↔
        ([0, 0, 0] : Bytes).length ≤ ([1, 2] : Bytes).length)) ∧
    (Progress sliceReader (fun s => some (s, .eof)) → ∃ o, readFull (([0, 0, 0] : Bytes).length + 1)
      sliceReader.logged [0, 0, 0] ([1, 2], []) = some (.ok o) ∧
      o.w.2.length ≤ ([0, 0, 0] : Bytes).length ∧ (o.n = (([0, 0, 0] : Bytes).length : Int) ∧
        o.err = none ↔ ([0, 0, 0] : Bytes).length ≤ ([1, 2] : Bytes).length)) :=
  readAtLeast_stream sliceReader _ sliceReader_obeys sliceReader_delivers [1, 2] [1, 2] .eof rfl
    [0, 0, 0] 2

end Result

end GoIo
