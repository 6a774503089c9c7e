import GoIo.Copy

/-!
# `LimitReader` and `LimitedReader`

A `*LimitedReader` hands back at most `N` bytes of `R` in all; its world is `R`'s world and `N`.
Over any run of reads, `N` is `N₀` less the bytes returned (`limitedReader_runs`).
-/

namespace GoIo

variable {ω : Type}

/-- `LimitedReader.Read`. -/
def LimitedReader.read (R : ReadFn ω) : ReadFn (ω × Int) := fun w p =>
  if w.2 ≤ 0 then ⟨w, p, 0, some .eof⟩
  else
    let q := if p.length > w.2 then p.take w.2.toNat else p
    let o := R w.1 q
    ⟨(o.w, toInt64 (w.2 - o.n)), o.p ++ p.drop q.length, o.n, o.err⟩

/-- `LimitReader(R, n)`, started in the world `(w, n)`. -/
def limitReader (R : ReadFn ω) : Src (ω × Int) := ⟨LimitedReader.read R, none, some Prod.snd⟩

/-- The part of `p` a limited reader with `N > 0` passes on: `p[0:N]` when `len(p) > N`. -/
theorem limited_clamp {p : Bytes} {N : Int} (hN : 0 < N) :
    (if p.length > N then p.take N.toNat else p) = p.take (min p.length N.toNat) := by
  split
  · rw [Nat.min_eq_right (by omega)]
  · rw [Nat.min_eq_left (by omega), List.take_length]

theorem LimitedReader.read_of_nonpos (R : ReadFn ω) {w : ω × Int} (hN : w.2 ≤ 0) (p : Bytes) :
    LimitedReader.read R w p = ⟨w, p, 0, some .eof⟩ := by
  simp [LimitedReader.read, hN]

theorem LimitedReader.read_of_pos (R : ReadFn ω) {w : ω × Int} (hN : 0 < w.2) (p : Bytes) :
    LimitedReader.read R w p =
      let o := R w.1 (p.take (min p.length w.2.toNat))
      ⟨(o.w, toInt64 (w.2 - o.n)), o.p ++ p.drop (min p.length w.2.toNat), o.n, o.err⟩ := by
  have hm : min (min p.length w.2.toNat) p.length = min p.length w.2.toNat := by omega
  simp only [LimitedReader.read, show ¬w.2 ≤ 0 by omega, if_false, limited_clamp hN,
    List.length_take, hm]

theorem LimitedReader.obeys {R : ReadFn ω} (hR : R.Obeys) : (LimitedReader.read R).Obeys := by
  intro w p
  by_cases hpos : 0 < w.2
  · rw [LimitedReader.read_of_pos R hpos]
    obtain ⟨hl, h0, hn⟩ := hR w.1 (p.take (min p.length w.2.toNat))
    simp only [List.length_take] at hl hn
    simp only [List.length_append, List.length_drop, hl]
    omega
  · rw [LimitedReader.read_of_nonpos R (by omega)]
    exact ⟨rfl, Int.le_refl 0, show (0 : Int) ≤ p.length by omega⟩

theorem LimitedReader.read_budget {R : ReadFn ω} (hR : R.Obeys) {w : ω × Int} (h0 : 0 ≤ w.2)
    (hN : w.2 ≤ maxInt64) (p : Bytes) :
    0 ≤ (LimitedReader.read R w p).n ∧ 0 ≤ (LimitedReader.read R w p).w.2 ∧
      (LimitedReader.read R w p).w.2 = w.2 - (LimitedReader.read R w p).n := by
  by_cases hpos : 0 < w.2
  · rw [LimitedReader.read_of_pos R hpos]
    obtain ⟨-, hn0, hnq⟩ := hR w.1 (p.take (min p.length w.2.toNat))
    simp only [List.length_take] at hnq
    unfold maxInt64 at hN
    dsimp only
    rw [toInt64_of_isInt64 ⟨by omega, by omega⟩]
    exact ⟨hn0, by omega, rfl⟩
  · rw [LimitedReader.read_of_nonpos R (by omega)]
    exact ⟨Int.le_refl 0, h0, (Int.sub_zero _).symm⟩

/-! ## The stream of a limited reader -/

section Stream

/-- The first `N` bytes of `s`, then `EOF`, or `e` when `N` reaches the end of `s`. -/
def LimEnd (N : Int) (s : Bytes) (e : Error) (s' : Bytes) (e' : Error) : Prop :=
  s' = s.take N.toNat ∧ (e' = .eof ∧ N ≤ s.length ∨ e' = e ∧ 0 < N ∧ s.length ≤ N)

theorem limEnd_exists (N : Int) (s : Bytes) (e : Error) : ∃ s' e', LimEnd N s e s' e' := by
  by_cases h : N ≤ s.length
  · exact ⟨_, _, rfl, .inl ⟨rfl, h⟩⟩
  · exact ⟨_, _, rfl, .inr ⟨rfl, by omega, by omega⟩⟩

theorem limEnd_nonpos {N : Int} (h : N ≤ 0) (s : Bytes) (e : Error) : LimEnd N s e [] .eof :=
  ⟨by rw [show N.toNat = 0 by omega, List.take_zero], .inl ⟨rfl, by omega⟩⟩

theorem limEnd_last {N : Int} (h0 : 0 < N) {s : Bytes} (h : s.length ≤ N) (e : Error) :
    LimEnd N s e s e :=
  ⟨(List.take_of_length_le (by omega)).symm, .inr ⟨rfl, h0, h⟩⟩

theorem limEnd_cons {N : Int} {d s s' : Bytes} {e e' : Error} (hd : (d.length : Int) ≤ N)
    (h : LimEnd (N - d.length) s e s' e') : LimEnd N (d ++ s) e (d ++ s') e' := by
  obtain ⟨rfl, he⟩ := h
  have hd' : d.take N.toNat = d := List.take_of_length_le (by omega)
  refine ⟨?_, ?_⟩
  · rw [List.take_append_eq_append_take, hd', show (N - d.length).toNat = N.toNat - d.length by omega]
  · simp only [List.length_append]
    rcases he with ⟨rfl, h⟩ | ⟨rfl, h₁, h₂⟩
    · exact .inl ⟨rfl, by omega⟩
    · exact .inr ⟨rfl, by omega, by omega⟩

variable {R : ReadFn ω} {rest : ω → Option (Bytes × Error)}

/-- The futures of a limited reader in the world `(w, N)`, `N` an `int64`. -/
def limFuture (rest : ω → Option (Bytes × Error)) (w : ω × Int) (s' : Bytes) (e' : Error) : Prop :=
  IsInt64 w.2 ∧ ∃ s e, rest w.1 = some (s, e) ∧ LimEnd w.2 s e s' e'

/-- A limited reader over a reader that delivers a stream delivers the limited stream. -/
theorem limitedReader_streams (hR : R.Obeys) (hd : Delivers R rest) :
    Streams (LimitedReader.read R) (limFuture rest) := by
  rintro w p s' e' ⟨hN, s, e, hrest, -⟩
  by_cases hpos : 0 < w.2
  · rw [LimitedReader.read_of_pos R hpos]
    have hql : ((p.take (min p.length w.2.toNat)).length : Int) ≤ w.2 := by
      rw [List.length_take]; omega
    dsimp only
    generalize p.take (min p.length w.2.toNat) = q at hql ⊢
    obtain ⟨hpl, hn0, hnq⟩ := hR w.1 q
    have hlen := hR.data_length w.1 q
    have hdat : ReadOut.data ⟨((R w.1 q).w, toInt64 (w.2 - (R w.1 q).n)),
        (R w.1 q).p ++ p.drop (min p.length w.2.toNat), (R w.1 q).n, (R w.1 q).err⟩ =
        (R w.1 q).data :=
      List.take_append_of_le_length (show (R w.1 q).n.toNat ≤ (R w.1 q).p.length by omega)
    have hN' : IsInt64 (w.2 - (R w.1 q).n) := by unfold IsInt64 at hN ⊢; omega
    rw [hdat, toInt64_of_isInt64 hN']
    have hds := hd w.1 q s e hrest
    cases herr : (R w.1 q).err with
    | none =>
      simp only [herr] at hds
      obtain ⟨s₁, rfl, hrest'⟩ := hds
      have hn : (R w.1 q).n = ((R w.1 q).data.length : Int) := by rw [hlen]; omega
      refine ⟨?_, fun s'' e'' ⟨_, s₂, e₂, hrest₂, hend⟩ => ⟨hN, _, e, hrest, ?_⟩⟩
      · obtain ⟨s'', e'', h⟩ := limEnd_exists (w.2 - (R w.1 q).n) s₁ e
        exact ⟨s'', e'', hN', s₁, e, hrest', h⟩
      · obtain ⟨rfl, rfl⟩ : s₁ = s₂ ∧ e = e₂ := by simpa [hrest'] using hrest₂
        rw [hn] at hend
        exact limEnd_cons (by omega) hend
    | some e₀ =>
      simp only [herr] at hds
      obtain ⟨rfl, rfl⟩ := hds
      exact ⟨hN, _, _, hrest, limEnd_last hpos (by omega) _⟩
  · rw [LimitedReader.read_of_nonpos R (by omega)]
    exact ⟨hN, s, e, hrest, limEnd_nonpos (by omega) s e⟩

theorem limitedReader_drains (hR : R.Obeys) (hd : Delivers R rest) {w : ω × Int} {s' : Bytes}
    {e' : Error} (h : limFuture rest w s' e') {p : Bytes} (hp : p ≠ [])
    (herr : (LimitedReader.read R w p).err = none) :
    Drains R rest (LimitedReader.read R w p).w.1 w.1 := by
  obtain ⟨-, s, e, hrest, -⟩ := h
  by_cases hpos : 0 < w.2
  · rw [LimitedReader.read_of_pos R hpos] at herr ⊢
    have : 0 < p.length := List.length_pos.2 hp
    exact Delivers.drains hR hd hrest (List.length_pos.1 (by simp; omega)) herr
  · rw [LimitedReader.read_of_nonpos R (by omega)] at herr; cases herr

end Stream

/-! ## Runs of a limited reader -/

section Runs

variable {σ : Type}

/-- `N` is `N₀` less the bytes `R` returned, which are at most `max(N₀, 0)`. -/
def LimState (N₀ : Int) (w : (σ × List Event) × Int) : Prop :=
  w.2 = N₀ - readsOf w.1.2 ∧ 0 ≤ readsOf w.1.2 ∧ readsOf w.1.2 ≤ max N₀ 0

/-- One read: `(0, EOF)` and no change for `N ≤ 0`, else one call of `R` on `min(len(p), N)` bytes. -/
def LimCall (R : ReadFn σ) (w : (σ × List Event) × Int) (p : Bytes) : Prop :=
  let o := LimitedReader.read R.logged w p
  (w.2 ≤ 0 → o = ⟨w, p, 0, some .eof⟩) ∧
    (0 < w.2 → o.w.1.2 = w.1.2 ++ [.read (min p.length w.2.toNat) o.n o.err])

theorem limCall (R : ReadFn σ) (w : (σ × List Event) × Int) (p : Bytes) : LimCall R w p := by
  refine ⟨fun hN => LimitedReader.read_of_nonpos _ hN p, fun hN => ?_⟩
  rw [LimitedReader.read_of_pos _ hN]
  simp only [ReadFn.logged_w, ReadFn.logged_n, ReadFn.logged_err, List.length_take]
  congr 3; omega

theorem limState_read {R : ReadFn σ} (hR : R.Obeys) {N₀ : Int} (hN₀ : IsInt64 N₀)
    {w : (σ × List Event) × Int} (hw : LimState N₀ w) (p : Bytes) :
    LimState N₀ (LimitedReader.read R.logged w p).w := by
  obtain ⟨hN, h0, hmax⟩ := hw
  by_cases hpos : 0 < w.2
  · rw [LimitedReader.read_of_pos _ hpos]
    obtain ⟨-, hn0, hnq⟩ := hR w.1.1 (p.take (min p.length w.2.toNat))
    simp only [List.length_take] at hnq
    have hq : (min (min p.length w.2.toNat) p.length : Int) ≤ w.2 := by omega
    unfold IsInt64 at hN₀
    simp only [LimState, ReadFn.logged_w, ReadFn.logged_n, readsOf_append, readsOf_cons_read,
      readsOf_nil]
    refine ⟨toInt64_of_isInt64 ⟨by omega, by omega⟩ |>.trans (by omega), by omega, by omega⟩
  · rw [LimitedReader.read_of_nonpos _ (by omega)]; exact ⟨hN, h0, hmax⟩

/-- `LimitReader(R, N₀)` over any run of reads: `LimState` holds, and each next read is `LimCall`. -/
theorem limitedReader_runs (R : ReadFn σ) (hR : R.Obeys) (N₀ : Int) (hN₀ : IsInt64 N₀) (s₀ : σ) :
    ∀ w, Relation.ReflTransGen (fun a b => ∃ p, (LimitedReader.read R.logged a p).w = b)
      ((s₀, []), N₀) w → LimState N₀ w ∧ ∀ p, LimCall R w p := by
  intro w h
  refine ⟨?_, limCall R w⟩
  induction h with
  | refl => simp only [LimState, readsOf_nil]; omega
  | tail _ hs ih => obtain ⟨p, rfl⟩ := hs; exact limState_read hR hN₀ ih p

theorem limitedReader_runs_slice :
    LimState 3 ((([2] : Bytes), [.read 1 1 none]), (2 : Int)) ∧
      ∀ p, LimCall sliceReader ((([2] : Bytes), [.read 1 1 none]), (2 : Int)) p :=
  limitedReader_runs sliceReader sliceReader_obeys 3 (by decide) [1, 2] _
    (.single ⟨[0], by with_unfolding_all rfl⟩)

end Runs

end GoIo
