import GoIo.SectionReader

/-!
# `SectionReader.ReadAt`

`ReadAt(p, x)` answers `EOF` for `x` outside `[0, limit - base)` and otherwise reads at
`base + x`. Since `limit - base` never wraps to a non-negative `int64` (`newSectionReader_sizeOk`),
it never panics (`sectionReader_readAt`), and it is `Seek` then `Read` (`sectionReader_readAt_seek`).
-/

namespace GoIo

/-- The `int64` `limit - base` of a section does not wrap to a non-negative number. -/
def SectionReader.SizeOk (s : SectionReader) : Prop :=
  IsInt64 s.base ∧ IsInt64 s.limit ∧ -9223372036854775808 ≤ s.limit - s.base

theorem newSectionReader_sizeOk {off : Int} (n : Int) (hoff : IsInt64 off) :
    (newSectionReader off n).SizeOk := by
  refine ⟨hoff, (newSectionReader_inv n hoff).1, ?_⟩
  show -9223372036854775808 ≤ (if off ≤ toInt64 (maxInt64 - n) then toInt64 (n + off) else maxInt64) - off
  unfold IsInt64 at hoff
  split <;> unfold toInt64 maxInt64 at * <;> omega

namespace SectionReader.SizeOk

variable {s : SectionReader} (h : s.SizeOk)
include h

theorem within {x : Int} (hx0 : 0 ≤ x) (hx : x < toInt64 (s.limit - s.base)) :
    x < s.limit - s.base ∧ toInt64 (x + s.base) = x + s.base ∧
      toInt64 (s.limit - (x + s.base)) = s.limit - (x + s.base) := by
  obtain ⟨hb, hl, hd⟩ := h
  unfold IsInt64 at hb hl
  have hsize : toInt64 (s.limit - s.base) = s.limit - s.base := by unfold toInt64 at hx ⊢; omega
  have hd' := isInt64_toInt64 (s.limit - s.base)
  unfold IsInt64 at hd'
  exact ⟨by omega, toInt64_of_isInt64 ⟨by omega, by omega⟩, toInt64_of_isInt64 ⟨by omega, by omega⟩⟩

end SectionReader.SizeOk

variable {ω : Type}

theorem readsWithin_nil (lo hi : Int) : ReadsWithin lo hi [] := fun _ _ _ _ hm => by cases hm

theorem SectionReader.reaches_frame {ra : ReadAtFn ω} {a b : ω × SectionReader}
    (h : SectionReader.Reaches ra a b) : b.2.base = a.2.base ∧ b.2.limit = a.2.limit := by
  induction h with
  | refl => exact ⟨rfl, rfl⟩
  | tail _ hstep ih =>
    obtain ⟨op, hop⟩ := hstep
    obtain ⟨hb, hl⟩ := SectionReader.call_frame hop
    exact ⟨hb.trans ih.1, hl.trans ih.2⟩

/-- `ReadAt(p, x)` on any section after any calls: no panic, at most one `ReadAt` of `r` within
`[base, limit)`, `(0, EOF)` for `x` outside `[0, limit - base)`, and the `ReaderAt` contract. -/
theorem sectionReader_readAt (ra : ReadAtFn ω) (off n : Int) (hoff : IsInt64 off)
    (w₀ : ω) (w : (ω × List Event) × SectionReader)
    (hw : SectionReader.Reaches ra.logged ((w₀, []), newSectionReader off n) w) (p : Bytes) (x : Int) :
    ∃ o evs, SectionReader.readAt ra.logged w p x = .ok o ∧ o.w.2 = w.2 ∧ o.w.1.2 = w.1.2 ++ evs ∧
      ReadsWithin w.2.base w.2.limit evs ∧
      ((evs = [] ∧ o.n = 0 ∧ o.err = some .eof) ∨
        ∃ len a k er, evs = [.readAt len a k er] ∧ o.n = k ∧
          ((len = p.length ∧ o.err = er) ∨
            (len < p.length ∧ a + len = w.2.limit ∧ o.err = if er = none then some .eof else er))) ∧
      (x < 0 ∨ w.2.limit - w.2.base ≤ x → evs = [] ∧ o.n = 0 ∧ o.err = some .eof) ∧
      (ra.Obeys → ra.Explains → 0 ≤ o.n ∧ o.n ≤ p.length ∧ (o.n < p.length → o.err ≠ none)) := by
  obtain ⟨hbase, hlimit⟩ := SectionReader.reaches_frame hw
  have hs : w.2.SizeOk := by
    rw [SectionReader.SizeOk, hbase, hlimit]; exact newSectionReader_sizeOk n hoff
  obtain ⟨o, ho⟩ := SectionReader.readAt_ok ra.logged w p x fun hx0 hx => by
    obtain ⟨hlt, ha, hm⟩ := hs.within hx0 hx
    rw [ha, hm]; omega
  refine ⟨o, ?_⟩
  rcases SectionReader.readAt_cases ho with ⟨-, rfl⟩ | ⟨hx0, hx, -, rfl⟩
  · -- `EOF` without a call
    exact ⟨[], ho, rfl, (List.append_nil _).symm, readsWithin_nil _ _, .inl ⟨rfl, rfl, rfl⟩,
      fun _ => ⟨rfl, rfl, rfl⟩, fun _ _ => ⟨Int.le_refl 0, Int.ofNat_nonneg _, fun _ => Option.noConfusion⟩⟩
  · -- one call at `a = base + x` for `q = p[0:min(len(p), limit - a)]`
    obtain ⟨hlt, ha, hm⟩ := hs.within hx0 hx
    dsimp only at ho ⊢
    rw [ha, hm] at ho ⊢
    generalize hq : p.take (w.2.limit - (x + w.2.base)).toNat = q at ho ⊢
    have hql : q.length = min (w.2.limit - (x + w.2.base)).toNat p.length := by
      rw [← hq, List.length_take]
    refine ⟨_, ho, rfl, rfl, readsWithin_readAt _ _ (by omega) (by omega), .inr ⟨_, _, _, _, rfl,
      rfl, ?_⟩, fun h => by omega, fun hra hex => ?_⟩
    · by_cases hcl : w.2.limit - (x + w.2.base) < p.length
      · exact .inr ⟨by omega, by omega, by simp [hcl]⟩
      · exact .inl ⟨by omega, by simp [hcl]⟩
    · obtain ⟨-, hn0, hnq⟩ := hra.logged w.1 q (x + w.2.base)
      refine ⟨hn0, by omega, fun hshort => ?_⟩
      split <;> rename_i hcl
      · exact Option.noConfusion
      · intro hnil
        rcases not_and_or.1 hcl with hcl | hcl
        · exact hex.logged w.1 q (x + w.2.base) (by omega) hnil
        · exact hcl hnil

theorem sectionReader_readAt_slice :
    ∃ o evs, SectionReader.readAt sliceReaderAt.logged (([1, 2, 3], [.readAt 1 0 1 none]), ⟨0, 1, 3⟩) [0, 0] 2 = .ok o ∧
      o.w.2 = ⟨0, 1, 3⟩ ∧ o.w.1.2 = [.readAt 1 0 1 none] ++ evs ∧ ReadsWithin 0 3 evs ∧
      ((evs = [] ∧ o.n = 0 ∧ o.err = some .eof) ∨
        ∃ len a k er, evs = [.readAt len a k er] ∧ o.n = k ∧
          ((len = [0, 0].length ∧ o.err = er) ∨
            (len < [0, 0].length ∧ a + len = 3 ∧ o.err = if er = none then some .eof else er))) ∧
      ((2 : Int) < 0 ∨ (3 : Int) - 0 ≤ 2 → evs = [] ∧ o.n = 0 ∧ o.err = some .eof) ∧
      (sliceReaderAt.Obeys → sliceReaderAt.Explains →
        0 ≤ o.n ∧ o.n ≤ [0, 0].length ∧ (o.n < [0, 0].length → o.err ≠ none)) :=
  sectionReader_readAt sliceReaderAt 0 3 (by decide) [1, 2, 3] _
    (.single ⟨.read [0], by with_unfolding_all rfl⟩) [0, 0] 2

/-! ## `ReadAt` is `Seek` and then `Read` -/

theorem SectionReader.seek_start (s : SectionReader) (hb0 : 0 ≤ s.base) (hb : s.base ≤ maxInt64)
    {x : Int} (hx : IsInt64 x) :
    s.seek x seekStart = if 0 ≤ x ∧ x + s.base ≤ maxInt64 then ({ s with off := x + s.base }, x, none)
      else (s, 0, some .errOffset) := by
  have href : s.whenceRef seekStart = some s.base := if_pos rfl
  rw [SectionReader.seek, href, seekOff_eq_spec hb0 (fun y hy => by cases hy; exact ⟨hb0, hb⟩) hx,
    SeekSpec]
  by_cases h : 0 ≤ x ∧ x + s.base ≤ maxInt64
  · rw [if_pos ⟨by omega, by omega⟩, if_pos h, Int.add_sub_cancel]; rfl
  · rw [if_neg (by omega), if_neg h]; rfl

theorem SectionReader.readAt_seek_read (ra : ReadAtFn ω) {w : ω × SectionReader}
    (hb0 : 0 ≤ w.2.base) (hbl : w.2.base ≤ w.2.limit) (hl : w.2.limit ≤ maxInt64) (p : Bytes)
    {x : Int} (hx : IsInt64 x) :
    ((w.2.seek x seekStart).1 = w.2 ∧ (w.2.seek x seekStart).2.2 ≠ none ∧
        SectionReader.readAt ra w p x = .ok ⟨w, p, 0, some .eof⟩) ∨
      ((w.2.seek x seekStart).2 = (x, none) ∧ ∃ o o', SectionReader.readAt ra w p x = .ok o ∧
        SectionReader.read ra (w.1, (w.2.seek x seekStart).1) p = .ok o' ∧ o.w = (o'.w.1, w.2) ∧
        o.p = o'.p ∧ o.n = o'.n ∧
        o.err = if w.2.limit - w.2.base - x < p.length ∧ o'.err = none then some .eof else o'.err) := by
  have hsize : toInt64 (w.2.limit - w.2.base) = w.2.limit - w.2.base :=
    toInt64_of_isInt64 ⟨by omega, by unfold maxInt64 at hl; omega⟩
  rw [SectionReader.seek_start w.2 hb0 (Int.le_trans hbl hl) hx]
  by_cases hacc : 0 ≤ x ∧ x + w.2.base ≤ maxInt64
  · rw [if_pos hacc]
    refine .inr ⟨rfl, ?_⟩
    by_cases hin : x < w.2.limit - w.2.base
    · -- one `ReadAt` of `r` at `base + x`, for `p` cut at `limit`, on both paths
      have ha : toInt64 (x + w.2.base) = x + w.2.base := toInt64_of_isInt64 ⟨by omega, hacc.2⟩
      have hm : toInt64 (w.2.limit - (x + w.2.base)) = w.2.limit - (x + w.2.base) :=
        toInt64_of_isInt64 ⟨by omega, by unfold maxInt64 at hl; omega⟩
      obtain ⟨o, ho⟩ := SectionReader.readAt_ok ra w p x fun _ _ => by rw [ha, hm]; omega
      rcases SectionReader.readAt_cases ho with ⟨h, -⟩ | ⟨-, -, -, rfl⟩
      · rw [hsize] at h; omega
      refine ⟨_, _, ho, SectionReader.read_within ra (w := (w.1, { w.2 with off := x + w.2.base })) p
        (show x + w.2.base < w.2.limit by omega) (by dsimp only; rw [hm]; omega), ?_⟩
      dsimp only
      rw [ha, hm, show w.2.limit - w.2.base - x = w.2.limit - (x + w.2.base) by omega]
      exact ⟨rfl, rfl, rfl, rfl⟩
    · -- at or past `limit`: `(0, EOF)` on both paths
      refine ⟨_, _, SectionReader.readAt_past ra w p (.inr (by rw [hsize]; omega)),
        SectionReader.read_past ra p (show w.2.limit ≤ x + w.2.base by omega), rfl, rfl, rfl, ?_⟩
      simp
  · rw [if_neg hacc]
    refine .inl ⟨rfl, Option.noConfusion, SectionReader.readAt_past ra w p ?_⟩
    rw [hsize]; unfold maxInt64 at hl hacc; omega

/-- From `base ≥ 0` and `n ≥ 0`, `ReadAt(p, x)` is `(0, EOF)` where `Seek(x, SeekStart)` refuses
`x`, and otherwise `Seek` then `Read`, but for the cursor and `EOF` in place of `nil` at the end. -/
theorem sectionReader_readAt_seek (ra : ReadAtFn ω) (base n : Int) (hb : IsInt64 base)
    (hb0 : 0 ≤ base) (hn : IsInt64 n) (hn0 : 0 ≤ n) (w₀ : ω) (w : ω × SectionReader)
    (hw : SectionReader.Reaches ra (w₀, newSectionReader base n) w) (p : Bytes) (x : Int)
    (hx : IsInt64 x) :
    ((w.2.seek x seekStart).1 = w.2 ∧ (w.2.seek x seekStart).2.2 ≠ none ∧
        SectionReader.readAt ra w p x = .ok ⟨w, p, 0, some .eof⟩) ∨
      ((w.2.seek x seekStart).2 = (x, none) ∧ ∃ o o', SectionReader.readAt ra w p x = .ok o ∧
        SectionReader.read ra (w.1, (w.2.seek x seekStart).1) p = .ok o' ∧ o.w = (o'.w.1, w.2) ∧
        o.p = o'.p ∧ o.n = o'.n ∧
        o.err = if w.2.limit - w.2.base - x < p.length ∧ o'.err = none then some .eof else o'.err) := by
  obtain ⟨hbase, hlimit⟩ := SectionReader.reaches_frame hw
  rw [newSectionReader_limit hb hn hn0] at hlimit
  replace hbase : w.2.base = base := hbase
  have hwin : base ≤ windowEnd base n ∧ windowEnd base n ≤ maxInt64 := by
    unfold windowEnd maxInt64 at *; unfold IsInt64 at hb; omega
  exact SectionReader.readAt_seek_read ra (by omega) (by omega) (by rw [hlimit]; exact hwin.2) p hx

theorem sectionReader_readAt_seek_slice :
    (((⟨1, 2, 3⟩ : SectionReader).seek 1 seekStart).1 = ⟨1, 2, 3⟩ ∧
        ((⟨1, 2, 3⟩ : SectionReader).seek 1 seekStart).2.2 ≠ none ∧
        SectionReader.readAt sliceReaderAt ([1, 2, 3, 4], ⟨1, 2, 3⟩) [0, 0] 1 = .ok ⟨([1, 2, 3, 4], ⟨1, 2, 3⟩), [0, 0], 0, some .eof⟩) ∨
      (((⟨1, 2, 3⟩ : SectionReader).seek 1 seekStart).2 = (1, none) ∧ ∃ o o',
        SectionReader.readAt sliceReaderAt ([1, 2, 3, 4], ⟨1, 2, 3⟩) [0, 0] 1 = .ok o ∧
        SectionReader.read sliceReaderAt ([1, 2, 3, 4], ((⟨1, 2, 3⟩ : SectionReader).seek 1 seekStart).1)
          [0, 0] = .ok o' ∧ o.w = (o'.w.1, ⟨1, 2, 3⟩) ∧ o.p = o'.p ∧ o.n = o'.n ∧
        o.err = if (3 : Int) - 1 - 1 < [0, 0].length ∧ o'.err = none then some .eof else o'.err) :=
  sectionReader_readAt_seek sliceReaderAt 1 2 (by decide) (by decide) (by decide) (by decide)
    [1, 2, 3, 4] ([1, 2, 3, 4], ⟨1, 2, 3⟩) (.single ⟨.read [0], by with_unfolding_all rfl⟩)
    [0, 0] 1 (by decide)

end GoIo
