import GoIo.Store
import GoIo.ReadAll
import GoIo.CopyN

/-!
# A section reader as a `Reader`

Over a store, a section's `Read` delivers its window and then `EOF` without stalling
(`SectionReader.reader_delivers`, `SectionReader.reader_progress`), so the `ReadAll` and `CopyN`
results apply to it. A panic is answered with an error of another package (`SectionReader.reader`).
-/

namespace GoIo

/-- `(*SectionReader).Read` as a `Reader`, a panic answered by an error of another package. -/
def SectionReader.reader {ω : Type} (ra : ReadAtFn ω) : ReadFn (ω × SectionReader) := fun w p =>
  match SectionReader.read ra w p with
  | .ok o => o
  | .error _ => ⟨w, p, 0, some (.other 0)⟩

/-- What a section has left for `Read`: its window from the cursor on, and then `EOF`. -/
def SectionReader.rest {ω : Type} (content : ω → Bytes) (w : ω × SectionReader) :
    Option (Bytes × Error) :=
  if 0 ≤ w.2.base ∧ w.2.base ≤ w.2.off ∧ w.2.base ≤ w.2.limit ∧ w.2.limit ≤ maxInt64 ∧
      w.2.off ≤ maxInt64 then
    some ((((content w.1).drop w.2.base.toNat).take (w.2.limit - w.2.base).toNat).drop
      (w.2.off - w.2.base).toNat, .eof)
  else none

section Reader

variable {ω : Type} {ra : ReadAtFn ω} {content : ω → Bytes}

theorem SectionReader.reader_of_ok {w : ω × SectionReader} {p : Bytes}
    {o : ReadOut (ω × SectionReader)} (h : SectionReader.read ra w p = .ok o) :
    SectionReader.reader ra w p = o := by
  simp only [SectionReader.reader, h]

theorem SectionReader.rest_of_isSome {w : ω × SectionReader}
    (h : (SectionReader.rest content w).isSome) :
    (0 ≤ w.2.base ∧ w.2.base ≤ w.2.off ∧ w.2.base ≤ w.2.limit ∧ w.2.limit ≤ maxInt64 ∧
      w.2.off ≤ maxInt64) ∧
    SectionReader.rest content w = some ((((content w.1).drop w.2.base.toNat).take
      (w.2.limit - w.2.base).toNat).drop (w.2.off - w.2.base).toNat, .eof) := by
  unfold SectionReader.rest at h ⊢
  split at h
  · rename_i hc; exact ⟨hc, if_pos hc⟩
  · cases h

theorem SectionReader.read_reader (hra : ra.Serves content) {w : ω × SectionReader}
    (h : (SectionReader.rest content w).isSome) (p : Bytes) :
    SectionReader.read ra w p = .ok (SectionReader.reader ra w p) := by
  obtain ⟨⟨hb0, hbo, hbl, hl, hom⟩, -⟩ := SectionReader.rest_of_isSome h
  obtain ⟨o, ho, -⟩ := SectionReader.read_serves hra hb0 hbo hbl hl hom p
  rw [ho, SectionReader.reader_of_ok ho]

theorem SectionReader.reader_obeys (hra : ra.Obeys) : (SectionReader.reader ra).Obeys :=
  fun w p => by
    unfold SectionReader.reader
    split
    · rename_i o ho
      rcases SectionReader.read_cases ho with ⟨-, rfl⟩ | ⟨-, -, rfl⟩
      · exact ⟨rfl, Int.le_refl 0, Int.ofNat_zero_le _⟩
      · obtain ⟨hpl, hn0, hnq⟩ := hra w.1 (p.take (toInt64 (w.2.limit - w.2.off)).toNat) w.2.off
        have hq := List.length_take_le' (toInt64 (w.2.limit - w.2.off)).toNat p
        dsimp only
        refine ⟨?_, hn0, by omega⟩
        simp only [List.length_append, List.length_drop, hpl]; omega
    · exact ⟨rfl, Int.le_refl 0, Int.ofNat_zero_le _⟩

theorem SectionReader.reader_content (hra : ra.Serves content) (w : ω × SectionReader)
    (p : Bytes) : content (SectionReader.reader ra w p).w.1 = content w.1 := by
  unfold SectionReader.reader
  split
  · rename_i o ho
    exact SectionReader.call_content hra
      (show SectionReader.call ra w (.read p) = .ok o.w by rw [SectionReader.call, ho]; rfl)
  · rfl

theorem SectionReader.reader_delivers (hra : ra.Serves content) :
    Delivers (SectionReader.reader ra) (SectionReader.rest content) := by
  intro w p s e h
  obtain ⟨⟨hb0, hbo, hbl, hl, hom⟩, hrest⟩ := SectionReader.rest_of_isSome (by rw [h]; rfl)
  rw [h, Option.some.injEq, Prod.mk.injEq] at hrest
  obtain ⟨rfl, rfl⟩ := hrest
  obtain ⟨o, ho, hc, hw2, hn0, hmax, -, hsplit, heof, -⟩ :=
    SectionReader.read_serves hra hb0 hbo hbl hl hom p
  rw [SectionReader.reader_of_ok ho]
  cases herr : o.err with
  | none =>
    have hw' : 0 ≤ o.w.2.base ∧ o.w.2.base ≤ o.w.2.off ∧ o.w.2.base ≤ o.w.2.limit ∧
        o.w.2.limit ≤ maxInt64 ∧ o.w.2.off ≤ maxInt64 := by
      rw [hw2]; dsimp only; unfold maxInt64 at *; omega
    refine ⟨_, hsplit, ?_⟩
    rw [SectionReader.rest, if_pos hw', hc, hw2]
    dsimp only
    rw [show (w.2.off + o.n - w.2.base).toNat = (w.2.off - w.2.base).toNat + o.n.toNat by omega]
  | some e' =>
    obtain ⟨he, hnil⟩ := heof (by rw [herr]; simp)
    rw [herr] at he
    exact ⟨Option.some.inj he, by rw [hsplit, hnil, List.append_nil]⟩

theorem SectionReader.reader_progress (hra : ra.Serves content) :
    Progress (SectionReader.reader ra) (SectionReader.rest content) := by
  intro w p h hp
  obtain ⟨⟨hb0, hbo, hbl, hl, hom⟩, -⟩ := SectionReader.rest_of_isSome h
  obtain ⟨o, ho, -, -, -, -, -, -, -, hprog⟩ := SectionReader.read_serves hra hb0 hbo hbl hl hom p
  rw [SectionReader.reader_of_ok ho]
  exact hprog hp

theorem SectionReader.rest_new {base n : Int} (hb : IsInt64 base) (hb0 : 0 ≤ base)
    (hn : IsInt64 n) (hn0 : 0 ≤ n) (w₀ : ω) :
    SectionReader.rest content (w₀, newSectionReader base n) =
      some (((content w₀).drop base.toNat).take (windowEnd base n - base).toNat, .eof) := by
  have hlim := newSectionReader_limit hb hn hn0
  have hwin : base ≤ windowEnd base n ∧ windowEnd base n ≤ maxInt64 := by
    unfold windowEnd maxInt64 at *; unfold IsInt64 at hb; omega
  rw [SectionReader.rest, if_pos (by rw [hlim]; exact ⟨hb0, Int.le_refl _, hwin.1, hwin.2,
    Int.le_trans hwin.1 hwin.2⟩)]
  simp only [hlim]
  rw [show (newSectionReader base n).off - (newSectionReader base n).base = 0 from Int.sub_self _]
  rfl

end Reader

/-- `ReadAll(NewSectionReader(r, base, n))` over a store returns, within `|W| + 1` reads, the
window `W` with a nil error, and leaves the store as it was. -/
theorem readAll_sectionReader (g : Growth) {ω : Type} (ra : ReadAtFn ω) (content : ω → Bytes)
    (hra : ra.Serves content) (base n : Int) (hb : IsInt64 base) (hb0 : 0 ≤ base)
    (hn : IsInt64 n) (hn0 : 0 ≤ n) (w₀ : ω) :
    let W := ((content w₀).drop base.toNat).take (windowEnd base n - base).toNat
    ∃ w, readAll (W.length + 1) g (SectionReader.reader ra).logged
        ((w₀, newSectionReader base n), []) = some (.ok ⟨w, W, none⟩) ∧
      content w.1.1 = content w₀ := by
  intro W
  have hr := SectionReader.reader_obeys hra.obeys
  have hd := SectionReader.reader_delivers hra
  have h₀ : SectionReader.rest content (w₀, newSectionReader base n) = some (W, .eof) :=
    SectionReader.rest_new hb hb0 hn hn0 w₀
  obtain ⟨res, h, ⟨⟨w, b, err⟩, rfl, e', hF, herr, -⟩, hw⟩ := loop_spec
    (a := (⟨((w₀, newSectionReader base n), []), List.replicate 512 0, 0⟩ :
      ReadAllState ((ω × SectionReader) × List Event)))
    ((readAllStep_keeps hr hd g _).and
      (@readAllStep_world _ _ g (fun w => content w.1.1 = content w₀)
        fun w p h => (SectionReader.reader_content hra w.1 p).trans h))
    (fun a a' ha hs => readAllStep_decreases hr hd (SectionReader.reader_progress hra) g _ a a'
      ha.1 hs)
    ⟨⟨Nat.zero_le _, consumed_start (show SectionReader.rest content _ = _ from h₀),
      fun _ h => by cases h⟩, rfl⟩
    (show restLen (SectionReader.rest content) (w₀, newSectionReader base n) < W.length + 1 by
      simp [restLen, h₀])
  obtain ⟨rfl, rfl⟩ : W = b ∧ Error.eof = e' := by simpa [restFuture, h₀] using hF
  rw [eofToNil_eof] at herr
  subst herr
  exact ⟨w, by rw [readAll, h], hw _ rfl⟩

theorem readAll_sectionReader_slice :
    let W := (([1, 2, 3, 4] : Bytes).drop (1 : Int).toNat).take (windowEnd 1 2 - 1).toNat
    ∃ w, readAll (W.length + 1) doubling (SectionReader.reader sliceReaderAt).logged
        (([1, 2, 3, 4], newSectionReader 1 2), []) = some (.ok ⟨w, W, none⟩) ∧
      (w.1.1 : Bytes) = [1, 2, 3, 4] :=
  readAll_sectionReader doubling sliceReaderAt id sliceReaderAt_serves 1 2 (by decide) (by decide)
    (by decide) (by decide) [1, 2, 3, 4]

/-- `CopyN(dst, NewSectionReader(r, base, n), k)` over a store returns `(k, nil)` with `W[0:k]`
written for `k ≤ |W|`, and `(|W|, EOF)` with all of `W` otherwise. -/
theorem copyN_sectionReader {ω τ : Type} (ra : ReadAtFn ω) (content : ω → Bytes)
    (hra : ra.Serves content) (base n : Int) (hb : IsInt64 base) (hb0 : 0 ≤ base)
    (hn : IsInt64 n) (hn0 : 0 ≤ n) (w₀ : ω) (k : Int) (hk : IsInt64 k) (wr : WriteFn τ)
    (hw : Accepts wr) (t₀ : τ) :
    let W := ((content w₀).drop base.toNat).take (windowEnd base n - base).toNat
    (∃ fuel res, copyN fuel (plainIn wr.onSnd.logged) (SectionReader.reader ra).onFst.logged k
      (((w₀, newSectionReader base n), t₀), []) = some res) ∧
    ∀ fuel res, copyN fuel (plainIn wr.onSnd.logged) (SectionReader.reader ra).onFst.logged k
        (((w₀, newSectionReader base n), t₀), []) = some res →
      CopyNResult k W .eof res ∧ writesOf res.w.1.2 = W.take k.toNat := by
  intro W
  have h₀ : SectionReader.rest content (w₀, newSectionReader base n) = some (W, .eof) :=
    SectionReader.rest_new hb hb0 hn hn0 w₀
  obtain ⟨hres, hret⟩ := copyN_plain (SectionReader.reader_obeys hra.obeys)
    (SectionReader.reader_delivers hra) hk h₀ hw t₀
  exact ⟨hret (SectionReader.reader_progress hra).stalls_wf, hres⟩

theorem copyN_sectionReader_slice :
    let W := (([1, 2, 3, 4] : Bytes).drop (1 : Int).toNat).take (windowEnd 1 2 - 1).toNat
    (∃ fuel res, copyN fuel (plainIn acceptAll.onSnd.logged)
      (SectionReader.reader sliceReaderAt).onFst.logged 1
      ((([1, 2, 3, 4], newSectionReader 1 2), ()), []) = some res) ∧
    ∀ fuel res, copyN fuel (plainIn acceptAll.onSnd.logged)
        (SectionReader.reader sliceReaderAt).onFst.logged 1
        ((([1, 2, 3, 4], newSectionReader 1 2), ()), []) = some res →
      CopyNResult 1 W .eof res ∧ writesOf res.w.1.2 = W.take (1 : Int).toNat :=
  copyN_sectionReader sliceReaderAt id sliceReaderAt_serves 1 2 (by decide) (by decide)
    (by decide) (by decide) [1, 2, 3, 4] 1 (by decide) acceptAll acceptAll_accepts ()

end GoIo
