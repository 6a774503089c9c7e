import GoIo.Seek

/-!
# `SectionReader`

`NewSectionReader(r, off, n)` reads the window `[off, min(off + n, maxint64))` of `r`; its
`ReaderAt` lives in the world, and a panic is an `Except` error. From `n ≥ 0` every call stays in
the window (`sectionReader_window`); from `n < 0` the check overflows.
-/

namespace GoIo

/-- A `*SectionReader` but its `ReaderAt`, which lives in the world. -/
structure SectionReader where
  base : Int
  off : Int
  limit : Int
  deriving DecidableEq, Repr

/-- `NewSectionReader(r, off, n)`. -/
def newSectionReader (off n : Int) : SectionReader :=
  ⟨off, off, if off ≤ toInt64 (maxInt64 - n) then toInt64 (n + off) else maxInt64⟩

/-- The end of the window of `NewSectionReader(r, off, n)`, over the integers. -/
def windowEnd (off n : Int) : Int := min (off + n) maxInt64

/-- `if int64(len(p)) > max { p = p[0:max] }`. -/
def clampTo (p : Bytes) (max : Int) : Except String Bytes :=
  if max < p.length then slice p 0 max else .ok p

variable {ω : Type}

/-- `(*SectionReader).Read`, the section in the world's second component. -/
def SectionReader.read (ra : ReadAtFn ω) (w : ω × SectionReader) (p : Bytes) :
    Except String (ReadOut (ω × SectionReader)) :=
  if w.2.limit ≤ w.2.off then .ok ⟨w, p, 0, some .eof⟩
  else (clampTo p (toInt64 (w.2.limit - w.2.off))).map fun q =>
    let o := ra w.1 q w.2.off
    ⟨(o.w, { w.2 with off := toInt64 (w.2.off + o.n) }), o.p ++ p.drop q.length, o.n, o.err⟩

/-- `(*SectionReader).ReadAt`: a request clamped at `limit` reports `EOF` in place of `nil`. -/
def SectionReader.readAt (ra : ReadAtFn ω) (w : ω × SectionReader) (p : Bytes) (off : Int) :
    Except String (ReadOut (ω × SectionReader)) :=
  if off < 0 ∨ toInt64 (w.2.limit - w.2.base) ≤ off then .ok ⟨w, p, 0, some .eof⟩
  else
    let off := toInt64 (off + w.2.base)
    let max := toInt64 (w.2.limit - off)
    if max < p.length then
      (slice p 0 max).map fun q =>
        let o := ra w.1 q off
        ⟨(o.w, w.2), o.p ++ p.drop q.length, o.n, if o.err = none then some .eof else o.err⟩
    else
      let o := ra w.1 p off
      .ok ⟨(o.w, w.2), o.p, o.n, o.err⟩

/-- The offset `whence` selects in `(*SectionReader).Seek`. -/
def SectionReader.whenceRef (s : SectionReader) (whence : Int) : Option Int :=
  if whence = seekStart then some s.base
  else if whence = seekCurrent then some s.off
  else if whence = seekEnd then some s.limit
  else none

/-- The section after a `Seek` whose end gave `r`, with what `Seek` returns. -/
def SectionReader.applySeek (s : SectionReader) (r : Option Int × Int × Option Error) :
    SectionReader × Int × Option Error :=
  ({ s with off := r.1.getD s.off }, r.2.1, r.2.2)

/-- `(*SectionReader).Seek`. -/
def SectionReader.seek (s : SectionReader) (offset whence : Int) :
    SectionReader × Int × Option Error :=
  s.applySeek (seekOff s.base (s.whenceRef whence) offset)

/-- A call on a section. -/
inductive SectionOp where
  | read (p : Bytes)
  | readAt (p : Bytes) (off : Int)
  | seek (offset whence : Int)

/-- The world after a call, or the call's panic. -/
def SectionReader.call (ra : ReadAtFn ω) (w : ω × SectionReader) :
    SectionOp → Except String (ω × SectionReader)
  | .read p => (SectionReader.read ra w p).map (·.w)
  | .readAt p off => (SectionReader.readAt ra w p off).map (·.w)
  | .seek offset whence => .ok (w.1, (w.2.seek offset whence).1)

/-- `b` follows `a` by calls that did not panic. -/
def SectionReader.Reaches (ra : ReadAtFn ω) : ω × SectionReader → ω × SectionReader → Prop :=
  Relation.ReflTransGen fun a b => ∃ op, SectionReader.call ra a op = .ok b

/-! ## What one call does -/

theorem clampTo_ok (p : Bytes) {max : Int} (h : 0 ≤ max) :
    clampTo p max = .ok (p.take max.toNat) := by
  unfold clampTo
  split <;> rename_i hlt
  · exact slice_from_zero h (by omega)
  · rw [List.take_of_length_le (by omega)]

theorem clampTo_error (p : Bytes) {max : Int} (h : max < 0) : clampTo p max = .error "slice bounds out of range" := by
  rw [clampTo, if_pos (by omega), slice, if_neg (by omega)]

theorem SectionReader.read_cases {ra : ReadAtFn ω} {w : ω × SectionReader} {p : Bytes}
    {o : ReadOut (ω × SectionReader)} (h : SectionReader.read ra w p = .ok o) :
    (w.2.limit ≤ w.2.off ∧ o = ⟨w, p, 0, some .eof⟩) ∨
    (w.2.off < w.2.limit ∧ 0 ≤ toInt64 (w.2.limit - w.2.off) ∧
      let q := p.take (toInt64 (w.2.limit - w.2.off)).toNat
      o = ⟨((ra w.1 q w.2.off).w, { w.2 with off := toInt64 (w.2.off + (ra w.1 q w.2.off).n) }),
        (ra w.1 q w.2.off).p ++ p.drop q.length, (ra w.1 q w.2.off).n, (ra w.1 q w.2.off).err⟩) := by
  unfold SectionReader.read at h
  split at h <;> rename_i hl
  · exact .inl ⟨hl, (Except.ok.inj h).symm⟩
  · by_cases hm : 0 ≤ toInt64 (w.2.limit - w.2.off)
    · rw [clampTo_ok p hm] at h
      exact .inr ⟨by omega, hm, (Except.ok.inj h).symm⟩
    · rw [clampTo_error p (by omega)] at h; cases h

theorem SectionReader.read_panics (ra : ReadAtFn ω) {w : ω × SectionReader} (p : Bytes)
    (hl : w.2.off < w.2.limit) (hm : toInt64 (w.2.limit - w.2.off) < 0) :
    SectionReader.read ra w p = .error "slice bounds out of range" := by
  rw [SectionReader.read, if_neg (by omega), clampTo_error p hm]; rfl

theorem SectionReader.read_within (ra : ReadAtFn ω) {w : ω × SectionReader} (p : Bytes)
    (hl : w.2.off < w.2.limit) (hm : 0 ≤ toInt64 (w.2.limit - w.2.off)) :
    SectionReader.read ra w p = .ok
      (let q := p.take (toInt64 (w.2.limit - w.2.off)).toNat
      ⟨((ra w.1 q w.2.off).w, { w.2 with off := toInt64 (w.2.off + (ra w.1 q w.2.off).n) }),
        (ra w.1 q w.2.off).p ++ p.drop q.length, (ra w.1 q w.2.off).n, (ra w.1 q w.2.off).err⟩) := by
  rw [SectionReader.read, if_neg (by omega), clampTo_ok p hm]; rfl

theorem SectionReader.read_ok (ra : ReadAtFn ω) {w : ω × SectionReader} (p : Bytes)
    (hm : w.2.off < w.2.limit → 0 ≤ toInt64 (w.2.limit - w.2.off)) :
    ∃ o, SectionReader.read ra w p = .ok o := by
  unfold SectionReader.read
  split <;> rename_i hl
  · exact ⟨_, rfl⟩
  · rw [clampTo_ok p (hm (by omega))]; exact ⟨_, rfl⟩

theorem SectionReader.read_past (ra : ReadAtFn ω) {w : ω × SectionReader} (p : Bytes)
    (h : w.2.limit ≤ w.2.off) : SectionReader.read ra w p = .ok ⟨w, p, 0, some .eof⟩ := by
  rw [SectionReader.read, if_pos h]

theorem SectionReader.readAt_past (ra : ReadAtFn ω) (w : ω × SectionReader) (p : Bytes) {x : Int}
    (h : x < 0 ∨ toInt64 (w.2.limit - w.2.base) ≤ x) :
    SectionReader.readAt ra w p x = .ok ⟨w, p, 0, some .eof⟩ := by
  rw [SectionReader.readAt, if_pos h]

theorem SectionReader.readAt_ok (ra : ReadAtFn ω) (w : ω × SectionReader) (p : Bytes) (x : Int)
    (hm : 0 ≤ x → x < toInt64 (w.2.limit - w.2.base) →
      0 ≤ toInt64 (w.2.limit - toInt64 (x + w.2.base))) :
    ∃ o, SectionReader.readAt ra w p x = .ok o := by
  unfold SectionReader.readAt
  split <;> rename_i hx
  · exact ⟨_, rfl⟩
  · dsimp only
    split <;> rename_i hlt
    · rw [slice_from_zero (hm (by omega) (by omega)) (by omega)]; exact ⟨_, rfl⟩
    · exact ⟨_, rfl⟩

theorem SectionReader.readAt_cases {ra : ReadAtFn ω} {w : ω × SectionReader} {p : Bytes}
    {x : Int} {o : ReadOut (ω × SectionReader)} (h : SectionReader.readAt ra w p x = .ok o) :
    ((x < 0 ∨ toInt64 (w.2.limit - w.2.base) ≤ x) ∧ o = ⟨w, p, 0, some .eof⟩) ∨
    (0 ≤ x ∧ x < toInt64 (w.2.limit - w.2.base) ∧
      let a := toInt64 (x + w.2.base)
      let max := toInt64 (w.2.limit - a)
      let q := p.take max.toNat
      0 ≤ max ∧ o = ⟨((ra w.1 q a).w, w.2), (ra w.1 q a).p ++ p.drop q.length, (ra w.1 q a).n,
        if max < p.length ∧ (ra w.1 q a).err = none then some .eof else (ra w.1 q a).err⟩) := by
  unfold SectionReader.readAt at h
  split at h <;> rename_i hx
  · exact .inl ⟨hx, (Except.ok.inj h).symm⟩
  · refine .inr ⟨by omega, by omega, ?_⟩
    dsimp only at h ⊢
    split at h <;> rename_i hlt
    · by_cases hm : 0 ≤ toInt64 (w.2.limit - toInt64 (x + w.2.base))
      · rw [slice_from_zero hm (by omega)] at h
        refine ⟨hm, (Except.ok.inj h).symm.trans ?_⟩
        by_cases he : (ra w.1 (p.take (toInt64 (w.2.limit - toInt64 (x + w.2.base))).toNat)
          (toInt64 (x + w.2.base))).err = none <;> simp [he, hlt]
      · rw [slice, if_neg (by omega)] at h; cases h
    · rw [List.take_of_length_le (by omega)]
      refine ⟨by omega, (Except.ok.inj h).symm.trans ?_⟩
      simp [hlt]

@[simp] theorem SectionReader.seek_base (s : SectionReader) (offset whence : Int) :
    (s.seek offset whence).1.base = s.base := rfl

@[simp] theorem SectionReader.seek_limit (s : SectionReader) (offset whence : Int) :
    (s.seek offset whence).1.limit = s.limit := rfl

/-! ## Runs -/

/-- What every call keeps: `limit` an `int64`, and the cursor an `int64` at or after `base`. -/
def SectionReader.Inv (s : SectionReader) : Prop :=
  IsInt64 s.limit ∧ s.base ≤ s.off ∧ IsInt64 s.off

section Runs

variable {ra : ReadAtFn ω}

/-- What a call that did not panic did to the world, one case per call. -/
theorem SectionReader.call_cases {w w' : ω × SectionReader} {op : SectionOp}
    (h : SectionReader.call ra w op = .ok w') :
    w' = w ∨
    (w.2.off < w.2.limit ∧ 0 ≤ toInt64 (w.2.limit - w.2.off) ∧
      ∃ q : Bytes, q.length ≤ (toInt64 (w.2.limit - w.2.off)).toNat ∧
        w' = ((ra w.1 q w.2.off).w, { w.2 with off := toInt64 (w.2.off + (ra w.1 q w.2.off).n) })) ∨
    (∃ x, 0 ≤ x ∧ x < toInt64 (w.2.limit - w.2.base) ∧
      0 ≤ toInt64 (w.2.limit - toInt64 (x + w.2.base)) ∧
      ∃ q : Bytes, q.length ≤ (toInt64 (w.2.limit - toInt64 (x + w.2.base))).toNat ∧
        w' = ((ra w.1 q (toInt64 (x + w.2.base))).w, w.2)) ∨
    (∃ t, (w.2.base ≤ t ∧ IsInt64 t) ∧ w' = (w.1, { w.2 with off := t })) := by
  cases op with
  | read p =>
    cases hr : SectionReader.read ra w p with
    | error m => rw [SectionReader.call, hr] at h; cases h
    | ok o =>
      rw [SectionReader.call, hr] at h; cases h
      rcases SectionReader.read_cases hr with ⟨-, rfl⟩ | ⟨hlt, hm, rfl⟩
      · exact .inl rfl
      · exact .inr (.inl ⟨hlt, hm, _, List.length_take_le _ _, rfl⟩)
  | readAt p x =>
    cases hr : SectionReader.readAt ra w p x with
    | error m => rw [SectionReader.call, hr] at h; cases h
    | ok o =>
      rw [SectionReader.call, hr] at h; cases h
      rcases SectionReader.readAt_cases hr with ⟨-, rfl⟩ | ⟨hx0, hx, hm, rfl⟩
      · exact .inl rfl
      · exact .inr (.inr (.inl ⟨x, hx0, hx, hm, _, List.length_take_le _ _, rfl⟩))
  | seek offset whence =>
    cases h
    simp only [SectionReader.seek, SectionReader.applySeek]
    cases ht : (seekOff w.2.base (w.2.whenceRef whence) offset).1 with
    | none => exact .inl rfl
    | some t => exact .inr (.inr (.inr ⟨t, seekOff_moves ht, rfl⟩))

theorem SectionReader.call_frame {w w' : ω × SectionReader} {op : SectionOp}
    (h : SectionReader.call ra w op = .ok w') : w'.2.base = w.2.base ∧ w'.2.limit = w.2.limit := by
  rcases SectionReader.call_cases h with rfl | ⟨-, -, -, -, rfl⟩ | ⟨-, -, -, -, -, -, rfl⟩ | ⟨-, -, rfl⟩ <;>
    exact ⟨rfl, rfl⟩

theorem SectionReader.call_inv (hra : ra.Obeys) {w w' : ω × SectionReader} {op : SectionOp}
    (hi : w.2.Inv) (h : SectionReader.call ra w op = .ok w') : w'.2.Inv := by
  obtain ⟨hlim, hoff, hoi⟩ := hi
  rcases SectionReader.call_cases h with
    rfl | ⟨hlt, hm, q, hq, rfl⟩ | ⟨-, -, -, -, -, -, rfl⟩ | ⟨t, ht, rfl⟩
  · exact ⟨hlim, hoff, hoi⟩
  · obtain ⟨-, hn0, hnq⟩ := hra w.1 q w.2.off
    unfold IsInt64 at hlim hoi
    have hmax : toInt64 (w.2.limit - w.2.off) = w.2.limit - w.2.off := by
      unfold toInt64 at hm ⊢; omega
    refine ⟨hlim, ?_, isInt64_toInt64 _⟩
    show w.2.base ≤ toInt64 (w.2.off + (ra w.1 q w.2.off).n)
    rw [toInt64_of_isInt64 ⟨by omega, by omega⟩]; omega
  · exact ⟨hlim, hoff, hoi⟩
  · exact ⟨hlim, ht⟩

/-- Along a run, `base` and `limit` stay as they were, and so does `Inv`. -/
theorem SectionReader.reaches_inv (hra : ra.Obeys) {a b : ω × SectionReader}
    (h : SectionReader.Reaches ra a b) :
    b.2.base = a.2.base ∧ b.2.limit = a.2.limit ∧ (a.2.Inv → b.2.Inv) := by
  induction h with
  | refl => exact ⟨rfl, rfl, id⟩
  | tail _ hstep ih =>
    obtain ⟨op, hop⟩ := hstep
    obtain ⟨hb, hl⟩ := SectionReader.call_frame hop
    exact ⟨hb.trans ih.1, hl.trans ih.2.1, fun hi => SectionReader.call_inv hra (ih.2.2 hi) hop⟩

end Runs

theorem newSectionReader_inv {off : Int} (n : Int) (hoff : IsInt64 off) :
    (newSectionReader off n).Inv := by
  refine ⟨?_, Int.le_refl off, hoff⟩
  show IsInt64 (if _ then _ else _)
  split
  · exact isInt64_toInt64 _
  · exact ⟨by unfold maxInt64; omega, Int.le_refl _⟩

/-! ## `Seek` -/

theorem SectionReader.whenceRef_cases {s : SectionReader} {whence x : Int}
    (h : s.whenceRef whence = some x) : x = s.base ∨ x = s.off ∨ x = s.limit := by
  unfold SectionReader.whenceRef at h
  split at h
  · exact .inl (Option.some.inj h).symm
  split at h
  · exact .inr (.inl (Option.some.inj h).symm)
  split at h
  · exact .inr (.inr (Option.some.inj h).symm)
  · cases h

theorem newSectionReader_limit_nonneg {off : Int} (n : Int) (hoff : IsInt64 off) (h0 : 0 ≤ off) :
    0 ≤ (newSectionReader off n).limit ∧ (newSectionReader off n).limit ≤ maxInt64 := by
  unfold IsInt64 at hoff
  simp only [newSectionReader]
  split <;> rename_i h <;> unfold toInt64 maxInt64 at * <;> omega

theorem SectionReader.reaches_refs {ra : ReadAtFn ω} (hra : ra.Obeys) {off n : Int}
    (hoff : IsInt64 off) (h0 : 0 ≤ off) {w₀ : ω} {w : ω × SectionReader}
    (hw : SectionReader.Reaches ra (w₀, newSectionReader off n) w) :
    0 ≤ w.2.base ∧ ∀ whence x, w.2.whenceRef whence = some x → 0 ≤ x ∧ x ≤ maxInt64 := by
  obtain ⟨hbase, hlimit, hinv⟩ := SectionReader.reaches_inv hra hw
  obtain ⟨-, hbo, hoi⟩ := hinv (newSectionReader_inv n hoff)
  obtain ⟨hl0, hl⟩ := newSectionReader_limit_nonneg n hoff h0
  replace hbase : w.2.base = off := hbase
  unfold IsInt64 at hoff hoi
  unfold maxInt64 at hl ⊢
  refine ⟨by omega, fun whence x hx => ?_⟩
  rcases SectionReader.whenceRef_cases hx with rfl | rfl | rfl
  · omega
  · omega
  · rw [hlimit]; exact ⟨hl0, hl⟩

/-! ## The window -/

/-- Every `ReadAt` of the log asks for bytes of `[lo, hi)`. -/
def ReadsWithin (lo hi : Int) (log : List Event) : Prop :=
  ∀ len off k er, Event.readAt len off k er ∈ log → lo ≤ off ∧ off + len ≤ hi

theorem ReadsWithin.append {lo hi : Int} {l l' : List Event} (h : ReadsWithin lo hi l)
    (h' : ReadsWithin lo hi l') : ReadsWithin lo hi (l ++ l') := fun len off k er hm =>
  (List.mem_append.1 hm).elim (h len off k er) (h' len off k er)

theorem readsWithin_readAt {lo hi off : Int} {len : Nat} (k : Int) (er : Option Error)
    (h : lo ≤ off) (h' : off + len ≤ hi) : ReadsWithin lo hi [.readAt len off k er] := by
  intro len' off' k' er' hm
  cases List.mem_singleton.1 hm
  exact ⟨h, h'⟩

/-- A section whose window `[base, limit)` has at most `maxint64` bytes: no distance in it wraps. -/
def SectionReader.Bounded (s : SectionReader) : Prop :=
  IsInt64 s.base ∧ s.base ≤ s.limit ∧ s.limit - s.base ≤ maxInt64

section Window

variable {ra : ReadAtFn ω}

theorem SectionReader.call_ok {w : ω × SectionReader} (hb : w.2.Bounded) (hi : w.2.Inv)
    (op : SectionOp) : ∃ w', SectionReader.call ra w op = .ok w' := by
  obtain ⟨hbase, hbl, hwin⟩ := hb
  obtain ⟨hlim, hoff, hoi⟩ := hi
  unfold IsInt64 at hbase hlim hoi; unfold maxInt64 at hwin
  cases op with
  | read p =>
    obtain ⟨o, ho⟩ := SectionReader.read_ok ra p (w := w) fun _ => by unfold toInt64; omega
    exact ⟨o.w, by rw [SectionReader.call, ho]; rfl⟩
  | readAt p x =>
    obtain ⟨o, ho⟩ := SectionReader.readAt_ok ra w p x fun hx0 hx => by
      have hd : toInt64 (w.2.limit - w.2.base) = w.2.limit - w.2.base :=
        toInt64_of_isInt64 ⟨by omega, by omega⟩
      rw [toInt64_of_isInt64 (x := x + w.2.base) ⟨by omega, by omega⟩]
      unfold toInt64; omega
    exact ⟨o.w, by rw [SectionReader.call, ho]; rfl⟩
  | seek offset whence => exact ⟨_, rfl⟩

theorem SectionReader.call_within {w w' : (ω × List Event) × SectionReader} {op : SectionOp}
    (hb : w.2.Bounded) (hi : w.2.Inv) (h : SectionReader.call ra.logged w op = .ok w') :
    ∃ evs, w'.1.2 = w.1.2 ++ evs ∧ ReadsWithin w.2.base w.2.limit evs := by
  obtain ⟨hbase, hbl, hwin⟩ := hb
  obtain ⟨hlim, hoff, hoi⟩ := hi
  unfold IsInt64 at hbase hlim hoi; unfold maxInt64 at hwin
  have hnone : ReadsWithin w.2.base w.2.limit [] := fun _ _ _ _ hm => by cases hm
  rcases SectionReader.call_cases h with
    rfl | ⟨hlt, hm, q, hq, rfl⟩ | ⟨x, hx0, hx, hm, q, hq, rfl⟩ | ⟨t, -, rfl⟩
  · exact ⟨[], (List.append_nil _).symm, hnone⟩
  · have hmax : toInt64 (w.2.limit - w.2.off) = w.2.limit - w.2.off := by
      unfold toInt64; omega
    exact ⟨_, rfl, readsWithin_readAt _ _ hoff (by omega)⟩
  · have hd : toInt64 (w.2.limit - w.2.base) = w.2.limit - w.2.base :=
      toInt64_of_isInt64 ⟨by omega, by omega⟩
    have ha : toInt64 (x + w.2.base) = x + w.2.base := toInt64_of_isInt64 ⟨by omega, by omega⟩
    have hmax : toInt64 (w.2.limit - toInt64 (x + w.2.base)) = w.2.limit - (x + w.2.base) := by
      rw [ha]; exact toInt64_of_isInt64 ⟨by omega, by omega⟩
    exact ⟨_, rfl, readsWithin_readAt _ _ (by omega) (by omega)⟩
  · exact ⟨[], (List.append_nil _).symm, hnone⟩

/-- Along a run of a bounded section every `ReadAt` asks for bytes of `[base, limit)`. -/
theorem SectionReader.reaches_within (hra : ra.Obeys) {a b : (ω × List Event) × SectionReader}
    (h : SectionReader.Reaches ra.logged a b) (hb : a.2.Bounded) (hi : a.2.Inv)
    (hl : ReadsWithin a.2.base a.2.limit a.1.2) : ReadsWithin a.2.base a.2.limit b.1.2 := by
  induction h with
  | refl => exact hl
  | tail hab hstep ih =>
    obtain ⟨op, hop⟩ := hstep
    obtain ⟨hbase, hlimit, hinv⟩ := SectionReader.reaches_inv hra.logged hab
    obtain ⟨evs, heq, hevs⟩ := SectionReader.call_within
      (by rw [SectionReader.Bounded, hbase, hlimit]; exact hb) (hinv hi) hop
    rw [heq]
    exact ih.append (by rw [← hbase, ← hlimit]; exact hevs)

end Window

theorem newSectionReader_limit {off n : Int} (hoff : IsInt64 off) (hn : IsInt64 n) (h0 : 0 ≤ n) :
    (newSectionReader off n).limit = windowEnd off n := by
  unfold IsInt64 at hoff hn
  have hg : toInt64 (maxInt64 - n) = maxInt64 - n :=
    toInt64_of_isInt64 ⟨by unfold maxInt64; omega, by unfold maxInt64; omega⟩
  simp only [newSectionReader, windowEnd, hg]
  unfold maxInt64
  split <;> rename_i h
  · rw [toInt64_of_isInt64 ⟨by omega, by omega⟩]; omega
  · omega

/-- `NewSectionReader(r, off, n)` with `n ≥ 0`, after any calls: no call panics, every `ReadAt`
stays in the window, and past its end `Read` and `ReadAt` return `(0, EOF)`. -/
theorem sectionReader_window (ra : ReadAtFn ω) (hra : ra.Obeys) (off n : Int) (hoff : IsInt64 off)
    (hn : IsInt64 n) (h0 : 0 ≤ n) (w₀ : ω) (w : (ω × List Event) × SectionReader)
    (hw : SectionReader.Reaches ra.logged ((w₀, []), newSectionReader off n) w) :
    (∀ op, ∃ w', SectionReader.call ra.logged w op = .ok w') ∧
    ReadsWithin off (windowEnd off n) w.1.2 ∧
    (∀ p, windowEnd off n ≤ w.2.off → SectionReader.read ra.logged w p = .ok ⟨w, p, 0, some .eof⟩) ∧
    (∀ p x, windowEnd off n ≤ off + x →
      SectionReader.readAt ra.logged w p x = .ok ⟨w, p, 0, some .eof⟩) := by
  have hlim := newSectionReader_limit hoff hn h0
  obtain ⟨hbase, hlimit, hinv⟩ := SectionReader.reaches_inv hra.logged hw
  dsimp only at hbase hlimit hinv
  replace hbase : w.2.base = off := hbase
  have hb : (newSectionReader off n).Bounded := by
    show IsInt64 off ∧ off ≤ (newSectionReader off n).limit ∧ (newSectionReader off n).limit - off ≤ maxInt64
    rw [hlim]; unfold IsInt64 windowEnd maxInt64 at *; omega
  have hwb : w.2.Bounded := by rw [SectionReader.Bounded, hbase, hlimit]; exact hb
  have hinit := newSectionReader_inv n hoff
  rw [hlim] at hlimit
  refine ⟨SectionReader.call_ok hwb (hinv hinit), ?_,
    fun p hp => SectionReader.read_past _ p (by rw [hlimit]; exact hp), fun p x hx => ?_⟩
  · have := SectionReader.reaches_within hra hw hb hinit fun _ _ _ _ hm => by cases hm
    dsimp only at this
    rwa [hlim] at this
  · refine SectionReader.readAt_past _ w p (.inr ?_)
    obtain ⟨hbase', hbl, hwin⟩ := hwb
    rw [toInt64_of_isInt64 ⟨by unfold IsInt64 at hbase'; omega, by unfold maxInt64 at hwin; omega⟩,
      hlimit, hbase]
    omega

theorem sectionReader_window_slice :
    (∀ op, ∃ w', SectionReader.call sliceReaderAt.logged (([1, 2, 3], [.readAt 1 0 1 none]), ⟨0, 1, 3⟩) op = .ok w') ∧
    ReadsWithin 0 (windowEnd 0 3) [.readAt 1 0 1 none] ∧
    (∀ p, windowEnd 0 3 ≤ (1 : Int) → SectionReader.read sliceReaderAt.logged (([1, 2, 3], [.readAt 1 0 1 none]), ⟨0, 1, 3⟩) p =
      .ok ⟨(([1, 2, 3], [.readAt 1 0 1 none]), ⟨0, 1, 3⟩), p, 0, some .eof⟩) ∧
    (∀ p x, windowEnd 0 3 ≤ 0 + x → SectionReader.readAt sliceReaderAt.logged (([1, 2, 3], [.readAt 1 0 1 none]), ⟨0, 1, 3⟩) p x =
      .ok ⟨(([1, 2, 3], [.readAt 1 0 1 none]), ⟨0, 1, 3⟩), p, 0, some .eof⟩) :=
  sectionReader_window sliceReaderAt sliceReaderAt_obeys 0 3 (by decide) (by decide) (by decide)
    [1, 2, 3] _ (.single ⟨.read [0], by with_unfolding_all rfl⟩)

/-- With `n < 0` the check `off <= maxint64-n` overflows: a `Read` panics from `off < 0`, and
otherwise reads up to `maxint64 - off` bytes. -/
theorem sectionReader_negative_length (ra : ReadAtFn ω) (w₀ : ω) (off n : Int) (hoff : IsInt64 off)
    (hn : IsInt64 n) (hneg : n < 0) (p : Bytes) :
    (off < 0 → SectionReader.read ra.logged ((w₀, []), newSectionReader off n) p =
      .error "slice bounds out of range") ∧
    (0 ≤ off → off < maxInt64 → ∃ o k er,
      SectionReader.read ra.logged ((w₀, []), newSectionReader off n) p = .ok o ∧
      o.w.1.2 = [.readAt (min (maxInt64 - off).toNat p.length) off k er]) := by
  unfold IsInt64 at hoff hn
  have hg : toInt64 (maxInt64 - n) = maxInt64 - n - 18446744073709551616 := by
    unfold toInt64 maxInt64; omega
  constructor
  · intro hlt
    apply SectionReader.read_panics
    · show off < (newSectionReader off n).limit
      simp only [newSectionReader, hg]
      split <;> rename_i h <;> unfold maxInt64 at *
      · unfold toInt64; omega
      · omega
    · show toInt64 ((newSectionReader off n).limit - off) < 0
      simp only [newSectionReader, hg]
      split <;> rename_i h <;> unfold maxInt64 at * <;> unfold toInt64 <;> omega
  · intro h0 hlt
    unfold maxInt64 at hlt
    have hl : (newSectionReader off n).limit = maxInt64 := by
      simp only [newSectionReader, hg]; rw [if_neg (by unfold maxInt64; omega)]
    have hm : toInt64 ((newSectionReader off n).limit - off) = maxInt64 - off := by
      rw [hl]; exact toInt64_of_isInt64 ⟨by unfold maxInt64; omega, by unfold maxInt64; omega⟩
    exact ⟨_, _, _, SectionReader.read_within ra.logged p (w := ((w₀, []), newSectionReader off n))
      (by show off < _; rw [hl]; unfold maxInt64; omega)
      (by show 0 ≤ toInt64 (_ - off); rw [hm]; unfold maxInt64; omega),
      by show [Event.readAt (p.take (toInt64 (_ - off)).toNat).length off _ _] = _
         rw [List.length_take, hm]⟩

theorem sectionReader_negative_length_slice :
    ((0 : Int) < 0 → SectionReader.read sliceReaderAt.logged (([1, 2, 3], []), newSectionReader 0 (-1))
      [0] = .error "slice bounds out of range") ∧
    (0 ≤ (0 : Int) → (0 : Int) < maxInt64 → ∃ o k er,
      SectionReader.read sliceReaderAt.logged (([1, 2, 3], []), newSectionReader 0 (-1)) [0] = .ok o ∧
      o.w.1.2 = [.readAt (min (maxInt64 - 0).toNat [0].length) 0 k er]) :=
  sectionReader_negative_length sliceReaderAt [1, 2, 3] 0 (-1) (by decide) (by decide) (by decide) [0]

end GoIo
