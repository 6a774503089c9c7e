import GoIo.ReadAll

/-!
# `TeeReader`

`TeeReader(r, w)` writes to `w` the bytes each read returned; a failed write's `n, err` shadow
the read's. Over every run the caller gets exactly the bytes the sink took (`teeReader_mirrors`), and
`ReadAll` through a tee to a sink that takes every write copies the stream (`readAll_tee`).
-/

namespace GoIo

variable {ω : Type}

/-- `TeeReader(r, w)`: the `Read` of the `*teeReader` it returns. -/
def teeReader (r : ReadFn ω) (wr : WriteFn ω) : ReadFn ω := fun w p =>
  let o := r w p
  if 0 < o.n then
    let ow := wr o.w o.data
    if ow.err ≠ none then ⟨ow.w, o.p, ow.n, ow.err⟩ else ⟨ow.w, o.p, o.n, o.err⟩
  else o

/-- `Read` called with each buffer of `ps` in turn: the world after, and the bytes returned. -/
def ReadFn.readEach (r : ReadFn ω) : ω → List Bytes → ω × Bytes
  | w, [] => (w, [])
  | w, p :: ps => ((r.readEach (r w p).w ps).1, (r w p).data ++ (r.readEach (r w p).w ps).2)

theorem teeReader_cases {r : ReadFn ω} {wr : WriteFn ω} {w : ω} {p : Bytes} {o : ReadOut ω}
    {ow : WriteOut ω} (ho : r w p = o) (how : wr o.w o.data = ow) :
    (o.n ≤ 0 ∧ teeReader r wr w p = o) ∨
    (0 < o.n ∧ ow.err ≠ none ∧ teeReader r wr w p = ⟨ow.w, o.p, ow.n, ow.err⟩) ∨
    (0 < o.n ∧ ow.err = none ∧ teeReader r wr w p = ⟨ow.w, o.p, o.n, o.err⟩) := by
  subst ho how
  by_cases hpos : 0 < (r w p).n
  · by_cases he : (wr (r w p).w (r w p).data).err = none
    · exact .inr (.inr ⟨hpos, he, by simp only [teeReader, if_pos hpos, he, ne_eq, not_true_eq_false,
        if_false]⟩)
    · exact .inr (.inl ⟨hpos, he, by simp only [teeReader, if_pos hpos, he, ne_eq, not_false_eq_true,
        if_true]⟩)
  · exact .inl ⟨by omega, by simp only [teeReader, if_neg hpos]⟩

/-! ## The bytes a sink took -/

/-- The bytes a log's `Write` calls took: the first `n` of each chunk. -/
def acceptedOf : List Event → Bytes
  | [] => []
  | .write d n _ :: l => d.take n.toNat ++ acceptedOf l
  | _ :: l => acceptedOf l

@[simp] theorem acceptedOf_nil : acceptedOf [] = [] := rfl

@[simp] theorem acceptedOf_append (l l' : List Event) :
    acceptedOf (l ++ l') = acceptedOf l ++ acceptedOf l' := by
  induction l with
  | nil => rfl
  | cons ev l ih => cases ev <;> simp [acceptedOf, ih]

@[simp] theorem acceptedOf_write (d : Bytes) (n : Int) (err : Option Error) :
    acceptedOf [.write d n err] = d.take n.toNat := by simp [acceptedOf]

@[simp] theorem acceptedOf_read (len : Nat) (n : Int) (err : Option Error) :
    acceptedOf [.read len n err] = [] := rfl

theorem acceptedOf_read_write (len : Nat) (n : Int) (er : Option Error) (d : Bytes) (k : Int)
    (err : Option Error) : acceptedOf ([.read len n er] ++ [.write d k err]) = d.take k.toNat := by
  rw [acceptedOf_append, acceptedOf_read, acceptedOf_write, List.nil_append]

theorem write_mem_read_write {len : Nat} {n : Int} {er : Option Error} {d q : Bytes} {k m : Int}
    {err : Option Error} {e : Error}
    (h : Event.write q m (some e) ∈ [.read len n er] ++ [.write d k err]) : m = k ∧ some e = err := by
  simp only [List.singleton_append, List.mem_cons, List.mem_singleton, Event.write.injEq,
    reduceCtorEq, false_or, List.not_mem_nil, or_false] at h
  exact h.2

/-! ## In the world of its reader and its writer -/

section Pair

variable {σ τ : Type} {r : ReadFn σ} {wr : WriteFn τ}

/-- `TeeReader(r, w)` in the world of `r` and `w`, each of its calls to them logged. -/
def pairTee (r : ReadFn σ) (wr : WriteFn τ) : ReadFn ((σ × τ) × List Event) :=
  teeReader r.onFst.logged wr.onSnd.logged

/-- One call: it returns the bytes the sink took, and the read's answer exactly when no write failed. -/
theorem pairTee_call (hr : r.Obeys) (hw : wr.Obeys) (w : (σ × τ) × List Event) (p : Bytes) :
    let t := pairTee r wr w p
    ∃ evs, t.w.2 = w.2 ++ evs ∧ t.data = acceptedOf evs ∧ t.n = (acceptedOf evs).length ∧
      (t.n = (r w.1.1 p).n ∧ t.err = (r w.1.1 p).err → acceptedOf evs = (r w.1.1 p).data) ∧
      (∀ q m e, Event.write q m (some e) ∈ evs → t.n = m ∧ t.err = some e) ∧
      ((∀ q m e, Event.write q m (some e) ∉ evs) → t.n = (r w.1.1 p).n ∧ t.err = (r w.1.1 p).err) := by
  obtain ⟨hpl, hn0, hnp⟩ := hr w.1.1 p
  have hlen := hr.data_length w.1.1 p
  obtain ⟨hm0, hmq, hms⟩ := hw w.1.2 (r w.1.1 p).data
  dsimp only [pairTee]
  have ho : r.onFst.logged w p = ⟨(((r w.1.1 p).w, w.1.2), w.2 ++ [.read p.length (r w.1.1 p).n
      (r w.1.1 p).err]), (r w.1.1 p).p, (r w.1.1 p).n, (r w.1.1 p).err⟩ := rfl
  generalize r w.1.1 p = o at ho hpl hn0 hnp hlen hm0 hmq hms ⊢
  have how : wr.onSnd.logged ((o.w, w.1.2), w.2 ++ [.read p.length o.n o.err]) o.data =
      ⟨((o.w, (wr w.1.2 o.data).w), w.2 ++ [.read p.length o.n o.err] ++
        [.write o.data (wr w.1.2 o.data).n (wr w.1.2 o.data).err]),
        (wr w.1.2 o.data).n, (wr w.1.2 o.data).err⟩ := rfl
  generalize wr w.1.2 o.data = ow at how hm0 hmq hms ⊢
  rcases teeReader_cases ho how with ⟨hz, h⟩ | ⟨hpos, he, h⟩ | ⟨hpos, he, h⟩ <;> rw [h] <;> dsimp only
  · -- no bytes: one read, nothing for the sink
    dsimp only at hz
    have hnil : o.data = [] := List.length_eq_zero.1 (by rw [hlen]; omega)
    refine ⟨_, rfl, hnil, by simp only [acceptedOf_read, List.length_nil]; omega, fun _ => hnil.symm,
      fun q m e hm => by simp at hm, fun _ => ⟨rfl, rfl⟩⟩
  · -- a failed write: its count and error, and the bytes it took
    dsimp only at hpos he
    obtain ⟨e, he'⟩ := Option.ne_none_iff_exists'.1 he
    have hacc : acceptedOf ([.read p.length o.n o.err] ++ [.write o.data ow.n ow.err]) =
        o.p.take ow.n.toNat := by
      rw [acceptedOf_read_write, ReadOut.data, List.take_take]; congr 1; omega
    refine ⟨_, List.append_assoc _ _ _, hacc.symm, ?_, fun h => ?_, fun q m e' hm => ?_, fun h => ?_⟩
    · rw [hacc, List.length_take, hpl]; omega
    · rw [hacc, h.1]; rfl
    · obtain ⟨hm, he⟩ := write_mem_read_write hm
      exact ⟨hm.symm, he.symm⟩
    · exact absurd (by simp [he']) (h o.data ow.n e)
  · -- a full write: the read's count and error
    dsimp only at hpos he
    have hfull : ow.n = o.n := by
      have hge : ¬ow.n < o.data.length := fun hlt => hms hlt he
      omega
    have hacc : acceptedOf ([.read p.length o.n o.err] ++ [.write o.data ow.n ow.err]) = o.data := by
      rw [acceptedOf_read_write, hfull]; exact List.take_of_length_le (by omega)
    exact ⟨_, List.append_assoc _ _ _, hacc.symm, by rw [hacc, hlen]; omega, fun _ => hacc,
      fun q m e hm => Option.noConfusion ((write_mem_read_write hm).2.trans he), fun _ => ⟨rfl, rfl⟩⟩

theorem pairTee_readEach (hr : r.Obeys) (hw : wr.Obeys) (w : (σ × τ) × List Event)
    (ps : List Bytes) :
    acceptedOf ((pairTee r wr).readEach w ps).1.2 =
      acceptedOf w.2 ++ ((pairTee r wr).readEach w ps).2 := by
  induction ps generalizing w with
  | nil => simp [ReadFn.readEach]
  | cons p ps ih =>
    obtain ⟨evs, hlog, hdata, -⟩ := pairTee_call hr hw w p
    simp only [ReadFn.readEach, ih, hlog, hdata, acceptedOf_append, List.append_assoc]

/-- `TeeReader(r, w)` under both contracts: each call returns the bytes the sink took, and the
read's answer exactly when no write failed; over every run the caller gets what the sink took. -/
theorem teeReader_mirrors (r : ReadFn σ) (wr : WriteFn τ) (hr : r.Obeys) (hw : wr.Obeys) :
    (∀ w p, let t := pairTee r wr w p
      ∃ evs, t.w.2 = w.2 ++ evs ∧ t.data = acceptedOf evs ∧ t.n = (acceptedOf evs).length ∧
        (t.n = (r w.1.1 p).n ∧ t.err = (r w.1.1 p).err → acceptedOf evs = (r w.1.1 p).data) ∧
        (∀ q m e, Event.write q m (some e) ∈ evs → t.n = m ∧ t.err = some e) ∧
        ((∀ q m e, Event.write q m (some e) ∉ evs) →
          t.n = (r w.1.1 p).n ∧ t.err = (r w.1.1 p).err)) ∧
    ∀ w ps, acceptedOf ((pairTee r wr).readEach w ps).1.2 =
      acceptedOf w.2 ++ ((pairTee r wr).readEach w ps).2 :=
  ⟨pairTee_call hr hw, pairTee_readEach hr hw⟩

end Pair

/-- A sink that takes one byte of a longer chunk and fails. -/
def takeOne : WriteFn Unit := fun _ q =>
  if q.length ≤ 1 then ⟨(), q.length, none⟩ else ⟨(), 1, some (.other 1)⟩

theorem takeOne_obeys : takeOne.Obeys := by
  intro _ q
  unfold takeOne
  split <;> rename_i h <;> dsimp only
  · exact ⟨Int.ofNat_nonneg _, Int.le_refl _, fun h' => absurd h' (Int.lt_irrefl _)⟩
  · exact ⟨by decide, by omega, fun _ => Option.noConfusion⟩

/-- The sink's failure takes the place of the read: two bytes read, one taken. -/
example : (pairTee sliceReader takeOne (([1, 2, 3], ()), []) [0, 0]).n = 1 ∧
    (pairTee sliceReader takeOne (([1, 2, 3], ()), []) [0, 0]).err = some (.other 1) := ⟨rfl, rfl⟩

theorem teeReader_mirrors_slice :
    (∀ w p, let t := pairTee sliceReader takeOne w p
      ∃ evs, t.w.2 = w.2 ++ evs ∧ t.data = acceptedOf evs ∧ t.n = (acceptedOf evs).length ∧
        (t.n = (sliceReader w.1.1 p).n ∧ t.err = (sliceReader w.1.1 p).err →
          acceptedOf evs = (sliceReader w.1.1 p).data) ∧
        (∀ q m e, Event.write q m (some e) ∈ evs → t.n = m ∧ t.err = some e) ∧
        ((∀ q m e, Event.write q m (some e) ∉ evs) →
          t.n = (sliceReader w.1.1 p).n ∧ t.err = (sliceReader w.1.1 p).err)) ∧
    ∀ w ps, acceptedOf ((pairTee sliceReader takeOne).readEach w ps).1.2 =
      acceptedOf w.2 ++ ((pairTee sliceReader takeOne).readEach w ps).2 :=
  teeReader_mirrors sliceReader takeOne sliceReader_obeys takeOne_obeys

/-! ## Under `ReadAll` -/

section Tee

variable {σ τ : Type} {r : ReadFn σ} {wr : WriteFn τ}

theorem pairTee_src (w : (σ × τ) × List Event) (p : Bytes) :
    (pairTee r wr w p).w.1.1 = (r w.1.1 p).w ∧ (pairTee r wr w p).p = (r w.1.1 p).p := by
  simp only [pairTee, teeReader]
  split
  · split <;> exact ⟨rfl, rfl⟩
  · exact ⟨rfl, rfl⟩

theorem pairTee_of_accepts (hw : Accepts wr) (w : (σ × τ) × List Event) (p : Bytes) :
    (pairTee r wr w p).n = (r w.1.1 p).n ∧ (pairTee r wr w p).err = (r w.1.1 p).err := by
  have he := (hw w.1.2 (r w.1.1 p).data).2
  simp only [pairTee, teeReader]
  split
  · rw [if_neg fun h => h he]; exact ⟨rfl, rfl⟩
  · exact ⟨rfl, rfl⟩

theorem pairTee_obeys (hr : r.Obeys) (hw : wr.Obeys) : (pairTee r wr).Obeys := fun w p => by
  obtain ⟨evs, -, hdata, hn, -⟩ := pairTee_call hr hw w p
  have hpl : (pairTee r wr w p).p.length = p.length := by
    rw [(pairTee_src w p).2]; exact (hr w.1.1 p).1
  have hlen := congrArg List.length hdata
  rw [ReadOut.data, List.length_take, hpl] at hlen
  exact ⟨hpl, by omega, by omega⟩

section Accepting

variable {rest : σ → Option (Bytes × Error)} (hw : Accepts wr)
include hw

theorem pairTee_delivers (hd : Delivers r rest) : Delivers (pairTee r wr) fun w => rest w.1.1 := by
  intro w p s e h
  obtain ⟨hn, herr⟩ := pairTee_of_accepts hw w p
  obtain ⟨hsrc, hp⟩ : (pairTee r wr w p).w.1.1 = _ ∧ (pairTee r wr w p).p = _ := pairTee_src w p
  have hdata : (pairTee r wr w p).data = (r w.1.1 p).data := by rw [ReadOut.data, ReadOut.data, hn, hp]
  rw [herr]
  simpa only [hdata, hsrc] using hd w.1.1 p s e h

theorem pairTee_progress (hp : Progress r rest) : Progress (pairTee r wr) fun w => rest w.1.1 :=
  fun w p h hne => by
    rw [(pairTee_of_accepts hw w p).1, (pairTee_of_accepts hw w p).2]
    exact hp w.1.1 p h hne

end Accepting

/-- `ReadAll(TeeReader(r, w))` from a stream `s` then `e`, `w` taking every write: it returns `s`
within `|s| + 1` rounds and `w` took `s`; and the tee keeps the `Reader` contract for any sink that
keeps the `Writer` one. -/
theorem readAll_tee (g : Growth) (r : ReadFn σ) (rest : σ → Option (Bytes × Error)) (hr : r.Obeys)
    (hd : Delivers r rest) (hp : Progress r rest) (wr : WriteFn τ) (hw : Accepts wr) (s₀ : σ)
    (t₀ : τ) (s : Bytes) (e : Error) (h₀ : rest s₀ = some (s, e)) :
    (∀ wr' : WriteFn τ, wr'.Obeys → (pairTee r wr').Obeys) ∧
    ∃ w, readAll (s.length + 1) g (pairTee r wr).logged (((s₀, t₀), []), []) =
      some (.ok ⟨w, s, eofToNil e⟩) ∧ acceptedOf w.1.2 = s := by
  refine ⟨fun _ => pairTee_obeys hr, ?_⟩
  have hr' := pairTee_obeys hr hw.obeys
  have hd' := pairTee_delivers hw hd
  have hgot : ∀ w p, acceptedOf ((pairTee r wr).logged w p).w.1.2 =
      acceptedOf w.1.2 ++ ((pairTee r wr).logged w p).data := fun w p => by
    obtain ⟨evs, hlog, hdata, -⟩ := pairTee_call hr hw.obeys w.1 p
    simp only [ReadFn.logged_w, ReadOut.data_logged, hlog, hdata, acceptedOf_append]
  obtain ⟨res, h, ⟨o, rfl, e', hF, herr, -⟩, hacc⟩ := loop_spec
    (a := (⟨(((s₀, t₀), []), []), List.replicate 512 0, 0⟩ :
      ReadAllState (((σ × τ) × List Event) × List Event)))
    ((readAllStep_keeps hr' hd' g _).and
      (readAllStep_got hr'.logged g (fun w => acceptedOf w.1.2) hgot []))
    (fun a a' ha hs => readAllStep_decreases hr' hd' (pairTee_progress hw hp) g _ a a' ha.1 hs)
    ⟨⟨Nat.zero_le _, consumed_start (show rest s₀ = _ from h₀), fun _ h => by cases h⟩,
      Nat.zero_le _, rfl⟩
    (show restLen (fun w : (σ × τ) × List Event => rest w.1.1) ((s₀, t₀), []) < s.length + 1 by
      simp [restLen, h₀])
  obtain ⟨rfl, rfl⟩ : s = o.b ∧ e = e' := by simpa [restFuture, h₀] using hF
  exact ⟨o.w, by rw [readAll, h, ← herr], by simpa using hacc o rfl⟩

end Tee

theorem readAll_tee_slice :
    (∀ wr' : WriteFn Unit, wr'.Obeys → (pairTee sliceReader wr').Obeys) ∧
    ∃ w, readAll (([1, 2] : Bytes).length + 1) doubling (pairTee sliceReader acceptAll).logged
      ((([1, 2], ()), []), []) = some (.ok ⟨w, [1, 2], eofToNil .eof⟩) ∧ acceptedOf w.1.2 = [1, 2] :=
  readAll_tee doubling sliceReader _ sliceReader_obeys sliceReader_delivers sliceReader_progress
    acceptAll acceptAll_accepts [1, 2] () [1, 2] .eof rfl

end GoIo
