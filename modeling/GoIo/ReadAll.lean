import GoIo.Loop
import GoIo.Stream

/-!
# `ReadAll`

`ReadAll` reads into the spare capacity of a slice, its backing array and `len`, growing it by
`append`, which may pick any larger capacity (`Growth`). From a stream it returns the stream's
bytes (`readAll_stream`).
-/

namespace GoIo

variable {ω : Type}

/-- How `append` grows a full slice of length `n`: to a capacity above `n`. -/
structure Growth where
  cap : Nat → Nat
  lt_cap : ∀ n, n < cap n

/-- `append(b, 0)[:len(b)]` for a full slice `b`: `b`, then zeros, to the capacity picked. -/
def Growth.grow (g : Growth) (arr : Bytes) (len : Nat) : Bytes :=
  arr.take len ++ 0 :: List.replicate (g.cap len - len - 1) 0

/-- The state of `ReadAll`'s loop: the world, the backing array of `b`, and `len(b)`. -/
structure ReadAllState (ω : Type) where
  w : ω
  arr : Bytes
  len : Nat

/-- What `ReadAll` returns: the world after it, and `(b, err)`. -/
structure ReadAllOut (ω : Type) where
  w : ω
  b : Bytes
  err : Option Error

/-- The backing array before a read: grown when the slice is full. -/
def ReadAllState.room (g : Growth) (st : ReadAllState ω) : Bytes :=
  if st.len = st.arr.length then g.grow st.arr st.len else st.arr

/-- One round of `ReadAll`'s `for` loop. -/
def readAllStep (g : Growth) (r : ReadFn ω) (st : ReadAllState ω) :
    ReadAllState ω ⊕ Except String (ReadAllOut ω) :=
  let arr := st.room g
  let o := r st.w (arr.drop st.len)
  let arr' := arr.take st.len ++ o.p
  if 0 ≤ (st.len : Int) + o.n ∧ (st.len : Int) + o.n ≤ arr.length then
    match o.err with
    | none => .inl ⟨o.w, arr', (st.len + o.n).toNat⟩
    | some e => .inr (.ok ⟨o.w, arr'.take (st.len + o.n).toNat, eofToNil e⟩)
  else .inr (.error "slice bounds out of range")

/-- `ReadAll(r)`. -/
def readAll (fuel : Nat) (g : Growth) (r : ReadFn ω) (w : ω) : Option (Except String (ReadAllOut ω)) :=
  loop (readAllStep g r) fuel ⟨w, List.replicate 512 0, 0⟩

theorem Growth.take_grow (g : Growth) {arr : Bytes} {len : Nat} (h : len ≤ arr.length) :
    (g.grow arr len).take len = arr.take len := by
  rw [Growth.grow, List.take_left' (by simp; omega)]

theorem Growth.length_grow (g : Growth) {arr : Bytes} {len : Nat} (h : len ≤ arr.length) :
    (g.grow arr len).length = g.cap len := by
  have := g.lt_cap len
  simp only [Growth.grow, List.length_append, List.length_take, List.length_cons,
    List.length_replicate]
  omega

theorem room_spec (g : Growth) {st : ReadAllState ω} (h : st.len ≤ st.arr.length) :
    (st.room g).take st.len = st.arr.take st.len ∧ st.len < (st.room g).length := by
  unfold ReadAllState.room
  split <;> rename_i hfull
  · exact ⟨g.take_grow h, by rw [g.length_grow h]; exact g.lt_cap _⟩
  · exact ⟨rfl, by omega⟩

theorem room_read (g : Growth) {st : ReadAllState ω} (h : st.len ≤ st.arr.length) {α : Type}
    {o : ReadOut α}
    (hpl : o.p.length = ((st.room g).drop st.len).length) (hn0 : 0 ≤ o.n)
    (hnq : o.n ≤ ((st.room g).drop st.len).length) :
    (0 ≤ (st.len : Int) + o.n ∧ (st.len : Int) + o.n ≤ (st.room g).length) ∧
      (st.len + o.n).toNat ≤ ((st.room g).take st.len ++ o.p).length ∧
      ((st.room g).take st.len ++ o.p).take (st.len + o.n).toNat = st.arr.take st.len ++ o.data := by
  obtain ⟨htake, hroom⟩ := room_spec g h
  rw [List.length_drop] at hpl hnq
  refine ⟨⟨by omega, by omega⟩, by simp only [List.length_append, List.length_take, hpl]; omega, ?_⟩
  rw [List.take_append_eq_append_take, List.take_of_length_le (by simp; omega), htake,
    List.length_take, ReadOut.data]
  congr 2; omega

theorem readAllStep_got {r : ReadFn ω} (hr : r.Obeys) (g : Growth) (got : ω → Bytes)
    (hgot : ∀ w p, got (r w p).w = got w ++ (r w p).data) (c₀ : Bytes) :
    Keeps (readAllStep g r) (fun st => st.len ≤ st.arr.length ∧ got st.w = c₀ ++ st.arr.take st.len)
      fun res => ∀ o, res = .ok o → got o.w = c₀ ++ o.b := by
  rintro st ⟨hlen, hg⟩
  obtain ⟨hpl, hn0, hnq⟩ := hr st.w ((st.room g).drop st.len)
  obtain ⟨hin, hle, harr⟩ := room_read g hlen hpl hn0 hnq
  have hw := hgot st.w ((st.room g).drop st.len)
  rw [hg, List.append_assoc, ← harr] at hw
  simp only [readAllStep, if_pos hin]
  cases (r st.w ((st.room g).drop st.len)).err with
  | none => exact ⟨hle, hw⟩
  | some e => rintro o ⟨⟩; exact hw

theorem readAllStep_world {r : ReadFn ω} (g : Growth) {P : ω → Prop} (hP : ∀ w p, P w → P (r w p).w) :
    Keeps (readAllStep g r) (fun st => P st.w) fun res => ∀ o, res = .ok o → P o.w := by
  intro st h
  simp only [readAllStep]
  split
  · cases (r st.w ((st.room g).drop st.len)).err with
    | none => exact hP _ _ h
    | some e => rintro o ⟨⟩; exact hP _ _ h
  · rintro o ⟨⟩

section Stream

variable {σ : Type} {r : ReadFn σ} {rest : σ → Option (Bytes × Error)}

/-- Every read in the log was given a non-empty buffer. -/
def SpareReads (log : List Event) : Prop :=
  ∀ ev ∈ log, ∃ len n er, ev = .read len n er ∧ 0 < len

/-- `b[0:len]` holds what the reads consumed, and every read got a non-empty buffer. -/
def ReadAllInv (rest : σ → Option (Bytes × Error)) (w₀ : σ × List Event)
    (st : ReadAllState (σ × List Event)) : Prop :=
  st.len ≤ st.arr.length ∧ Consumed (restFuture fun w => rest w.1) w₀ (st.arr.take st.len) st.w ∧
    SpareReads st.w.2

/-- The bytes of a future of `w₀`, with `nil` for `EOF`. -/
def ReadAllPost (rest : σ → Option (Bytes × Error)) (w₀ : σ × List Event)
    (res : Except String (ReadAllOut (σ × List Event))) : Prop :=
  ∃ o, res = .ok o ∧ ∃ e, restFuture (fun w => rest w.1) w₀ o.b e ∧ o.err = eofToNil e ∧
    SpareReads o.w.2

theorem readAllStep_keeps (hr : r.Obeys) (hd : Delivers r rest) (g : Growth) (w₀ : σ × List Event) :
    Keeps (readAllStep g r.logged) (ReadAllInv rest w₀) (ReadAllPost rest w₀) := by
  rintro st ⟨hlen, hc, hsp⟩
  obtain ⟨-, hroom⟩ := room_spec g hlen
  obtain ⟨hpl, hn0, hnq⟩ := hr st.w.1 ((st.room g).drop st.len)
  obtain ⟨hin, hle, harr⟩ := room_read g hlen hpl hn0 hnq
  have hq0 : 0 < ((st.room g).drop st.len).length := by rw [List.length_drop]; omega
  have hs := hd.logged.streams
  simp only [readAllStep, ReadFn.logged_n, ReadFn.logged_p, ReadFn.logged_err, ReadFn.logged_w,
    if_pos hin]
  generalize (st.room g).drop st.len = q at hs hpl hn0 hnq hle harr hq0 ⊢
  have hsp' : SpareReads (st.w.2 ++ [.read q.length (r st.w.1 q).n (r st.w.1 q).err]) := by
    intro ev hev
    rcases List.mem_append.1 hev with hev | hev
    · exact hsp ev hev
    · rw [List.mem_singleton.1 hev]; exact ⟨_, _, _, rfl, hq0⟩
  cases herr : (r st.w.1 q).err with
  | none =>
    rw [herr] at hsp'
    refine ⟨hle, ?_, hsp'⟩
    simpa only [ReadOut.data_logged, ReadFn.logged_w, ← harr] using
      hs.read_none hc q (by simpa using herr)
  | some e =>
    rw [herr] at hsp'
    refine ⟨_, rfl, e, ?_, rfl, hsp'⟩
    simpa only [ReadOut.data_logged, ← harr] using hs.read_some hc q (by simpa using herr)

theorem readAllStep_decreases (hr : r.Obeys) (hd : Delivers r rest) (hp : Progress r rest)
    (g : Growth) (w₀ : σ × List Event) :
    Decreases (readAllStep g r.logged) (ReadAllInv rest w₀) fun st => restLen rest st.w.1 := by
  rintro st st' ⟨hlen, ⟨⟨s', e', hF⟩, -⟩, -⟩ hstep
  obtain ⟨-, hroom⟩ := room_spec g hlen
  obtain ⟨hpl, hn0, hnq⟩ := hr st.w.1 ((st.room g).drop st.len)
  have hq : (st.room g).drop st.len ≠ [] :=
    List.ne_nil_of_length_pos (by rw [List.length_drop]; omega)
  simp only [restFuture] at hF
  simp only [readAllStep, ReadFn.logged_n, ReadFn.logged_p, ReadFn.logged_err, ReadFn.logged_w,
    if_pos (room_read g hlen hpl hn0 hnq).1] at hstep
  generalize (st.room g).drop st.len = q at hstep hq
  cases herr : (r st.w.1 q).err with
  | some e => rw [herr] at hstep; cases hstep
  | none =>
    rw [herr] at hstep
    cases hstep
    have hpos := (hp st.w.1 q (by rw [hF]; rfl) hq).resolve_right (by simp [herr])
    obtain ⟨s'', rfl, hrest'⟩ := by simpa only [herr] using hd st.w.1 q s' e' hF
    simp only [restLen, hF, hrest', Option.map_some', Option.getD_some, List.length_append,
      hr.data_length]
    omega

/-- `ReadAll(r)` from a stream `s` then `e` that never stalls, whatever `append` picks: within
`|s| + 1` rounds it returns `s`, every read having got a non-empty buffer. -/
theorem readAll_stream (g : Growth) (r : ReadFn σ) (rest : σ → Option (Bytes × Error))
    (hr : r.Obeys) (hd : Delivers r rest) (hp : Progress r rest) (s₀ : σ) (s : Bytes) (e : Error)
    (h₀ : rest s₀ = some (s, e)) :
    ∃ w, readAll (s.length + 1) g r.logged (s₀, []) = some (.ok ⟨w, s, eofToNil e⟩) ∧
      SpareReads w.2 := by
  obtain ⟨res, h, o, rfl, e', hF, herr, hsp⟩ := loop_spec (readAllStep_keeps hr hd g (s₀, []))
    (readAllStep_decreases hr hd hp g (s₀, []))
    (show ReadAllInv rest (s₀, []) ⟨(s₀, []), List.replicate 512 0, 0⟩ from
      ⟨Nat.zero_le _, consumed_start (show rest s₀ = _ from h₀), fun _ h => by cases h⟩)
    (show restLen rest s₀ < s.length + 1 by simp [restLen, h₀])
  obtain ⟨rfl, rfl⟩ : s = o.b ∧ e = e' := by simpa [restFuture, h₀] using hF
  exact ⟨o.w, by rw [readAll, h, ← herr], hsp⟩

end Stream

/-- `append` doubling the length, plus one. -/
def doubling : Growth := ⟨fun n => 2 * n + 1, fun n => show n < 2 * n + 1 by omega⟩

theorem readAll_stream_slice :
    ∃ w, readAll (([1, 2] : Bytes).length + 1) doubling sliceReader.logged ([1, 2], []) =
      some (.ok ⟨w, [1, 2], eofToNil .eof⟩) ∧ SpareReads w.2 :=
  readAll_stream doubling sliceReader _ sliceReader_obeys sliceReader_delivers sliceReader_progress
    [1, 2] [1, 2] .eof rfl

end GoIo
