import GoIo.Copy

/-!
# `copyBuffer` against any sink

A sink may answer anything; `copyBuffer` checks each answer (`checkWrite`). Seen through the log
of its calls, a run is calls that went through (`RoundsOk`) and then one last round: a read, and
the write of exactly the bytes it returned, if any (`LastRound`, `CopyEnd`).
-/

namespace GoIo

/-! ## Logs of a copy -/

/-- A call that went through: a read with a nil error, or a full write with a nil error. -/
def Event.Ok : Event → Prop
  | .read _ _ err => err = none
  | .write d n err => n = d.length ∧ err = none
  | _ => False

/-- The last round, `o` being its read: the read, and the write of `o`'s bytes when there are any. -/
def LastRound {ω : Type} (len : Nat) (o : ReadOut ω) (last : List Event) : Prop :=
  o.n ≤ 0 ∧ last = [.read len o.n o.err] ∨
    0 < o.n ∧ ∃ nw ew, last = [.read len o.n o.err, .write o.data nw ew]

/-- A last round that ends the copy with success. -/
def LastOk (last : List Event) : Prop :=
  ∃ len n, last = [.read len n (some .eof)] ∨
    ∃ q, last = [.read len n (some .eof), .write q q.length none]

theorem lastOk_read {len : Nat} {n : Int} {er : Option Error} :
    LastOk [.read len n er] ↔ er = some .eof := by
  simp [LastOk]

theorem lastOk_read_write {len : Nat} {n nw : Int} {er ew : Option Error} {q : Bytes} :
    LastOk [.read len n er, .write q nw ew] ↔ er = some .eof ∧ nw = q.length ∧ ew = none := by
  constructor
  · rintro ⟨_, _, h | ⟨_, h⟩⟩ <;> simp_all
  · rintro ⟨rfl, rfl, rfl⟩; exact ⟨len, n, .inr ⟨q, rfl⟩⟩

/-! ## One round -/

section Faults

variable {σ τ : Type} {r : ReadFn σ} {wr : WriteFn τ}

/-- Every call so far went through, and `written` counts the bytes read, as an `int64`. -/
def RoundsOk (st : CopyState (Pair σ τ)) : Prop :=
  (∀ ev ∈ st.w.2, ev.Ok) ∧ st.written = toInt64 (readsOf st.w.2)

/-- A copy that ends with `st`'s round: `written` is between the bytes read before it and all bytes
read, and all of them exactly when the copy succeeds. -/
def CopyEnd (r : ReadFn σ) (st : CopyState (Pair σ τ)) (res : WriteOut (Pair σ τ)) : Prop :=
  ∃ last, res.w.2 = st.w.2 ++ last ∧ LastRound st.buf.length (r st.w.1.1 st.buf) last ∧
    ∃ W, res.n = toInt64 W ∧ readsOf st.w.2 ≤ W ∧ W ≤ readsOf res.w.2 ∧
      (res.err = none ↔ LastOk last) ∧ (res.err = none → W = readsOf res.w.2)

theorem copyStep_rounds (hr : r.Obeys) (st : CopyState (Pair σ τ)) (h : RoundsOk st) :
    Sum.elim RoundsOk (CopyEnd r st) (copyStep r.onFst.logged wr.onSnd.logged st) := by
  obtain ⟨⟨⟨s, t⟩, log⟩, buf, written⟩ := st
  obtain ⟨hok, hw⟩ := h
  obtain ⟨hpl, hn0, hnl⟩ := hr s buf
  have hq : (((r s buf).p.take (r s buf).n.toNat).length : Int) = (r s buf).n := by
    simp only [List.length_take, hpl]; omega
  simp only at hok hw
  rcases copyStep_cases rfl rfl with ⟨hz, h⟩ | ⟨hpos, hbad, e, h⟩ | ⟨hpos, hnw, hew, h⟩ <;>
    rw [h] <;>
    simp only [ReadFn.logged_n, ReadFn.onFst_n, ReadFn.logged_w, ReadFn.onFst_w, ReadFn.logged_p,
      ReadFn.onFst_p, ReadFn.logged_err, ReadFn.onFst_err, WriteFn.logged_w, WriteFn.onSnd_w,
      WriteFn.logged_n, WriteFn.onSnd_n, WriteFn.logged_err, WriteFn.onSnd_err] at *
  · -- nothing read
    have hz : (r s buf).n = 0 := by omega
    cases her : (r s buf).err with
    | none =>
      refine ⟨fun ev hev => ?_, by simp [hw, hz]⟩
      rcases List.mem_append.1 hev with hev | hev
      · exact hok ev hev
      · rw [List.mem_singleton.1 hev]; rfl
    | some e =>
      refine ⟨_, rfl, .inl ⟨by dsimp only; omega, by rw [her]⟩, readsOf log, hw, Int.le_refl _, ?_, ?_, ?_⟩
      · simp [hz]
      · simp [lastOk_read, eofToNil_eq_none]
      · intro; simp [hz]
  · -- a write that failed or fell short
    generalize hq' : (r s buf).p.take (r s buf).n.toNat = q at hq hbad ⊢
    obtain ⟨hc0, hcn⟩ := @checkWrite_fst_mem _ (wr t q).n (wr t q).err hn0
    refine ⟨_, List.append_assoc _ _ _,
      .inr ⟨hpos, _, _, by dsimp only [ReadOut.data]; rw [hq']; rfl⟩,
      readsOf log + (checkWrite (r s buf).n (wr t q).n (wr t q).err).1, ?_, ?_, ?_, ?_, ?_⟩
    · rw [hw, toInt64_add_toInt64]
    · dsimp only; omega
    · simp; omega
    · simp only [reduceCtorEq, false_iff, List.singleton_append, lastOk_read_write, not_and]
      intro _ hnw hew
      exact hbad ⟨by rw [hnw, hq], hew⟩
    · simp
  · -- a full write
    generalize hq' : (r s buf).p.take (r s buf).n.toNat = q at hq hnw hew ⊢
    cases her : (r s buf).err with
    | none =>
      refine ⟨fun ev hev => ?_, by rw [hw, toInt64_add_toInt64]; simp⟩
      simp only [List.mem_append, List.mem_singleton] at hev
      rcases hev with (hev | rfl) | rfl
      · exact hok ev hev
      · rfl
      · exact ⟨by rw [hnw, hq], hew⟩
    | some e =>
      refine ⟨_, List.append_assoc _ _ _,
        .inr ⟨hpos, _, _, by dsimp only [ReadOut.data]; rw [her, hq']; rfl⟩,
        readsOf log + (r s buf).n, by rw [hw, toInt64_add_toInt64], ?_, ?_, ?_, ?_⟩
      · dsimp only; omega
      · simp
      · simp [List.singleton_append, lastOk_read_write, eofToNil_eq_none, hew, hnw, hq]
      · intro; simp

/-- A reader that puts `7` in its buffer's first byte and reports an error along with it. -/
def oneShot : ReadFn Unit := fun _ p => ⟨(), p.set 0 7, ((min 1 p.length : Nat) : Int), some (.other 0)⟩

end Faults

end GoIo
