import GoIo.OffsetWriter
import GoIo.SectionReadAt

/-!
# An offset writer and a section reader over one store

Over a store that acts as a file (`WriteAtFn.Stores`, `ReadAtFn.Serves`), an offset writer is a
file of its own, the bytes from `base` on (`LocalFile`, `offsetWriter_refines`); a section reader
reads that file back (`sectionReader_reads_local`, `sectionReader_streams`,
`offsetWriter_roundTrip`).
-/

namespace GoIo

/-! ## A file's bytes under `WriteAt` -/

/-- The bytes of a file after `WriteAt(q, off)`, a gap past the end reading as zeros. -/
def overwrite (c q : Bytes) (off : Nat) : Bytes :=
  c.take off ++ List.replicate (off - c.length) 0 ++ q ++ c.drop (off + q.length)

@[simp] theorem length_overwrite (c q : Bytes) (off : Nat) :
    (overwrite c q off).length = max (off + q.length) c.length := by
  simp only [overwrite, List.length_append, List.length_take, List.length_replicate,
    List.length_drop]
  omega

theorem take_overwrite_of_le (c q : Bytes) {k off : Nat} (h : k ≤ off) :
    (overwrite c q off).take k = c.take k ++ List.replicate (k - c.length) 0 := by
  have hl : (c.take off ++ List.replicate (off - c.length) 0).length = off := by
    simp only [List.length_append, List.length_take, List.length_replicate]; omega
  rw [overwrite, List.append_assoc, List.take_append_of_le_length (by rw [hl]; exact h),
    List.take_append_eq_append_take, List.take_take, List.take_replicate, List.length_take,
    Nat.min_eq_left h]
  rcases Nat.le_total c.length off with hc | hc
  · rw [Nat.min_eq_right hc, Nat.min_eq_left (Nat.sub_le_sub_right h _)]
  · -- `c` reaches past `off`: no gap
    rw [Nat.min_eq_left hc, Nat.sub_eq_zero_of_le h, Nat.zero_min,
      Nat.sub_eq_zero_of_le (Nat.le_trans h hc)]

theorem take_prefix_overwrite (c q : Bytes) {k off : Nat} (h : k ≤ off) :
    c.take k <+: overwrite c q off :=
  ⟨_, by rw [← List.take_append_drop k (overwrite c q off), take_overwrite_of_le c q h,
    List.append_assoc]⟩

theorem take_overwrite_self (c q : Bytes) {off : Nat} (h : off ≤ c.length) :
    (overwrite c q off).take (off + q.length) = c.take off ++ q := by
  rw [overwrite, List.take_left' (by
    simp only [List.length_append, List.length_take, List.length_replicate]; omega),
    show off - c.length = 0 by omega, List.replicate_zero, List.append_nil]

theorem drop_overwrite (c q : Bytes) (off : Nat) :
    (overwrite c q off).drop off = q ++ c.drop (off + q.length) := by
  rw [overwrite, List.append_assoc, List.drop_left' (by
    simp only [List.length_append, List.length_take, List.length_replicate]; omega)]

theorem drop_overwrite_add (c q : Bytes) (b x : Nat) :
    (overwrite c q (b + x)).drop b = overwrite (c.drop b) q x := by
  simp only [overwrite, List.append_assoc]
  by_cases h : b ≤ c.length
  · rw [List.drop_append_of_le_length (by simp only [List.length_take]; omega), List.drop_take,
      List.drop_drop, List.length_drop, Nat.add_sub_cancel_left, Nat.add_assoc]
    congr 3; omega
  · -- `c` ends before `b`: from `b` on there is the gap, then `q`
    rw [List.take_of_length_le (show c.length ≤ b + x by omega),
      List.drop_of_length_le (show c.length ≤ b by omega),
      List.drop_of_length_le (show c.length ≤ b + x + q.length by omega),
      List.drop_append_eq_append_drop, List.drop_of_length_le (show c.length ≤ b by omega),
      show b + x - c.length = (b - c.length) + x by omega, ← List.append_replicate_replicate,
      List.append_assoc, List.drop_left' (List.length_replicate _ _)]
    simp

/-! ## The store -/

section Store

variable {ω : Type} {content : ω → Bytes}

/-- `wa` writes into the bytes `content w` as `WriteAt` of a file does. -/
def WriteAtFn.Stores (wa : WriteAtFn ω) (content : ω → Bytes) : Prop :=
  ∀ w q off, 0 ≤ off → (wa w q off).n = q.length ∧ (wa w q off).err = none ∧
    content (wa w q off).w = overwrite (content w) q off.toNat

/-- `ra` answers as `ReadAt` of a `bytes.Reader` over the bytes `content w`, and keeps them. -/
def ReadAtFn.Serves (ra : ReadAtFn ω) (content : ω → Bytes) : Prop :=
  ∀ w p off, content (ra w p off).w = content w ∧ (ra w p off).p = (sliceReaderAt (content w) p off).p ∧
    (ra w p off).n = (sliceReaderAt (content w) p off).n ∧
    (ra w p off).err = (sliceReaderAt (content w) p off).err

end Store

/-- `WriteAt` of a file over the bytes of a slice. -/
def sliceWriterAt : WriteAtFn Bytes := fun s q off =>
  if off < 0 then ⟨s, 0, some (.other 0)⟩ else ⟨overwrite s q off.toNat, q.length, none⟩

theorem sliceWriterAt_stores : sliceWriterAt.Stores id := fun s q off h => by
  simp [sliceWriterAt, if_neg (show ¬off < 0 by omega)]

theorem sliceReaderAt_serves : sliceReaderAt.Serves id := fun s p off =>
  ⟨by unfold sliceReaderAt; split <;> (try split) <;> rfl, rfl, rfl, rfl⟩

/-! ## What an offset writer stands for -/

/-- A file of its own: its bytes, and a cursor. -/
structure LocalFile where
  data : Bytes
  pos : Nat
  deriving DecidableEq, Repr

/-- The offset a `Seek` counts from: the start, or the cursor; there is no `SeekEnd`. -/
def LocalFile.whenceRef (f : LocalFile) (whence : Int) : Option Int :=
  if whence = seekStart then some 0 else if whence = seekCurrent then some f.pos else none

/-- `Seek` on a file whose offsets go up to `lim`: a target outside `[0, lim]` is refused. -/
def LocalFile.seek (lim : Int) (f : LocalFile) (offset whence : Int) :
    LocalFile × Int × Option Error :=
  match f.whenceRef whence with
  | none => (f, 0, some .errWhence)
  | some r =>
    if 0 ≤ offset + r ∧ offset + r ≤ lim then (⟨f.data, (offset + r).toNat⟩, offset + r, none)
    else (f, 0, some .errOffset)

/-- A call on a file whose offsets go up to `lim`, with its answer. -/
def LocalFile.call (lim : Int) (f : LocalFile) : OffsetOp → LocalFile × Int × Option Error
  | .write p => (⟨overwrite f.data p f.pos, f.pos + p.length⟩, p.length, none)
  | .writeAt p x => (⟨overwrite f.data p x.toNat, f.pos⟩, p.length, none)
  | .seek offset whence => f.seek lim offset whence

/-- Calls one after another on a local file, with their answers. -/
def LocalFile.run (lim : Int) : LocalFile → List OffsetOp → LocalFile × List (Int × Option Error)
  | f, [] => (f, [])
  | f, op :: ops => ((LocalFile.run lim (f.call lim op).1 ops).1,
      (f.call lim op).2 :: (LocalFile.run lim (f.call lim op).1 ops).2)

/-- A call whose offsets stay in `[0, lim]`, its `Seek` offset an `int64`. -/
def LocalFile.Fits (lim : Int) (f : LocalFile) : OffsetOp → Prop
  | .write p => f.pos + p.length ≤ lim
  | .writeAt _ x => 0 ≤ x ∧ x ≤ lim
  | .seek offset _ => IsInt64 offset

instance LocalFile.decFits (lim : Int) (f : LocalFile) : (op : OffsetOp) → Decidable (f.Fits lim op)
  | .write _ => inferInstanceAs (Decidable (_ ≤ _))
  | .writeAt _ _ => inferInstanceAs (Decidable (_ ∧ _))
  | .seek _ _ => inferInstanceAs (Decidable (IsInt64 _))

def LocalFile.FitsAll (lim : Int) : LocalFile → List OffsetOp → Prop
  | _, [] => True
  | f, op :: ops => f.Fits lim op ∧ LocalFile.FitsAll lim (f.call lim op).1 ops

instance LocalFile.decFitsAll (lim : Int) :
    (f : LocalFile) → (ops : List OffsetOp) → Decidable (LocalFile.FitsAll lim f ops)
  | _, [] => inferInstanceAs (Decidable True)
  | f, op :: ops =>
    @instDecidableAnd _ _ (LocalFile.decFits lim f op) (LocalFile.decFitsAll lim _ ops)

theorem LocalFile.run_writes (lim : Int) (qs : List Bytes) (f : LocalFile)
    (hf : f.pos ≤ f.data.length) :
    (LocalFile.run lim f (qs.map .write)).2 = qs.map (fun q => ((q.length : Int), none)) ∧
    (f.pos + qs.flatten.length ≤ lim → LocalFile.FitsAll lim f (qs.map .write)) ∧
    (LocalFile.run lim f (qs.map .write)).1.data.take (f.pos + qs.flatten.length) =
      f.data.take f.pos ++ qs.flatten := by
  induction qs generalizing f with
  | nil => simp [LocalFile.run, LocalFile.FitsAll]
  | cons q qs ih =>
    have hf1 : f.pos + q.length ≤ (overwrite f.data q f.pos).length := by
      rw [length_overwrite]; omega
    obtain ⟨hans, hfit, hdata⟩ := ih ⟨overwrite f.data q f.pos, f.pos + q.length⟩ hf1
    simp only [List.flatten_cons, List.length_append, List.map_cons] at hdata ⊢
    refine ⟨by simp only [LocalFile.run, LocalFile.call, hans], fun h => ⟨?_, hfit ?_⟩, ?_⟩
    · show (f.pos : Int) + q.length ≤ lim; push_cast at h; omega
    · push_cast at h ⊢; omega
    · rw [← Nat.add_assoc]
      exact hdata.trans (by rw [take_overwrite_self _ _ hf, List.append_assoc])

/-! ## Offset writers refine local files -/

section Refines

variable {ω : Type} {content : ω → Bytes} {wa : WriteAtFn ω} {base : Int}

/-- What a call on an offset writer returns. -/
def OffsetWriter.answer (wa : WriteAtFn ω) (w : ω × OffsetWriter) : OffsetOp → Int × Option Error
  | .write p => ((OffsetWriter.write wa w p).n, (OffsetWriter.write wa w p).err)
  | .writeAt p off => ((OffsetWriter.writeAt wa w p off).n, (OffsetWriter.writeAt wa w p off).err)
  | .seek offset whence => (w.2.seek offset whence).2

/-- Calls one after another on an offset writer, with their answers. -/
def OffsetWriter.run (wa : WriteAtFn ω) :
    ω × OffsetWriter → List OffsetOp → (ω × OffsetWriter) × List (Int × Option Error)
  | w, [] => (w, [])
  | w, op :: ops => ((OffsetWriter.run wa (OffsetWriter.call wa w op) ops).1,
      OffsetWriter.answer wa w op :: (OffsetWriter.run wa (OffsetWriter.call wa w op) ops).2)

/-- `o` over a store holding `c` stands for the local file `f`, its cursor `base + pos`. -/
def OffsetWriter.Stands (base : Int) (c : Bytes) (o : OffsetWriter) (f : LocalFile) : Prop :=
  o = ⟨base, base + f.pos⟩ ∧ base + f.pos ≤ maxInt64 ∧ c.drop base.toNat = f.data

theorem OffsetWriter.seek_local (hb0 : 0 ≤ base) (f : LocalFile) (hle : base + f.pos ≤ maxInt64)
    {offset : Int} (ho : IsInt64 offset) (whence : Int) :
    ((⟨base, base + f.pos⟩ : OffsetWriter).seek offset whence).1 =
        ⟨base, base + (f.seek (maxInt64 - base) offset whence).1.pos⟩ ∧
      ((⟨base, base + f.pos⟩ : OffsetWriter).seek offset whence).2 =
        (f.seek (maxInt64 - base) offset whence).2 ∧
      (f.seek (maxInt64 - base) offset whence).1.data = f.data ∧
      base + (f.seek (maxInt64 - base) offset whence).1.pos ≤ maxInt64 := by
  have href : (⟨base, base + f.pos⟩ : OffsetWriter).whenceRef whence =
      (f.whenceRef whence).map (base + ·) := by
    unfold OffsetWriter.whenceRef LocalFile.whenceRef
    split_ifs <;> simp
  rw [OffsetWriter.seek, seekOff_eq_spec hb0 (fun x hx => ?_) ho, href]
  · unfold LocalFile.seek
    cases f.whenceRef whence with
    | none => exact ⟨rfl, rfl, rfl, hle⟩
    | some r =>
      simp only [Option.map_some', SeekSpec, OffsetWriter.applySeek]
      by_cases hacc : 0 ≤ offset + r ∧ offset + r ≤ maxInt64 - base
      · rw [if_pos ⟨by omega, by omega⟩, if_pos hacc]
        exact ⟨by simp only [Option.getD_some]; congr 1; omega,
          by rw [show offset + (base + r) - base = offset + r by omega], rfl, by dsimp only; omega⟩
      · rw [if_neg (by omega), if_neg hacc]
        exact ⟨rfl, rfl, rfl, hle⟩
  · rcases OffsetWriter.whenceRef_cases hx with rfl | rfl <;> (try dsimp only) <;> omega

/-- One call that fits is the same call on the local file; the bytes before `base` stay. -/
theorem OffsetWriter.call_stands (hwa : wa.Stores content) (hb0 : 0 ≤ base) {w : ω × OffsetWriter}
    {f : LocalFile} (h : OffsetWriter.Stands base (content w.1) w.2 f) {op : OffsetOp}
    (hop : f.Fits (maxInt64 - base) op) :
    OffsetWriter.Stands base (content (OffsetWriter.call wa w op).1) (OffsetWriter.call wa w op).2
        (f.call (maxInt64 - base) op).1 ∧
      OffsetWriter.answer wa w op = (f.call (maxInt64 - base) op).2 ∧
      (content w.1).take base.toNat <+: content (OffsetWriter.call wa w op).1 := by
  rcases w with ⟨v, o⟩
  obtain ⟨rfl, hle, hdata⟩ := h
  cases op with
  | write p =>
    have hp : f.pos + p.length ≤ maxInt64 - base := hop
    obtain ⟨hn, herr, hc⟩ := hwa v p (base + f.pos) (by omega)
    have hoff : toInt64 (base + f.pos + (wa v p (base + f.pos)).n) = base + (f.pos + p.length : Nat) := by
      rw [hn, toInt64_of_isInt64 ⟨by omega, by unfold maxInt64 at hp; omega⟩]; push_cast; omega
    have hat : (base + f.pos).toNat = base.toNat + f.pos := by omega
    refine ⟨⟨?_, ?_, ?_⟩, ?_, ?_⟩
    · simp only [OffsetWriter.call_write, hoff]; rfl
    · show base + (f.pos + p.length : Nat) ≤ maxInt64; push_cast; omega
    · simp only [OffsetWriter.call_write, hc, hat, drop_overwrite_add, hdata]; rfl
    · simp only [OffsetWriter.answer, OffsetWriter.write, hn, herr]; rfl
    · simp only [OffsetWriter.call_write, hc, hat]; exact take_prefix_overwrite _ _ (by omega)
  | writeAt p x =>
    obtain ⟨hx0, hx⟩ : 0 ≤ x ∧ x ≤ maxInt64 - base := hop
    have hat : toInt64 (x + base) = base + x := by
      rw [toInt64_of_isInt64 ⟨by omega, by unfold maxInt64 at hx; omega⟩]; omega
    obtain ⟨hn, herr, hc⟩ := hwa v p (base + x) (by omega)
    have hx' : (base + x).toNat = base.toNat + x.toNat := by omega
    refine ⟨⟨rfl, hle, ?_⟩, ?_, ?_⟩
    · simp only [OffsetWriter.call_writeAt, hat, hc, hx', drop_overwrite_add, hdata]; rfl
    · simp only [OffsetWriter.answer, OffsetWriter.writeAt, hat, hn, herr]; rfl
    · simp only [OffsetWriter.call_writeAt, hat, hc, hx']; exact take_prefix_overwrite _ _ (by omega)
  | seek offset whence =>
    obtain ⟨h1, h2, h3, h4⟩ := OffsetWriter.seek_local hb0 f hle (hop : IsInt64 offset) whence
    exact ⟨⟨h1, h4, hdata.trans h3.symm⟩, h2, List.take_prefix _ _⟩

theorem OffsetWriter.stands_new (c : Bytes) (hb : IsInt64 base) :
    OffsetWriter.Stands base c (newOffsetWriter base) ⟨c.drop base.toNat, 0⟩ :=
  ⟨by simp [newOffsetWriter], by simpa using hb.2, rfl⟩

theorem OffsetWriter.run_stands (hwa : wa.Stores content) (hb0 : 0 ≤ base) {w : ω × OffsetWriter}
    {f : LocalFile} (h : OffsetWriter.Stands base (content w.1) w.2 f) {ops : List OffsetOp}
    (hops : LocalFile.FitsAll (maxInt64 - base) f ops) :
    OffsetWriter.Stands base (content (OffsetWriter.run wa w ops).1.1) (OffsetWriter.run wa w ops).1.2
        (LocalFile.run (maxInt64 - base) f ops).1 ∧
      (OffsetWriter.run wa w ops).2 = (LocalFile.run (maxInt64 - base) f ops).2 ∧
      (content w.1).take base.toNat <+: content (OffsetWriter.run wa w ops).1.1 := by
  induction ops generalizing w f with
  | nil => exact ⟨h, rfl, List.take_prefix _ _⟩
  | cons op ops ih =>
    obtain ⟨hs, ha, hpre⟩ := OffsetWriter.call_stands hwa hb0 h hops.1
    obtain ⟨hs', ha', hpre'⟩ := ih hs hops.2
    exact ⟨hs', by simp only [OffsetWriter.run, LocalFile.run, ha, ha'],
      (List.prefix_take_iff.2 ⟨hpre, List.length_take_le _ _⟩).trans hpre'⟩

end Refines

/-- `NewOffsetWriter(w, base)` over a store that acts as a file: every run whose offsets stay in
`[0, maxint64 - base]` is the same run on the local file of the bytes from `base` on, call for
call, and the bytes before `base` stay. -/
theorem offsetWriter_refines {ω : Type} (wa : WriteAtFn ω) (content : ω → Bytes)
    (hwa : wa.Stores content) (base : Int) (hb : IsInt64 base) (hb0 : 0 ≤ base) (w₀ : ω)
    (ops : List OffsetOp)
    (hops : LocalFile.FitsAll (maxInt64 - base) ⟨(content w₀).drop base.toNat, 0⟩ ops) :
    let r := OffsetWriter.run wa (w₀, newOffsetWriter base) ops
    let f := LocalFile.run (maxInt64 - base) ⟨(content w₀).drop base.toNat, 0⟩ ops
    r.2 = f.2 ∧ (content r.1.1).drop base.toNat = f.1.data ∧ r.1.2 = ⟨base, base + f.1.pos⟩ ∧
      (content w₀).take base.toNat <+: content r.1.1 := by
  obtain ⟨⟨h1, -, h3⟩, h2, h4⟩ := OffsetWriter.run_stands hwa hb0
    (w := (w₀, newOffsetWriter base)) (OffsetWriter.stands_new _ hb) hops
  exact ⟨h2, h3, h1, h4⟩

theorem offsetWriter_refines_slice :
    let r := OffsetWriter.run sliceWriterAt ([1, 2, 3], newOffsetWriter 1)
      [.write [7, 8], .seek 0 seekStart, .writeAt [9] 3]
    let f := LocalFile.run (maxInt64 - 1) ⟨([1, 2, 3] : Bytes).drop (1 : Int).toNat, 0⟩
      [.write [7, 8], .seek 0 seekStart, .writeAt [9] 3]
    r.2 = f.2 ∧ (r.1.1 : Bytes).drop (1 : Int).toNat = f.1.data ∧ r.1.2 = ⟨1, 1 + f.1.pos⟩ ∧
      ([1, 2, 3] : Bytes).take (1 : Int).toNat <+: r.1.1 :=
  offsetWriter_refines sliceWriterAt id sliceWriterAt_stores 1 (by decide) (by decide) [1, 2, 3]
    [.write [7, 8], .seek 0 seekStart, .writeAt [9] 3] (by decide)

/-! ## Section readers read the local file -/

theorem drop_take_append_drop (p : Bytes) {k m : Nat} (h : k ≤ (p.take m).length) :
    (p.take m).drop k ++ p.drop (p.take m).length = p.drop k := by
  conv_rhs => rw [← List.take_append_drop m p]
  rw [List.drop_append_of_le_length h, List.length_take]
  by_cases hm : m ≤ p.length
  · rw [Nat.min_eq_left hm]
  · rw [Nat.min_eq_right (by omega), List.drop_length, List.drop_of_length_le (show p.length ≤ m by omega)]

theorem sliceReaderAt_window (c p : Bytes) (b S x : Nat) (hx : x < S) :
    (sliceReaderAt ((c.drop b).take S) p x).p =
        (sliceReaderAt c (p.take (S - x)) (b + x : Nat)).p ++ p.drop (p.take (S - x)).length ∧
      (sliceReaderAt ((c.drop b).take S) p x).n = (sliceReaderAt c (p.take (S - x)) (b + x : Nat)).n ∧
      (sliceReaderAt ((c.drop b).take S) p x).err =
        if ((S - x : Nat) : Int) < p.length ∧ (sliceReaderAt c (p.take (S - x)) (b + x : Nat)).err = none
        then some .eof else (sliceReaderAt c (p.take (S - x)) (b + x : Nat)).err := by
  have hW : ((c.drop b).take S).length = min (c.length - b) S := by
    rw [List.length_take, List.length_drop, Nat.min_comm]
  by_cases hc : c.length ≤ b + x
  · -- past the end of `c`: both answer `EOF` with nothing read
    simp only [sliceReaderAt, if_neg (show ¬((x : Nat) : Int) < 0 by omega),
      if_neg (show ¬((b + x : Nat) : Int) < 0 by omega),
      if_pos (show (((c.drop b).take S).length : Int) ≤ (x : Nat) by omega),
      if_pos (show (c.length : Int) ≤ (b + x : Nat) by omega), and_false, if_false]
    simpa using (drop_take_append_drop p (Nat.zero_le _)).symm
  · -- `d`, the bytes of `c` from `b + x` that fit, is the same on both sides
    have hd : (((c.drop b).take S).drop x).take p.length =
        (c.drop (b + x)).take (p.take (S - x)).length := by
      rw [List.drop_take, List.drop_drop, List.take_take, List.length_take, Nat.min_comm]
    simp only [sliceReaderAt, if_neg (show ¬((x : Nat) : Int) < 0 by omega),
      if_neg (show ¬((b + x : Nat) : Int) < 0 by omega),
      if_neg (show ¬(((c.drop b).take S).length : Int) ≤ (x : Nat) by omega),
      if_neg (show ¬(c.length : Int) ≤ (b + x : Nat) by omega), Int.toNat_ofNat, hd]
    have hdl : (List.take (p.take (S - x)).length (List.drop (b + x) c)).length ≤
        (p.take (S - x)).length := List.length_take_le _ _
    obtain ⟨d, hdd⟩ : ∃ d, List.take (p.take (S - x)).length (List.drop (b + x) c) = d := ⟨_, rfl⟩
    simp only [hdd] at hdl ⊢
    have hq := List.length_take (S - x) p
    refine ⟨by rw [List.append_assoc, drop_take_append_drop p hdl], trivial, ?_⟩
    split_ifs <;> first | rfl | omega | (simp only [and_true] at *; omega)

theorem sliceReaderAt_past (s p : Bytes) {off : Int} (h0 : 0 ≤ off) (h : s.length ≤ off) :
    sliceReaderAt s p off = ⟨s, p, 0, some .eof⟩ := by
  simp only [sliceReaderAt]; rw [if_neg (by omega), if_pos h]

theorem sliceReaderAt_fill (s p : Bytes) (hp : p ≠ []) (h : p.length ≤ s.length) :
    sliceReaderAt s p 0 = ⟨s, s.take p.length, p.length, none⟩ := by
  have hl : (s.take p.length).length = p.length := by rw [List.length_take]; omega
  have hp0 : 0 < p.length := List.length_pos.2 hp
  simp only [sliceReaderAt, if_neg (show ¬(0 : Int) < 0 by omega),
    if_neg (show ¬(s.length : Int) ≤ 0 by omega), Int.toNat_zero, List.drop_zero, hl,
    List.drop_length, List.append_nil, Nat.lt_irrefl, if_false]

/-- `c[off:off+m]`, cut after its first `k` bytes. -/
theorem take_drop_split (c : Bytes) (off : Nat) {k m : Nat} (h : k ≤ m) :
    (c.drop off).take m = (c.drop off).take k ++ (c.drop (off + k)).take (m - k) := by
  rw [← List.drop_drop, ← List.take_add, Nat.add_sub_cancel' h]

theorem sliceReaderAt_delivers (c q : Bytes) (off m : Nat) (hq : q.length ≤ m) :
    (c.drop off).take m = (sliceReaderAt c q off).data ++
        (c.drop (off + (sliceReaderAt c q off).n.toNat)).take (m - (sliceReaderAt c q off).n.toNat) ∧
    ((sliceReaderAt c q off).err ≠ none → (sliceReaderAt c q off).err = some .eof ∧
        (c.drop (off + (sliceReaderAt c q off).n.toNat)).take (m - (sliceReaderAt c q off).n.toNat) = []) ∧
    (q ≠ [] → 0 < (sliceReaderAt c q off).n ∨ (sliceReaderAt c q off).err ≠ none) := by
  by_cases hc : c.length ≤ off
  · -- nothing left: `EOF` with nothing
    rw [sliceReaderAt_past c q (Int.ofNat_nonneg off) (by omega)]
    simp [ReadOut.data, List.drop_of_length_le hc]
  · -- `d`, what is left of `c` up to `len(q)`, is a prefix of `c[off:]`
    have hd : ((c.drop off).take q.length).length = min q.length (c.length - off) := by
      rw [List.length_take, List.length_drop]
    have hpre : (c.drop off).take ((c.drop off).take q.length).length = (c.drop off).take q.length :=
      (List.prefix_iff_eq_take.1 (List.take_prefix _ _)).symm
    simp only [sliceReaderAt, if_neg (show ¬((off : Nat) : Int) < 0 by omega),
      if_neg (show ¬(c.length : Int) ≤ (off : Nat) by omega), Int.toNat_ofNat, ReadOut.data]
    rw [List.take_left' rfl]
    refine ⟨by rw [take_drop_split c off (k := ((c.drop off).take q.length).length) (by omega), hpre],
      fun h => ?_, fun hq0 => ?_⟩
    · -- `EOF`: what was left of `c` did not fill `q`
      have hlt : ((c.drop off).take q.length).length < q.length :=
        Decidable.by_contra fun hge => h (if_neg hge)
      refine ⟨if_pos hlt, ?_⟩
      rw [List.drop_of_length_le (show c.length ≤ off + ((c.drop off).take q.length).length by
        rw [hd] at hlt ⊢; omega), List.take_nil]
    · left; rw [hd]; have := List.length_pos.2 hq0; omega

theorem window_drop (c : Bytes) (b S x : Nat) :
    ((c.drop b).take S).drop x = (c.drop (b + x)).take (S - x) := by
  rw [List.drop_take, List.drop_drop]

/-- `Read` called with each buffer of `ps` in turn, or the first panic. -/
def SectionReader.readEach {ω : Type} (ra : ReadAtFn ω) :
    ω × SectionReader → List Bytes → Except String ((ω × SectionReader) × Bytes)
  | w, [] => .ok (w, [])
  | w, p :: ps => (SectionReader.read ra w p).bind fun o =>
      (SectionReader.readEach ra o.w ps).map fun r => (r.1, o.data ++ r.2)

section Reads

variable {ω : Type} {content : ω → Bytes} {ra : ReadAtFn ω}

theorem ReadAtFn.Serves.obeys (hra : ra.Serves content) : ra.Obeys := fun w p off => by
  obtain ⟨-, hp, hn, -⟩ := hra w p off
  rw [hp, hn]; exact sliceReaderAt_obeys (content w) p off

theorem ReadAtFn.Serves.delivers (hra : ra.Serves content) (w : ω) (q : Bytes) {off : Int}
    (h0 : 0 ≤ off) {m : Nat} (hq : q.length ≤ m) :
    ((content w).drop off.toNat).take m = (ra w q off).data ++
        ((content w).drop (off.toNat + (ra w q off).n.toNat)).take (m - (ra w q off).n.toNat) ∧
    ((ra w q off).err ≠ none → (ra w q off).err = some .eof ∧
        ((content w).drop (off.toNat + (ra w q off).n.toNat)).take (m - (ra w q off).n.toNat) = []) ∧
    (q ≠ [] → 0 < (ra w q off).n ∨ (ra w q off).err ≠ none) := by
  obtain ⟨-, hp, hn, herr⟩ := hra w q off
  have hd := sliceReaderAt_delivers (content w) q off.toNat m hq
  rw [Int.toNat_of_nonneg h0] at hd
  simpa only [ReadOut.data, hp, hn, herr] using hd

theorem SectionReader.call_content (hra : ra.Serves content) {w w' : ω × SectionReader}
    {op : SectionOp} (h : SectionReader.call ra w op = .ok w') : content w'.1 = content w.1 := by
  rcases SectionReader.call_cases h with rfl | ⟨-, -, q, -, rfl⟩ | ⟨x, -, -, -, q, -, rfl⟩ | ⟨t, -, rfl⟩
  · rfl
  · exact (hra _ _ _).1
  · exact (hra _ _ _).1
  · rfl

theorem SectionReader.reaches_content (hra : ra.Serves content) {a b : ω × SectionReader}
    (h : SectionReader.Reaches ra a b) : content b.1 = content a.1 := by
  induction h with
  | refl => rfl
  | tail _ hstep ih =>
    obtain ⟨op, hop⟩ := hstep
    exact (SectionReader.call_content hra hop).trans ih

theorem SectionReader.readAt_serves (hra : ra.Serves content) {w : ω × SectionReader}
    (hb0 : 0 ≤ w.2.base) (hbl : w.2.base ≤ w.2.limit) (hl : w.2.limit ≤ maxInt64) (p : Bytes)
    {x : Int} (hx : 0 ≤ x) :
    ∃ o, SectionReader.readAt ra w p x = .ok o ∧ o.w.2 = w.2 ∧ content o.w.1 = content w.1 ∧
      let v := sliceReaderAt (((content w.1).drop w.2.base.toNat).take (w.2.limit - w.2.base).toNat) p x
      o.p = v.p ∧ o.n = v.n ∧ o.err = v.err := by
  unfold maxInt64 at hl
  have hS : toInt64 (w.2.limit - w.2.base) = w.2.limit - w.2.base :=
    toInt64_of_isInt64 ⟨by omega, by omega⟩
  by_cases hxs : w.2.limit - w.2.base ≤ x
  · -- at or past the window's end: `EOF`, with nothing read
    refine ⟨_, SectionReader.readAt_past ra w p (.inr (by rw [hS]; exact hxs)), rfl, rfl, ?_⟩
    rw [sliceReaderAt_past _ _ hx (by rw [List.length_take]; omega)]
    exact ⟨rfl, rfl, rfl⟩
  · -- one `ReadAt` at `base + x`, cut at `limit`
    have ha : toInt64 (x + w.2.base) = ((w.2.base.toNat + x.toNat : Nat) : Int) := by
      rw [toInt64_of_isInt64 ⟨by omega, by omega⟩]; push_cast; omega
    have hm : toInt64 (w.2.limit - ((w.2.base.toNat + x.toNat : Nat) : Int)) =
        (((w.2.limit - w.2.base).toNat - x.toNat : Nat) : Int) := by
      rw [toInt64_of_isInt64 ⟨by push_cast; omega, by push_cast; omega⟩]; push_cast; omega
    obtain ⟨o, ho⟩ := SectionReader.readAt_ok ra w p x fun _ _ => by rw [ha, hm]; omega
    rcases SectionReader.readAt_cases ho with ⟨h, -⟩ | ⟨-, -, -, rfl⟩
    · omega
    · refine ⟨_, ho, rfl, ?_⟩
      dsimp only
      rw [ha, hm, Int.toNat_ofNat]
      obtain ⟨hc, hp, hn, herr⟩ := hra w.1 (p.take ((w.2.limit - w.2.base).toNat - x.toNat))
        ((w.2.base.toNat + x.toNat : Nat) : Int)
      obtain ⟨wp, wn, werr⟩ := sliceReaderAt_window (content w.1) p w.2.base.toNat
        (w.2.limit - w.2.base).toNat x.toNat (by omega)
      rw [Int.toNat_of_nonneg hx] at wp wn werr
      exact ⟨hc, by rw [hp, wp], by rw [hn, wn], by rw [herr, werr]⟩

/-- `Read(p)` on a section over a store: it hands back the next `n` bytes of the window `W[x:]`. -/
theorem SectionReader.read_serves (hra : ra.Serves content) {w : ω × SectionReader}
    (hb0 : 0 ≤ w.2.base) (hbo : w.2.base ≤ w.2.off) (hbl : w.2.base ≤ w.2.limit)
    (hl : w.2.limit ≤ maxInt64) (hom : w.2.off ≤ maxInt64) (p : Bytes) :
    ∃ o, SectionReader.read ra w p = .ok o ∧ content o.w.1 = content w.1 ∧
      o.w.2 = { w.2 with off := w.2.off + o.n } ∧ 0 ≤ o.n ∧ w.2.off + o.n ≤ max w.2.off w.2.limit ∧
      o.data.length = o.n.toNat ∧
      let W := ((content w.1).drop w.2.base.toNat).take (w.2.limit - w.2.base).toNat
      let x := (w.2.off - w.2.base).toNat
      W.drop x = o.data ++ W.drop (x + o.n.toNat) ∧
      (o.err ≠ none → o.err = some .eof ∧ W.drop (x + o.n.toNat) = []) ∧
      (p ≠ [] → 0 < o.n ∨ o.err ≠ none) := by
  unfold maxInt64 at hl hom
  by_cases hlo : w.2.limit ≤ w.2.off
  · -- at or past `limit`: `EOF` with nothing
    have hW : (((content w.1).drop w.2.base.toNat).take (w.2.limit - w.2.base).toNat).drop
        (w.2.off - w.2.base).toNat = [] := List.drop_of_length_le (by rw [List.length_take]; omega)
    refine ⟨⟨w, p, 0, some .eof⟩, by rw [SectionReader.read, if_pos hlo], rfl,
      by rw [Int.add_zero], Int.le_refl 0, show w.2.off + 0 ≤ max w.2.off w.2.limit by omega, rfl, ?_⟩
    simp [ReadOut.data, hW]
  · -- one `ReadAt` at the cursor, for `p` cut at `limit`
    have hm : toInt64 (w.2.limit - w.2.off) = w.2.limit - w.2.off :=
      toInt64_of_isInt64 ⟨by omega, by omega⟩
    rw [SectionReader.read_within ra p (by omega) (by omega)]
    dsimp only
    rw [hm]
    obtain ⟨hsplit, heof, hprog⟩ := hra.delivers w.1 (p.take (w.2.limit - w.2.off).toNat)
      (show 0 ≤ w.2.off by omega) (List.length_take_le _ _)
    obtain ⟨hc, -⟩ := hra w.1 (p.take (w.2.limit - w.2.off).toNat) w.2.off
    obtain ⟨hpl, hn0, hnq⟩ := hra.obeys w.1 (p.take (w.2.limit - w.2.off).toNat) w.2.off
    have hql := List.length_take_le (w.2.limit - w.2.off).toNat p
    generalize ra w.1 (p.take (w.2.limit - w.2.off).toNat) w.2.off = a at *
    have hW : ∀ k, (((content w.1).drop w.2.base.toNat).take (w.2.limit - w.2.base).toNat).drop
        ((w.2.off - w.2.base).toNat + k) = ((content w.1).drop (w.2.off.toNat + k)).take
          ((w.2.limit - w.2.off).toNat - k) := fun k => by
      rw [window_drop, show w.2.base.toNat + ((w.2.off - w.2.base).toNat + k) = w.2.off.toNat + k by
        omega, show (w.2.limit - w.2.base).toNat - ((w.2.off - w.2.base).toNat + k) =
          (w.2.limit - w.2.off).toNat - k by omega]
    have hW0 := hW 0
    simp only [Nat.add_zero, Nat.sub_zero] at hW0
    have hoff : toInt64 (w.2.off + a.n) = w.2.off + a.n := toInt64_of_isInt64 ⟨by omega, by omega⟩
    have hdata : (a.p ++ p.drop (p.take (w.2.limit - w.2.off).toNat).length).take a.n.toNat =
        a.p.take a.n.toNat := List.take_append_of_le_length (by omega)
    refine ⟨_, rfl, hc, by rw [hoff], hn0, show w.2.off + a.n ≤ _ by omega, ?_, ?_⟩
    · show ((a.p ++ _).take a.n.toNat).length = _
      rw [List.length_take]; simp only [List.length_append]; omega
    · dsimp only [ReadOut.data]
      rw [hdata, hW0, hW]
      exact ⟨hsplit, heof, fun hp0 => hprog (by
        rw [← List.length_pos, List.length_take]; have := List.length_pos.2 hp0; omega)⟩

theorem SectionReader.readEach_serves (hra : ra.Serves content) (ps : List Bytes)
    {w : ω × SectionReader} (hb0 : 0 ≤ w.2.base) (hbo : w.2.base ≤ w.2.off)
    (hbl : w.2.base ≤ w.2.limit) (hl : w.2.limit ≤ maxInt64) (hom : w.2.off ≤ maxInt64) :
    ∃ w' b, SectionReader.readEach ra w ps = .ok (w', b) ∧ content w'.1 = content w.1 ∧
      w'.2 = { w.2 with off := w.2.off + b.length } ∧
      let W := ((content w.1).drop w.2.base.toNat).take (w.2.limit - w.2.base).toNat
      W.drop (w.2.off - w.2.base).toNat = b ++ W.drop ((w.2.off - w.2.base).toNat + b.length) := by
  induction ps generalizing w with
  | nil => exact ⟨w, [], rfl, rfl, by simp, by simp⟩
  | cons p ps ih =>
    obtain ⟨o, ho, hc, hw2, hn0, hmax, hdl, hsplit, -, -⟩ := SectionReader.read_serves hra hb0 hbo hbl hl
      hom p
    have hbase : o.w.2.base = w.2.base := by rw [hw2]
    have hlim : o.w.2.limit = w.2.limit := by rw [hw2]
    have hoff : o.w.2.off = w.2.off + o.n := by rw [hw2]
    obtain ⟨w', b, hb, hc', hw', hsplit'⟩ := ih (w := o.w) (by omega) (by omega) (by omega)
      (by omega) (by unfold maxInt64 at *; omega)
    refine ⟨w', o.data ++ b, ?_, hc'.trans hc, ?_, ?_⟩
    · rw [SectionReader.readEach, ho]
      show Except.map _ (SectionReader.readEach ra o.w ps) = _
      rw [hb]; rfl
    · rw [hw', List.length_append, hdl]
      dsimp only
      rw [hbase, hlim, hoff]
      congr 1; push_cast; omega
    · dsimp only at hsplit hsplit' ⊢
      rw [hc, hbase, hlim, hoff, show (w.2.off + o.n - w.2.base).toNat =
        (w.2.off - w.2.base).toNat + o.n.toNat by omega] at hsplit'
      rw [hsplit, hsplit', List.length_append, hdl, List.append_assoc, Nat.add_assoc]

end Reads

/-- `NewSectionReader(r, base, n)` over a store, after any calls: `ReadAt(p, x)` at `x ≥ 0`
answers as a `bytes.Reader` over the window `c[base:min(base + n, maxint64)]`. -/
theorem sectionReader_reads_local {ω : Type} (ra : ReadAtFn ω) (content : ω → Bytes)
    (hra : ra.Serves content) (base n : Int) (hb : IsInt64 base) (hb0 : 0 ≤ base) (hn : IsInt64 n)
    (hn0 : 0 ≤ n) (w₀ : ω) (w : ω × SectionReader)
    (hw : SectionReader.Reaches ra (w₀, newSectionReader base n) w) (p : Bytes) (x : Int)
    (hx : 0 ≤ x) :
    content w.1 = content w₀ ∧
    ∃ o, SectionReader.readAt ra w p x = .ok o ∧ o.w.2 = w.2 ∧ content o.w.1 = content w₀ ∧
      let v := sliceReaderAt (((content w₀).drop base.toNat).take (windowEnd base n - base).toNat) p x
      o.p = v.p ∧ o.n = v.n ∧ o.err = v.err := by
  have hc := SectionReader.reaches_content hra hw
  obtain ⟨hbase, hlimit⟩ := SectionReader.reaches_frame hw
  rw [newSectionReader_limit hb hn hn0] at hlimit
  replace hbase : w.2.base = base := hbase
  have hwin : base ≤ windowEnd base n ∧ windowEnd base n ≤ maxInt64 := by
    unfold windowEnd maxInt64 at *; unfold IsInt64 at hb; omega
  obtain ⟨o, ho, h2, h1, hv⟩ := SectionReader.readAt_serves hra (w := w) (by omega) (by omega)
    (by rw [hlimit]; exact hwin.2) p hx
  rw [hc, hbase, hlimit] at hv
  exact ⟨hc, o, ho, h2, h1.trans hc, hv⟩

theorem sectionReader_reads_local_slice :
    ([1, 2, 3, 4] : Bytes) = [1, 2, 3, 4] ∧
    ∃ o, SectionReader.readAt sliceReaderAt ([1, 2, 3, 4], ⟨1, 2, 3⟩) [0, 0] 1 = .ok o ∧
      o.w.2 = ⟨1, 2, 3⟩ ∧ (o.w.1 : Bytes) = [1, 2, 3, 4] ∧
      let v := sliceReaderAt ((([1, 2, 3, 4] : Bytes).drop (1 : Int).toNat).take
        (windowEnd 1 2 - 1).toNat) [0, 0] 1
      o.p = v.p ∧ o.n = v.n ∧ o.err = v.err :=
  sectionReader_reads_local sliceReaderAt id sliceReaderAt_serves 1 2 (by decide) (by decide)
    (by decide) (by decide) [1, 2, 3, 4] ([1, 2, 3, 4], ⟨1, 2, 3⟩)
    (.single ⟨.read [0], by with_unfolding_all rfl⟩) [0, 0] 1 (by decide)

/-- `NewSectionReader(r, base, n)` over a store, after any calls: each `Read` hands back the next
bytes of the window from the cursor, and any sequence of `Read`s hands them back in order. -/
theorem sectionReader_streams {ω : Type} (ra : ReadAtFn ω) (content : ω → Bytes)
    (hra : ra.Serves content) (base n : Int) (hb : IsInt64 base) (hb0 : 0 ≤ base) (hn : IsInt64 n)
    (hn0 : 0 ≤ n) (w₀ : ω) (w : ω × SectionReader)
    (hw : SectionReader.Reaches ra (w₀, newSectionReader base n) w) :
    let W := ((content w₀).drop base.toNat).take (windowEnd base n - base).toNat
    let x := (w.2.off - base).toNat
    (∀ p, ∃ o, SectionReader.read ra w p = .ok o ∧ content o.w.1 = content w₀ ∧
      o.w.2 = { w.2 with off := w.2.off + o.n } ∧ W.drop x = o.data ++ W.drop (x + o.n.toNat) ∧
      (o.err ≠ none → o.err = some .eof ∧ W.drop (x + o.n.toNat) = []) ∧
      (p ≠ [] → 0 < o.n ∨ o.err ≠ none)) ∧
    ∀ ps, ∃ w' b, SectionReader.readEach ra w ps = .ok (w', b) ∧ content w'.1 = content w₀ ∧
      w'.2 = { w.2 with off := w.2.off + b.length } ∧ W.drop x = b ++ W.drop (x + b.length) := by
  have hc := SectionReader.reaches_content hra hw
  obtain ⟨hbase, hlimit, hinv⟩ := SectionReader.reaches_inv hra.obeys hw
  obtain ⟨-, hbo, hoi⟩ := hinv (newSectionReader_inv n hb)
  rw [newSectionReader_limit hb hn hn0] at hlimit
  replace hbase : w.2.base = base := hbase
  have hwin : base ≤ windowEnd base n ∧ windowEnd base n ≤ maxInt64 := by
    unfold windowEnd maxInt64 at *; unfold IsInt64 at hb; omega
  have hom : w.2.off ≤ maxInt64 := hoi.2
  refine ⟨fun p => ?_, fun ps => ?_⟩
  · obtain ⟨o, ho, hc', hw2, -, -, -, hsplit, heof, hprog⟩ := SectionReader.read_serves hra
      (w := w) (by omega) hbo (by omega) (by rw [hlimit]; exact hwin.2) hom p
    rw [hc, hbase, hlimit] at hsplit heof
    exact ⟨o, ho, hc'.trans hc, hw2, hsplit, heof, hprog⟩
  · obtain ⟨w', b, hb', hc', hw', hsplit⟩ := SectionReader.readEach_serves hra ps (w := w)
      (by omega) hbo (by omega) (by rw [hlimit]; exact hwin.2) hom
    rw [hc, hbase, hlimit] at hsplit
    exact ⟨w', b, hb', hc'.trans hc, hw', hsplit⟩

/-- Two `Read`s from the section `[1, 3)` of `[1, 2, 3, 4]` hand back `[2, 3]`. -/
example : (SectionReader.readEach sliceReaderAt ([1, 2, 3, 4], newSectionReader 1 2)
    [[0], [0, 0]]).map (·.2) = .ok [2, 3] := by
  with_unfolding_all rfl

theorem sectionReader_streams_slice :
    let W := (([1, 2, 3, 4] : Bytes).drop (1 : Int).toNat).take (windowEnd 1 2 - 1).toNat
    let x := ((2 : Int) - 1).toNat
    (∀ p, ∃ o, SectionReader.read sliceReaderAt ([1, 2, 3, 4], ⟨1, 2, 3⟩) p = .ok o ∧
      (o.w.1 : Bytes) = [1, 2, 3, 4] ∧ o.w.2 = ⟨1, 2 + o.n, 3⟩ ∧
      W.drop x = o.data ++ W.drop (x + o.n.toNat) ∧
      (o.err ≠ none → o.err = some .eof ∧ W.drop (x + o.n.toNat) = []) ∧
      (p ≠ [] → 0 < o.n ∨ o.err ≠ none)) ∧
    ∀ ps, ∃ w' b, SectionReader.readEach sliceReaderAt ([1, 2, 3, 4], ⟨1, 2, 3⟩) ps = .ok (w', b) ∧
      (w'.1 : Bytes) = [1, 2, 3, 4] ∧ w'.2 = ⟨1, 2 + b.length, 3⟩ ∧
      W.drop x = b ++ W.drop (x + b.length) :=
  sectionReader_streams sliceReaderAt id sliceReaderAt_serves 1 2 (by decide) (by decide)
    (by decide) (by decide) [1, 2, 3, 4] ([1, 2, 3, 4], ⟨1, 2, 3⟩)
    (.single ⟨.read [0], by with_unfolding_all rfl⟩)

/-- Chunks written by `Write` through `NewOffsetWriter(w, base)` read back, in order, through
`ReadAt(p, 0)` of `NewSectionReader(r, base, n)` over the same store. -/
theorem offsetWriter_roundTrip {ω : Type} (wa : WriteAtFn ω) (ra : ReadAtFn ω) (content : ω → Bytes)
    (hwa : wa.Stores content) (hra : ra.Serves content) (base : Int) (hb : IsInt64 base)
    (hb0 : 0 ≤ base) (w₀ : ω) (qs : List Bytes) (hne : qs.flatten ≠ [])
    (hfit : base + qs.flatten.length ≤ maxInt64) (n : Int) (hn : IsInt64 n)
    (hqn : qs.flatten.length ≤ n) (p : Bytes) (hp : p.length = qs.flatten.length) :
    let r := OffsetWriter.run wa (w₀, newOffsetWriter base) (qs.map .write)
    r.2 = qs.map (fun q => ((q.length : Int), none)) ∧
    ∃ o, SectionReader.readAt ra (r.1.1, newSectionReader base n) p 0 = .ok o ∧
      o.p = qs.flatten ∧ o.n = qs.flatten.length ∧ o.err = none := by
  obtain ⟨hans, hfits, hdata⟩ := LocalFile.run_writes (maxInt64 - base) qs
    ⟨(content w₀).drop base.toNat, 0⟩ (Nat.zero_le _)
  obtain ⟨⟨-, -, hview⟩, hr, -⟩ := OffsetWriter.run_stands hwa hb0 (w := (w₀, newOffsetWriter base))
    (OffsetWriter.stands_new _ hb) (hfits (by push_cast; omega))
  refine ⟨hr.trans hans, ?_⟩
  have hlim := newSectionReader_limit hb hn (by omega)
  have hwin : base + qs.flatten.length ≤ windowEnd base n ∧ windowEnd base n ≤ maxInt64 := by
    unfold windowEnd; unfold maxInt64 at *; omega
  generalize (OffsetWriter.run wa (w₀, newOffsetWriter base) (qs.map .write)).1.1 = v at hview ⊢
  obtain ⟨o, ho, -, -, hv⟩ := SectionReader.readAt_serves hra (w := (v, newSectionReader base n)) hb0
    (show base ≤ (newSectionReader base n).limit by rw [hlim]; omega)
    (show (newSectionReader base n).limit ≤ maxInt64 by rw [hlim]; exact hwin.2) p (Int.le_refl 0)
  dsimp only at hv
  rw [show (newSectionReader base n).base = base from rfl] at hv
  simp only [Nat.zero_add, List.take_zero, List.nil_append] at hdata
  have hW : (((content v).drop base.toNat).take ((newSectionReader base n).limit - base).toNat).take
      p.length = qs.flatten := by
    rw [hview, List.take_take, hp, Nat.min_eq_left (by rw [hlim]; omega), hdata]
  have hWl := congrArg List.length hW
  rw [List.length_take, hp] at hWl
  rw [sliceReaderAt_fill _ _ (fun h => hne (List.length_eq_zero.1 (by rw [← hp, h]; rfl))) (by omega), hW,
    hp] at hv
  exact ⟨o, ho, hv⟩

theorem offsetWriter_roundTrip_slice :
    let r := OffsetWriter.run sliceWriterAt ([1, 2, 3], newOffsetWriter 1) ([[7], [8, 9]].map .write)
    r.2 = [[7], [8, 9]].map (fun q : Bytes => ((q.length : Int), none)) ∧
    ∃ o, SectionReader.readAt sliceReaderAt (r.1.1, newSectionReader 1 3) [0, 0, 0] 0 = .ok o ∧
      o.p = [[7], [8, 9]].flatten ∧ o.n = ([[7], [8, 9]] : List Bytes).flatten.length ∧ o.err = none :=
  offsetWriter_roundTrip sliceWriterAt sliceReaderAt id sliceWriterAt_stores sliceReaderAt_serves 1
    (by decide) (by decide) [1, 2, 3] [[7], [8, 9]] (by decide) (by decide) 3 (by decide) (by decide)
    [0, 0, 0] rfl

end GoIo
