import Mathlib.Data.Nat.Defs
import Mathlib.Logic.Relation

/-!
# Values of package `io`

Errors (`nil` is `none`), `int64` sums modulo `2^64` (`toInt64`), and calls: a method acts on a
world `ω` holding its object's state and returns the world with what Go returns. The calls an
adapter makes are kept in a log (`Event`) beside the world.
-/

namespace GoIo

/-! ## Errors -/

/-- The errors of `io.go` that callers test with `==`; `other k` is any other error. -/
inductive Error where
  | eof
  | errUnexpectedEOF
  | errShortBuffer
  | errShortWrite
  | errInvalidWrite
  | errWhence
  | errOffset
  | other (k : Nat)
  deriving DecidableEq, Repr

/-- How `Copy` and `ReadAll` report the error that stopped their source: `EOF` is success. -/
def eofToNil (e : Error) : Option Error := if e = .eof then none else some e

@[simp] theorem eofToNil_eof : eofToNil .eof = none := rfl

theorem eofToNil_eq_none {e : Error} : eofToNil e = none ↔ e = .eof := by
  unfold eofToNil; split <;> simp_all

/-! ## `int64` -/

/-- `1<<63 - 1`, the `maxint64` of `NewSectionReader`. -/
def maxInt64 : Int := 9223372036854775807

/-- The value of an `int64` expression whose exact value is `x`: Go wraps modulo `2^64`. -/
@[irreducible] def toInt64 (x : Int) : Int :=
  (x + 9223372036854775808) % 18446744073709551616 - 9223372036854775808

/-- `x` is an `int64`. -/
def IsInt64 (x : Int) : Prop := -9223372036854775808 ≤ x ∧ x ≤ 9223372036854775807

instance (x : Int) : Decidable (IsInt64 x) := inferInstanceAs (Decidable (_ ∧ _))

theorem toInt64_of_isInt64 {x : Int} (h : IsInt64 x) : toInt64 x = x := by
  unfold IsInt64 at h; unfold toInt64; omega

theorem isInt64_toInt64 (x : Int) : IsInt64 (toInt64 x) := by
  unfold IsInt64 toInt64; omega

theorem toInt64_add_toInt64 (x y : Int) : toInt64 (toInt64 x + y) = toInt64 (x + y) := by
  unfold toInt64; omega

@[simp] theorem toInt64_zero : toInt64 0 = 0 := toInt64_of_isInt64 (by decide)

/-! ## Calls to `Read` and `Write` -/

/-- A `[]byte`. -/
abbrev Bytes := List UInt8

/-- What `Read(p)` leaves: the world, the contents of `p`, and `(n, err)`. -/
structure ReadOut (ω : Type) where
  w : ω
  p : Bytes
  n : Int
  err : Option Error

/-- The bytes a read hands back, `p[0:n]`. -/
def ReadOut.data {ω : Type} (o : ReadOut ω) : Bytes := o.p.take o.n.toNat

/-- Go's `p[lo:hi]` with `hi ≤ len(p)`: a panic unless `0 ≤ lo ≤ hi ≤ len(p)`. -/
def slice (p : Bytes) (lo hi : Int) : Except String Bytes :=
  if 0 ≤ lo ∧ lo ≤ hi ∧ hi ≤ p.length then .ok ((p.take hi.toNat).drop lo.toNat)
  else .error "slice bounds out of range"

/-- `p[lo:]`. -/
theorem slice_to_length {p : Bytes} {lo : Int} (h0 : 0 ≤ lo) (h : lo ≤ p.length) :
    slice p lo p.length = .ok (p.drop lo.toNat) := by
  rw [slice, if_pos ⟨h0, h, Int.le_refl _⟩, Int.toNat_ofNat, List.take_length]

theorem slice_from_zero {p : Bytes} {hi : Int} (h0 : 0 ≤ hi) (h : hi ≤ p.length) :
    slice p 0 hi = .ok (p.take hi.toNat) := by
  rw [slice, if_pos ⟨Int.le_refl 0, h0, h⟩, Int.toNat_zero, List.drop_zero]

/-- A `Read` method, of an object whose state is in the world `ω`. -/
abbrev ReadFn (ω : Type) := ω → Bytes → ReadOut ω

/-- What `Write(p)`, or any call returning a count and an error, leaves. -/
structure WriteOut (ω : Type) where
  w : ω
  n : Int
  err : Option Error

/-- A `Write` method. -/
abbrev WriteFn (ω : Type) := ω → Bytes → WriteOut ω

/-- A `ReadAt` method: `ReadAt(p, off)`. -/
abbrev ReadAtFn (ω : Type) := ω → Bytes → Int → ReadOut ω

/-- A `WriteAt` method: `WriteAt(p, off)`. -/
abbrev WriteAtFn (ω : Type) := ω → Bytes → Int → WriteOut ω

section Contracts

variable {ω : Type}

/-- The `Reader` contract: `0 ≤ n ≤ len(p)`, and `p` keeps its length. -/
def ReadFn.Obeys (r : ReadFn ω) : Prop :=
  ∀ w p, (r w p).p.length = p.length ∧ 0 ≤ (r w p).n ∧ (r w p).n ≤ p.length

/-- The part of the `ReaderAt` contract the results rely on: `0 ≤ n ≤ len(p)`. -/
def ReadAtFn.Obeys (r : ReadAtFn ω) : Prop :=
  ∀ w p off, (r w p off).p.length = p.length ∧ 0 ≤ (r w p off).n ∧ (r w p off).n ≤ p.length

/-- The part of the `WriterAt` contract the results rely on: `0 ≤ n ≤ len(p)`. -/
def WriteAtFn.Obeys (wa : WriteAtFn ω) : Prop :=
  ∀ w p off, 0 ≤ (wa w p off).n ∧ (wa w p off).n ≤ p.length

/-- The rest of the `ReaderAt` contract: `n < len(p)` only with a non-nil error. -/
def ReadAtFn.Explains (r : ReadAtFn ω) : Prop :=
  ∀ w p off, (r w p off).n < p.length → (r w p off).err ≠ none

/-- The `Writer` contract: `0 ≤ n ≤ len(p)`, and `n < len(p)` only with a non-nil error. -/
def WriteFn.Obeys (wr : WriteFn ω) : Prop :=
  ∀ w q, 0 ≤ (wr w q).n ∧ (wr w q).n ≤ q.length ∧ ((wr w q).n < q.length → (wr w q).err ≠ none)

/-- `wr` accepts every write in full. -/
def Accepts (wr : WriteFn ω) : Prop := ∀ w q, (wr w q).n = q.length ∧ (wr w q).err = none

theorem Accepts.obeys {wr : WriteFn ω} (h : Accepts wr) : wr.Obeys := fun w q => by
  rw [(h w q).1]; exact ⟨Int.ofNat_nonneg _, Int.le_refl _, fun hlt => absurd hlt (Int.lt_irrefl _)⟩

theorem ReadFn.Obeys.data_length {r : ReadFn ω} (hr : r.Obeys) (w : ω) (p : Bytes) :
    ((r w p).data).length = (r w p).n.toNat := by
  obtain ⟨hl, h0, hn⟩ := hr w p
  simp only [ReadOut.data, List.length_take, hl]; omega

end Contracts

/-! ## Logs -/

/-- A call an adapter made to an object it wraps, with the answer it got. -/
inductive Event where
  | read (len : Nat) (n : Int) (err : Option Error)
  | write (data : Bytes) (n : Int) (err : Option Error)
  | readAt (len : Nat) (off : Int) (n : Int) (err : Option Error)
  | writeAt (data : Bytes) (off : Int) (n : Int) (err : Option Error)

/-- The bytes a log's `Write` calls were given, in order. -/
def writesOf : List Event → Bytes
  | [] => []
  | .write d _ _ :: l => d ++ writesOf l
  | _ :: l => writesOf l

@[simp] theorem writesOf_nil : writesOf [] = [] := rfl

@[simp] theorem writesOf_append (l l' : List Event) :
    writesOf (l ++ l') = writesOf l ++ writesOf l' := by
  induction l with
  | nil => rfl
  | cons ev l ih => cases ev <;> simp [writesOf, ih]

@[simp] theorem writesOf_write (d : Bytes) (n : Int) (err : Option Error) :
    writesOf [.write d n err] = d := by simp [writesOf]

@[simp] theorem writesOf_read (len : Nat) (n : Int) (err : Option Error) :
    writesOf [.read len n err] = [] := rfl

/-- The count of bytes a log's reads returned. -/
def readsOf : List Event → Int
  | [] => 0
  | .read _ n _ :: l => n + readsOf l
  | _ :: l => readsOf l

@[simp] theorem readsOf_nil : readsOf [] = 0 := rfl

@[simp] theorem readsOf_append (l l' : List Event) : readsOf (l ++ l') = readsOf l + readsOf l' := by
  induction l with
  | nil => simp
  | cons ev l ih => cases ev <;> simp [readsOf, ih]; omega

@[simp] theorem readsOf_cons_read (len : Nat) (n : Int) (er : Option Error) (l : List Event) :
    readsOf (.read len n er :: l) = n + readsOf l := rfl

@[simp] theorem readsOf_cons_write (q : Bytes) (n : Int) (er : Option Error) (l : List Event) :
    readsOf (.write q n er :: l) = readsOf l := rfl

section Lifts

variable {σ τ : Type}

/-- `r`, with each call appended to a log kept beside its world. -/
def ReadFn.logged (r : ReadFn σ) : ReadFn (σ × List Event) := fun w p =>
  let o := r w.1 p
  ⟨(o.w, w.2 ++ [.read p.length o.n o.err]), o.p, o.n, o.err⟩

def WriteFn.logged (wr : WriteFn σ) : WriteFn (σ × List Event) := fun w q =>
  let o := wr w.1 q
  ⟨(o.w, w.2 ++ [.write q o.n o.err]), o.n, o.err⟩

def ReadAtFn.logged (ra : ReadAtFn σ) : ReadAtFn (σ × List Event) := fun w p off =>
  let o := ra w.1 p off
  ⟨(o.w, w.2 ++ [.readAt p.length off o.n o.err]), o.p, o.n, o.err⟩

def WriteAtFn.logged (wa : WriteAtFn σ) : WriteAtFn (σ × List Event) := fun w q off =>
  let o := wa w.1 q off
  ⟨(o.w, w.2 ++ [.writeAt q off o.n o.err]), o.n, o.err⟩

/-- `r` in a world with a second component, which it leaves alone. -/
def ReadFn.onFst (r : ReadFn σ) : ReadFn (σ × τ) := fun w p =>
  let o := r w.1 p
  ⟨(o.w, w.2), o.p, o.n, o.err⟩

def WriteFn.onSnd (wr : WriteFn τ) : WriteFn (σ × τ) := fun w q =>
  let o := wr w.2 q
  ⟨(w.1, o.w), o.n, o.err⟩

def WriteFn.onFst (wr : WriteFn σ) : WriteFn (σ × τ) := fun w q =>
  let o := wr w.1 q
  ⟨(o.w, w.2), o.n, o.err⟩

@[simp] theorem ReadFn.logged_w (r : ReadFn σ) (w : σ × List Event) (p : Bytes) :
    (r.logged w p).w = ((r w.1 p).w, w.2 ++ [.read p.length (r w.1 p).n (r w.1 p).err]) := rfl
@[simp] theorem ReadFn.logged_p (r : ReadFn σ) (w : σ × List Event) (p : Bytes) :
    (r.logged w p).p = (r w.1 p).p := rfl
@[simp] theorem ReadFn.logged_n (r : ReadFn σ) (w : σ × List Event) (p : Bytes) :
    (r.logged w p).n = (r w.1 p).n := rfl
@[simp] theorem ReadFn.logged_err (r : ReadFn σ) (w : σ × List Event) (p : Bytes) :
    (r.logged w p).err = (r w.1 p).err := rfl

@[simp] theorem WriteFn.logged_w (wr : WriteFn σ) (w : σ × List Event) (q : Bytes) :
    (wr.logged w q).w = ((wr w.1 q).w, w.2 ++ [.write q (wr w.1 q).n (wr w.1 q).err]) := rfl
@[simp] theorem WriteFn.logged_n (wr : WriteFn σ) (w : σ × List Event) (q : Bytes) :
    (wr.logged w q).n = (wr w.1 q).n := rfl
@[simp] theorem WriteFn.logged_err (wr : WriteFn σ) (w : σ × List Event) (q : Bytes) :
    (wr.logged w q).err = (wr w.1 q).err := rfl

@[simp] theorem ReadAtFn.logged_w (ra : ReadAtFn σ) (w : σ × List Event) (p : Bytes) (off : Int) :
    (ra.logged w p off).w =
      ((ra w.1 p off).w, w.2 ++ [.readAt p.length off (ra w.1 p off).n (ra w.1 p off).err]) := rfl
@[simp] theorem ReadAtFn.logged_p (ra : ReadAtFn σ) (w : σ × List Event) (p : Bytes) (off : Int) :
    (ra.logged w p off).p = (ra w.1 p off).p := rfl
@[simp] theorem ReadAtFn.logged_n (ra : ReadAtFn σ) (w : σ × List Event) (p : Bytes) (off : Int) :
    (ra.logged w p off).n = (ra w.1 p off).n := rfl
@[simp] theorem ReadAtFn.logged_err (ra : ReadAtFn σ) (w : σ × List Event) (p : Bytes) (off : Int) :
    (ra.logged w p off).err = (ra w.1 p off).err := rfl

@[simp] theorem WriteAtFn.logged_w (wa : WriteAtFn σ) (w : σ × List Event) (q : Bytes) (off : Int) :
    (wa.logged w q off).w =
      ((wa w.1 q off).w, w.2 ++ [.writeAt q off (wa w.1 q off).n (wa w.1 q off).err]) := rfl
@[simp] theorem WriteAtFn.logged_n (wa : WriteAtFn σ) (w : σ × List Event) (q : Bytes) (off : Int) :
    (wa.logged w q off).n = (wa w.1 q off).n := rfl
@[simp] theorem WriteAtFn.logged_err (wa : WriteAtFn σ) (w : σ × List Event) (q : Bytes) (off : Int) :
    (wa.logged w q off).err = (wa w.1 q off).err := rfl

@[simp] theorem ReadFn.onFst_w (r : ReadFn σ) (w : σ × τ) (p : Bytes) :
    (r.onFst w p).w = ((r w.1 p).w, w.2) := rfl
@[simp] theorem ReadFn.onFst_p (r : ReadFn σ) (w : σ × τ) (p : Bytes) :
    (r.onFst w p).p = (r w.1 p).p := rfl
@[simp] theorem ReadFn.onFst_n (r : ReadFn σ) (w : σ × τ) (p : Bytes) :
    (r.onFst w p).n = (r w.1 p).n := rfl
@[simp] theorem ReadFn.onFst_err (r : ReadFn σ) (w : σ × τ) (p : Bytes) :
    (r.onFst w p).err = (r w.1 p).err := rfl

@[simp] theorem WriteFn.onSnd_w (wr : WriteFn τ) (w : σ × τ) (q : Bytes) :
    (wr.onSnd w q).w = (w.1, (wr w.2 q).w) := rfl
@[simp] theorem WriteFn.onSnd_n (wr : WriteFn τ) (w : σ × τ) (q : Bytes) :
    (wr.onSnd w q).n = (wr w.2 q).n := rfl
@[simp] theorem WriteFn.onSnd_err (wr : WriteFn τ) (w : σ × τ) (q : Bytes) :
    (wr.onSnd w q).err = (wr w.2 q).err := rfl

@[simp] theorem WriteFn.onFst_w (wr : WriteFn σ) (w : σ × τ) (q : Bytes) :
    (wr.onFst w q).w = ((wr w.1 q).w, w.2) := rfl
@[simp] theorem WriteFn.onFst_n (wr : WriteFn σ) (w : σ × τ) (q : Bytes) :
    (wr.onFst w q).n = (wr w.1 q).n := rfl
@[simp] theorem WriteFn.onFst_err (wr : WriteFn σ) (w : σ × τ) (q : Bytes) :
    (wr.onFst w q).err = (wr w.1 q).err := rfl

@[simp] theorem ReadOut.data_logged (r : ReadFn σ) (w : σ × List Event) (p : Bytes) :
    (r.logged w p).data = (r w.1 p).data := rfl
@[simp] theorem ReadOut.data_onFst (r : ReadFn σ) (w : σ × τ) (p : Bytes) :
    (r.onFst (τ := τ) w p).data = (r w.1 p).data := rfl

/-! The contracts of a reader hold of it in a larger world. -/

theorem ReadFn.Obeys.logged {r : ReadFn σ} (hr : r.Obeys) : r.logged.Obeys :=
  fun w p => by simpa using hr w.1 p

theorem ReadFn.Obeys.onFst {r : ReadFn σ} (hr : r.Obeys) : (r.onFst (τ := τ)).Obeys :=
  fun w p => by simpa using hr w.1 p

theorem ReadAtFn.Obeys.logged {ra : ReadAtFn σ} (h : ra.Obeys) : ra.logged.Obeys :=
  fun w p off => by simpa using h w.1 p off

theorem WriteAtFn.Obeys.logged {wa : WriteAtFn σ} (h : wa.Obeys) : wa.logged.Obeys :=
  fun w p off => by simpa using h w.1 p off

theorem ReadAtFn.Explains.logged {ra : ReadAtFn σ} (h : ra.Explains) : ra.logged.Explains :=
  fun w p off => by simpa using h w.1 p off

end Lifts

/-! ## A `strings.Reader` and sinks that accept every write, to run the model on -/

/-- A reader over the bytes of a slice. -/
def sliceReader : ReadFn Bytes := fun s p =>
  if s = [] then ⟨[], p, 0, some .eof⟩
  else ⟨s.drop p.length, s.take p.length ++ p.drop (min p.length s.length),
    ((min p.length s.length : Nat) : Int), none⟩

/-- A sink that accepts every write and keeps nothing. -/
def acceptAll : WriteFn Unit := fun _ q => ⟨(), q.length, none⟩

/-- `ReadAt` of a `strings.Reader` over a slice. -/
def sliceReaderAt : ReadAtFn Bytes := fun s p off =>
  if off < 0 then ⟨s, p, 0, some (.other 0)⟩
  else if s.length ≤ off then ⟨s, p, 0, some .eof⟩
  else
    let d := (s.drop off.toNat).take p.length
    ⟨s, d ++ p.drop d.length, d.length, if d.length < p.length then some .eof else none⟩

/-- A `WriterAt` that accepts every write and keeps nothing. -/
def acceptAllAt : WriteAtFn Unit := fun _ q _ => ⟨(), q.length, none⟩

theorem sliceReader_obeys : sliceReader.Obeys := by
  intro s p
  by_cases hs : s = []
  · simp only [sliceReader, hs, if_true]; exact ⟨trivial, Int.le_refl 0, by omega⟩
  · simp only [sliceReader, hs, if_false, List.length_append, List.length_take, List.length_drop]
    omega

theorem acceptAll_accepts : Accepts acceptAll := fun _ _ => ⟨rfl, rfl⟩

theorem sliceReaderAt_obeys : sliceReaderAt.Obeys := by
  intro s p off
  unfold sliceReaderAt
  split
  · exact ⟨rfl, Int.le_refl 0, Int.ofNat_nonneg _⟩
  split
  · exact ⟨rfl, Int.le_refl 0, Int.ofNat_nonneg _⟩
  · simp only [List.length_append, List.length_take, List.length_drop]; omega

theorem sliceReaderAt_explains : sliceReaderAt.Explains := by
  intro s p off
  unfold sliceReaderAt
  split
  · exact fun _ => Option.noConfusion
  split
  · exact fun _ => Option.noConfusion
  · dsimp only
    split <;> rename_i h
    · exact fun _ => Option.noConfusion
    · intro hlt; omega

theorem acceptAllAt_obeys : acceptAllAt.Obeys := fun _ _ _ => ⟨Int.ofNat_nonneg _, Int.le_refl _⟩

end GoIo
