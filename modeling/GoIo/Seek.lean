import GoIo.Basic

/-!
# `Seek`

Both `Seek`s share their end, `seekOff`, in `int64` sums. `SeekSpec` is the same operation over
the integers; the two agree from non-negative `int64`s (`seekOff_eq_spec`).
-/

namespace GoIo

/-- `SeekStart`. -/
def seekStart : Int := 0

/-- `SeekCurrent`. -/
def seekCurrent : Int := 1

/-- `SeekEnd`. -/
def seekEnd : Int := 2

/-- The end of both `Seek`s once `whence` selected `ref`: the new cursor, if any, and the result. -/
def seekOff (base : Int) (ref : Option Int) (offset : Int) : Option Int × Int × Option Error :=
  match ref with
  | none => (none, 0, some .errWhence)
  | some ref =>
    let t := toInt64 (offset + ref)
    if t < base then (none, 0, some .errOffset) else (some t, toInt64 (t - base), none)

/-- `Seek` over the integers: a target in `[base, maxint64]` is accepted. -/
def SeekSpec (base : Int) (ref : Option Int) (offset : Int) : Option Int × Int × Option Error :=
  match ref with
  | none => (none, 0, some .errWhence)
  | some ref =>
    if base ≤ offset + ref ∧ offset + ref ≤ maxInt64 then (some (offset + ref), offset + ref - base, none)
    else (none, 0, some .errOffset)

@[simp] theorem seekOff_none (base offset : Int) :
    seekOff base none offset = (none, 0, some .errWhence) := rfl

theorem seekOff_some (base x offset : Int) :
    seekOff base (some x) offset =
      if toInt64 (offset + x) < base then (none, 0, some .errOffset)
      else (some (toInt64 (offset + x)), toInt64 (toInt64 (offset + x) - base), none) := rfl

theorem seekOff_err {base offset : Int} {ref : Option Int} {t : Option Int} {r : Int}
    {e : Error} (h : seekOff base ref offset = (t, r, some e)) : t = none ∧ r = 0 := by
  cases ref with
  | none => cases h; exact ⟨rfl, rfl⟩
  | some x =>
    rw [seekOff_some] at h
    split at h <;> cases h
    exact ⟨rfl, rfl⟩

theorem seekOff_moves {base offset : Int} {ref : Option Int} {t : Int}
    (h : (seekOff base ref offset).1 = some t) : base ≤ t ∧ IsInt64 t := by
  cases ref with
  | none => cases h
  | some x =>
    rw [seekOff_some] at h
    split at h <;> cases h
    exact ⟨by omega, isInt64_toInt64 _⟩

/-- From a non-negative `base` and reference, `Seek` is `SeekSpec`. -/
theorem seekOff_eq_spec {base offset : Int} {ref : Option Int} (hb : 0 ≤ base)
    (href : ∀ x, ref = some x → 0 ≤ x ∧ x ≤ maxInt64) (ho : IsInt64 offset) :
    seekOff base ref offset = SeekSpec base ref offset := by
  cases ref with
  | none => rfl
  | some x =>
    obtain ⟨hx0, hx⟩ := href x rfl
    unfold IsInt64 at ho
    unfold maxInt64 at hx
    simp only [seekOff_some, SeekSpec, maxInt64]
    by_cases hin : offset + x ≤ 9223372036854775807
    · have ht : toInt64 (offset + x) = offset + x := toInt64_of_isInt64 ⟨by omega, hin⟩
      rw [ht]
      by_cases hlo : base ≤ offset + x
      · rw [if_neg (by omega), if_pos ⟨hlo, hin⟩, toInt64_of_isInt64 ⟨by omega, by omega⟩]
      · rw [if_pos (by omega), if_neg (by omega)]
    · have ht : toInt64 (offset + x) < 0 := by unfold toInt64; omega
      rw [if_pos (by omega), if_neg (by omega)]

end GoIo
