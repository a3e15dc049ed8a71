/-
Conversion is monotone.

The magnitude of a rounding grows with the magnitude that is rounded, through all
that can become of it: flushed to zero, rounded to a number of the format, or out
of range and replaced by the largest number or by infinity.  The sign is kept
except in a result of zero, where it makes no difference to the order.
-/
import CrossFloat.Proofs.Order
import CrossFloat.Proofs.Rounding.Monotone

namespace CrossFloat

/-! ## Magnitudes of roundings -/

namespace Context

variable (c : Context) (sign : Sign) (flags flags' : Flags) {v w r : ℚ}

theorem magnitude_saturated_congr :
    (Intermediate.saturated sign flags c).magnitude =
      (Intermediate.saturated sign flags' c).magnitude := by
  rw [Intermediate.saturated, Intermediate.saturated]
  split <;> rfl

/-- Nothing that the format has exceeds the result of an overflow. -/
theorem toEReal_le_saturated (hr : c.format.HasNumber r) :
    ((r : ℝ) : EReal) ≤ (Intermediate.saturated sign flags c).magnitude.toEReal := by
  rw [Intermediate.saturated]
  split
  · exact le_top
  · exact Magnitude.ratCast_strictMono.monotone (hr.le_maxFinite sign)

theorem roundRat_of_overflow (hv : 0 < v) (hflush : ¬ c.format.Flushes v)
    (hlarge : 2 ^ (c.format.maxExponent + 1) ≤ c.rounded sign v) :
    c.roundRat sign v flags = Intermediate.saturated sign flags c := by
  rw [roundRat, if_neg hv.ne', if_neg hflush, if_pos hlarge]

/-- In range the magnitude of a rounding is the rounded number. -/
theorem toEReal_roundRat (hv : 0 < v) (hflush : ¬ c.format.Flushes v)
    (hlt : c.rounded sign v < 2 ^ (c.format.maxExponent + 1)) :
    (c.roundRat sign v flags).magnitude.toEReal = ((c.rounded sign v : ℝ) : EReal) := by
  have hcorrect : CorrectRounding c sign v flags (c.roundRat sign v flags) :=
    correctRounding_roundRat hv.le
  have hnumber := c.hasNumber_rounded sign hv hflush hlt
  have hstores := (hcorrect.stored hv.ne' hflush hlt).1
  rw [Value.toEReal_magnitude (hstores.represents hnumber).isFinite,
    hstores.toRat_eq hnumber.nonneg]

/-- A larger number has a rounding of larger magnitude, or of the same. -/
theorem toEReal_roundRat_mono (hv : 0 ≤ v) (h : v ≤ w) :
    (c.roundRat sign v flags).magnitude.toEReal ≤
      (c.roundRat sign w flags').magnitude.toEReal := by
  rcases c.roundRat_zero_or_rounds sign flags hv with hzero | ⟨hposV, hflush⟩
  · rw [hzero, Magnitude.toEReal_zero]
    exact Magnitude.toEReal_nonneg _
  have hposW : 0 < w := hposV.trans_le h
  have hflushW : ¬ c.format.Flushes w := fun hw => hflush (hw.mono h)
  have hrounded := c.rounded_mono sign hposV h
  rcases le_or_gt (2 ^ (c.format.maxExponent + 1)) (c.rounded sign w) with hlargeW | hltW
  · rw [c.roundRat_of_overflow sign flags' hposW hflushW hlargeW]
    rcases le_or_gt (2 ^ (c.format.maxExponent + 1)) (c.rounded sign v) with hlargeV | hltV
    · rw [c.roundRat_of_overflow sign flags hposV hflush hlargeV,
        c.magnitude_saturated_congr sign flags flags']
    · rw [c.toEReal_roundRat sign flags hposV hflush hltV]
      exact c.toEReal_le_saturated sign flags' (c.hasNumber_rounded sign hposV hflush hltV)
  · rw [c.toEReal_roundRat sign flags hposV hflush (hrounded.trans_lt hltW),
      c.toEReal_roundRat sign flags' hposW hflushW hltW]
    exact Magnitude.ratCast_strictMono.monotone hrounded

end Context

/-! ## Conversions -/

namespace Value

variable {x y : Value} (c : Context)

theorem finite_or_infinite (hnan : x.isNan = false) :
    x.isFinite = true ∨ x.magnitude = .infinite := by
  obtain ⟨sign, flags, magnitude⟩ := x
  cases magnitude with
  | zero | finite => exact Or.inl rfl
  | infinite => exact Or.inr rfl
  | nan => exact absurd hnan.symm Bool.false_ne_true

theorem isNan_convert (hnan : x.isNan = false) : (x.convert c).isNan = false := by
  rcases finite_or_infinite hnan with hfinite | hinfinite
  · rw [convert_eq_roundRat hfinite]
    exact c.isNan_roundRat x.sign x.flags x.magnitude.toRat_nonneg
  · rw [convert_of_infinite c hinfinite]
    exact hnan

/-- A conversion has the sign of its operand, as far as its number is concerned. -/
theorem toEReal_convert (hnan : x.isNan = false) :
    (x.convert c).toEReal = x.sign.apply (x.convert c).magnitude.toEReal := by
  rcases finite_or_infinite hnan with hfinite | hinfinite
  · rw [convert_eq_roundRat hfinite]
    rcases c.roundRat_zero_or_sign x.sign x.flags x.magnitude.toRat_nonneg with hzero | hsign
    · rw [toEReal_of_zero hzero, hzero, Magnitude.toEReal_zero, Sign.apply_zero]
    · rw [toEReal, hsign]
  · rw [convert_of_infinite c hinfinite]
    rfl

theorem toEReal_magnitude_convert_mono (hnanX : x.isNan = false) (hnanY : y.isNan = false)
    (hsign : x.sign = y.sign) (h : x.magnitude.toEReal ≤ y.magnitude.toEReal) :
    (x.convert c).magnitude.toEReal ≤ (y.convert c).magnitude.toEReal := by
  rcases finite_or_infinite hnanY with hfiniteY | hinfiniteY
  · rcases finite_or_infinite hnanX with hfiniteX | hinfiniteX
    · rw [toEReal_magnitude hfiniteX, toEReal_magnitude hfiniteY,
        Magnitude.ratCast_strictMono.le_iff_le] at h
      rw [convert_eq_roundRat hfiniteX, convert_eq_roundRat hfiniteY, hsign]
      exact c.toEReal_roundRat_mono y.sign x.flags y.flags x.magnitude.toRat_nonneg h
    · rw [hinfiniteX, toEReal_magnitude hfiniteY] at h
      exact absurd h (EReal.coe_lt_top _).not_ge
  · rw [convert_of_infinite c hinfiniteY, hinfiniteY]
    exact le_top

/-- What is not greater is not converted to something greater. -/
theorem toEReal_convert_mono (hx : x.WellFormed) (hy : y.WellFormed) (hnanX : x.isNan = false)
    (hnanY : y.isNan = false) (h : x.toEReal ≤ y.toEReal) :
    (x.convert c).toEReal ≤ (y.convert c).toEReal := by
  have hmono := toEReal_magnitude_convert_mono c hnanX hnanY
  have hmono' := toEReal_magnitude_convert_mono c hnanY hnanX
  have hnonnegX := (x.convert c).magnitude.toEReal_nonneg
  have hnonnegY := (y.convert c).magnitude.toEReal_nonneg
  rw [toEReal_convert c hnanX, toEReal_convert c hnanY]
  rw [toEReal, toEReal] at h
  cases hsignX : x.sign with
  | positive =>
    cases hsignY : y.sign with
    | positive =>
      rw [hsignX, hsignY] at h
      exact hmono (hsignX.trans hsignY.symm) h
    | negative =>
      -- Only zeros have a number that is neither above nor below zero.
      rw [hsignX, hsignY] at h
      have hnegY : -y.magnitude.toEReal ≤ 0 := EReal.neg_le_zero.2 y.magnitude.toEReal_nonneg
      have hzeroX : x.magnitude.toEReal = 0 :=
        le_antisymm (h.trans hnegY) x.magnitude.toEReal_nonneg
      have hzeroY : y.magnitude.toEReal = 0 :=
        EReal.neg_eq_zero_iff.1 (le_antisymm hnegY (x.magnitude.toEReal_nonneg.trans h))
      have hisZeroX := (hasSize_toEReal hx hnanX).eq_zero_iff.1 hzeroX
      have hisZeroY := (hasSize_toEReal hy hnanY).eq_zero_iff.1 hzeroY
      rw [magnitude_convert_of_zero c (isZero_iff.1 hisZeroX),
        magnitude_convert_of_zero c (isZero_iff.1 hisZeroY), Magnitude.toEReal_zero,
        Sign.apply_zero, Sign.apply_zero]
  | negative =>
    cases hsignY : y.sign with
    | positive => exact (EReal.neg_le_zero.2 hnonnegX).trans hnonnegY
    | negative =>
      rw [hsignX, hsignY] at h
      exact EReal.neg_le_neg_iff.2 (hmono' (hsignY.trans hsignX.symm) (EReal.neg_le_neg_iff.1 h))

/-- Conversion is monotone.  What compares as less or as equal still does so after a
conversion into any format, and what compares as equal still compares as equal. -/
theorem convert_mono (hx : x.WellFormed) (hy : y.WellFormed) :
    (x.compare y = .less ∨ x.compare y = .equal →
      (x.convert c).compare (y.convert c) = .less ∨
        (x.convert c).compare (y.convert c) = .equal) ∧
      (x.compare y = .equal → (x.convert c).compare (y.convert c) = .equal) := by
  by_cases hordered : x.compare y = .unordered
  · rw [hordered]
    exact ⟨fun h => absurd h (by decide), fun h => absurd h (by decide)⟩
  obtain ⟨hnanX, hnanY⟩ := isNan_eq_false_of_compare hordered
  have hreflects := compare_reflects hx hy hnanX hnanY
  have hreflects' := compare_reflects (hx.convert c) (hy.convert c) (isNan_convert c hnanX)
    (isNan_convert c hnanY)
  rw [hreflects.less, hreflects.equal, hreflects'.less, hreflects'.equal, ← le_iff_lt_or_eq,
    ← le_iff_lt_or_eq]
  refine ⟨toEReal_convert_mono c hx hy hnanX hnanY, fun h => le_antisymm ?_ ?_⟩
  · exact toEReal_convert_mono c hx hy hnanX hnanY h.le
  · exact toEReal_convert_mono c hy hx hnanY hnanX h.ge

/-- The smallest and the largest number of the 64-bit format.  In a base-16 format
with sudden underflow the one is flushed to zero and the other overflows. -/
theorem convert_mono_flushed :
    let F : Format := ⟨.hexadecimal ⟨7, 6, by decide, by decide⟩, .nearestEven, .sudden⟩
    let c := F.alone
    let x := Format.double.minPositive .negative
    let y := Format.double.maxFinite .positive
    x.WellFormed ∧ y.WellFormed ∧ x.compare y = .less ∧
      ((x.convert c).compare (y.convert c) = .less ∨
        (x.convert c).compare (y.convert c) = .equal) := by
  intro F c x y
  have hx : x.WellFormed := Format.double.wellFormed_minPositive .negative
  have hy : y.WellFormed := (Format.double.represents_maxFinite .positive).contains.wellFormed
  have hless : x.compare y = .less := by decide
  obtain ⟨hmono, -⟩ := convert_mono c hx hy
  exact ⟨hx, hy, hless, hmono (Or.inl hless)⟩

end Value
end CrossFloat
