/-
Rounding is monotone and keeps the sign.

Two numbers with the same last place are rounded to whole counts of it, and the
choice of the count is monotone in each mode.  Between numbers with different last
places lies a power of two, which both roundings respect.  What is out of range is
replaced by something that no number of the format exceeds.
-/
import CrossFloat.Proofs.Rounding.Representable

namespace CrossFloat

/-! ## Whole numbers -/

namespace RoundingMode

/-- A larger number is not rounded to a smaller whole number. -/
theorem roundNat_mono (mode : RoundingMode) (sign : Sign) {q p : ℚ} (h : q ≤ p) :
    mode.roundNat sign q ≤ mode.roundNat sign p := by
  have hfloor : ⌊q⌋₊ ≤ ⌊p⌋₊ := Nat.floor_mono h
  have hceil : ⌈q⌉₊ ≤ ⌈p⌉₊ := Nat.ceil_mono h
  have hlower := mode.floor_le_roundNat sign p
  have hupper := mode.roundNat_le_ceil sign q
  rcases hfloor.lt_or_eq with hlt | heq
  · -- A whole number separates the two.
    have hstep := Nat.ceil_le_floor_add_one q
    omega
  -- From the same floor on, `p` is at least as far up as `q`.
  have hrest : q - (⌊q⌋₊ : ℚ) ≤ p - (⌊p⌋₊ : ℚ) := by
    rw [heq]
    exact sub_le_sub_right h _
  cases mode with
  | towardZero => exact hfloor
  | towardPositive | towardNegative =>
    simp only [roundNat]
    split
    · exact hceil
    · exact hfloor
  | nearestEven =>
    by_cases hdown : p - ⌊p⌋₊ < 1 / 2 ∨ (p - ⌊p⌋₊ = 1 / 2 ∧ ⌊p⌋₊ % 2 = 0)
    · have hdown' : q - ⌊q⌋₊ < 1 / 2 ∨ (q - ⌊q⌋₊ = 1 / 2 ∧ ⌊q⌋₊ % 2 = 0) := by
        rcases hdown with hlt | ⟨hhalf, heven⟩
        · exact Or.inl (hrest.trans_lt hlt)
        · rcases (hrest.trans_eq hhalf).lt_or_eq with hlt | hhalf'
          · exact Or.inl hlt
          · exact Or.inr ⟨hhalf', heq ▸ heven⟩
      simp only [roundNat, if_pos hdown, if_pos hdown']
      exact hfloor
    · apply hupper.trans
      simp only [roundNat, if_neg hdown]
      exact hceil
  | nearestAway =>
    by_cases hdown : p - ⌊p⌋₊ < 1 / 2
    · simp only [roundNat, if_pos hdown, if_pos (hrest.trans_lt hdown)]
      exact hfloor
    · apply hupper.trans
      simp only [roundNat, if_neg hdown]
      exact hceil

end RoundingMode

/-! ## Places -/

namespace Format

variable {F : Format} {v w r : ℚ}

theorem lastPlace_mono (F : Format) {e e' : ℤ} (h : e ≤ e') : F.lastPlace e ≤ F.lastPlace e' := by
  obtain ⟨layout, mode, underflow⟩ := F
  cases layout <;> simp only [lastPlace, digitWidth, precision] <;> omega

theorem place_mono (F : Format) (hv : 0 < v) (h : v ≤ w) : F.place v ≤ F.place w :=
  F.lastPlace_mono (max_le_max_right F.minExponent (Int.log_mono_right hv h))

theorem lastPlace_minExponent_le_place (F : Format) (v : ℚ) :
    F.lastPlace F.minExponent ≤ F.place v :=
  F.lastPlace_mono (le_max_right _ _)

theorem Flushes.mono (hw : F.Flushes w) (h : v ≤ w) : F.Flushes v :=
  ⟨h.trans_lt hw.1, hw.2⟩

/-- The largest number is all ones at the largest exponent. -/
theorem toRat_maxFinite (F : Format) (sign : Sign) :
    (F.maxFinite sign).magnitude.toRat =
      ((2 ^ F.precision - 1 : ℕ) : ℚ) * 2 ^ F.lastPlace F.maxExponent := by
  rw [count_mul_zpow, lastBit_maxExponent, ← toNat_maxFinite]
  rfl

theorem lastPlace_maxExponent (F : Format) :
    F.lastPlace F.maxExponent = F.maxExponent + 1 - F.precision := by
  have hcast := F.lastBit_cast F.maxExponent
  have hprecision := F.precision_le
  rw [lastBit_maxExponent] at hcast
  omega

theorem HasNumber.le_maxFinite (h : F.HasNumber r) (sign : Sign) :
    r ≤ (F.maxFinite sign).magnitude.toRat := by
  obtain ⟨count, hcount⟩ := h.whole
  have hthree := F.three_le_precision
  have hrange := F.minExponent_le_maxExponent
  have hplace := F.lastPlace_maxExponent
  have hpos := two_zpow_pos (F.lastPlace F.maxExponent)
  have hdouble : 2 ^ F.precision = 2 ^ (F.precision - 1) * 2 := by
    rw [← pow_succ, Nat.sub_add_cancel (by omega)]
  have hone : 1 ≤ 2 ^ (F.precision - 1) := Nat.one_le_two_pow
  by_contra hlarge
  rw [toRat_maxFinite, not_le] at hlarge
  -- So large a number is in the top binade, and counts as many places as there are.
  have hbinade : Int.log 2 r = F.maxExponent := by
    refine log_eq_of_bounds (le_trans ?_ hlarge.le) h.lt
    rw [two_zpow_eq_natCast_mul (show F.lastPlace F.maxExponent ≤ F.maxExponent by omega)]
    apply mul_le_mul_of_nonneg_right _ hpos.le
    rw [show (F.maxExponent - F.lastPlace F.maxExponent).toNat = F.precision - 1 by omega]
    exact_mod_cast (show 2 ^ (F.precision - 1) ≤ 2 ^ F.precision - 1 by omega)
  have hlt := h.lt
  rw [place, hbinade, max_eq_left hrange] at hcount
  rw [hcount, mul_lt_mul_iff_left₀ hpos, Nat.cast_lt] at hlarge
  rw [hcount, two_zpow_eq_natCast_mul (show F.lastPlace F.maxExponent ≤ F.maxExponent + 1 by omega),
    mul_lt_mul_iff_left₀ hpos, Nat.cast_lt,
    show (F.maxExponent + 1 - F.lastPlace F.maxExponent).toNat = F.precision by omega] at hlt
  omega

end Format

/-! ## Roundings -/

namespace Context

variable (c : Context) (sign : Sign) {v w : ℚ}

/-- A larger number is not rounded to a smaller one. -/
theorem rounded_mono (hv : 0 < v) (h : v ≤ w) : c.rounded sign v ≤ c.rounded sign w := by
  have hlog := Int.log_mono_right (b := 2) hv h
  have hplaceV := c.format.place_le v
  have hplaceW := c.format.place_le w
  rcases (max_le_max_right c.format.minExponent hlog).lt_or_eq with hlt | heq
  · -- The binade of `w` begins above that of `v`.
    have hbetween : c.rounded sign v ≤ 2 ^ Int.log 2 w := by
      apply c.rounded_le sign (by omega)
      exact (lt_two_zpow_log hv).le.trans (two_zpow_le_iff.2 (by omega))
    exact hbetween.trans (c.le_rounded sign (by omega) (two_zpow_log_le (hv.trans_le h)))
  · have hplace : c.format.place v = c.format.place w := by
      rw [Format.place, Format.place, heq]
    have hpos := two_zpow_pos (c.format.place w)
    rw [rounded, rounded, hplace]
    apply mul_le_mul_of_nonneg_right _ hpos.le
    exact_mod_cast c.mode.roundNat_mono sign (div_le_div_of_nonneg_right h hpos.le)

variable (flags : Flags)

theorem isNan_roundRat (hv : 0 ≤ v) : (c.roundRat sign v flags).isNan = false := by
  rcases c.roundRat_represents sign flags hv with ⟨-, hinfinite⟩ | hrepresents
  · rw [Value.isNan, hinfinite]
  · exact Value.isNan_eq_false_of_isFinite hrepresents.isFinite

/-- A rounding away from zero keeps the sign. -/
theorem sign_roundRat (hv : 0 < v) (hflush : ¬ c.format.Flushes v)
    (hpos : 0 < c.rounded sign v) :
    (c.roundRat sign v flags).sign = sign ∧ (c.roundRat sign v flags).magnitude ≠ .zero := by
  have hcorrect : CorrectRounding c sign v flags (c.roundRat sign v flags) :=
    correctRounding_roundRat hv.le
  rcases le_or_gt (2 ^ (c.format.maxExponent + 1)) (c.rounded sign v) with hlarge | hlt
  · by_cases haway : c.format.hasSpecials ∧ c.mode.LeavesRange sign
    · rw [hcorrect.infinite hv.ne' hflush hlarge haway]
      exact ⟨rfl, Magnitude.noConfusion⟩
    · rw [hcorrect.largest hv.ne' hflush hlarge haway]
      exact ⟨rfl, Magnitude.noConfusion⟩
  · obtain ⟨hstores, -⟩ := hcorrect.stored hv.ne' hflush hlt
    rcases lt_or_ge (c.rounded sign v) (2 ^ c.format.minExponent) with htiny | hnormal
    · obtain ⟨hsign, s, hm, -⟩ := hstores.denormal hpos htiny
      rw [hm]
      exact ⟨hsign, Magnitude.noConfusion⟩
    · obtain ⟨hsign, e, s, hm, -⟩ := hstores.normal hnormal
      rw [hm]
      exact ⟨hsign, Magnitude.noConfusion⟩

/-- The result is a zero before any rounding, or the number is rounded. -/
theorem roundRat_zero_or_rounds (hv : 0 ≤ v) :
    (c.roundRat sign v flags).magnitude = .zero ∨ 0 < v ∧ ¬ c.format.Flushes v := by
  by_cases hv0 : v = 0
  · rw [roundRat, if_pos hv0]
    exact Or.inl rfl
  by_cases hflush : c.format.Flushes v
  · rw [roundRat, if_neg hv0, if_pos hflush]
    exact Or.inl rfl
  · exact Or.inr ⟨lt_of_le_of_ne hv (Ne.symm hv0), hflush⟩

/-- A rounding keeps the sign unless it leads to zero. -/
theorem roundRat_zero_or_sign (hv : 0 ≤ v) :
    (c.roundRat sign v flags).magnitude = .zero ∨ (c.roundRat sign v flags).sign = sign := by
  rcases c.roundRat_zero_or_rounds sign flags hv with hzero | ⟨hpos, hflush⟩
  · exact Or.inl hzero
  rcases (c.rounded_nonneg sign v).eq_or_lt with hzero | hr
  · have hcorrect : CorrectRounding c sign v flags (c.roundRat sign v flags) :=
      correctRounding_roundRat hv
    have hlt : c.rounded sign v < 2 ^ (c.format.maxExponent + 1) := hzero ▸ two_zpow_pos _
    exact Or.inl ((hcorrect.stored hpos.ne' hflush hlt).1.zero hzero.symm).2
  · exact Or.inr (c.sign_roundRat sign flags hpos hflush hr).1

end Context
end CrossFloat
