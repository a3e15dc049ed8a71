/-
Sums that lose nothing.

A sum of numbers is rounded once, so it is exact if the format has the exact sum.  Then
nothing is raised but the report of a denormal result.

With gradual underflow this is so for the difference of two numbers of one sign, neither
more than twice the other.  No mode takes part in it, and the radix does not matter,
although the precision of a hexadecimal number varies with its leading digit.

It is so as well for every sum and difference below the normal range.  Both operands are
counts of the least place, and below the normal range no place is finer than that.  So a
sum that is reported to be tiny has lost nothing.
-/
import CrossFloat.Proofs.Arithmetic.Folding
import CrossFloat.Proofs.Rounding.Grid

namespace CrossFloat

/-! ## Reports of tiny results -/

namespace Flags

theorem underflow_union (f g : Flags) : (f ∪ g).underflow = (f.underflow || g.underflow) := rfl

end Flags

namespace Context

variable (c : Context) (sign : Sign) (flags : Flags) {v : ℚ}

/-- No rounding in the normal range reports a tiny result. -/
theorem underflow_roundRat_of_normal (hv : 2 ^ c.format.minExponent ≤ v) :
    (c.roundRat sign v flags).flags.underflow = flags.underflow := by
  have hpos : 0 < v := (two_zpow_pos _).trans_le hv
  have hkept : ¬ c.format.Flushes v := fun hflush => hflush.1.not_ge hv
  have hcorrect : CorrectRounding c sign v flags (c.roundRat sign v flags) :=
    correctRounding_roundRat hpos.le
  rcases le_or_gt (2 ^ (c.format.maxExponent + 1)) (c.rounded sign v) with hlarge | hlt
  · by_cases haway : c.format.hasSpecials ∧ c.mode.LeavesRange sign
    · rw [hcorrect.infinite hpos.ne' hkept hlarge haway, Flags.underflow_union,
        Flags.underflow_union]
      simp [Flags.onOverflow, Flags.onInexactHigh, Flags.none]
    · rw [hcorrect.largest hpos.ne' hkept hlarge haway]
      simp [Value.raise, Format.maxFinite, Flags.underflow_union, Flags.onOverflow,
        Flags.onInexactLow, Flags.none]
  · rw [(hcorrect.stored hpos.ne' hkept hlt).2, raised, if_neg (not_lt.2 hv), Flags.empty_union,
      Flags.underflow_union]
    split_ifs <;> simp [Flags.onInexactLow, Flags.onInexactHigh, Flags.none, Flags.empty_eq]

end Context

/-! ## Sums -/

namespace Value

variable {x y : Value} {c : Context}

theorem factor_sumSign_mul_abs (x y : Value) (signY : Sign) (c : Context) :
    (x.sumSign y signY c).factor * |x.toRat + signY.factor * y.magnitude.toRat| =
      x.toRat + signY.factor * y.magnitude.toRat := by
  rw [sumSign]
  by_cases hzero : x.toRat + signY.factor * y.magnitude.toRat = 0
  · rw [hzero, abs_zero, mul_zero]
  · rw [if_pos hzero, Sign.factor_ofRat_mul_abs]

/-- A sum that the format has is exact, and only a denormal one is reported. -/
theorem exact_sumWithSign (hx : x.IsNumber) (hy : y.IsNumber) (signY : Sign)
    (hnumber : c.format.HasNumber |x.toRat + signY.factor * y.magnitude.toRat|) :
    let r := (x.sumWithSign y signY c).round c
    r.isFinite ∧ r.toRat = x.toRat + signY.factor * y.magnitude.toRat ∧
      r.flags = x.flags ∪ y.flags ∪ if r.isDenormal then .onUnderflow else ∅ := by
  intro r
  have hrounded : r = c.roundRat (x.sumSign y signY c)
      |x.toRat + signY.factor * y.magnitude.toRat| (x.flags ∪ y.flags) :=
    round_sumWithSign hx hy signY c
  obtain ⟨hrepresents, hvalue, hflags⟩ :=
    c.exact_roundRat (x.sumSign y signY c) (x.flags ∪ y.flags) hnumber
  rw [factor_sumSign_mul_abs] at hvalue
  rw [← hrounded] at hrepresents hvalue hflags
  exact ⟨hrepresents.isFinite, hvalue, hflags⟩

/-! ## Close operands -/

/-- With gradual underflow the difference of two numbers of the format with one sign is
exact, if neither is more than twice the other.  It raises nothing but the report of a
denormal result. -/
theorem sub_exact_of_close (hgradual : c.format.underflow = .gradual) (hx : c.format.Contains x)
    (hy : c.format.Contains y) (hfiniteX : x.isFinite) (hfiniteY : y.isFinite)
    (hsign : x.sign = y.sign) (hxy : |x.toRat| ≤ 2 * |y.toRat|)
    (hyx : |y.toRat| ≤ 2 * |x.toRat|) :
    (x.sub y c).isFinite ∧ (x.sub y c).toRat = x.toRat - y.toRat ∧
      (x.sub y c).flags =
        x.flags ∪ y.flags ∪ if (x.sub y c).isDenormal then .onUnderflow else ∅ := by
  have hsize : |x.toRat - y.toRat| = |x.magnitude.toRat - y.magnitude.toRat| := by
    rw [toRat, toRat, hsign, ← mul_sub, Sign.abs_factor_mul]
  have hnumber : c.format.HasNumber |x.toRat - y.toRat| := by
    rw [abs_toRat, abs_toRat] at hxy hyx
    rw [hsize]
    exact (hx.represents hfiniteX).number.abs_sub hgradual (hy.represents hfiniteY).number hxy hyx
  rw [toRat_sub_toRat] at hnumber ⊢
  exact exact_sumWithSign (hx.wellFormed.isNumber hfiniteX) (hy.wellFormed.isNumber hfiniteY)
    y.sign.flip hnumber

/-- A power of 16 and the number before it, whose leading digit has three bits more.  Their
difference is the smallest number there is, sixteen times finer than the last place of
the first. -/
theorem sub_exact_of_close_power :
    let c : Context := ⟨⟨.hexadecimal ⟨7, 6, by decide, by decide⟩, .towardZero, .gradual⟩,
      some .towardPositive⟩
    let x : Value := ⟨.negative, ∅, .finite .normal (-256) 0x8000000000000000⟩
    let y : Value := ⟨.negative, .onInvalid, .finite .normal (-257) 0xffffff0000000000⟩
    c.format.underflow = .gradual ∧ c.format.Contains x ∧ c.format.Contains y ∧ x.isFinite ∧
      y.isFinite ∧ x.sign = y.sign ∧ |x.toRat| ≤ 2 * |y.toRat| ∧ |y.toRat| ≤ 2 * |x.toRat| ∧
      (x.sub y c).toRat = x.toRat - y.toRat ∧ (x.sub y c).flags = .onInvalid ∪ .onUnderflow := by
  intro c x y
  have hx : c.format.Contains x :=
    .normal (by decide) (by decide) (by decide)
      ((c.format.toRat_eq_count_iff _ _ _ (2 ^ 20)).2 (by decide))
  have hy : c.format.Contains y :=
    .normal (by decide) (by decide) (by decide)
      ((c.format.toRat_eq_count_iff _ _ _ (2 ^ 24 - 1)).2 (by decide))
  have hxy : |x.toRat| ≤ 2 * |y.toRat| := by
    rw [abs_toRat, abs_toRat]
    decide +kernel
  have hyx : |y.toRat| ≤ 2 * |x.toRat| := by
    rw [abs_toRat, abs_toRat]
    decide +kernel
  obtain ⟨-, hvalue, hflags⟩ := sub_exact_of_close (c := c) rfl hx hy rfl rfl rfl hxy hyx
  have hdenormal : (x.sub y c).isDenormal = true := by decide +kernel
  rw [hdenormal] at hflags
  exact ⟨rfl, hx, hy, rfl, rfl, rfl, hxy, hyx, hvalue, hflags⟩

/-! ## Tiny results -/

/-- The result `r` of an operation with the exact value `v` is reported to be tiny if `v`
is, and only then.  Nothing is lost if it is reported so. -/
structure ExactIfTiny (F : Format) (v : ℚ) (r : Value) : Prop where
  underflow_iff : r.flags.underflow = true ↔ v ≠ 0 ∧ |v| < 2 ^ F.minExponent
  toRat_eq : r.flags.underflow = true → r.isFinite ∧ r.toRat = v
  silent : r.flags.underflow = true → ¬ r.flags.inexactLow ∧ ¬ r.flags.inexactHigh

theorem exactIfTiny_sumWithSign (hgradual : c.format.underflow = .gradual)
    (hx : c.format.Represents x) (hy : c.format.Represents y) (hnumberX : x.IsNumber)
    (hnumberY : y.IsNumber) (hsilentX : x.flags = ∅) (hsilentY : y.flags = ∅) (signY : Sign) :
    ExactIfTiny c.format (x.toRat + signY.factor * y.magnitude.toRat)
      ((x.sumWithSign y signY c).round c) := by
  have hrounded := round_sumWithSign hnumberX hnumberY signY c
  rw [hsilentX, hsilentY, Flags.union_self] at hrounded
  rcases lt_or_ge |x.toRat + signY.factor * y.magnitude.toRat| (2 ^ c.format.minExponent) with
    htiny | hnormal
  · have hcountY : signY.factor * y.magnitude.toRat ∈
        grid (c.format.lastPlace c.format.minExponent) := by
      refine Format.HasNumber.mem_least_grid ?_
      rw [Magnitude.abs_factor_mul]
      exact hy.number
    have hnumber := Format.hasNumber_of_tiny hgradual
      (abs_mem_iff.2 (add_mem hx.toRat_mem_grid hcountY)) (abs_nonneg _) htiny
    obtain ⟨hfinite, hvalue, -⟩ := exact_sumWithSign hnumberX hnumberY signY hnumber
    have hflags : ((x.sumWithSign y signY c).round c).flags =
        if x.toRat + signY.factor * y.magnitude.toRat ≠ 0 then .onUnderflow else ∅ := by
      rw [hrounded, c.roundRat_of_hasNumber _ _ hnumber]
      simp [Value.raise, Format.store_flags, htiny]
    refine ⟨?_, fun _ => ⟨hfinite, hvalue⟩, fun _ => ?_⟩
    · rw [hflags]
      split_ifs with hne
      · exact iff_of_true rfl ⟨hne, htiny⟩
      · exact iff_of_false Bool.false_ne_true fun h => hne h.1
    · rw [hflags]
      split_ifs <;> exact ⟨Bool.false_ne_true, Bool.false_ne_true⟩
  · have hquiet := c.underflow_roundRat_of_normal (x.sumSign y signY c) ∅ hnormal
    rw [← hrounded] at hquiet
    have hnot : ¬ ((x.sumWithSign y signY c).round c).flags.underflow = true := by
      rw [hquiet]
      exact Bool.false_ne_true
    exact ⟨iff_of_false hnot fun h => h.2.not_ge hnormal, fun h => absurd h hnot,
      fun h => absurd h hnot⟩

/-- With gradual underflow a sum or a difference of two numbers of the format that is
reported to be tiny is exact.  These are all sums and differences below the normal
range but zero. -/
theorem add_sub_exact_of_underflow (hgradual : c.format.underflow = .gradual)
    (hx : c.format.Contains x) (hy : c.format.Contains y) (hfiniteX : x.isFinite)
    (hfiniteY : y.isFinite) (hsilentX : x.flags = ∅) (hsilentY : y.flags = ∅) :
    ExactIfTiny c.format (x.toRat + y.toRat) (x.add y c) ∧
      ExactIfTiny c.format (x.toRat - y.toRat) (x.sub y c) := by
  have hsum (signY : Sign) := exactIfTiny_sumWithSign hgradual (hx.represents hfiniteX)
    (hy.represents hfiniteY) (hx.wellFormed.isNumber hfiniteX) (hy.wellFormed.isNumber hfiniteY)
    hsilentX hsilentY signY
  rw [toRat_sub_toRat]
  exact ⟨hsum y.sign, hsum y.sign.flip⟩

/-- The smallest normal number of a base-16 format less the smallest number, which is a
count of 2^20 - 1 least places. -/
theorem add_sub_exact_of_underflow_minNormal :
    let c : Context := ⟨⟨.hexadecimal ⟨7, 6, by decide, by decide⟩, .towardZero, .gradual⟩,
      some .towardPositive⟩
    let x := c.format.minNormal .negative
    let y := c.format.minPositive .negative
    c.format.underflow = .gradual ∧ c.format.Contains x ∧ c.format.Contains y ∧ x.isFinite ∧
      y.isFinite ∧ x.flags = ∅ ∧ y.flags = ∅ ∧ (x.sub y c).flags.underflow = true ∧
      (x.sub y c).toRat = x.toRat - y.toRat ∧ ¬ (x.sub y c).flags.inexactLow ∧
      ¬ (x.sub y c).flags.inexactHigh ∧ ExactIfTiny c.format (x.toRat + y.toRat) (x.add y c) := by
  intro c x y
  have hx : c.format.Contains x :=
    .normal (by decide) (by decide) (by decide)
      ((c.format.toRat_eq_count_iff _ _ _ (2 ^ 20)).2 (by decide))
  have hy : c.format.Contains y :=
    .denormal rfl (by decide) (by decide) ((c.format.toRat_eq_count_iff _ _ _ 1).2 (by decide))
  have htiny : (x.sub y c).flags.underflow = true := by decide +kernel
  obtain ⟨hadd, hsub⟩ := add_sub_exact_of_underflow (c := c) rfl hx hy rfl rfl rfl rfl
  obtain ⟨hlow, hhigh⟩ := hsub.silent htiny
  exact ⟨rfl, hx, hy, rfl, rfl, rfl, rfl, htiny, (hsub.toRat_eq htiny).2, hlow, hhigh, hadd⟩

end Value
end CrossFloat
