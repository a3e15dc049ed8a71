/-
Fused quotients of complex numbers are accurate.

The numerator and the denominator of a component are sums of two exact products.
Each is held up to a jammed bit, which is an error of less than 2^-127 of the
sum, and none at all when the sum has at most 128 significant bits.  The division
then is rounded as the exact quotient of the two held numbers.  So a component is
the correct rounding of a number within 2^-125 of its exact quotient.

The exponents of the sums are not bounded, and neither sum is ever rounded to a
format, so the size of the operands does not matter.
-/
import CrossFloat.Proofs.Complex

namespace CrossFloat

/-! ## Errors of held numbers -/

/-- The number is a count of at most `bits` bits in some place. -/
def FitsBits (bits : ℕ) (v : ℚ) : Prop :=
  ∃ (count : ℕ) (place : ℤ), count < 2 ^ bits ∧ |v| = count * 2 ^ place

namespace Nonzero

variable {t : Nonzero} {v : ℚ}

/-- The number in places of the last bit of the magnitude. -/
theorem Holds.le_places (h : t.Holds v) : 2 ^ 127 ≤ |v| / 2 ^ (t.exp - 127) := by
  have hmag := h.normalised
  rw [Normalised, h.jammed,
    le_roundOdd_iff (div_nonneg (abs_nonneg v) (two_zpow_pos _).le) (by decide)] at hmag
  exact_mod_cast hmag

theorem Holds.toRat_sub (h : t.Holds v) : |t.toRat - v| = abs (t.size - |v|) := by
  calc |t.toRat - v| = abs (t.sign.factor * (t.size - |v|)) := by
        rw [mul_sub, h.sign_mul]
        rfl
    _ = abs (t.size - |v|) := Sign.abs_factor_mul _ _

/-- The jammed bit is worth less than 2^-127 of the number. -/
theorem Holds.abs_toRat_sub_lt (h : t.Holds v) : |t.toRat - v| < 2 ^ (-127 : ℤ) * |v| := by
  have hpos := two_zpow_pos (t.exp - 127)
  have hplaces := h.le_places
  have hjam : |(t.mag.toNat : ℚ) - |v| / 2 ^ (t.exp - 127)| < 1 := by
    rcases roundOdd_spec (div_nonneg (abs_nonneg v) hpos.le) with heq | ⟨-, hlow, hhigh⟩
    · rw [h.jammed, ← heq, sub_self, abs_zero]
      exact one_pos
    · rw [h.jammed, abs_lt]
      constructor <;> linarith
  rw [h.toRat_sub, size]
  generalize hq : |v| / 2 ^ (t.exp - 127) = places at *
  have hv : |v| = places * 2 ^ (t.exp - 127) := (div_eq_iff hpos.ne').1 hq
  have hone : 1 ≤ 2 ^ (-127 : ℤ) * places := by
    have hscale : (2 : ℚ) ^ (-127 : ℤ) * 2 ^ 127 = 1 := by norm_num
    calc (1 : ℚ) = 2 ^ (-127 : ℤ) * 2 ^ 127 := hscale.symm
      _ ≤ _ := mul_le_mul_of_nonneg_left hplaces (two_zpow_pos _).le
  rw [hv, ← sub_mul, abs_mul, abs_of_pos hpos, ← mul_assoc]
  exact mul_lt_mul_of_pos_right (hjam.trans_le hone) hpos

/-- A number of at most 128 bits is held exactly. -/
theorem Holds.toRat_eq (h : t.Holds v) (hv : FitsBits 128 v) : t.toRat = v := by
  obtain ⟨count, place, hcount, habs⟩ := hv
  have hpos := two_zpow_pos (t.exp - 127)
  have hplaces := h.le_places
  rw [← sub_eq_zero, ← abs_eq_zero, h.toRat_sub, abs_eq_zero, sub_eq_zero, size, h.jammed]
  -- The magnitude fills its 128 bits, so its last bit is not above the given place.
  have hfine : t.exp - 127 ≤ place := by
    by_contra hcoarse
    have hlt : |v| / 2 ^ (t.exp - 127) < 2 ^ 127 := by
      rw [div_lt_iff₀ hpos, habs]
      have hcount' : (count : ℚ) < 2 ^ 128 := by exact_mod_cast hcount
      have hplace : (2 : ℚ) ^ (place + 1) ≤ 2 ^ (t.exp - 127) := two_zpow_le_iff.2 (by omega)
      calc (count : ℚ) * 2 ^ place < 2 ^ 128 * 2 ^ place :=
            mul_lt_mul_of_pos_right hcount' (two_zpow_pos _)
        _ = 2 ^ 127 * 2 ^ (place + 1) := by
          rw [two_zpow_add]
          ring
        _ ≤ _ := mul_le_mul_of_nonneg_left hplace (by positivity)
    exact absurd hplaces (not_le.2 hlt)
  have hwhole : |v| / 2 ^ (t.exp - 127) =
      ((count * 2 ^ (place - (t.exp - 127)).toNat : ℕ) : ℚ) := by
    rw [div_eq_iff hpos.ne', habs, two_zpow_eq_natCast_mul hfine]
    push_cast
    ring
  rw [hwhole, roundOdd_natCast, ← hwhole, div_mul_cancel₀ _ hpos.ne']

end Nonzero

/-- Relative errors of at most one half in both parts of a quotient. -/
theorem abs_div_sub_div_lt {n n' d d' error : ℚ} (hd : d ≠ 0) (herror : error ≤ 1 / 2)
    (hn' : |n' - n| < error * |n|) (hd' : |d' - d| < error * |d|) :
    |n' / d' - n / d| < 4 * error * |n / d| := by
  have hdpos : 0 < |d| := abs_pos.2 hd
  have hhalf : |d| / 2 ≤ |d'| := by
    have hbound : error * |d| ≤ 1 / 2 * |d| := mul_le_mul_of_nonneg_right herror hdpos.le
    have htriangle := abs_sub_abs_le_abs_sub d d'
    rw [abs_sub_comm] at htriangle
    linarith
  have hdpos' : 0 < |d'| := by linarith
  have hd'ne : d' ≠ 0 := abs_pos.1 hdpos'
  have hcross : |n' * d - n * d'| < 2 * error * |n| * |d| := by
    have hsplit : n' * d - n * d' = (n' - n) * d - n * (d' - d) := by ring
    have hleft : |(n' - n) * d| < error * |n| * |d| := by
      rw [abs_mul]
      exact mul_lt_mul_of_pos_right hn' hdpos
    have hright : |n * (d' - d)| ≤ |n| * (error * |d|) := by
      rw [abs_mul]
      exact mul_le_mul_of_nonneg_left hd'.le (abs_nonneg n)
    have htriangle := abs_sub ((n' - n) * d) (n * (d' - d))
    rw [hsplit]
    linarith
  have hnonneg : 0 ≤ error * |n| := (abs_nonneg _).trans hn'.le
  have hdiff : n' / d' - n / d = (n' * d - n * d') / (d' * d) := by
    rw [div_sub_div _ _ hd'ne hd, mul_comm d' n]
  rw [hdiff, abs_div, abs_mul, div_lt_iff₀ (mul_pos hdpos' hdpos), abs_div]
  calc |n' * d - n * d'| < 2 * error * |n| * |d| := hcross
    _ = 4 * (error * |n|) * (|d| / 2) := by ring
    _ ≤ 4 * (error * |n|) * |d'| := mul_le_mul_of_nonneg_left hhalf (by linarith)
    _ = 4 * error * (|n| / |d|) * (|d'| * |d|) := by
      field_simp

theorem mul_pos_of_abs_sub_lt {q q' : ℚ} (h : |q' - q| < |q|) : 0 < q' * q := by
  rcases le_or_gt 0 q with hq | hq
  · rw [abs_of_nonneg hq, abs_lt] at h
    have hq' : 0 < q' := by linarith
    exact mul_pos hq' (lt_of_le_of_ne hq (by rintro rfl; linarith))
  · rw [abs_of_neg hq, abs_lt] at h
    exact mul_pos_of_neg_of_neg (by linarith) hq

/-! ## Quotients -/

/-- `r` is a zero if the numerator is, and otherwise the correct rounding of a
number that has the sign of the quotient `n / d` and is within 2^-125 of it.  The
number is the quotient itself when both parts have at most 128 bits. -/
structure AccurateQuotient (c : Context) (n d : ℚ) (flags : Flags) (r : Value) : Prop where
  zero : n = 0 → r.kind = .zero ∧ r.flags = flags
  rounded : n ≠ 0 → ∃ q : ℚ, 0 < q * (n / d) ∧ |q - n / d| < 2 ^ (-125 : ℤ) * |n / d| ∧
    (FitsBits 128 n → FitsBits 128 d → q = n / d) ∧
    CorrectRounding c (Sign.ofRat q) |q| flags r

theorem Quantity.Holds.accurateQuotient {x : Quantity} {p : SignedRat} (hx : x.Holds p)
    {denominator : Nonzero} {d : ℚ} (hd : denominator.Holds d) (flags : Flags) (c : Context) :
    AccurateQuotient c p.value d flags ((x.quotient denominator flags c).round c) := by
  cases x with
  | zero sign =>
    refine ⟨fun _ => ⟨rfl, Flags.empty_union _⟩, fun hne => absurd hx.1 hne⟩
  | nonzero t =>
    have ht : t.Holds p.value := hx
    refine ⟨fun hzero => absurd hzero ht.ne_zero, fun hne => ?_⟩
    have hclose := abs_div_sub_div_lt hd.ne_zero (by norm_num) ht.abs_toRat_sub_lt
      hd.abs_toRat_sub_lt
    have hscale : 4 * (2 : ℚ) ^ (-127 : ℤ) = 2 ^ (-125 : ℤ) := by norm_num
    rw [hscale] at hclose
    refine ⟨t.toRat / denominator.toRat, mul_pos_of_abs_sub_lt (hclose.trans_le ?_), hclose,
      fun hn hd' => ?_, ?_⟩
    · exact mul_le_of_le_one_left (abs_nonneg _) (by norm_num)
    · rw [ht.toRat_eq hn, hd.toRat_eq hd']
    · rw [correctRounding_iff (abs_nonneg _)]
      exact Nonzero.round_quotient ht.normalised hd.normalised flags c

theorem Value.IsNumber.toRat_eq_zero_iff {x : Value} (hx : x.IsNumber) :
    x.toRat = 0 ↔ x.isZero := by
  obtain ⟨sign, flags, magnitude⟩ := x
  rcases hx.cases with rfl | ⟨range, exponent, significand, rfl, hs⟩
  · exact iff_of_true (toRat_zero sign flags) rfl
  · have hpos := magnitude_pos range exponent hs
    rw [isZero_finite, ← abs_eq_zero, toRat, Sign.abs_factor_mul, abs_of_pos hpos]
    exact iff_of_false hpos.ne' Bool.false_ne_true

theorem Value.IsNumber.toRat_ne_zero {x : Value} (hx : x.IsNumber) (hzero : x.isZero = false) :
    x.toRat ≠ 0 := by
  rw [ne_eq, hx.toRat_eq_zero_iff, hzero]
  exact Bool.false_ne_true

namespace Complex

variable {x y : Complex}

/-- The squared magnitude of a divisor is held, whatever its size. -/
theorem exists_squaredMagnitude (hy : y.IsNumber) (hne : ¬ (y.re.isZero ∧ y.im.isZero))
    (c : Context) :
    ∃ denominator, y.squaredMagnitude c = .nonzero denominator ∧
      denominator.Holds (y.re.toRat * y.re.toRat + y.im.toRat * y.im.toRat) := by
  have hholds := (Quantity.exact_ofProduct hy.1 hy.1).add (Quantity.exact_ofProduct hy.2 hy.2) c
  rw [squaredMagnitude]
  generalize (Quantity.ofProduct y.re y.re).add (Quantity.ofProduct y.im y.im) c = z at hholds
  cases z with
  | zero sign =>
    have hsum : y.re.toRat * y.re.toRat + y.im.toRat * y.im.toRat = 0 := hholds.1
    rw [mul_self_add_mul_self_eq_zero, hy.1.toRat_eq_zero_iff, hy.2.toRat_eq_zero_iff] at hsum
    exact absurd hsum hne
  | nonzero denominator => exact ⟨denominator, rfl, hholds⟩

theorem quotient_eq_fusedQuotient (hx : x.IsNumber) (hy : y.IsNumber) {c : Context}
    {denominator : Nonzero} (hd : y.squaredMagnitude c = .nonzero denominator) :
    x.quotient y c = x.fusedQuotient y denominator c := by
  rw [quotient, hx.isFinite, hy.isFinite, Bool.and_self, if_pos rfl, hd]

/-- Both components of a quotient are accurate.  The squared magnitude that they
are divided by is a nonzero number that is held, however large or small it is. -/
theorem accurateQuotient_components_div (hx : x.IsNumber) (hy : y.IsNumber)
    (hne : ¬ (y.re.isZero ∧ y.im.isZero)) (c : Context) :
    (∃ denominator, y.squaredMagnitude c = .nonzero denominator ∧
        denominator.Holds (y.re.toRat * y.re.toRat + y.im.toRat * y.im.toRat) ∧
        x.quotient y c = x.fusedQuotient y denominator c) ∧
      AccurateQuotient c (x.re.toRat * y.re.toRat + x.im.toRat * y.im.toRat)
        (y.re.toRat * y.re.toRat + y.im.toRat * y.im.toRat)
        (x.re.flags ∪ x.im.flags ∪ (y.re.flags ∪ y.im.flags)) (x.div y c).re ∧
      AccurateQuotient c (x.im.toRat * y.re.toRat - x.re.toRat * y.im.toRat)
        (y.re.toRat * y.re.toRat + y.im.toRat * y.im.toRat)
        (x.re.flags ∪ x.im.flags ∪ (y.re.flags ∪ y.im.flags)) (x.div y c).im := by
  obtain ⟨denominator, hd, hholds⟩ := exists_squaredMagnitude hy hne c
  have hfused := quotient_eq_fusedQuotient hx hy hd
  have hre := (Quantity.exact_ofProduct hx.1 hy.1).add (Quantity.exact_ofProduct hx.2 hy.2) c
  have him := (Quantity.exact_ofProduct hx.2 hy.1).add (Quantity.exact_ofProduct hx.1 hy.2).neg c
  refine ⟨⟨denominator, hd, hholds, hfused⟩, ?_⟩
  rw [div, hfused, sub_eq_add_neg]
  exact ⟨hre.accurateQuotient hholds _ c, him.accurateQuotient hholds _ c⟩

/-- The squared magnitude of the divisor may be far beyond the range of the
format. -/
theorem accurateQuotient_components_div_large :
    let x : Complex := ⟨Format.double.minPositive .positive, Format.double.maxFinite .negative⟩
    let y : Complex := ⟨Format.double.maxFinite .negative, Format.double.minPositive .negative⟩
    x.IsNumber ∧ y.IsNumber ∧ ¬ (y.re.isZero ∧ y.im.isZero) ∧
      AccurateQuotient Format.double.alone
        (x.re.toRat * y.re.toRat + x.im.toRat * y.im.toRat)
        (y.re.toRat * y.re.toRat + y.im.toRat * y.im.toRat) ∅ (x.div y Format.double.alone).re := by
  have hx : (Complex.mk (Format.double.minPositive .positive)
      (Format.double.maxFinite .negative)).IsNumber := by decide
  have hy : (Complex.mk (Format.double.maxFinite .negative)
      (Format.double.minPositive .negative)).IsNumber := by decide
  exact ⟨hx, hy, by decide,
    (accurateQuotient_components_div hx hy (by decide) Format.double.alone).2.1⟩

end Complex
end CrossFloat
