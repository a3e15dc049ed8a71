/-
Where a complex quotient is rounded correctly, and where it is not.

A component of a fused quotient is the correct rounding of a number `q'` close to
its exact quotient `q`.  It is the correct rounding of `q` itself in two cases.
Either both sums have at most 128 significant bits, and then `q'` is `q`.  Or `q`
keeps a distance from the candidates of a rounding and from the points halfway
between them, and then `q'` lies in the same cell.

Neither case can be relaxed much.  A quotient that is no candidate and no halfway
point, but closer to one than the distance asked for, may be rounded as if it
were that point.  A sum of two products may need more than 128 bits although they
are at most 64 binades apart, and then a quotient that is a candidate may be
rounded to another one.
-/
import CrossFloat.Proofs.Complex.Quotient
import CrossFloat.Proofs.Rounding.Representable

namespace CrossFloat

/-! ## Distance from the candidates -/

namespace Format

/-- The distance from `v` to any multiple of half the last place near `v` is at
least 2^-125 of `v`. -/
def KeepsDistance (F : Format) (v : ℚ) : Prop :=
  ∀ m : ℕ, 2 ^ (-125 : ℤ) * v ≤ |m * 2 ^ (F.place v - 1) - v|

variable {F : Format} {v w : ℚ}

theorem KeepsDistance.exists_inCell (h : F.KeepsDistance v) (hv : 0 < v)
    (hw : |w - v| < 2 ^ (-125 : ℤ) * v) :
    ∃ m : ℕ, InCell m (F.place v - 1) v ∧ InCell m (F.place v - 1) w := by
  have hunit := two_zpow_pos (F.place v - 1)
  have hdistance : 0 < 2 ^ (-125 : ℤ) * v := mul_pos (two_zpow_pos _) hv
  have hlow := h ⌊v / 2 ^ (F.place v - 1)⌋₊
  have hhigh := h (⌊v / 2 ^ (F.place v - 1)⌋₊ + 1)
  have hfloor := Nat.floor_le (div_nonneg hv.le hunit.le)
  have hceil := Nat.lt_floor_add_one (v / 2 ^ (F.place v - 1))
  rw [le_div_iff₀ hunit] at hfloor
  rw [div_lt_iff₀ hunit] at hceil
  generalize ⌊v / 2 ^ (F.place v - 1)⌋₊ = m at *
  rw [abs_of_nonpos (sub_nonpos.2 hfloor)] at hlow
  rw [Nat.cast_add_one, abs_of_pos (sub_pos.2 hceil)] at hhigh
  obtain ⟨hbelow, habove⟩ := abs_lt.1 hw
  exact ⟨m, ⟨by linarith, hceil⟩, by linarith, by linarith⟩

theorem KeepsDistance.roundRat_eq {c : Context} (h : c.format.KeepsDistance v) (hv : 0 < v)
    (hw : |w - v| < 2 ^ (-125 : ℤ) * v) (sign : Sign) (flags : Flags) :
    c.roundRat sign w flags = c.roundRat sign v flags := by
  obtain ⟨m, hcell, hcell'⟩ := h.exists_inCell hv hw
  exact (hcell.roundRat_eq hcell' (by omega) sign flags).symm

end Format

theorem Sign.ofRat_congr {q q' : ℚ} (h : 0 < q' * q) : ofRat q' = ofRat q := by
  rw [ofRat, ofRat]
  rcases pos_and_pos_or_neg_and_neg_of_mul_pos h with ⟨hq', hq⟩ | ⟨hq', hq⟩
  · rw [decide_eq_false hq'.not_gt, decide_eq_false hq.not_gt]
  · rw [decide_eq_true hq', decide_eq_true hq]

/-! ## Quotients that are rounded correctly -/

theorem AccurateQuotient.correctRounding {c : Context} {n d : ℚ} {flags : Flags} {r : Value}
    (h : AccurateQuotient c n d flags r) (hq : n / d ≠ 0)
    (hexact : c.format.KeepsDistance |n / d| ∨ FitsBits 128 n ∧ FitsBits 128 d) :
    CorrectRounding c (Sign.ofRat (n / d)) |n / d| flags r := by
  obtain ⟨q, hsign, hclose, hfits, hrounding⟩ := h.rounded (div_ne_zero_iff.1 hq).1
  rcases hexact with hdistance | ⟨hn, hd⟩
  · rw [correctRounding_iff (abs_nonneg _)] at hrounding ⊢
    have hclose' : abs (|q| - |n / d|) < 2 ^ (-125 : ℤ) * |n / d| :=
      (abs_abs_sub_abs_le _ _).trans_lt hclose
    rw [hrounding, Sign.ofRat_congr hsign,
      hdistance.roundRat_eq (abs_pos.2 hq) hclose']
  · rwa [hfits hn hd] at hrounding

/-- The number `2^exponent`. -/
def Value.powerOfTwo (exponent : ℤ) : Value :=
  ⟨.positive, ∅, .finite .normal exponent 0x8000000000000000⟩

theorem Value.toRat_powerOfTwo (exponent : ℤ) : (powerOfTwo exponent).toRat = 2 ^ exponent :=
  (one_mul _).trans (Magnitude.toRat_topBit ..)

namespace Complex

variable {x y : Complex}

/-- A component of a quotient is the correct rounding of its exact value, flags
included, if that value keeps its distance from the candidates and the halfway
points, or if the numerator and the squared magnitude of the divisor have at
most 128 bits. -/
theorem correctRounding_components_div (hx : x.IsNumber) (hy : y.IsNumber)
    (hne : ¬ (y.re.isZero ∧ y.im.isZero)) (c : Context) :
    let d := y.re.toRat * y.re.toRat + y.im.toRat * y.im.toRat
    let re := x.re.toRat * y.re.toRat + x.im.toRat * y.im.toRat
    let im := x.im.toRat * y.re.toRat - x.re.toRat * y.im.toRat
    let flags := x.re.flags ∪ x.im.flags ∪ (y.re.flags ∪ y.im.flags)
    (re / d ≠ 0 → c.format.KeepsDistance |re / d| ∨ FitsBits 128 re ∧ FitsBits 128 d →
        CorrectRounding c (Sign.ofRat (re / d)) |re / d| flags (x.div y c).re) ∧
      (im / d ≠ 0 → c.format.KeepsDistance |im / d| ∨ FitsBits 128 im ∧ FitsBits 128 d →
        CorrectRounding c (Sign.ofRat (im / d)) |im / d| flags (x.div y c).im) := by
  intro d re im flags
  obtain ⟨denominator, hd, hholds⟩ := exists_squaredMagnitude hy hne c
  have hre := (Quantity.exact_ofProduct hx.1 hy.1).add (Quantity.exact_ofProduct hx.2 hy.2) c
  have him := (Quantity.exact_ofProduct hx.2 hy.1).add (Quantity.exact_ofProduct hx.1 hy.2).neg c
  rw [div, quotient_eq_fusedQuotient hx hy hd]
  refine ⟨(hre.accurateQuotient hholds _ c).correctRounding, ?_⟩
  have hsub : im = x.im.toRat * y.re.toRat + -(x.re.toRat * y.im.toRat) := sub_eq_add_neg _ _
  rw [hsub]
  exact (him.accurateQuotient hholds _ c).correctRounding

/-- The real part of `(1 + i) / (1 + 2i)` is three fifths. -/
theorem correctRounding_components_div_fifths :
    let x : Complex := ⟨.powerOfTwo 0, .powerOfTwo 0⟩
    let y : Complex := ⟨.powerOfTwo 0, .powerOfTwo 1⟩
    x.IsNumber ∧ y.IsNumber ∧ ¬ (y.re.isZero ∧ y.im.isZero) ∧
      CorrectRounding Format.double.alone (Sign.ofRat (3 / 5)) (3 / 5) ∅
        (x.div y Format.double.alone).re := by
  intro x y
  have hx : x.IsNumber := by decide
  have hy : y.IsNumber := by decide
  have hne : ¬ (y.re.isZero ∧ y.im.isZero) := by decide
  have hone : (Value.powerOfTwo 0).toRat = 1 := Value.toRat_powerOfTwo 0
  have htwo : (Value.powerOfTwo 1).toRat = 2 := Value.toRat_powerOfTwo 1
  have hrounding := (correctRounding_components_div hx hy hne Format.double.alone).1
  simp only [x, y, hone, htwo] at hrounding
  norm_num at hrounding
  exact ⟨hx, hy, hne, hrounding
    (Or.inr ⟨⟨3, 0, by norm_num, by norm_num⟩, ⟨5, 0, by norm_num, by norm_num⟩⟩)⟩

/-! ## Quotients that are not rounded correctly -/

end Complex

namespace CorrectRounding

variable {c : Context} {sign : Sign} {v : ℚ} {flags : Flags} {x : Value}

/-- A number of the format is not rounded to another one. -/
theorem toRat_eq (h : CorrectRounding c sign v flags x) (hv : c.format.HasNumber v) :
    x.magnitude.toRat = v := by
  rw [correctRounding_iff hv.nonneg] at h
  have hclear := c.clearFlags_roundRat sign flags hv
  rw [← h] at hclear
  show x.clearFlags.magnitude.toRat = v
  rw [hclear]
  exact (hv.stores_store sign).toRat_eq hv.nonneg

end CorrectRounding

theorem Format.place_double {v : ℚ} {e : ℤ} (he : -1022 ≤ e) (hlow : 2 ^ e ≤ v)
    (hhigh : v < 2 ^ (e + 1)) : double.place v = e - 52 := by
  have hmin : double.minExponent = -1022 := rfl
  rw [place, log_eq_of_bounds hlow hhigh, hmin, max_eq_left he]
  show 1 * (e / 1 + 1) - 53 = e - 52
  omega

namespace Complex

/-- The real part of `(1 + 2^-50 i) / (1 + 2^-100 i)` exceeds one by less than
2^-149. -/
theorem not_correctRounding_near_one :
    let c : Context := ⟨.double, some .towardPositive⟩
    let x : Complex := ⟨.powerOfTwo 0, .powerOfTwo (-50)⟩
    let y : Complex := ⟨.powerOfTwo 0, .powerOfTwo (-100)⟩
    let q := (x.re.toRat * y.re.toRat + x.im.toRat * y.im.toRat) /
      (y.re.toRat * y.re.toRat + y.im.toRat * y.im.toRat)
    x.IsNumber ∧ y.IsNumber ∧ (∀ m : ℕ, (m : ℚ) * 2 ^ (c.format.place |q| - 1) ≠ |q|) ∧
      ¬ CorrectRounding c (Sign.ofRat q) |q| ∅ (x.div y c).re := by
  intro c x y q
  have hq : |q| = (2 ^ 200 + 2 ^ 50) / (2 ^ 200 + 1) := by
    simp only [q, x, y, Value.toRat_powerOfTwo]
    norm_num
  have hplace : c.format.place |q| = 0 - 52 := by
    apply Format.place_double (by decide) <;> rw [hq] <;> norm_num
  have hbetween (m : ℕ) : (m : ℚ) * 2 ^ (c.format.place |q| - 1) ≠ |q| := by
    rw [hplace, hq]
    intro heq
    have hcross : (m : ℚ) * (2 ^ 200 + 1) = 2 ^ 53 * (2 ^ 200 + 2 ^ 50) := by
      field_simp at heq
      norm_num at heq ⊢
      linarith
    have hdvd : 2 ^ 200 + 1 ∣ 2 ^ 53 * (2 ^ 200 + 2 ^ 50) :=
      Dvd.intro_left m (by exact_mod_cast hcross)
    exact absurd hdvd (by decide)
  refine ⟨by decide, by decide, hbetween, fun hrounding => ?_⟩
  have hexact : (x.div y c).re.flags = ∅ := by decide +kernel
  have hinexact := hrounding.inexact fun m heq => hbetween (2 * m) <| by
    refine Eq.trans ?_ heq
    rw [zpow_sub_one₀ (by norm_num)]
    push_cast
    ring
  rw [hexact] at hinexact
  exact absurd hinexact (by decide)

theorem log_product (e₁ e₂ : ℤ) {s₁ s₂ : UInt64} (hlow : 2 ^ 126 ≤ s₁.toNat * s₂.toNat)
    (hhigh : s₁.toNat * s₂.toNat < 2 ^ 127) :
    Int.log 2 |(Value.mk .positive ∅ (.finite .normal e₁ s₁)).toRat *
      (Value.mk .positive ∅ (.finite .normal e₂ s₂)).toRat| = e₁ + e₂ := by
  have hproduct : (Value.mk .positive ∅ (.finite .normal e₁ s₁)).toRat *
      (Value.mk .positive ∅ (.finite .normal e₂ s₂)).toRat =
        ((s₁.toNat * s₂.toNat : ℕ) : ℚ) * 2 ^ (e₁ + e₂ - (126 : ℕ)) := by
    show (1 * (s₁.toNat * 2 ^ (e₁ - 63)) : ℚ) * (1 * (s₂.toNat * 2 ^ (e₂ - 63))) = _
    rw [show e₁ + e₂ - (126 : ℕ) = (e₁ - 63) + (e₂ - 63) by omega, two_zpow_add]
    push_cast
    ring
  rw [hproduct, abs_of_nonneg (mul_nonneg (Nat.cast_nonneg _) (two_zpow_pos _).le)]
  exact log_natCast_mul_zpow hlow hhigh _

/-- The divisor is `(1 + 2^-50) * (1 + 2^-32 i)`, and the dividend is three times
as large.  In both sums the leading bits of the products are 64 places apart. -/
theorem not_correctRounding_three :
    let c : Context := ⟨.double, some .towardZero⟩
    let x : Complex := ⟨⟨.positive, ∅, .finite .normal 1 0xc000000000003000⟩,
      ⟨.positive, ∅, .finite .normal (-31) 0xc000000000003000⟩⟩
    let y : Complex := ⟨⟨.positive, ∅, .finite .normal 0 0x8000000000002000⟩,
      ⟨.positive, ∅, .finite .normal (-32) 0x8000000000002000⟩⟩
    let q := (x.re.toRat * y.re.toRat + x.im.toRat * y.im.toRat) /
      (y.re.toRat * y.re.toRat + y.im.toRat * y.im.toRat)
    x.IsNumber ∧ y.IsNumber ∧
      Int.log 2 |x.re.toRat * y.re.toRat| - Int.log 2 |x.im.toRat * y.im.toRat| = 64 ∧
      Int.log 2 |y.re.toRat * y.re.toRat| - Int.log 2 |y.im.toRat * y.im.toRat| = 64 ∧
      ¬ CorrectRounding c (Sign.ofRat q) |q| ∅ (x.div y c).re := by
  intro c x y q
  have hlog₁ : Int.log 2 |x.re.toRat * y.re.toRat| = 1 :=
    log_product 1 0 (by decide) (by decide)
  have hlog₂ : Int.log 2 |x.im.toRat * y.im.toRat| = -63 :=
    log_product (-31) (-32) (by decide) (by decide)
  have hlog₃ : Int.log 2 |y.re.toRat * y.re.toRat| = 0 :=
    log_product 0 0 (by decide) (by decide)
  have hlog₄ : Int.log 2 |y.im.toRat * y.im.toRat| = -64 :=
    log_product (-32) (-32) (by decide) (by decide)
  refine ⟨by decide, by decide, by rw [hlog₁, hlog₂]; rfl, by rw [hlog₃, hlog₄]; rfl,
    fun hrounding => ?_⟩
  have hcount : (0xc000000000000000 : UInt64).toNat = 3 * 2 ^ 51 * 2 ^ c.format.lastBit 1 := by
    decide
  have hthree : c.format.Represents ⟨.positive, ∅, .finite .normal 1 0xc000000000000000⟩ :=
    Format.represents_normal (by decide) (by decide) (by decide) hcount .positive ∅
  have hq : |q| = (Magnitude.finite .normal 1 0xc000000000000000).toRat := by
    simp only [q, x, y, Value.toRat, Magnitude.toRat, Sign.factor, UInt64.toNat_ofNat]
    norm_num
  have hvalue := hrounding.toRat_eq (hq ▸ hthree.number)
  have hresult : (x.div y c).re.magnitude = .finite .normal 1 0xbffffffffffff800 := by
    decide +kernel
  rw [hresult, hq] at hvalue
  simp only [Magnitude.toRat, UInt64.toNat_ofNat] at hvalue
  norm_num at hvalue

end Complex
end CrossFloat
