/-
The four operations round their exact results correctly.

For two numbers each operation returns what a single correct rounding of the
rational result gives, with the flags of both operands.  A product or a quotient
that is exactly zero takes the product of the signs.  A sum that is exactly zero
takes the sign of its operands if they are zeros with a common sign, and
otherwise the sign that the rounding mode asks for.

The tables of the operations split on the magnitudes.  A zero operand leaves the
other one to be rounded, and two nonzero operands are combined at working
precision.
-/
import CrossFloat.Arithmetic
import CrossFloat.Proofs.Nonzero.Sum

namespace CrossFloat

/-! ## Operands -/

namespace Value

theorem toRat_zero (sign : Sign) (flags : Flags) : (Value.mk sign flags .zero).toRat = 0 :=
  mul_zero _

theorem isZero_finite (sign : Sign) (flags : Flags) (range : Range) (exponent : ℤ)
    (significand : UInt64) :
    (Value.mk sign flags (.finite range exponent significand)).isZero = false := by
  cases range <;> rfl

theorem magnitude_pos (range : Range) (exponent : ℤ) {significand : UInt64}
    (hs : significand ≠ 0) : 0 < (Magnitude.finite range exponent significand).toRat :=
  mul_pos (by exact_mod_cast Limb.toNat_pos hs) (two_zpow_pos _)

theorem IsNumber.cases {x : Value} (h : x.IsNumber) :
    x.magnitude = .zero ∨
      ∃ range exponent significand, x.magnitude = .finite range exponent significand ∧
        significand ≠ 0 := by
  rw [IsNumber] at h
  cases hx : x.magnitude with
  | zero => exact Or.inl rfl
  | finite range exponent significand =>
    rw [hx] at h
    exact Or.inr ⟨_, _, _, rfl, h⟩
  | infinite | nan =>
    rw [hx] at h
    exact absurd h id

theorem IsNumber.isFinite {x : Value} (h : x.IsNumber) : x.isFinite = true := by
  rcases h.cases with hx | ⟨range, exponent, significand, hx, -⟩ <;> rw [Value.isFinite, hx]

end Value

/-! ## Sums and differences -/

theorem Context.zeroSumSign_eq_negative_iff (c : Context) :
    c.zeroSumSign = .negative ↔ c.mode = .towardNegative := by
  rw [zeroSumSign, ← beq_iff_eq (a := c.mode)]
  cases c.mode == .towardNegative <;> simp [Sign.ofNegative]

/-- `r` is the correct outcome of a sum whose exact value is `v`, where the second
operand counts with the sign `signY`. -/
structure CorrectSum (c : Context) (x y : Value) (signY : Sign) (v : ℚ) (r : Value) : Prop where
  rounded : v ≠ 0 → CorrectRounding c (Sign.ofRat v) |v| (x.flags ∪ y.flags) r
  zero : v = 0 → r.magnitude = .zero ∧ r.flags = x.flags ∪ y.flags
  unsigned : v = 0 → ¬ c.format.hasNegativeZero → r.sign = .positive
  common : v = 0 → c.format.hasNegativeZero → x.isZero ∧ y.isZero ∧ x.sign = signY →
    r.sign = signY
  cancelled : v = 0 → c.format.hasNegativeZero → ¬ (x.isZero ∧ y.isZero ∧ x.sign = signY) →
    (r.sign = .negative ↔ c.mode = .towardNegative)

namespace CorrectSum

variable {c : Context} {x y : Value} {signY : Sign} {v : ℚ}

theorem of_rounded (hv : v ≠ 0) {r : Value}
    (hr : r = c.roundRat (Sign.ofRat v) |v| (x.flags ∪ y.flags)) :
    CorrectSum c x y signY v r :=
  ⟨fun _ => (correctRounding_iff (abs_nonneg v)).2 hr, fun h => absurd h hv,
    fun h => absurd h hv, fun h => absurd h hv, fun h => absurd h hv⟩

theorem of_zero (sign : Sign) (hcommon : x.isZero ∧ y.isZero ∧ x.sign = signY → sign = signY)
    (hcancelled : ¬ (x.isZero ∧ y.isZero ∧ x.sign = signY) → sign = c.zeroSumSign) :
    CorrectSum c x y signY 0 ((c.format.zero sign).raise (x.flags ∪ y.flags)) := by
  refine ⟨fun h => absurd rfl h, fun _ => ⟨rfl, Flags.empty_union _⟩, fun _ hunsigned => ?_,
    fun _ hsigned hboth => ?_, fun _ hsigned hnot => ?_⟩
  · show (if c.format.hasNegativeZero then sign else .positive) = Sign.positive
    rw [if_neg hunsigned]
  · show (if c.format.hasNegativeZero then sign else .positive) = signY
    rw [if_pos hsigned, hcommon hboth]
  · show (if c.format.hasNegativeZero then sign else .positive) = Sign.negative ↔ _
    rw [if_pos hsigned, hcancelled hnot, c.zeroSumSign_eq_negative_iff]

end CorrectSum

namespace Value

/-- A single nonzero operand is rounded as the number that it stands for. -/
theorem round_operand (c : Context) (sign : Sign) (range : Range) (exponent : ℤ)
    {significand : UInt64} (hs : significand ≠ 0) (flags : Flags) {v : ℚ}
    (hv : v = sign.factor * (Magnitude.finite range exponent significand).toRat) :
    v ≠ 0 ∧ (Intermediate.mk sign ⟨significand, 0⟩ exponent flags).round c =
      c.roundRat (Sign.ofRat v) |v| flags := by
  have hpos := magnitude_pos range exponent hs
  have hsize : (Intermediate.mk sign ⟨significand, 0⟩ exponent flags).size =
      (Magnitude.finite range exponent significand).toRat := high_mul_zpow significand exponent
  constructor
  · rw [← abs_pos, hv, Sign.abs_factor_mul, abs_of_pos hpos]
    exact hpos
  · rw [Intermediate.round_eq_roundRat, hsize, hv, Sign.ofRat_factor_mul _ hpos,
      Sign.abs_factor_mul, abs_of_pos hpos]

theorem correctSum_sumWithSign {x y : Value} (hx : x.IsNumber) (hy : y.IsNumber) (signY : Sign)
    (c : Context) :
    CorrectSum c x y signY (x.toRat + signY.factor * y.magnitude.toRat)
      ((x.sumWithSign y signY c).round c) := by
  obtain ⟨signX, flagsX, magnitudeX⟩ := x
  obtain ⟨signY', flagsY, magnitudeY⟩ := y
  rcases hx.cases with rfl | ⟨rangeX, exponentX, significandX, rfl, hsX⟩ <;>
    rcases hy.cases with rfl | ⟨rangeY, exponentY, significandY, rfl, hsY⟩
  · have hzero : (Value.mk signX flagsX .zero).toRat + signY.factor * Magnitude.zero.toRat = 0 := by
      rw [toRat_zero, zero_add]
      exact mul_zero _
    rw [hzero]
    apply CorrectSum.of_zero
    · rintro ⟨-, -, hsign⟩
      rw [if_pos hsign]
    · intro hnot
      rw [if_neg fun hsign => hnot ⟨rfl, rfl, hsign⟩]
  · obtain ⟨hne, hround⟩ := round_operand c signY rangeY exponentY hsY (flagsX ∪ flagsY) rfl
    rw [toRat_zero, zero_add]
    exact CorrectSum.of_rounded hne hround
  · obtain ⟨hne, hround⟩ := round_operand c signX rangeX exponentX hsX (flagsX ∪ flagsY) rfl
    have hright : signY.factor * Magnitude.zero.toRat = 0 := mul_zero _
    rw [hright, add_zero]
    exact CorrectSum.of_rounded hne hround
  · have hadd := Nonzero.add_spec (Nonzero.ofFinite_normalised signX exponentX hsX)
      (Nonzero.ofFinite_normalised signY exponentY hsY)
    rw [Nonzero.toRat_ofFinite _ _ hsX, Nonzero.toRat_ofFinite _ _ hsY] at hadd
    have hexact : (Value.mk signX flagsX (.finite rangeX exponentX significandX)).toRat +
        signY.factor * (Magnitude.finite rangeY exponentY significandY).toRat =
          signX.factor * (significandX.toNat * 2 ^ (exponentX - 63)) +
            signY.factor * (significandY.toNat * 2 ^ (exponentY - 63)) := rfl
    rw [hexact]
    simp only [sumWithSign]
    generalize (Nonzero.ofFinite signX exponentX significandX).add
      (Nonzero.ofFinite signY exponentY significandY) = sum? at hadd ⊢
    cases sum? with
    | none =>
      rw [show signX.factor * _ + signY.factor * _ = (0 : ℚ) from hadd]
      refine CorrectSum.of_zero _ (fun hboth => ?_) (fun _ => rfl)
      rw [isZero_finite] at hboth
      exact absurd hboth.1 Bool.false_ne_true
    | some sum => exact CorrectSum.of_rounded hadd.ne_zero (hadd.round_eq _ c)

/-- A difference is the sum with the second operand counted with the other sign. -/
theorem toRat_sub_toRat (x y : Value) :
    x.toRat - y.toRat = x.toRat + y.sign.flip.factor * y.magnitude.toRat := by
  rw [Sign.factor_flip, neg_mul, ← sub_eq_add_neg]
  rfl

theorem correctSum_sub {x y : Value} (hx : x.IsNumber) (hy : y.IsNumber) (c : Context) :
    CorrectSum c x y y.sign.flip (x.toRat - y.toRat) (x.sub y c) := by
  rw [toRat_sub_toRat]
  exact correctSum_sumWithSign hx hy y.sign.flip c

/-- The sum and the difference of two numbers are rounded correctly. -/
theorem correctSum_add_sub {x y : Value} (hx : x.IsNumber) (hy : y.IsNumber) (c : Context) :
    CorrectSum c x y y.sign (x.toRat + y.toRat) (x.add y c) ∧
      CorrectSum c x y y.sign.flip (x.toRat - y.toRat) (x.sub y c) :=
  ⟨correctSum_sumWithSign hx hy y.sign c, correctSum_sub hx hy c⟩

/-- The operands may be as far apart as their format has them. -/
theorem correctSum_add_sub_far :
    (Format.double.maxFinite .positive).IsNumber ∧ (Format.double.minPositive .negative).IsNumber ∧
      CorrectSum Format.double.alone (Format.double.maxFinite .positive)
        (Format.double.minPositive .negative) .negative
        ((Format.double.maxFinite .positive).toRat + (Format.double.minPositive .negative).toRat)
        ((Format.double.maxFinite .positive).add (Format.double.minPositive .negative)
          Format.double.alone) ∧
      CorrectSum Format.double.alone (Format.double.maxFinite .positive)
        (Format.double.minPositive .negative) .positive
        ((Format.double.maxFinite .positive).toRat - (Format.double.minPositive .negative).toRat)
        ((Format.double.maxFinite .positive).sub (Format.double.minPositive .negative)
          Format.double.alone) := by
  have hx : (Format.double.maxFinite .positive).IsNumber := by decide
  have hy : (Format.double.minPositive .negative).IsNumber := by decide
  exact ⟨hx, hy, correctSum_add_sub hx hy Format.double.alone⟩

/-! ## Products and quotients -/

/-- The product of two numbers is rounded correctly, and a product with a zero is
a zero with the product of the signs. -/
theorem correctRounding_mul {x y : Value} (hx : x.IsNumber) (hy : y.IsNumber) (c : Context) :
    (¬ x.isZero → ¬ y.isZero →
        CorrectRounding c (Sign.ofRat (x.toRat * y.toRat)) |x.toRat * y.toRat|
          (x.flags ∪ y.flags) (x.mul y c)) ∧
      (x.isZero ∨ y.isZero →
        x.mul y c = ⟨if c.format.hasNegativeZero then x.sign.times y.sign else .positive,
          x.flags ∪ y.flags, .zero⟩) := by
  obtain ⟨signX, flagsX, magnitudeX⟩ := x
  obtain ⟨signY, flagsY, magnitudeY⟩ := y
  rcases hx.cases with rfl | ⟨rangeX, exponentX, significandX, rfl, hsX⟩ <;>
    rcases hy.cases with rfl | ⟨rangeY, exponentY, significandY, rfl, hsY⟩
  · exact ⟨fun hzero => absurd rfl hzero, fun _ => Format.raise_zero _ _ _⟩
  · exact ⟨fun hzero => absurd rfl hzero, fun _ => Format.raise_zero _ _ _⟩
  · exact ⟨fun _ hzero => absurd rfl hzero, fun _ => Format.raise_zero _ _ _⟩
  · have hholds := (Nonzero.ofProduct_normalised signX exponentX signY exponentY hsX hsY).holds
    rw [Nonzero.toRat_ofProduct _ _ _ _ hsX hsY] at hholds
    refine ⟨fun _ _ => ?_, fun hzero => ?_⟩
    · rw [correctRounding_iff (abs_nonneg _)]
      exact hholds.round_eq (flagsX ∪ flagsY) c
    · rw [isZero_finite, isZero_finite] at hzero
      exact absurd hzero (by decide)

/-- The smallest number can be squared. -/
theorem correctRounding_mul_minPositive :
    (Format.double.minPositive .negative).IsNumber ∧
      ¬ (Format.double.minPositive .negative).isZero ∧
      CorrectRounding Format.double.alone
        (Sign.ofRat ((Format.double.minPositive .negative).toRat *
          (Format.double.minPositive .negative).toRat))
        |(Format.double.minPositive .negative).toRat *
          (Format.double.minPositive .negative).toRat| ∅
        ((Format.double.minPositive .negative).mul (Format.double.minPositive .negative)
          Format.double.alone) := by
  have hx : (Format.double.minPositive .negative).IsNumber := by decide
  have hne : ¬ (Format.double.minPositive .negative).isZero := by decide
  exact ⟨hx, hne, (correctRounding_mul hx hx Format.double.alone).1 hne hne⟩

/-- The quotient of two numbers is rounded correctly, and a zero divided by a
number is a zero with the product of the signs. -/
theorem correctRounding_div {x y : Value} (hx : x.IsNumber) (hy : y.IsNumber)
    (hne : ¬ y.isZero) (c : Context) :
    (¬ x.isZero →
        CorrectRounding c (Sign.ofRat (x.toRat / y.toRat)) |x.toRat / y.toRat|
          (x.flags ∪ y.flags) (x.div y c)) ∧
      (x.isZero →
        x.div y c = ⟨if c.format.hasNegativeZero then x.sign.times y.sign else .positive,
          x.flags ∪ y.flags, .zero⟩) := by
  obtain ⟨signX, flagsX, magnitudeX⟩ := x
  obtain ⟨signY, flagsY, magnitudeY⟩ := y
  rcases hy.cases with rfl | ⟨rangeY, exponentY, significandY, rfl, hsY⟩
  · exact absurd rfl hne
  rcases hx.cases with rfl | ⟨rangeX, exponentX, significandX, rfl, hsX⟩
  · exact ⟨fun hzero => absurd rfl hzero, fun _ => Format.raise_zero _ _ _⟩
  · have hround := Nonzero.round_quotient (Nonzero.ofFinite_normalised signX exponentX hsX)
      (Nonzero.ofFinite_normalised signY exponentY hsY) (flagsX ∪ flagsY) c
    rw [Nonzero.toRat_ofFinite _ _ hsX, Nonzero.toRat_ofFinite _ _ hsY] at hround
    refine ⟨fun _ => ?_, fun hzero => ?_⟩
    · rw [correctRounding_iff (abs_nonneg _)]
      exact hround
    · rw [isZero_finite] at hzero
      exact absurd hzero Bool.false_ne_true

/-- The largest number can be divided by the smallest one. -/
theorem correctRounding_div_minPositive :
    (Format.double.maxFinite .positive).IsNumber ∧ (Format.double.minPositive .negative).IsNumber ∧
      ¬ (Format.double.minPositive .negative).isZero ∧
      CorrectRounding Format.double.alone
        (Sign.ofRat ((Format.double.maxFinite .positive).toRat /
          (Format.double.minPositive .negative).toRat))
        |(Format.double.maxFinite .positive).toRat /
          (Format.double.minPositive .negative).toRat| ∅
        ((Format.double.maxFinite .positive).div (Format.double.minPositive .negative)
          Format.double.alone) := by
  have hx : (Format.double.maxFinite .positive).IsNumber := by decide
  have hy : (Format.double.minPositive .negative).IsNumber := by decide
  have hne : ¬ (Format.double.minPositive .negative).isZero := by decide
  exact ⟨hx, hy, hne, (correctRounding_div hx hy hne Format.double.alone).1 (by decide)⟩

end Value
end CrossFloat
