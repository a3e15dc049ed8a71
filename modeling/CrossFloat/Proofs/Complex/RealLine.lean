/-
Complex arithmetic extends real arithmetic.

Between numbers on the real line three of the four products are zeros, and a zero added
to the fourth leaves it as it is.  The real part of a product is therefore computed as the
product of the real parts is.

The quotient divides `ac` by `cc`, and real division divides `a` by `c`.  The two long
divisions have other operands and other exponents, and agree in that each is rounded as its
exact quotient, since a product is held without a jammed bit.  Neither `ac` nor `cc` is
ever rounded to the format, so it may be out of its range.  The same is true of numbers on
the imaginary axis, whose quotient is real.
-/
import CrossFloat.Proofs.Complex.Textbook

namespace CrossFloat

/-! ## Quantities that are products -/

namespace Quantity

variable {a b : Value}

/-- A product of numbers that are not zero is exact, and not zero. -/
theorem exists_ofProduct (ha : a.IsNumber) (hb : b.IsNumber) (hzeroA : a.isZero = false)
    (hzeroB : b.isZero = false) :
    ∃ t : Nonzero, ofProduct a b = nonzero t ∧ t.Normalised ∧ t.toRat = a.toRat * b.toRat := by
  have hexact := exact_ofProduct ha hb
  generalize ofProduct a b = product at *
  cases product with
  | nonzero t => exact ⟨t, rfl, hexact⟩
  | zero sign =>
    exact absurd hexact.1 (mul_ne_zero (ha.toRat_ne_zero hzeroA) (hb.toRat_ne_zero hzeroB))

theorem ofProduct_zero_left (sign : Sign) (b : Value) :
    ofProduct (.zero sign) b = zero (sign.times b.sign) := rfl

theorem ofProduct_zero_right (a : Value) (sign : Sign) :
    ofProduct a (.zero sign) = zero (a.sign.times sign) := by
  obtain ⟨signA, flags, magnitude⟩ := a
  cases magnitude <;> rfl

/-- The product of two numbers divided by the square of the second is the quotient of the
two, flags included. -/
theorem round_quotient_square (ha : a.IsNumber) (hb : b.IsNumber) (hzero : b.isZero = false)
    {denominator : Nonzero} (hd : ofProduct b b = nonzero denominator) (c : Context) :
    ((ofProduct a b).quotient denominator (a.flags ∪ b.flags) c).round c = a.div b c := by
  have hb0 := hb.toRat_ne_zero hzero
  have hne : b.magnitude ≠ .zero := by
    intro hmagnitude
    rw [Value.isZero_iff.2 hmagnitude] at hzero
    exact absurd hzero.symm Bool.false_ne_true
  have hsquare : denominator.Normalised ∧ denominator.toRat = b.toRat * b.toRat := by
    have hexact := exact_ofProduct hb hb
    rw [hd] at hexact
    exact hexact
  have hvalue : |a.toRat * b.toRat / (b.toRat * b.toRat)| =
      a.magnitude.toRat / b.magnitude.toRat := by
    rw [mul_div_mul_right _ _ hb0, abs_div, a.abs_toRat, b.abs_toRat]
  have hpos : 0 < denominator.toRat := hsquare.2 ▸ mul_self_pos.2 hb0
  rw [(exact_ofProduct ha hb).round_quotient hsquare.1 hpos, hsquare.2, Value.div,
    Value.round_quotient ha hb hne, ← hvalue]
  rfl

end Quantity

namespace Complex

/-! ## Real and imaginary operands -/

/-- A value on the real line, beside a zero of the given sign. -/
def ofReal (a : Value) (sign : Sign) : Complex := ⟨a, .zero sign⟩

/-- A value on the imaginary axis, beside a zero of the given sign. -/
def ofImaginary (a : Value) (sign : Sign) : Complex := ⟨.zero sign, a⟩

/-- The real part is `r`, and the imaginary part is a zero with the given flags. -/
structure IsReal (z : Complex) (r : Value) (flags : Flags) : Prop where
  re : z.re = r
  im : z.im.isZero = true
  im_flags : z.im.flags = flags

theorem isReal_zero (r : Value) (F : Format) (sign : Sign) (flags : Flags) :
    (Complex.mk r ((F.zero sign).raise flags)).IsReal r flags := by
  rw [Format.raise_zero]
  exact ⟨rfl, rfl, rfl⟩

section

variable {a b : Value} (ha : a.IsNumber) (hb : b.IsNumber)

theorem isNumber_ofReal {a : Value} (ha : a.IsNumber) (sign : Sign) : (ofReal a sign).IsNumber :=
  ⟨ha, trivial⟩

theorem isNumber_ofImaginary {a : Value} (ha : a.IsNumber) (sign : Sign) :
    (ofImaginary a sign).IsNumber :=
  ⟨trivial, ha⟩

theorem flags_ofReal (a : Value) (sign : Sign) : (ofReal a sign).flags = a.flags :=
  Flags.union_empty _

theorem flags_ofImaginary (a : Value) (sign : Sign) : (ofImaginary a sign).flags = a.flags :=
  Flags.empty_union _

variable (hzeroA : a.isZero = false) (hzeroB : b.isZero = false) (s t : Sign) (c : Context)

include ha hb hzeroA hzeroB

theorem isReal_mul_ofReal :
    ((ofReal a s).mul (ofReal b t) c).IsReal (a.mul b c) (a.flags ∪ b.flags) := by
  obtain ⟨product, hproduct, -⟩ := Quantity.exists_ofProduct ha hb hzeroA hzeroB
  have hre : a.mul b c = ((Quantity.nonzero product).pending (a.flags ∪ b.flags) c).round c := by
    rw [Value.mul, Value.product_eq_pending ha hb, hproduct]
  rw [mul_eq_fusedProduct (isNumber_ofReal ha s) (isNumber_ofReal hb t), fusedProduct,
    value_ofPending, flags_ofReal, flags_ofReal, ofReal, ofReal]
  dsimp only
  rw [hproduct, Quantity.ofProduct_zero_left, Quantity.ofProduct_zero_left,
    Quantity.ofProduct_zero_right, hre]
  exact isReal_zero ..

omit hzeroA in
/-- A fused quotient is `a / b` if the numerator of its real part is the product of the two,
that of its imaginary part is a zero, and its denominator is the square of `b`. -/
theorem isReal_div_of_products {x y : Complex} (hx : x.IsNumber) (hy : y.IsNumber)
    (hre : (Quantity.ofProduct x.re y.re).add (.ofProduct x.im y.im) c = .ofProduct a b)
    (him : ∃ sign,
      (Quantity.ofProduct x.im y.re).add (Quantity.ofProduct x.re y.im).neg c = .zero sign)
    (hmagnitude : y.squaredMagnitude c = .ofProduct b b)
    (hflags : x.flags ∪ y.flags = a.flags ∪ b.flags) :
    (x.div y c).IsReal (a.div b c) (a.flags ∪ b.flags) := by
  obtain ⟨square, hsquare, -⟩ := Quantity.exists_ofProduct hb hb hzeroB hzeroB
  obtain ⟨sign, him⟩ := him
  rw [hsquare] at hmagnitude
  rw [div, quotient_eq_fusedQuotient hx hy hmagnitude, fusedQuotient, value_ofPending, hre, him,
    hflags, Quantity.round_quotient_square ha hb hzeroB hsquare]
  exact isReal_zero ..

theorem isReal_div_ofReal :
    ((ofReal a s).div (ofReal b t) c).IsReal (a.div b c) (a.flags ∪ b.flags) := by
  obtain ⟨product, hproduct, -⟩ := Quantity.exists_ofProduct ha hb hzeroA hzeroB
  obtain ⟨square, hsquare, -⟩ := Quantity.exists_ofProduct hb hb hzeroB hzeroB
  refine isReal_div_of_products ha hb hzeroB c (isNumber_ofReal ha s) (isNumber_ofReal hb t)
    ?_ ?_ ?_ (congrArg₂ _ (flags_ofReal a s) (flags_ofReal b t))
  · rw [ofReal, ofReal, hproduct, Quantity.ofProduct_zero_left]
    rfl
  · rw [ofReal, ofReal, Quantity.ofProduct_zero_left, Quantity.ofProduct_zero_right]
    exact ⟨_, rfl⟩
  · rw [squaredMagnitude, ofReal, hsquare, Quantity.ofProduct_zero_left]
    rfl

theorem isReal_div_ofImaginary :
    ((ofImaginary a s).div (ofImaginary b t) c).IsReal (a.div b c) (a.flags ∪ b.flags) := by
  obtain ⟨product, hproduct, -⟩ := Quantity.exists_ofProduct ha hb hzeroA hzeroB
  obtain ⟨square, hsquare, -⟩ := Quantity.exists_ofProduct hb hb hzeroB hzeroB
  refine isReal_div_of_products ha hb hzeroB c (isNumber_ofImaginary ha s)
    (isNumber_ofImaginary hb t) ?_ ?_ ?_
    (congrArg₂ _ (flags_ofImaginary a s) (flags_ofImaginary b t))
  · rw [ofImaginary, ofImaginary, hproduct, Quantity.ofProduct_zero_left]
    rfl
  · rw [ofImaginary, ofImaginary, Quantity.ofProduct_zero_left, Quantity.ofProduct_zero_right]
    exact ⟨_, rfl⟩
  · rw [squaredMagnitude, ofImaginary, hsquare, Quantity.ofProduct_zero_left]
    rfl

end

/-- Products and quotients of numbers on the real line, and quotients of numbers on the
imaginary axis, are those of real arithmetic in every field and flag, whatever the signs of
the zeros beside them. -/
theorem extends_real_arithmetic {a b : Value} (ha : a.WellFormed) (hb : b.WellFormed)
    (hfiniteA : a.isFinite = true) (hfiniteB : b.isFinite = true) (hzeroA : a.isZero = false)
    (hzeroB : b.isZero = false) (s t : Sign) (c : Context) :
    ((ofReal a s).mul (ofReal b t) c).IsReal (a.mul b c) (a.flags ∪ b.flags) ∧
      ((ofReal a s).div (ofReal b t) c).IsReal (a.div b c) (a.flags ∪ b.flags) ∧
      ((ofImaginary a s).div (ofImaginary b t) c).IsReal (a.div b c) (a.flags ∪ b.flags) :=
  have ha' := ha.isNumber hfiniteA
  have hb' := hb.isNumber hfiniteB
  ⟨isReal_mul_ofReal ha' hb' hzeroA hzeroB s t c, isReal_div_ofReal ha' hb' hzeroA hzeroB s t c,
    isReal_div_ofImaginary ha' hb' hzeroA hzeroB s t c⟩

/-- Three times the least number divided by the least number.  The product of the two
underflows to zero in the format, and so does the square of the divisor. -/
theorem extends_real_arithmetic_minPositive :
    let c := Format.double.alone
    let a : Value := ⟨.negative, .onInexactLow, .finite .denormal (-1022) 0x1800⟩
    let b := Format.double.minPositive .positive
    a.WellFormed ∧ b.WellFormed ∧ a.isFinite = true ∧ b.isFinite = true ∧ a.isZero = false ∧
      b.isZero = false ∧ (a.mul b c).isZero = true ∧ (b.mul b c).isZero = true ∧
      ((ofReal a .negative).mul (ofReal b .positive) c).IsReal (a.mul b c) .onInexactLow ∧
      ((ofReal a .negative).div (ofReal b .positive) c).IsReal (a.div b c) .onInexactLow ∧
      ((ofImaginary a .negative).div (ofImaginary b .positive) c).IsReal (a.div b c)
        .onInexactLow := by
  intro c a b
  have ha : a.WellFormed := Value.wellFormed_iff.2 ⟨show (0x1800 : UInt64) ≠ 0 by decide, by decide⟩
  have hb : b.WellFormed := Format.double.wellFormed_minPositive .positive
  exact ⟨ha, hb, rfl, rfl, rfl, rfl, by decide +kernel, by decide +kernel,
    extends_real_arithmetic ha hb rfl rfl rfl rfl .negative .positive c⟩

end Complex
end CrossFloat
