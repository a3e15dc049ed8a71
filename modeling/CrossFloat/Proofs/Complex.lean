/-
Fused products of complex numbers are rounded once.

A part of a fused operation stands for a rational number that keeps a sign when
it is zero.  The two products of a component are exact, and their sum is held up
to a jammed bit.  So the component is the correct rounding of its exact value,
and a component that is exactly zero has the sign that the addition of the two
signed products gives it.
-/
import CrossFloat.Complex
import CrossFloat.Proofs.Arithmetic

namespace CrossFloat

/-! ## Signed numbers -/

/-- A rational number with a sign, which a zero has as well. -/
structure SignedRat where
  sign : Sign
  value : ℚ
  sign_eq : value ≠ 0 → sign = .ofRat value

theorem Sign.ofRat_neg {v : ℚ} (hv : v ≠ 0) : ofRat (-v) = (ofRat v).flip := by
  rcases lt_or_gt_of_ne hv with hlt | hgt
  · simp [ofRat, ofNegative, flip, hlt, hlt.le]
  · simp [ofRat, ofNegative, flip, hgt, hgt.not_gt]

namespace SignedRat

/-- The exact product of two values, signed as their product. -/
def ofProduct (x y : Value) : SignedRat where
  sign := x.sign.times y.sign
  value := x.toRat * y.toRat
  sign_eq hne := by
    have hsplit : x.toRat * y.toRat =
        (x.sign.times y.sign).factor * (x.magnitude.toRat * y.magnitude.toRat) := by
      rw [Sign.factor_times, Value.toRat, Value.toRat]
      ring
    rw [hsplit] at hne ⊢
    have hnonneg := mul_nonneg x.magnitude.toRat_nonneg y.magnitude.toRat_nonneg
    exact (Sign.ofRat_factor_mul _ (lt_of_le_of_ne hnonneg (right_ne_zero_of_mul hne).symm)).symm

def neg (p : SignedRat) : SignedRat where
  sign := p.sign.flip
  value := -p.value
  sign_eq hne := by
    have hne' : p.value ≠ 0 := neg_ne_zero.1 hne
    rw [Sign.ofRat_neg hne', p.sign_eq hne']

/-- The exact sum.  A sum that is zero keeps the sign of two zeros that agree in
it, and is otherwise negative exactly when rounding toward negative. -/
def add (p q : SignedRat) (mode : RoundingMode) : SignedRat where
  sign :=
    if p.value + q.value ≠ 0 then .ofRat (p.value + q.value)
    else if p.value = 0 ∧ q.value = 0 ∧ p.sign = q.sign then p.sign
    else if mode = .towardNegative then .negative else .positive
  value := p.value + q.value
  sign_eq hne := if_pos hne

variable {p q : SignedRat} {mode : RoundingMode}

theorem add_sign_of_zeros (hp : p.value = 0) (hq : q.value = 0) (hsign : p.sign = q.sign) :
    (p.add q mode).sign = p.sign := by
  simp [add, hp, hq, hsign]

theorem add_sign_of_cancelled (hzero : p.value + q.value = 0)
    (hnot : ¬ (p.value = 0 ∧ q.value = 0 ∧ p.sign = q.sign)) :
    (p.add q mode).sign = if mode = .towardNegative then .negative else .positive := by
  simp only [add, hzero, if_neg hnot, ne_eq, not_true_eq_false, if_false]

end SignedRat

theorem Context.zeroSumSign_eq (c : Context) :
    c.zeroSumSign = if c.mode = .towardNegative then .negative else .positive := by
  simp [zeroSumSign, Sign.ofNegative]

/-! ## Quantities -/

namespace Quantity

/-- The quantity stands for `p` exactly. -/
def Exact : Quantity → SignedRat → Prop
  | zero sign, p => p.value = 0 ∧ sign = p.sign
  | nonzero t, p => t.Normalised ∧ t.toRat = p.value

/-- The quantity stands for `p`, except that its lowest bit may be a jammed
one. -/
def Holds : Quantity → SignedRat → Prop
  | zero sign, p => p.value = 0 ∧ sign = p.sign
  | nonzero t, p => t.Holds p.value

variable {x y : Quantity} {p q : SignedRat}

theorem Exact.holds (h : x.Exact p) : x.Holds p := by
  cases x with
  | zero sign => exact h
  | nonzero t =>
    obtain ⟨hnormalised, hvalue⟩ := h
    show t.Holds p.value
    rw [← hvalue]
    exact hnormalised.holds

theorem exact_ofProduct {x y : Value} (hx : x.IsNumber) (hy : y.IsNumber) :
    (ofProduct x y).Exact (.ofProduct x y) := by
  obtain ⟨signX, flagsX, magnitudeX⟩ := x
  obtain ⟨signY, flagsY, magnitudeY⟩ := y
  rcases hx.cases with rfl | ⟨rangeX, exponentX, significandX, rfl, hsX⟩ <;>
    rcases hy.cases with rfl | ⟨rangeY, exponentY, significandY, rfl, hsY⟩
  · exact ⟨by simp [SignedRat.ofProduct, Value.toRat_zero], rfl⟩
  · exact ⟨by simp [SignedRat.ofProduct, Value.toRat_zero], rfl⟩
  · exact ⟨by simp [SignedRat.ofProduct, Value.toRat_zero], rfl⟩
  · exact ⟨Nonzero.ofProduct_normalised _ _ _ _ hsX hsY, Nonzero.toRat_ofProduct _ _ _ _ hsX hsY⟩

theorem Exact.neg (h : x.Exact p) : x.neg.Exact p.neg := by
  cases x with
  | zero sign =>
    obtain ⟨hvalue, hsign⟩ := h
    exact ⟨neg_eq_zero.2 hvalue, congrArg Sign.flip hsign⟩
  | nonzero t =>
    obtain ⟨hnormalised, hvalue⟩ := h
    refine ⟨hnormalised, ?_⟩
    show t.sign.flip.factor * t.size = -p.value
    rw [Sign.factor_flip, neg_mul, ← hvalue]
    rfl

/-- The sum of two exact quantities is held, and a zero sum has the sign that
addition gives it. -/
theorem Exact.add (hx : x.Exact p) (hy : y.Exact q) (c : Context) :
    (x.add y c).Holds (p.add q c.mode) := by
  cases x with
  | zero s =>
    obtain ⟨hp, rfl⟩ := hx
    cases y with
    | zero t =>
      obtain ⟨hq, rfl⟩ := hy
      have hsum : p.value + q.value = 0 := by rw [hp, hq, add_zero]
      refine ⟨hsum, ?_⟩
      by_cases hsign : p.sign = q.sign
      · rw [if_pos hsign, SignedRat.add_sign_of_zeros hp hq hsign]
      · rw [if_neg hsign, SignedRat.add_sign_of_cancelled hsum (fun h => hsign h.2.2),
          c.zeroSumSign_eq]
    | nonzero t =>
      have hsum : p.value + q.value = q.value := by rw [hp, zero_add]
      show t.Holds (p.value + q.value)
      rw [hsum, ← hy.2]
      exact hy.1.holds
  | nonzero s =>
    have hsize := hx.1.holds.ne_zero
    rw [hx.2] at hsize
    cases y with
    | zero t =>
      have hsum : p.value + q.value = p.value := by rw [hy.1, add_zero]
      show s.Holds (p.value + q.value)
      rw [hsum, ← hx.2]
      exact hx.1.holds
    | nonzero t =>
      have hadd := Nonzero.add_spec hx.1 hy.1
      rw [hx.2, hy.2] at hadd
      simp only [Quantity.add]
      generalize s.add t = sum? at hadd ⊢
      cases sum? with
      | none =>
        refine ⟨hadd, ?_⟩
        rw [SignedRat.add_sign_of_cancelled hadd (fun h => hsize h.1), c.zeroSumSign_eq]
      | some sum => exact hadd

/-- What a quantity holds is rounded correctly. -/
theorem Holds.round_pending (h : x.Holds p) (flags : Flags) (c : Context) :
    (x.pending flags c).round c = c.roundRat p.sign |p.value| flags := by
  cases x with
  | zero sign =>
    obtain ⟨hvalue, rfl⟩ := h
    rw [hvalue, abs_zero, Context.roundRat, if_pos rfl]
    rfl
  | nonzero t =>
    rw [p.sign_eq (Nonzero.Holds.ne_zero h)]
    exact Nonzero.Holds.round_eq h flags c

end Quantity

/-! ## Products -/

namespace Complex

/-- Both components are numbers. -/
def IsNumber (z : Complex) : Prop :=
  z.re.IsNumber ∧ z.im.IsNumber

instance : DecidablePred IsNumber :=
  fun z => inferInstanceAs (Decidable (z.re.IsNumber ∧ z.im.IsNumber))

theorem IsNumber.isFinite {z : Complex} (h : z.IsNumber) : z.isFinite = true := by
  rw [Complex.isFinite, h.1.isFinite, h.2.isFinite, Bool.and_self]

variable {x y : Complex}

theorem mul_eq_fusedProduct (hx : x.IsNumber) (hy : y.IsNumber) (c : Context) :
    x.mul y c = (x.fusedProduct y c).value := by
  rw [mul, product, hx.isFinite, hy.isFinite, Bool.and_self, if_pos rfl]

/-- Both components of a product are the correct roundings of `ac - bd` and
`ad + bc`, with the flags of all four operands.  The signs are those of the exact
sums of the signed products, also where the sums are zero. -/
theorem correctRounding_components_mul (hx : x.IsNumber) (hy : y.IsNumber) (c : Context) :
    CorrectRounding c
        ((SignedRat.ofProduct x.re y.re).add (SignedRat.ofProduct x.im y.im).neg c.mode).sign
        |x.re.toRat * y.re.toRat - x.im.toRat * y.im.toRat|
        (x.re.flags ∪ x.im.flags ∪ (y.re.flags ∪ y.im.flags)) (x.mul y c).re ∧
      CorrectRounding c
        ((SignedRat.ofProduct x.re y.im).add (SignedRat.ofProduct x.im y.re) c.mode).sign
        |x.re.toRat * y.im.toRat + x.im.toRat * y.re.toRat|
        (x.re.flags ∪ x.im.flags ∪ (y.re.flags ∪ y.im.flags)) (x.mul y c).im := by
  have hre := (Quantity.exact_ofProduct hx.1 hy.1).add (Quantity.exact_ofProduct hx.2 hy.2).neg c
  have him := (Quantity.exact_ofProduct hx.1 hy.2).add (Quantity.exact_ofProduct hx.2 hy.1) c
  rw [mul_eq_fusedProduct hx hy, correctRounding_iff (abs_nonneg _),
    correctRounding_iff (abs_nonneg _), sub_eq_add_neg]
  exact ⟨hre.round_pending _ c, him.round_pending _ c⟩

/-- The two products of a component may be as far apart as the format has
them. -/
theorem correctRounding_components_mul_far :
    let x : Complex := ⟨Format.double.maxFinite .positive, Format.double.minPositive .negative⟩
    x.IsNumber ∧
      CorrectRounding Format.double.alone
        ((SignedRat.ofProduct x.re x.re).add (SignedRat.ofProduct x.im x.im).neg
          .nearestEven).sign
        |x.re.toRat * x.re.toRat - x.im.toRat * x.im.toRat| ∅
        (x.mul x Format.double.alone).re ∧
      CorrectRounding Format.double.alone
        ((SignedRat.ofProduct x.re x.im).add (SignedRat.ofProduct x.im x.re) .nearestEven).sign
        |x.re.toRat * x.im.toRat + x.im.toRat * x.re.toRat| ∅
        (x.mul x Format.double.alone).im := by
  have hx : (Complex.mk (Format.double.maxFinite .positive)
      (Format.double.minPositive .negative)).IsNumber := by decide
  exact ⟨hx, correctRounding_components_mul hx hx Format.double.alone⟩

end Complex
end CrossFloat
