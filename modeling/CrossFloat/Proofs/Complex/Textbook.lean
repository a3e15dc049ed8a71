/-
Where the fused operations and the textbook formulas agree.

A product or a sum that is computed in the format without a flag is exact.  So if none of
the intermediate results of a textbook formula raises one, its last operation has the
exact operands that the fused operation has, and rounds the same number.

The signs of zeros take two ways.  The fused operation keeps the signs of all its zeros
up to the end, where a format without a negative zero drops them.  The textbook formula
drops them at every step.  In a format with a negative zero nothing is dropped, and in
one without it the signs have no part in the result.
-/
import CrossFloat.Proofs.Arithmetic.Commutation
import CrossFloat.Proofs.Complex.Limit

namespace CrossFloat

theorem Flags.union_eq_empty_iff {f g : Flags} : f ∪ g = ∅ ↔ f = ∅ ∧ g = ∅ := by
  obtain ⟨_, _, _, _, _, _⟩ := f
  obtain ⟨_, _, _, _, _, _⟩ := g
  simp only [union_eq, union, empty_eq, none, mk.injEq, Bool.or_eq_false_iff]
  tauto

theorem Sign.ofRat_of_pos {v : ℚ} (hv : 0 < v) : ofRat v = positive := by
  rw [ofRat, decide_eq_false hv.not_gt]
  rfl

/-! ## Signed numbers up to the signs of zeros -/

namespace SignedRat

variable {F : Format} {c : Context} {p p' q q' : SignedRat}

/-- The numbers are equal, and have the same sign if the format keeps that of a zero. -/
structure AgreesIn (F : Format) (p q : SignedRat) : Prop where
  value : p.value = q.value
  sign : F.hasNegativeZero = true → p.sign = q.sign

theorem AgreesIn.eq (h : p.AgreesIn F q) (hsigned : F.hasNegativeZero = true) : p = q :=
  eq_of (h.sign hsigned) h.value

theorem AgreesIn.neg (h : p.AgreesIn F q) : p.neg.AgreesIn F q.neg where
  value := congrArg Neg.neg h.value
  sign hsigned := congrArg Sign.flip (h.sign hsigned)

theorem AgreesIn.add (hp : p.AgreesIn F p') (hq : q.AgreesIn F q') (mode : RoundingMode) :
    (p.add q mode).AgreesIn F (p'.add q' mode) where
  value := congrArg₂ (· + ·) hp.value hq.value
  sign hsigned := by rw [hp.eq hsigned, hq.eq hsigned]

/-- The sign of a zero has no part in what a format without a negative zero makes of it. -/
theorem AgreesIn.roundRat_eq (h : p.AgreesIn c.format q) {v : ℚ} (hv : p.value = 0 → v = 0)
    (flags : Flags) : c.roundRat p.sign v flags = c.roundRat q.sign v flags := by
  by_cases hzero : p.value = 0
  · have hsign : (if c.format.hasNegativeZero then p.sign else .positive) =
        if c.format.hasNegativeZero then q.sign else .positive :=
      ite_congr rfl h.sign fun _ => rfl
    rw [hv hzero, Context.roundRat_zero, Context.roundRat_zero, hsign]
  · rw [p.sign_eq hzero, q.sign_eq (h.value ▸ hzero), h.value]

theorem ofMagnitude_flip (sign : Sign) (m : Magnitude) :
    ofMagnitude sign.flip m = (ofMagnitude sign m).neg :=
  eq_of rfl ((congrArg (· * m.toRat) sign.factor_flip).trans (neg_mul _ _))

theorem factor_sign_mul_abs (p : SignedRat) : p.sign.factor * |p.value| = p.value := by
  by_cases hzero : p.value = 0
  · rw [hzero, abs_zero, mul_zero]
  · rw [p.sign_eq hzero, Sign.factor_ofRat_mul_abs]

end SignedRat

/-! ## Intermediate results that are exact -/

namespace Value

variable {x y : Value} {c : Context} {F : Format} {p q : SignedRat}

/-- A number without flags that is `p`, up to the sign of a zero that the format does not
keep. -/
structure StandsFor (x : Value) (F : Format) (p : SignedRat) : Prop where
  isNumber : x.IsNumber
  silent : x.flags = ∅
  agrees : (SignedRat.ofMagnitude x.sign x.magnitude).AgreesIn F p

/-- What is rounded without a flag is exact. -/
theorem standsFor_roundRat (h : (c.roundRat p.sign |p.value| ∅).flags = ∅) :
    (c.roundRat p.sign |p.value| ∅).StandsFor c.format p := by
  have hnumber := c.hasNumber_of_silent p.sign (abs_nonneg p.value) h
  obtain ⟨hrepresents, hvalue, -⟩ := c.exact_roundRat p.sign ∅ hnumber
  rw [p.factor_sign_mul_abs] at hvalue
  refine ⟨hrepresents.contains.wellFormed.isNumber hrepresents.isFinite, h, hvalue,
    fun hsigned => ?_⟩
  by_cases hzero : p.value = 0
  · rw [hzero, abs_zero, Context.roundRat_zero]
    exact if_pos hsigned
  · have hsign := (SignedRat.ofMagnitude _ (c.roundRat p.sign |p.value| ∅).magnitude).sign_eq
      (hvalue.trans_ne hzero)
    exact hsign.trans ((congrArg Sign.ofRat hvalue).trans (p.sign_eq hzero).symm)

theorem standsFor_mul (hx : x.IsNumber) (hy : y.IsNumber) (hsilentX : x.flags = ∅)
    (hsilentY : y.flags = ∅) (h : (x.mul y c).flags = ∅) :
    (x.mul y c).StandsFor c.format (.ofProduct x y) := by
  have hmul : x.mul y c = c.roundRat (SignedRat.ofProduct x y).sign
      |(SignedRat.ofProduct x y).value| ∅ := by
    rw [mul, round_product_eq_ofProduct hx hy, hsilentX, hsilentY, Flags.union_self]
  rw [hmul] at h ⊢
  exact standsFor_roundRat h

namespace StandsFor

variable (hx : x.StandsFor c.format p) (hy : y.StandsFor c.format q)

include hx hy

theorem round_sumWithSign {signY : Sign} {q' : SignedRat}
    (hagrees : (SignedRat.ofMagnitude signY y.magnitude).AgreesIn c.format q') :
    (x.sumWithSign y signY c).round c =
      c.roundRat (p.add q' c.mode).sign |(p.add q' c.mode).value| ∅ := by
  have hsum := hx.agrees.add hagrees c.mode
  rw [round_sumWithSign_eq_add hx.isNumber hy.isNumber, hx.silent, hy.silent, Flags.union_self]
  dsimp only
  rw [hsum.roundRat_eq fun hzero => by rw [hzero, abs_zero], hsum.value]

theorem add_eq :
    x.add y c = c.roundRat (p.add q c.mode).sign |(p.add q c.mode).value| ∅ :=
  hx.round_sumWithSign hy hy.agrees

theorem sub_eq :
    x.sub y c = c.roundRat (p.add q.neg c.mode).sign |(p.add q.neg c.mode).value| ∅ := by
  refine hx.round_sumWithSign hy ?_
  rw [SignedRat.ofMagnitude_flip]
  exact hy.agrees.neg

theorem standsFor_add (h : (x.add y c).flags = ∅) :
    (x.add y c).StandsFor c.format (p.add q c.mode) := by
  rw [hx.add_eq hy] at h ⊢
  exact standsFor_roundRat h

theorem standsFor_sub (h : (x.sub y c).flags = ∅) :
    (x.sub y c).StandsFor c.format (p.add q.neg c.mode) := by
  rw [hx.sub_eq hy] at h ⊢
  exact standsFor_roundRat h

theorem div_eq (hpos : 0 < q.value) :
    x.div y c = c.roundRat p.sign |p.value / q.value| ∅ := by
  have hvalueX : x.toRat = p.value := hx.agrees.value
  have hvalueY : y.toRat = q.value := hy.agrees.value
  have hne : y.magnitude ≠ .zero := by
    intro hzero
    rw [← hvalueY, toRat, hzero] at hpos
    exact hpos.ne' (mul_zero _)
  have hsign : y.sign = .positive := by
    have hofRat := (SignedRat.ofMagnitude y.sign y.magnitude).sign_eq
      (hy.agrees.value.trans_ne hpos.ne')
    rw [hy.agrees.value, Sign.ofRat_of_pos hpos] at hofRat
    exact hofRat
  have hsize : x.magnitude.toRat / y.magnitude.toRat = |p.value / q.value| := by
    rw [abs_div, ← hvalueX, ← hvalueY, abs_toRat, abs_toRat]
  have hzero : (SignedRat.ofMagnitude x.sign x.magnitude).value = 0 → |p.value / q.value| = 0 := by
    intro hzero
    rw [← hx.agrees.value, hzero, zero_div, abs_zero]
  rw [div, round_quotient hx.isNumber hy.isNumber hne, hx.silent, hy.silent, Flags.union_self,
    hsize, hsign, Sign.times_comm]
  exact hx.agrees.roundRat_eq hzero ∅

end StandsFor

/-- A significand has 64 bits. -/
theorem fitsBits_toRat (x : Value) : FitsBits 128 x.toRat := by
  obtain ⟨sign, flags, magnitude⟩ := x
  rw [FitsBits, abs_toRat]
  cases magnitude with
  | finite range exponent significand =>
    exact ⟨significand.toNat, exponent - 63, significand.toNat_lt.trans (by decide), rfl⟩
  | zero | infinite | nan => exact ⟨0, 0, by decide, by simp [Magnitude.toRat]⟩

theorem StandsFor.fitsBits (hx : x.StandsFor F p) : FitsBits 128 p.value :=
  (hx.agrees.value : x.toRat = p.value) ▸ x.fitsBits_toRat

end Value

/-! ## Quotients of held numbers -/

namespace Quantity

variable {x : Quantity} {p : SignedRat}

/-- The quotient of two exact quantities is rounded correctly. -/
theorem Exact.round_quotient (hx : x.Exact p) {denominator : Nonzero}
    (hd : denominator.Normalised) (hpos : 0 < denominator.toRat) (flags : Flags) (c : Context) :
    (x.quotient denominator flags c).round c =
      c.roundRat p.sign |p.value / denominator.toRat| flags := by
  cases x with
  | zero sign =>
    obtain ⟨hvalue, rfl⟩ := hx
    rw [hvalue, zero_div, abs_zero, Context.roundRat, if_pos rfl]
    rfl
  | nonzero t =>
    obtain ⟨hnormalised, hvalue⟩ := hx
    have hne : p.value ≠ 0 := hvalue ▸ hnormalised.holds.ne_zero
    have hround := Nonzero.round_quotient hnormalised hd flags c
    have hsign : Sign.ofRat (p.value / denominator.toRat) = p.sign := by
      rw [p.sign_eq hne]
      refine Sign.ofRat_congr ?_
      rw [div_mul_eq_mul_div]
      exact div_pos (mul_self_pos.2 hne) hpos
    rw [hvalue, hsign] at hround
    exact hround

/-- A quantity of at most 128 bits is held without a jammed bit. -/
theorem Holds.exact (hx : x.Holds p) (hfits : FitsBits 128 p.value) : x.Exact p := by
  cases x with
  | zero sign => exact hx
  | nonzero t =>
    have ht : t.Holds p.value := hx
    exact ⟨ht.normalised, ht.toRat_eq hfits⟩

theorem Holds.round_quotient (hx : x.Holds p) {denominator : Nonzero} {d : ℚ}
    (hd : denominator.Holds d) (hpos : 0 < d) (hfits : FitsBits 128 p.value)
    (hfits' : FitsBits 128 d) (flags : Flags) (c : Context) :
    (x.quotient denominator flags c).round c = c.roundRat p.sign |p.value / d| flags := by
  have hvalue := hd.toRat_eq hfits'
  rw [(hx.exact hfits).round_quotient hd.normalised (hvalue ▸ hpos), hvalue]

end Quantity

/-- Held quantities are divided as the values that stand for the same numbers are. -/
theorem Quantity.Holds.round_quotient_eq_div {x : Quantity} {c : Context} {p q : SignedRat}
    {n d : Value} (hx : x.Holds p) {denominator : Nonzero} (hd : denominator.Holds q.value)
    (hpos : 0 < q.value) (hn : n.StandsFor c.format p) (hd' : d.StandsFor c.format q) :
    (x.quotient denominator ∅ c).round c = n.div d c := by
  rw [hx.round_quotient hd hpos hn.fitsBits hd'.fitsBits, hn.div_eq hd' hpos]

namespace Complex

variable {x y : Complex} {c : Context}

/-- None of the four products of the textbook product raises a flag. -/
structure SilentProducts (x y : Complex) (c : Context) : Prop where
  re_re : (x.re.mul y.re c).flags = ∅
  im_im : (x.im.mul y.im c).flags = ∅
  re_im : (x.re.mul y.im c).flags = ∅
  im_re : (x.im.mul y.re c).flags = ∅

/-- None of the products and sums that the textbook quotient goes through before it
divides raises a flag. -/
structure SilentSums (x y : Complex) (c : Context) : Prop where
  products : x.SilentProducts y c
  square_re : (y.re.mul y.re c).flags = ∅
  square_im : (y.im.mul y.im c).flags = ∅
  denominator : ((y.re.mul y.re c).add (y.im.mul y.im c) c).flags = ∅
  re : ((x.re.mul y.re c).add (x.im.mul y.im c) c).flags = ∅
  im : ((x.im.mul y.re c).sub (x.re.mul y.im c) c).flags = ∅

/-- Both components are numbers without flags. -/
structure IsSilent (x : Complex) : Prop where
  isNumber : x.IsNumber
  re_flags : x.re.flags = ∅
  im_flags : x.im.flags = ∅

theorem WellFormed.isSilent (hx : x.WellFormed) (hfinite : x.isFinite = true)
    (hflags : x.flags = ∅) : x.IsSilent :=
  ⟨hx.isNumber hfinite, (Flags.union_eq_empty_iff.1 hflags).1,
    (Flags.union_eq_empty_iff.1 hflags).2⟩

theorem IsSilent.flags_eq (hx : x.IsSilent) : x.flags = ∅ :=
  Flags.union_eq_empty_iff.2 ⟨hx.re_flags, hx.im_flags⟩

/-- The four products are exact in the format. -/
structure ExactProducts (x y : Complex) (c : Context) : Prop where
  re_re : (x.re.mul y.re c).StandsFor c.format (.ofProduct x.re y.re)
  im_im : (x.im.mul y.im c).StandsFor c.format (.ofProduct x.im y.im)
  re_im : (x.re.mul y.im c).StandsFor c.format (.ofProduct x.re y.im)
  im_re : (x.im.mul y.re c).StandsFor c.format (.ofProduct x.im y.re)

section

variable (hx : x.IsSilent) (hy : y.IsSilent)

include hx hy

theorem SilentProducts.exactProducts (h : x.SilentProducts y c) : x.ExactProducts y c where
  re_re := Value.standsFor_mul hx.isNumber.1 hy.isNumber.1 hx.re_flags hy.re_flags h.re_re
  im_im := Value.standsFor_mul hx.isNumber.2 hy.isNumber.2 hx.im_flags hy.im_flags h.im_im
  re_im := Value.standsFor_mul hx.isNumber.1 hy.isNumber.2 hx.re_flags hy.im_flags h.re_im
  im_re := Value.standsFor_mul hx.isNumber.2 hy.isNumber.1 hx.im_flags hy.re_flags h.im_re

theorem mul_eq_textbookProduct (h : x.SilentProducts y c) :
    x.mul y c = (x.textbookProduct y c).value := by
  have hre := (Quantity.exact_ofProduct hx.isNumber.1 hy.isNumber.1).add
    (Quantity.exact_ofProduct hx.isNumber.2 hy.isNumber.2).neg c
  have him := (Quantity.exact_ofProduct hx.isNumber.1 hy.isNumber.2).add
    (Quantity.exact_ofProduct hx.isNumber.2 hy.isNumber.1) c
  have hexact := h.exactProducts hx hy
  rw [mul_eq_fusedProduct hx.isNumber hy.isNumber, fusedProduct, value_ofPending,
    hre.round_pending, him.round_pending, value_textbookProduct, hexact.re_re.sub_eq hexact.im_im,
    hexact.re_im.add_eq hexact.im_re, hx.flags_eq, hy.flags_eq, Flags.union_self]

omit hx in
theorem SilentSums.standsFor_denominator (h : x.SilentSums y c) :
    ((y.re.mul y.re c).add (y.im.mul y.im c) c).StandsFor c.format
      ((SignedRat.ofProduct y.re y.re).add (.ofProduct y.im y.im) c.mode) := by
  have hre := Value.standsFor_mul hy.isNumber.1 hy.isNumber.1 hy.re_flags hy.re_flags h.square_re
  have him := Value.standsFor_mul hy.isNumber.2 hy.isNumber.2 hy.im_flags hy.im_flags h.square_im
  exact hre.standsFor_add him h.denominator

theorem div_eq_textbookQuotient (h : x.SilentSums y c) :
    x.div y c = (x.textbookQuotient y c).value := by
  rw [div, quotient, hx.isNumber.isFinite, hy.isNumber.isFinite, Bool.and_self, if_pos rfl]
  cases hmagnitude : y.squaredMagnitude c with
  -- A division by zero is left to the textbook formula anyway.
  | zero sign => rfl
  | nonzero denominator =>
    have hholds := (Quantity.exact_ofProduct hy.isNumber.1 hy.isNumber.1).add
      (Quantity.exact_ofProduct hy.isNumber.2 hy.isNumber.2) c
    rw [← squaredMagnitude, hmagnitude] at hholds
    have hpos : 0 < ((SignedRat.ofProduct y.re y.re).add (.ofProduct y.im y.im) c.mode).value :=
      lt_of_le_of_ne (add_nonneg (mul_self_nonneg _) (mul_self_nonneg _))
        (Nonzero.Holds.ne_zero hholds).symm
    have hre := (Quantity.exact_ofProduct hx.isNumber.1 hy.isNumber.1).add
      (Quantity.exact_ofProduct hx.isNumber.2 hy.isNumber.2) c
    have him := (Quantity.exact_ofProduct hx.isNumber.2 hy.isNumber.1).add
      (Quantity.exact_ofProduct hx.isNumber.1 hy.isNumber.2).neg c
    have hexact := h.products.exactProducts hx hy
    have hdenominator := h.standsFor_denominator hy
    rw [value_textbookQuotient]
    dsimp only
    rw [fusedQuotient, value_ofPending, hx.flags_eq, hy.flags_eq, Flags.union_self,
      hre.round_quotient_eq_div hholds hpos (hexact.re_re.standsFor_add hexact.im_im h.re)
        hdenominator,
      him.round_quotient_eq_div hholds hpos (hexact.im_re.standsFor_sub hexact.re_im h.im)
        hdenominator]

end

/-- If no product of the textbook formula raises a flag, then the fused product is that
of the textbook formula, and if no sum does either, then so is the fused quotient. -/
theorem fused_eq_textbook (hx : x.WellFormed) (hy : y.WellFormed) (hfiniteX : x.isFinite = true)
    (hfiniteY : y.isFinite = true) (hflagsX : x.flags = ∅) (hflagsY : y.flags = ∅)
    (hproducts : x.SilentProducts y c) :
    x.mul y c = (x.textbookProduct y c).value ∧
      (x.SilentSums y c → x.div y c = (x.textbookQuotient y c).value) :=
  ⟨mul_eq_textbookProduct (hx.isSilent hfiniteX hflagsX) (hy.isSilent hfiniteY hflagsY) hproducts,
    div_eq_textbookQuotient (hx.isSilent hfiniteX hflagsX) (hy.isSilent hfiniteY hflagsY)⟩

/-- Two of the products are negative zeros, which the format does not have. -/
theorem fused_eq_textbook_zeros :
    let c : Context := ⟨Format.double.withoutNegativeZero, some .towardNegative⟩
    let x : Complex := ⟨.zero .negative, .powerOfTwo 0⟩
    let y : Complex := ⟨.powerOfTwo 0, .zero .negative⟩
    x.WellFormed ∧ y.WellFormed ∧ x.isFinite = true ∧ y.isFinite = true ∧ x.flags = ∅ ∧
      y.flags = ∅ ∧ x.SilentProducts y c ∧ x.SilentSums y c ∧
      x.mul y c = (x.textbookProduct y c).value ∧ x.div y c = (x.textbookQuotient y c).value := by
  intro c x y
  have hzero : (Value.zero .negative).WellFormed := Value.wellFormed_iff.2 trivial
  have hone : (Value.powerOfTwo 0).WellFormed :=
    Value.wellFormed_iff.2 ⟨Range.admits_topBit, by decide⟩
  have hproducts : x.SilentProducts y c :=
    ⟨by decide +kernel, by decide +kernel, by decide +kernel, by decide +kernel⟩
  have hsums : x.SilentSums y c :=
    ⟨hproducts, by decide +kernel, by decide +kernel, by decide +kernel, by decide +kernel,
      by decide +kernel⟩
  obtain ⟨hmul, hdiv⟩ := fused_eq_textbook (x := x) (y := y) ⟨hzero, hone⟩ ⟨hone, hzero⟩ rfl rfl
    rfl rfl hproducts
  exact ⟨⟨hzero, hone⟩, ⟨hone, hzero⟩, rfl, rfl, rfl, rfl, hproducts, hsums, hmul, hdiv hsums⟩

end Complex
end CrossFloat
