/-
Arithmetic on well-formed values stays in range.

The exponents grow by one bit from step to step: operands are below 2^30,
products and their sums below 2^32, and quotients of sums below 2^34.  Each
number on the way has its leading bit at the top of its word, so a product is at
most one place short, and a division is given what it asserts.
-/
import CrossFloat.Checked.Arithmetic
import CrossFloat.Proofs.Checked.Rounding
import CrossFloat.Proofs.Nonzero.Sum
import CrossFloat.Proofs.WellFormed

namespace CrossFloat

open Checked

namespace IsOperand

variable {exponent exponent₁ exponent₂ : ℤ} {significand significand₁ significand₂ : UInt64}

theorem normalisedChecked_eq (h : IsOperand exponent significand) :
    normalisedChecked exponent significand =
      pure (alignLeft significand, leadingExp exponent significand) := by
  obtain ⟨hs, hlow, hhigh⟩ := h
  exact CrossFloat.normalisedChecked_eq hs (by omega) (by omega)

theorem leadingExp_bounds (h : IsOperand exponent significand) :
    -2 ^ 30 ≤ leadingExp exponent significand ∧ leadingExp exponent significand ≤ 2 ^ 30 := by
  obtain ⟨hs, hlow, hhigh⟩ := h
  have hzeros := (Limb.leadingZeros_spec hs).1
  rw [leadingExp]
  omega

theorem product_places_le (h₁ : IsOperand exponent₁ significand₁)
    (h₂ : IsOperand exponent₂ significand₂) :
    (Word128.ofProduct (alignLeft significand₁) (alignLeft significand₂)).leadingZeros ≤ 1 := by
  apply Word128.leadingZeros_le_one
  rw [Word128.toNat_ofProduct]
  calc 2 ^ 126 = 2 ^ 63 * 2 ^ 63 := Nat.pow_add 2 63 63
    _ ≤ _ := Nat.mul_le_mul (le_toNat_alignLeft h₁.ne_zero) (le_toNat_alignLeft h₂.ne_zero)

end IsOperand

namespace Nonzero

/-- The number is normalised, and its exponent is at most `bound` in magnitude. -/
structure Within (t : Nonzero) (bound : ℤ) : Prop where
  normalised : t.Normalised
  le_exp : -bound ≤ t.exp
  exp_le : t.exp ≤ bound

theorem Within.mono {t : Nonzero} {bound bound' : ℤ} (h : t.Within bound) (hle : bound ≤ bound') :
    t.Within bound' :=
  ⟨h.normalised, by linarith [h.le_exp], by linarith [h.exp_le]⟩

/-! ## Operands and products -/

section Operands

variable {exponent exponent₁ exponent₂ : ℤ} {significand significand₁ significand₂ : UInt64}
variable (sign sign₁ sign₂ : Sign)

theorem ofFiniteChecked_eq (h : IsOperand exponent significand) :
    ofFiniteChecked sign exponent significand = pure (ofFinite sign exponent significand) := by
  rw [ofFiniteChecked, h.normalisedChecked_eq]
  rfl

theorem within_ofFinite (h : IsOperand exponent significand) :
    (ofFinite sign exponent significand).Within (2 ^ 32) :=
  Within.mono ⟨ofFinite_normalised sign exponent h.ne_zero, h.leadingExp_bounds.1,
    h.leadingExp_bounds.2⟩ (by decide)

theorem ofProductChecked_eq (h₁ : IsOperand exponent₁ significand₁)
    (h₂ : IsOperand exponent₂ significand₂) :
    ofProductChecked sign₁ exponent₁ significand₁ sign₂ exponent₂ significand₂ =
      pure (ofProduct sign₁ exponent₁ significand₁ sign₂ exponent₂ significand₂) := by
  have hplaces := h₁.product_places_le h₂
  obtain ⟨hlow₁, hhigh₁⟩ := h₁.leadingExp_bounds
  obtain ⟨hlow₂, hhigh₂⟩ := h₂.leadingExp_bounds
  simp only [ofProductChecked, ofProduct, h₁.normalisedChecked_eq, h₂.normalisedChecked_eq,
    Word128.ofProductChecked_eq, pure_bind]
  generalize Word128.ofProduct (alignLeft significand₁) (alignLeft significand₂) = product at *
  rw [assert_eq (decide_eq_true hplaces), pure_bind, product.shiftLeftChecked_eq (by omega),
    pure_bind, i64_eq (by omega) (by omega), pure_bind, i64_eq (by omega) (by omega), pure_bind,
    i64_eq (by omega) (by omega), pure_bind]

theorem within_ofProduct (h₁ : IsOperand exponent₁ significand₁)
    (h₂ : IsOperand exponent₂ significand₂) :
    (ofProduct sign₁ exponent₁ significand₁ sign₂ exponent₂ significand₂).Within (2 ^ 32) := by
  have hplaces := h₁.product_places_le h₂
  obtain ⟨hlow₁, hhigh₁⟩ := h₁.leadingExp_bounds
  obtain ⟨hlow₂, hhigh₂⟩ := h₂.leadingExp_bounds
  refine ⟨ofProduct_normalised sign₁ exponent₁ sign₂ exponent₂ h₁.ne_zero h₂.ne_zero, ?_, ?_⟩ <;>
    simp only [ofProduct] <;> omega

end Operands

/-! ## Sums -/

section Sums

variable {x y big small : Nonzero}

theorem addSmallerChecked_eq (hbig : big.Within (2 ^ 32)) (hsmall : small.Within (2 ^ 32)) :
    addSmallerChecked big small = pure (addSmaller big small) := by
  obtain ⟨-, hlow, hhigh⟩ := hbig
  obtain ⟨-, hlow', hhigh'⟩ := hsmall
  have hgap : (if big.exp - small.exp < 255 then big.exp - small.exp else 255).toNat =
      if (big.exp - small.exp).toNat < 255 then (big.exp - small.exp).toNat else 255 := by
    split <;> split <;> omega
  simp only [addSmallerChecked, addSmaller, i64_eq (n := big.exp - small.exp) (by omega) (by omega),
    Word192.shiftRightJamChecked_eq, pure_bind, hgap]
  generalize (Word192.ofHigh small.mag).shiftRightJam _ = smallMag
  by_cases hsign : big.sign = small.sign
  · rw [if_pos hsign, if_pos hsign]
    cases ((Word192.ofHigh big.mag).addCarry smallMag).2 with
    | false => rfl
    | true =>
      rw [if_pos rfl, if_pos rfl, i64_eq (by omega) (by omega), pure_bind]
  · rw [if_neg hsign, if_neg hsign]
    generalize ((Word192.ofHigh big.mag).subBorrow smallMag).1 = difference
    by_cases hzero : difference.isZero = true
    · rw [if_pos hzero, if_pos hzero]
    · have hne : difference.toNat ≠ 0 := fun h => hzero (Word192.isZero_iff.2 h)
      have hplaces := (Word192.leadingZeros_spec hne).1
      rw [if_neg hzero, if_neg hzero, difference.shiftLeftChecked_eq (by omega), pure_bind,
        i64_eq (by omega) (by omega), pure_bind]

theorem addChecked_eq (hx : x.Within (2 ^ 32)) (hy : y.Within (2 ^ 32)) :
    x.addChecked y = pure (x.add y) := by
  rw [addChecked, add]
  split
  · exact addSmallerChecked_eq hx hy
  · exact addSmallerChecked_eq hy hx

/-- A sum that carries is one place up, and a difference at most its word
down. -/
theorem exp_addSmaller (hsum : addSmaller big small = some x) :
    big.exp - 191 ≤ x.exp ∧ x.exp ≤ big.exp + 1 := by
  simp only [addSmaller] at hsum
  generalize (Word192.ofHigh small.mag).shiftRightJam _ = smallMag at hsum
  by_cases hsign : big.sign = small.sign
  · rw [if_pos hsign] at hsum
    generalize (Word192.ofHigh big.mag).addCarry smallMag = result at hsum
    split at hsum <;> cases hsum <;> constructor <;> dsimp only <;> omega
  · rw [if_neg hsign] at hsum
    generalize ((Word192.ofHigh big.mag).subBorrow smallMag).1 = difference at hsum
    split at hsum
    · cases hsum
    · next hzero =>
      have hne : difference.toNat ≠ 0 := fun h => hzero (Word192.isZero_iff.2 h)
      have hplaces := (Word192.leadingZeros_spec hne).1
      cases hsum
      dsimp only
      omega

theorem Within.add {sum : Nonzero} (hx : x.Within (2 ^ 32)) (hy : y.Within (2 ^ 32))
    (hsum : x.add y = some sum) : sum.Within (2 ^ 33) := by
  have hspec := add_spec hx.normalised hy.normalised
  rw [hsum] at hspec
  obtain ⟨-, hlow, hhigh⟩ := hx
  obtain ⟨-, hlow', hhigh'⟩ := hy
  have hexp : -2 ^ 33 ≤ sum.exp ∧ sum.exp ≤ 2 ^ 33 := by
    rw [Nonzero.add] at hsum
    split at hsum
    · have := exp_addSmaller hsum
      omega
    · have := exp_addSmaller hsum
      omega
  exact ⟨hspec.normalised, hexp.1, hexp.2⟩

end Sums

/-! ## Quotients -/

theorem quotientChecked_eq {n d : Nonzero} (hn : n.Within (2 ^ 33)) (hd : d.Within (2 ^ 33))
    (flags : Flags) : n.quotientChecked d flags = pure (n.quotient d flags) := by
  obtain ⟨hn, hlow, hhigh⟩ := hn
  obtain ⟨hd, hlow', hhigh'⟩ := hd
  rw [quotientChecked, Word128.divideChecked_eq hn hd, pure_bind]
  dsimp only
  rw [i64_eq (by omega) (by omega), pure_bind]
  rfl

end Nonzero

/-! ## Operations on values -/

namespace Value

variable {x y : Value} (c : Context)

theorem sumWithSignChecked_eq (hx : x.WellFormed) (hy : y.WellFormed) (signY : Sign) :
    x.sumWithSignChecked y signY c = pure (x.sumWithSign y signY c) := by
  have hmX := wellFormed_iff.1 hx
  have hmY := wellFormed_iff.1 hy
  obtain ⟨signX, flagsX, magnitudeX⟩ := x
  obtain ⟨signY', flagsY, magnitudeY⟩ := y
  cases magnitudeX with
  | nan payload => simp only [sumWithSignChecked, nanInChecked_eq]; rfl
  | zero | infinite =>
    cases magnitudeY with
    | nan payload => simp only [sumWithSignChecked, nanInChecked_eq]; rfl
    | zero | infinite | finite => rfl
  | finite rangeX exponentX significandX =>
    cases magnitudeY with
    | nan payload => simp only [sumWithSignChecked, nanInChecked_eq]; rfl
    | zero | infinite => rfl
    | finite rangeY exponentY significandY =>
      have hleft := hmX.isOperand
      have hright := hmY.isOperand
      simp only [sumWithSignChecked, sumWithSign, Nonzero.ofFiniteChecked_eq _ hleft,
        Nonzero.ofFiniteChecked_eq _ hright, pure_bind,
        Nonzero.addChecked_eq (Nonzero.within_ofFinite _ hleft) (Nonzero.within_ofFinite _ hright)]
      cases (Nonzero.ofFinite signX exponentX significandX).add
        (Nonzero.ofFinite signY exponentY significandY) <;> rfl

theorem productChecked_eq (hx : x.WellFormed) (hy : y.WellFormed) :
    x.productChecked y c = pure (x.product y c) := by
  have hmX := wellFormed_iff.1 hx
  have hmY := wellFormed_iff.1 hy
  obtain ⟨signX, flagsX, magnitudeX⟩ := x
  obtain ⟨signY, flagsY, magnitudeY⟩ := y
  cases magnitudeX with
  | nan payload => simp only [productChecked, nanInChecked_eq]; rfl
  | zero | infinite =>
    cases magnitudeY with
    | nan payload => simp only [productChecked, nanInChecked_eq]; rfl
    | zero | infinite | finite => rfl
  | finite =>
    cases magnitudeY with
    | nan payload => simp only [productChecked, nanInChecked_eq]; rfl
    | zero | infinite => rfl
    | finite =>
      simp only [productChecked, Nonzero.ofProductChecked_eq _ _ hmX.isOperand hmY.isOperand,
        pure_bind]
      rfl

theorem quotientChecked_eq (hx : x.WellFormed) (hy : y.WellFormed) :
    x.quotientChecked y c = pure (x.quotient y c) := by
  have hmX := wellFormed_iff.1 hx
  have hmY := wellFormed_iff.1 hy
  obtain ⟨signX, flagsX, magnitudeX⟩ := x
  obtain ⟨signY, flagsY, magnitudeY⟩ := y
  cases magnitudeX with
  | nan payload => simp only [quotientChecked, nanInChecked_eq]; rfl
  | zero | infinite =>
    cases magnitudeY with
    | nan payload => simp only [quotientChecked, nanInChecked_eq]; rfl
    | zero | infinite | finite => rfl
  | finite =>
    cases magnitudeY with
    | nan payload => simp only [quotientChecked, nanInChecked_eq]; rfl
    | zero | infinite => rfl
    | finite =>
      have hleft := hmX.isOperand
      have hright := hmY.isOperand
      simp only [quotientChecked, Nonzero.ofFiniteChecked_eq _ hleft,
        Nonzero.ofFiniteChecked_eq _ hright, pure_bind,
        Nonzero.quotientChecked_eq ((Nonzero.within_ofFinite _ hleft).mono (by decide))
          ((Nonzero.within_ofFinite _ hright).mono (by decide))]
      rfl

theorem addChecked_eq (hx : x.WellFormed) (hy : y.WellFormed) :
    x.addChecked y c = pure (x.add y c) := by
  rw [addChecked, sumWithSignChecked_eq c hx hy, pure_bind, Pending.roundChecked_eq]
  rfl

theorem subChecked_eq (hx : x.WellFormed) (hy : y.WellFormed) :
    x.subChecked y c = pure (x.sub y c) := by
  rw [subChecked, sumWithSignChecked_eq c hx hy, pure_bind, Pending.roundChecked_eq]
  rfl

theorem mulChecked_eq (hx : x.WellFormed) (hy : y.WellFormed) :
    x.mulChecked y c = pure (x.mul y c) := by
  rw [mulChecked, productChecked_eq c hx hy, pure_bind, Pending.roundChecked_eq]
  rfl

theorem divChecked_eq (hx : x.WellFormed) (hy : y.WellFormed) :
    x.divChecked y c = pure (x.div y c) := by
  rw [divChecked, quotientChecked_eq c hx hy, pure_bind, Pending.roundChecked_eq]
  rfl

end Value

/-! ## Operations on complex numbers -/

namespace Quantity

/-- A nonzero quantity is bounded like a number. -/
def Within (q : Quantity) (bound : ℤ) : Prop :=
  match q with
  | zero _ => True
  | nonzero t => t.Within bound

variable {x y z w : Value} {p q : Quantity}

theorem ofProductChecked_eq (hx : x.WellFormed) (hy : y.WellFormed) :
    ofProductChecked x y = pure (ofProduct x y) ∧ (ofProduct x y).Within (2 ^ 32) := by
  have hmX := Value.wellFormed_iff.1 hx
  have hmY := Value.wellFormed_iff.1 hy
  obtain ⟨signX, flagsX, magnitudeX⟩ := x
  obtain ⟨signY, flagsY, magnitudeY⟩ := y
  cases magnitudeX with
  | zero | infinite | nan => exact ⟨rfl, trivial⟩
  | finite =>
    cases magnitudeY with
    | zero | infinite | nan => exact ⟨rfl, trivial⟩
    | finite =>
      refine ⟨?_, Nonzero.within_ofProduct _ _ hmX.isOperand hmY.isOperand⟩
      simp only [ofProductChecked, Nonzero.ofProductChecked_eq _ _ hmX.isOperand hmY.isOperand]
      rfl

theorem Within.neg {bound : ℤ} (hq : q.Within bound) : q.neg.Within bound := by
  cases q with
  | zero => trivial
  | nonzero t => exact ⟨hq.normalised, hq.le_exp, hq.exp_le⟩

theorem addChecked_eq (hp : p.Within (2 ^ 32)) (hq : q.Within (2 ^ 32)) (c : Context) :
    p.addChecked q c = pure (p.add q c) ∧ (p.add q c).Within (2 ^ 33) := by
  cases p with
  | zero =>
    cases q with
    | zero => exact ⟨rfl, trivial⟩
    | nonzero t => exact ⟨rfl, Nonzero.Within.mono hq (by decide)⟩
  | nonzero s =>
    cases q with
    | zero => exact ⟨rfl, Nonzero.Within.mono hp (by decide)⟩
    | nonzero t =>
      simp only [addChecked, Nonzero.addChecked_eq hp hq, pure_bind, add]
      cases hsum : s.add t with
      | none => exact ⟨rfl, trivial⟩
      | some sum => exact ⟨rfl, Nonzero.Within.add hp hq hsum⟩

theorem ofProductsChecked_eq (hx : x.WellFormed) (hy : y.WellFormed) (hz : z.WellFormed)
    (hw : w.WellFormed) (negated : Bool) (c : Context) :
    ofProductsChecked x y z w negated c =
        pure ((ofProduct x y).add (if negated then (ofProduct z w).neg else ofProduct z w) c) ∧
      ((ofProduct x y).add (if negated then (ofProduct z w).neg else ofProduct z w) c).Within
        (2 ^ 33) := by
  obtain ⟨hleft, hwithin⟩ := ofProductChecked_eq hx hy
  obtain ⟨hright, hwithin'⟩ := ofProductChecked_eq hz hw
  have hsigned : (if negated then (ofProduct z w).neg else ofProduct z w).Within (2 ^ 32) := by
    split
    · exact hwithin'.neg
    · exact hwithin'
  simp only [ofProductsChecked, hleft, hright, pure_bind]
  exact addChecked_eq hwithin hsigned c

theorem quotientChecked_eq {denominator : Nonzero} (hq : q.Within (2 ^ 33))
    (hdenominator : denominator.Within (2 ^ 33)) (flags : Flags) (c : Context) :
    q.quotientChecked denominator flags c = pure (q.quotient denominator flags c) := by
  cases q with
  | zero => rfl
  | nonzero t =>
    simp only [quotientChecked, Nonzero.quotientChecked_eq hq hdenominator]
    rfl

end Quantity

namespace Complex

variable {x y : Complex} (c : Context)

theorem textbookProductChecked_eq (hx : x.WellFormed) (hy : y.WellFormed) :
    x.textbookProductChecked y c = pure (x.textbookProduct y c).value := by
  simp only [textbookProductChecked, Value.mulChecked_eq c hx.re hy.re,
    Value.mulChecked_eq c hx.im hy.im, Value.mulChecked_eq c hx.re hy.im,
    Value.mulChecked_eq c hx.im hy.re, Value.subChecked_eq c Value.wellFormed_mul
      Value.wellFormed_mul, Value.addChecked_eq c Value.wellFormed_mul Value.wellFormed_mul,
    pure_bind]
  rfl

theorem textbookQuotientChecked_eq (hx : x.WellFormed) (hy : y.WellFormed) :
    x.textbookQuotientChecked y c = pure (x.textbookQuotient y c).value := by
  simp only [textbookQuotientChecked, Value.mulChecked_eq c hx.re hy.re,
    Value.mulChecked_eq c hx.im hy.im, Value.mulChecked_eq c hx.re hy.im,
    Value.mulChecked_eq c hx.im hy.re, Value.mulChecked_eq c hy.re hy.re,
    Value.mulChecked_eq c hy.im hy.im, Value.subChecked_eq c Value.wellFormed_mul
      Value.wellFormed_mul, Value.addChecked_eq c Value.wellFormed_mul Value.wellFormed_mul,
    Value.divChecked_eq c Value.wellFormed_add Value.wellFormed_add,
    Value.divChecked_eq c Value.wellFormed_sub Value.wellFormed_add, pure_bind]
  rfl

theorem fusedProductChecked_eq (hx : x.WellFormed) (hy : y.WellFormed) :
    x.fusedProductChecked y c = pure (x.fusedProduct y c).value := by
  obtain ⟨hre, -⟩ := Quantity.ofProductsChecked_eq hx.re hy.re hx.im hy.im true c
  obtain ⟨him, -⟩ := Quantity.ofProductsChecked_eq hx.re hy.im hx.im hy.re false c
  simp only [fusedProductChecked, hre, him, Pending.roundChecked_eq, pure_bind]
  rfl

theorem fusedQuotientChecked_eq (hx : x.WellFormed) (hy : y.WellFormed) {denominator : Nonzero}
    (hdenominator : denominator.Within (2 ^ 33)) :
    x.fusedQuotientChecked y denominator c = pure (x.fusedQuotient y denominator c).value := by
  obtain ⟨hre, hwithin⟩ := Quantity.ofProductsChecked_eq hx.re hy.re hx.im hy.im false c
  obtain ⟨him, hwithin'⟩ := Quantity.ofProductsChecked_eq hx.im hy.re hx.re hy.im true c
  rw [fusedQuotientChecked, hre, pure_bind, him, pure_bind,
    Quantity.quotientChecked_eq hwithin hdenominator, pure_bind, Pending.roundChecked_eq,
    pure_bind, Quantity.quotientChecked_eq hwithin' hdenominator, pure_bind,
    Pending.roundChecked_eq, pure_bind]
  rfl

theorem mulChecked_eq (hx : x.WellFormed) (hy : y.WellFormed) :
    x.mulChecked y c = pure (x.mul y c) := by
  rw [mulChecked, mul, product]
  split
  · exact fusedProductChecked_eq c hx hy
  · exact textbookProductChecked_eq c hx hy

theorem divChecked_eq (hx : x.WellFormed) (hy : y.WellFormed) :
    x.divChecked y c = pure (x.div y c) := by
  obtain ⟨hmagnitude, hwithin⟩ := Quantity.ofProductsChecked_eq hy.re hy.re hy.im hy.im false c
  rw [divChecked, div, quotient]
  split
  · rw [hmagnitude, pure_bind]
    have hsquared : (Quantity.ofProduct y.re y.re).add (if false then
        (Quantity.ofProduct y.im y.im).neg else Quantity.ofProduct y.im y.im) c =
        y.squaredMagnitude c := rfl
    rw [hsquared] at hwithin ⊢
    cases hcase : y.squaredMagnitude c with
    | zero => exact textbookQuotientChecked_eq c hx hy
    | nonzero denominator =>
      rw [hcase] at hwithin
      exact fusedQuotientChecked_eq c hx hy hwithin
  · exact textbookQuotientChecked_eq c hx hy

end Complex
end CrossFloat
