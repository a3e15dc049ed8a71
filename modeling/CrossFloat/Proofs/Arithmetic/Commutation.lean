/-
Sums and products commute, and a difference is a sum.

For numbers the operations round an exact sum or product, and the sign of a sum that is
exactly zero does not ask which operand is which.  The tables of the operations are
written for the left operand first.  It matters which one that is only where both are
NaNs, since the left one is handed on then.

A product of complex numbers swaps the two products of its imaginary part.  In the
textbook formula these may both be NaNs, of invalid products, and such NaNs differ in
nothing but their flags.
-/
import CrossFloat.Proofs.Arithmetic.Folding
import CrossFloat.Proofs.Complex.Quotient

namespace CrossFloat

/-! ## Sums of signed numbers -/

namespace SignedRat

theorem eq_of {p q : SignedRat} (hsign : p.sign = q.sign) (hvalue : p.value = q.value) : p = q := by
  cases p
  cases q
  simp only [mk.injEq]
  exact ⟨hsign, hvalue⟩

/-- The number that a magnitude with the given sign stands for. -/
def ofMagnitude (sign : Sign) (m : Magnitude) : SignedRat where
  sign := sign
  value := sign.factor * m.toRat
  sign_eq hne := by
    have hpos := lt_of_le_of_ne m.toRat_nonneg (right_ne_zero_of_mul hne).symm
    exact (Sign.ofRat_factor_mul sign hpos).symm

protected theorem add_comm (p q : SignedRat) (mode : RoundingMode) :
    p.add q mode = q.add p mode := by
  have hvalue : p.value + q.value = q.value + p.value := add_comm _ _
  refine eq_of (if_congr (by rw [hvalue]) (by rw [hvalue]) ?_) hvalue
  by_cases hcommon : p.value = 0 ∧ q.value = 0 ∧ p.sign = q.sign
  · obtain ⟨hp, hq, hsign⟩ := hcommon
    rw [if_pos ⟨hp, hq, hsign⟩, if_pos ⟨hq, hp, hsign.symm⟩, hsign]
  · have hcommon' : ¬ (q.value = 0 ∧ p.value = 0 ∧ q.sign = p.sign) := fun h =>
      hcommon ⟨h.2.1, h.1, h.2.2.symm⟩
    rw [if_neg hcommon, if_neg hcommon']

theorem ofProduct_comm (x y : Value) : ofProduct x y = ofProduct y x :=
  eq_of (Sign.times_comm _ _) (mul_comm _ _)

end SignedRat

theorem Intermediate.isNan_round (u : Intermediate) (c : Context) : (u.round c).isNan = false := by
  rw [u.round_eq_roundRat]
  exact c.isNan_roundRat _ _ (mul_nonneg (Nat.cast_nonneg _) (two_zpow_pos _).le)

namespace Value

variable {x y : Value} {c : Context}

/-- A sum of numbers is the rounding of the sum of signed numbers. -/
theorem round_sumWithSign_eq_add (hx : x.IsNumber) (hy : y.IsNumber) (signY : Sign) (c : Context) :
    (x.sumWithSign y signY c).round c =
      let sum := (SignedRat.ofMagnitude x.sign x.magnitude).add
        (.ofMagnitude signY y.magnitude) c.mode
      c.roundRat sum.sign |sum.value| (x.flags ∪ y.flags) := by
  have hzero {z : Value} (hz : z.IsNumber) (sign : Sign) :
      z.isZero = true ↔ (SignedRat.ofMagnitude sign z.magnitude).value = 0 := by
    have hsigned : (Value.mk sign z.flags z.magnitude).IsNumber := hz
    exact hsigned.toRat_eq_zero_iff.symm
  have hsign : x.sumSign y signY c = ((SignedRat.ofMagnitude x.sign x.magnitude).add
      (.ofMagnitude signY y.magnitude) c.mode).sign := by
    have hcommon := (hzero hx x.sign).and ((hzero hy signY).and (Iff.refl (x.sign = signY)))
    refine if_congr Iff.rfl rfl ?_
    refine ite_congr (propext hcommon) (fun h => h.2.2.symm) fun _ => c.zeroSumSign_eq
  rw [round_sumWithSign hx hy, hsign]
  rfl

/-! ## Sums -/

theorem add_comm_of_isNumber (hx : x.IsNumber) (hy : y.IsNumber) (c : Context) :
    x.add y c = y.add x c := by
  rw [add, add, sum, sum, round_sumWithSign_eq_add hx hy, round_sumWithSign_eq_add hy hx,
    SignedRat.add_comm, Flags.union_comm]

/-- Two operands may be swapped, unless they are different NaNs. -/
theorem add_comm_of_nan (hx : x.WellFormed) (hy : y.WellFormed)
    (hnan : x.isNan → y.isNan → x.sign = y.sign ∧ x.magnitude = y.magnitude) (c : Context) :
    x.add y c = y.add x c := by
  by_cases hfinite : x.isFinite = true ∧ y.isFinite = true
  · exact add_comm_of_isNumber (hx.isNumber hfinite.1) (hy.isNumber hfinite.2) c
  obtain ⟨signX, flagsX, magnitudeX⟩ := x
  obtain ⟨signY, flagsY, magnitudeY⟩ := y
  rw [add, add, sum, sum, sumWithSign, sumWithSign, Flags.union_comm]
  cases magnitudeX with
  | nan payload =>
    cases magnitudeY with
    | nan payload' =>
      obtain ⟨rfl, hmagnitude⟩ := hnan rfl rfl
      rw [Magnitude.nan.inj hmagnitude]
    | zero | finite | infinite => rfl
  | infinite =>
    cases magnitudeY with
    | infinite => cases signX <;> cases signY <;> rfl
    | zero | finite | nan => rfl
  | zero | finite =>
    cases magnitudeY with
    | infinite | nan => rfl
    | zero | finite => exact absurd ⟨rfl, rfl⟩ hfinite

theorem sub_eq_add_neg_of_nan (hnan : ¬ (y.isNan ∧ ¬ x.isNan)) (c : Context) :
    x.sub y c = x.add (-y) c := by
  obtain ⟨signX, flagsX, magnitudeX⟩ := x
  obtain ⟨signY, flagsY, magnitudeY⟩ := y
  cases magnitudeX with
  | nan payload => rfl
  | zero | finite | infinite =>
    cases magnitudeY with
    | nan payload => exact absurd ⟨rfl, Bool.false_ne_true⟩ hnan
    | zero | finite | infinite => rfl

/-! ## Products -/

theorem mul_comm_of_nan (hx : x.WellFormed) (hy : y.WellFormed) (hnan : ¬ (x.isNan ∧ y.isNan))
    (c : Context) : x.mul y c = y.mul x c := by
  by_cases hfinite : x.isFinite = true ∧ y.isFinite = true
  · have hx := hx.isNumber hfinite.1
    have hy := hy.isNumber hfinite.2
    rw [mul, mul, round_product_eq_ofProduct hx hy, round_product_eq_ofProduct hy hx,
      SignedRat.ofProduct_comm, Flags.union_comm]
  obtain ⟨signX, flagsX, magnitudeX⟩ := x
  obtain ⟨signY, flagsY, magnitudeY⟩ := y
  rw [mul, mul, product, product, Flags.union_comm, Sign.times_comm]
  cases magnitudeX with
  | nan payload =>
    cases magnitudeY with
    | nan payload' => exact absurd ⟨rfl, rfl⟩ hnan
    | zero | finite | infinite => rfl
  | infinite => cases magnitudeY <;> rfl
  | zero | finite =>
    cases magnitudeY with
    | infinite | nan => rfl
    | zero | finite => exact absurd ⟨rfl, rfl⟩ hfinite

/-- Operands that are not NaNs have a NaN for their product only if it is invalid. -/
theorem mul_eq_invalidResult (hx : ¬ x.isNan) (hy : ¬ y.isNan) (hnan : (x.mul y c).isNan = true) :
    x.mul y c = invalidResult (x.flags ∪ y.flags) := by
  obtain ⟨signX, flagsX, magnitudeX⟩ := x
  obtain ⟨signY, flagsY, magnitudeY⟩ := y
  cases magnitudeX with
  | nan payload => exact absurd rfl hx
  | zero =>
    cases magnitudeY with
    | nan payload => exact absurd rfl hy
    | infinite => rfl
    | zero | finite => exact absurd hnan Bool.false_ne_true
  | infinite =>
    cases magnitudeY with
    | nan payload => exact absurd rfl hy
    | zero => rfl
    | infinite | finite => exact absurd hnan Bool.false_ne_true
  | finite rangeX exponentX significandX =>
    cases magnitudeY with
    | nan payload => exact absurd rfl hy
    | zero | infinite => exact absurd hnan Bool.false_ne_true
    | finite rangeY exponentY significandY =>
      exact absurd hnan (Bool.eq_false_iff.1 (Intermediate.isNan_round (Intermediate.mk ..) c))

end Value

/-! ## Products of complex numbers -/

namespace Complex

variable {x y : Complex}

theorem WellFormed.isNumber (hx : x.WellFormed) (hfinite : x.isFinite = true) : x.IsNumber := by
  rw [isFinite, Bool.and_eq_true] at hfinite
  exact ⟨hx.re.isNumber hfinite.1, hx.im.isNumber hfinite.2⟩

/-- Some component is a NaN. -/
def HasNan (z : Complex) : Prop :=
  z.re.isNan = true ∨ z.im.isNan = true

theorem mul_comm_of_isNumber (hx : x.IsNumber) (hy : y.IsNumber) (c : Context) :
    x.mul y c = y.mul x c := by
  obtain ⟨hre, him⟩ := correctRounding_components_mul hx hy c
  obtain ⟨hre', him'⟩ := correctRounding_components_mul hy hx c
  rw [SignedRat.ofProduct_comm y.re, SignedRat.ofProduct_comm y.im, mul_comm y.re.toRat,
    mul_comm y.im.toRat, Flags.union_comm] at hre'
  rw [SignedRat.add_comm, SignedRat.ofProduct_comm y.re, SignedRat.ofProduct_comm y.im,
    mul_comm y.re.toRat, mul_comm y.im.toRat, add_comm, Flags.union_comm] at him'
  exact congrArg₂ Complex.mk (hre.eq_roundRat.trans hre'.eq_roundRat.symm)
    (him.eq_roundRat.trans him'.eq_roundRat.symm)

theorem textbookProduct_comm (hx : x.WellFormed) (hy : y.WellFormed) (hnanX : ¬ x.HasNan)
    (hnanY : ¬ y.HasNan) (c : Context) :
    (x.textbookProduct y c).value = (y.textbookProduct x c).value := by
  obtain ⟨hre, him⟩ := not_or.1 hnanX
  obtain ⟨hre', him'⟩ := not_or.1 hnanY
  -- Both products may be NaNs, but then neither of them is an operand's.
  have hsum : (x.re.mul y.im c).add (x.im.mul y.re c) c =
      (x.im.mul y.re c).add (x.re.mul y.im c) c := by
    refine Value.add_comm_of_nan Value.wellFormed_mul Value.wellFormed_mul (fun hnan hnan' => ?_) c
    rw [Value.mul_eq_invalidResult hre him' hnan, Value.mul_eq_invalidResult him hre' hnan']
    exact ⟨rfl, rfl⟩
  rw [value_textbookProduct, value_textbookProduct, hsum,
    Value.mul_comm_of_nan hx.re hy.re (fun h => hre h.1),
    Value.mul_comm_of_nan hx.im hy.im (fun h => him h.1),
    Value.mul_comm_of_nan hx.im hy.re (fun h => him h.1),
    Value.mul_comm_of_nan hx.re hy.im (fun h => hre h.1)]

theorem mul_comm_of_not_hasNan (hx : x.WellFormed) (hy : y.WellFormed) (hnanX : ¬ x.HasNan)
    (hnanY : ¬ y.HasNan) (c : Context) : x.mul y c = y.mul x c := by
  by_cases hfinite : (x.isFinite && y.isFinite) = true
  · rw [Bool.and_eq_true] at hfinite
    exact mul_comm_of_isNumber (hx.isNumber hfinite.1) (hy.isNumber hfinite.2) c
  · have hfinite' : ¬ (y.isFinite && x.isFinite) = true := by rwa [Bool.and_comm]
    rw [mul, mul, product, product, if_neg hfinite, if_neg hfinite']
    exact textbookProduct_comm hx hy hnanX hnanY c

end Complex

/-! ## All operations -/

/-- Operands of sums and products may be swapped, and a difference is the sum with the
second operand negated. -/
theorem operations_commute (c : Context) :
    (∀ x y : Value, x.WellFormed → y.WellFormed → ¬ (x.isNan ∧ y.isNan) →
      x.add y c = y.add x c ∧ x.mul y c = y.mul x c) ∧
      (∀ x y : Value, ¬ (y.isNan ∧ ¬ x.isNan) → x.sub y c = x.add (-y) c) ∧
      ∀ x y : Complex, x.WellFormed → y.WellFormed → ¬ x.HasNan → ¬ y.HasNan →
        x.mul y c = y.mul x c := by
  refine ⟨fun x y hx hy hnan => ⟨?_, ?_⟩, fun x y hnan => ?_, fun x y hx hy hnanX hnanY => ?_⟩
  · exact Value.add_comm_of_nan hx hy (fun hnanX hnanY => absurd ⟨hnanX, hnanY⟩ hnan) c
  · exact Value.mul_comm_of_nan hx hy hnan c
  · exact Value.sub_eq_add_neg_of_nan hnan c
  · exact Complex.mul_comm_of_not_hasNan hx hy hnanX hnanY c

/-- Both products of the imaginary part are invalid, of an infinity and a zero. -/
theorem operations_commute_infinite :
    let c := Format.double.alone
    let x : Complex := ⟨.infinity .negative, .infinity .positive⟩
    let y : Complex := ⟨.zero .positive, .zero .negative⟩
    x.WellFormed ∧ y.WellFormed ∧ ¬ x.HasNan ∧ ¬ y.HasNan ∧ x.mul y c = y.mul x c ∧
      x.re.add y.re c = y.re.add x.re c ∧ x.re.mul y.re c = y.re.mul x.re c ∧
      x.re.sub y.re c = x.re.add (-y.re) c := by
  intro c x y
  have hx : x.WellFormed := ⟨Value.wellFormed_iff.2 trivial, Value.wellFormed_iff.2 trivial⟩
  have hy : y.WellFormed := ⟨Value.wellFormed_iff.2 trivial, Value.wellFormed_iff.2 trivial⟩
  have hnanX : ¬ x.HasNan := by
    rintro (h | h) <;> exact Bool.false_ne_true h
  have hnanY : ¬ y.HasNan := by
    rintro (h | h) <;> exact Bool.false_ne_true h
  obtain ⟨hvalues, hsub, hmul⟩ := operations_commute c
  obtain ⟨hadd, hmul'⟩ := hvalues x.re y.re hx.re hy.re fun h => hnanX (Or.inl h.1)
  exact ⟨hx, hy, hnanX, hnanY, hmul x y hx hy hnanX hnanY, hadd, hmul',
    hsub x.re y.re fun h => hnanY (Or.inl h.1)⟩

end CrossFloat
