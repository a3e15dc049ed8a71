/-
NaNs among complex operands, and division by a complex zero.

Both components of a textbook formula are built from all four components of the operands: a
sum or a difference of two products, which a quotient divides by another sum.  Each of these
operations hands a NaN operand on, so one NaN among the four reaches both results.

Between numbers the operations are fused, and what is rounded once is never a NaN.  The
squared magnitude of a divisor is zero only for a zero divisor, and the textbook formula is
what is left then.  A product with a zero is an exact zero, and so is a sum of two zeros.  The
formula therefore goes through zeros up to its last step, where it divides a zero by a zero,
and that step is the only one to raise a flag.
-/
import CrossFloat.Proofs.Arithmetic.Exceptions

namespace CrossFloat

/-! ## NaN operands of a formula -/

theorem Value.isFinite_eq_false_of_isNan {x : Value} (h : x.isNan = true) :
    x.isFinite = false := by
  obtain ⟨sign, flags, magnitude⟩ := x
  cases magnitude with
  | nan payload => rfl
  | zero | finite | infinite => exact absurd h Bool.false_ne_true

namespace Operation

variable {x y : Value}

/-- Every operation has the rows for NaN operands first. -/
theorem isNan_apply (op : Operation) (h : x.isNan = true ∨ y.isNan = true) (c : Context) :
    (op.apply x y c).isNan = true := by
  obtain ⟨signX, flagsX, magnitudeX⟩ := x
  obtain ⟨signY, flagsY, magnitudeY⟩ := y
  rcases h with hx | hy
  · cases magnitudeX with
    | nan payload => cases op <;> rfl
    | zero | finite | infinite => exact absurd hx Bool.false_ne_true
  · cases magnitudeY with
    | nan payload => cases op <;> cases magnitudeX <;> rfl
    | zero | finite | infinite => exact absurd hy Bool.false_ne_true

/-- A NaN in one of two products is a NaN in what is computed from the two. -/
theorem isNan_apply_mul (op : Operation) {a a' b b' : Value}
    (h : (a.isNan = true ∨ a'.isNan = true) ∨ b.isNan = true ∨ b'.isNan = true) (c : Context) :
    (op.apply (a.mul b c) (a'.mul b' c) c).isNan = true := by
  refine op.isNan_apply ?_ c
  rcases h with (ha | ha') | hb | hb'
  · exact Or.inl (mul.isNan_apply (Or.inl ha) c)
  · exact Or.inr (mul.isNan_apply (Or.inl ha') c)
  · exact Or.inl (mul.isNan_apply (Or.inr hb) c)
  · exact Or.inr (mul.isNan_apply (Or.inr hb') c)

end Operation

/-! ## Zeros on the way -/

namespace Value

variable {x y : Value} {f g : Flags}

/-- A zero of either sign with the given flags. -/
structure IsZeroWith (x : Value) (flags : Flags) : Prop where
  magnitude : x.magnitude = .zero
  flags : x.flags = flags

theorem isZeroWith_zero (F : Format) (sign : Sign) (flags : Flags) :
    ((F.zero sign).raise flags).IsZeroWith flags := by
  rw [Format.raise_zero]
  exact ⟨rfl, rfl⟩

/-- A number times a zero is a zero, and nothing is rounded. -/
theorem isZeroWith_mul (hx : x.isFinite = true) (hy : y.isZero = true) (c : Context) :
    (x.mul y c).IsZeroWith (x.flags ∪ y.flags) := by
  obtain ⟨signX, flagsX, magnitudeX⟩ := x
  obtain ⟨signY, flagsY, magnitudeY⟩ := y
  obtain rfl : magnitudeY = .zero := isZero_iff.1 hy
  cases magnitudeX with
  | zero | finite => exact isZeroWith_zero ..
  | infinite | nan => exact absurd hx Bool.false_ne_true

theorem IsZeroWith.sumWithSign (hx : x.IsZeroWith f) (hy : y.IsZeroWith g) (signY : Sign)
    (c : Context) : ((x.sumWithSign y signY c).round c).IsZeroWith (f ∪ g) := by
  obtain ⟨signX, flagsX, magnitudeX⟩ := x
  obtain ⟨signY', flagsY, magnitudeY⟩ := y
  obtain ⟨rfl, rfl⟩ := hx
  obtain ⟨rfl, rfl⟩ := hy
  exact isZeroWith_zero ..

theorem IsZeroWith.add (hx : x.IsZeroWith f) (hy : y.IsZeroWith g) (c : Context) :
    (x.add y c).IsZeroWith (f ∪ g) :=
  hx.sumWithSign hy y.sign c

theorem IsZeroWith.sub (hx : x.IsZeroWith f) (hy : y.IsZeroWith g) (c : Context) :
    (x.sub y c).IsZeroWith (f ∪ g) :=
  hx.sumWithSign hy y.sign.flip c

theorem IsZeroWith.div (hx : x.IsZeroWith f) (hy : y.IsZeroWith g) (c : Context) :
    x.div y c = invalidResult (f ∪ g) := by
  obtain ⟨signX, flagsX, magnitudeX⟩ := x
  obtain ⟨signY, flagsY, magnitudeY⟩ := y
  obtain ⟨rfl, rfl⟩ := hx
  obtain ⟨rfl, rfl⟩ := hy
  rfl

end Value

/-! ## What is rounded once -/

namespace Quantity

theorem isNan_pending (q : Quantity) (flags : Flags) (c : Context) :
    ((q.pending flags c).round c).isNan = false := by
  cases q with
  | zero sign => rfl
  | nonzero number => exact Intermediate.isNan_round _ c

theorem isNan_quotient (q : Quantity) (denominator : Nonzero) (flags : Flags) (c : Context) :
    ((q.quotient denominator flags c).round c).isNan = false := by
  cases q with
  | zero sign => rfl
  | nonzero number => exact Intermediate.isNan_round _ c

theorem ofProduct_of_isZero {x y : Value} (hy : y.isZero = true) :
    ofProduct x y = zero (x.sign.times y.sign) := by
  have hmagnitude := Value.isZero_iff.1 hy
  rw [ofProduct, hmagnitude]
  cases x.magnitude <;> rfl

end Quantity

namespace Complex

variable {x y : Complex}

/-- Both components are NaNs. -/
structure IsNan (z : Complex) : Prop where
  re : z.re.isNan = true
  im : z.im.isNan = true

/-! ## NaN components -/

theorem HasNan.isFinite_eq_false (h : x.HasNan) : x.isFinite = false := by
  rcases h with hre | him
  · rw [isFinite, Value.isFinite_eq_false_of_isNan hre, Bool.false_and]
  · rw [isFinite, Value.isFinite_eq_false_of_isNan him, Bool.and_false]

theorem both_isFinite_eq_false (h : x.HasNan ∨ y.HasNan) :
    (x.isFinite && y.isFinite) = false := by
  rcases h with hx | hy
  · rw [hx.isFinite_eq_false, Bool.false_and]
  · rw [hy.isFinite_eq_false, Bool.and_false]

theorem isNan_mul (h : x.HasNan ∨ y.HasNan) (c : Context) : (x.mul y c).IsNan := by
  have htextbook : x.mul y c = (x.textbookProduct y c).value := by
    rw [mul, product, both_isFinite_eq_false h, if_neg Bool.false_ne_true]
  rw [htextbook, value_textbookProduct]
  exact ⟨Operation.sub.isNan_apply_mul h c, Operation.add.isNan_apply_mul (h.imp_right Or.symm) c⟩

theorem isNan_div (h : x.HasNan ∨ y.HasNan) (c : Context) : (x.div y c).IsNan := by
  have htextbook : x.div y c = (x.textbookQuotient y c).value := by
    rw [div, quotient, both_isFinite_eq_false h, if_neg Bool.false_ne_true]
  have hre := Operation.add.isNan_apply_mul h c
  have him := Operation.sub.isNan_apply_mul (h.imp_left Or.symm) c
  rw [htextbook, value_textbookQuotient]
  exact ⟨Operation.div.isNan_apply (Or.inl hre) c, Operation.div.isNan_apply (Or.inl him) c⟩

/-! ## Finite components -/

section

variable (hx : x.isFinite = true) (hy : y.isFinite = true) (c : Context)

include hx hy

theorem not_hasNan_mul : ¬ (x.mul y c).HasNan := by
  rw [mul, product, hx, hy, Bool.and_self, if_pos rfl, fusedProduct, value_ofPending, HasNan,
    Quantity.isNan_pending, Quantity.isNan_pending]
  exact not_or.2 ⟨Bool.false_ne_true, Bool.false_ne_true⟩

theorem not_hasNan_div (hwellFormed : y.WellFormed) (hne : ¬ (y.re.isZero ∧ y.im.isZero)) :
    ¬ (x.div y c).HasNan := by
  obtain ⟨denominator, hd, -⟩ := exists_squaredMagnitude (hwellFormed.isNumber hy) hne c
  rw [div, quotient, hx, hy, Bool.and_self, if_pos rfl, hd]
  dsimp only
  rw [fusedQuotient, value_ofPending, HasNan, Quantity.isNan_quotient, Quantity.isNan_quotient]
  exact not_or.2 ⟨Bool.false_ne_true, Bool.false_ne_true⟩

/-- With a zero divisor every product of the formula is a zero, whatever the operands are. -/
theorem div_zero (hre : y.re.isZero = true) (him : y.im.isZero = true) :
    x.div y c = ⟨.invalidResult (x.flags ∪ y.flags), .invalidResult (x.flags ∪ y.flags)⟩ := by
  obtain ⟨sign, hmagnitude⟩ : ∃ sign, y.squaredMagnitude c = .zero sign := by
    rw [squaredMagnitude, Quantity.ofProduct_of_isZero hre, Quantity.ofProduct_of_isZero him]
    exact ⟨_, rfl⟩
  have htextbook : x.div y c = (x.textbookQuotient y c).value := by
    rw [div, quotient, hx, hy, Bool.and_self, if_pos rfl, hmagnitude]
  rw [Complex.isFinite, Bool.and_eq_true] at hx hy
  have hdenominator := (Value.isZeroWith_mul hy.1 hre c).add (Value.isZeroWith_mul hy.2 him c) c
  have hnumeratorRe := (Value.isZeroWith_mul hx.1 hre c).add (Value.isZeroWith_mul hx.2 him c) c
  have hnumeratorIm := (Value.isZeroWith_mul hx.2 hre c).sub (Value.isZeroWith_mul hx.1 him c) c
  rw [htextbook, value_textbookQuotient]
  dsimp only
  rw [hnumeratorRe.div hdenominator, hnumeratorIm.div hdenominator, Complex.flags, Complex.flags]
  congr 2 <;> ac_rfl

end

/-- A NaN among the four components makes NaNs of both components of a product and of a
quotient.  Between numbers only a division by zero does: it raises invalid in both
components, and nothing else is raised. -/
theorem nan_spreads (x : Complex) (hy : y.WellFormed) (c : Context) :
    (x.HasNan ∨ y.HasNan → (x.mul y c).IsNan ∧ (x.div y c).IsNan) ∧
      (x.isFinite = true → y.isFinite = true →
        ¬ (x.mul y c).HasNan ∧
        (¬ (y.re.isZero ∧ y.im.isZero) → ¬ (x.div y c).HasNan) ∧
        (y.re.isZero ∧ y.im.isZero → (x.div y c).IsNan ∧
          (x.div y c).re.flags = x.flags ∪ y.flags ∪ .onInvalid ∧
          (x.div y c).im.flags = x.flags ∪ y.flags ∪ .onInvalid)) := by
  refine ⟨fun h => ⟨isNan_mul h c, isNan_div h c⟩, fun hfiniteX hfiniteY => ?_⟩
  refine ⟨not_hasNan_mul hfiniteX hfiniteY c, not_hasNan_div hfiniteX hfiniteY c hy, ?_⟩
  rintro ⟨hre, him⟩
  rw [div_zero hfiniteX hfiniteY c hre him]
  exact ⟨⟨rfl, rfl⟩, rfl, rfl⟩

/-- A NaN beside an infinity, and the largest and the least number divided by a zero. -/
theorem nan_spreads_infinite :
    let c := Format.double.alone
    let x : Complex := ⟨Format.double.maxFinite .negative, Format.double.minPositive .positive⟩
    let n : Complex := ⟨.infinity .positive, .nan⟩
    let zero : Complex := ⟨.zero .negative, .zero .positive⟩
    x.WellFormed ∧ zero.WellFormed ∧ x.isFinite = true ∧ zero.isFinite = true ∧
      (zero.re.isZero ∧ zero.im.isZero) ∧ x.flags ∪ zero.flags = ∅ ∧ n.HasNan ∧
      (n.mul zero c).IsNan ∧ (n.div x c).IsNan ∧ ¬ (x.mul zero c).HasNan ∧
      ¬ (zero.div x c).HasNan ∧ (x.div zero c).IsNan ∧ (x.div zero c).re.flags = .onInvalid ∧
      (x.div zero c).im.flags = .onInvalid := by
  intro c x n zero
  have hx : x.WellFormed :=
    ⟨(Format.double.represents_maxFinite .negative).contains.wellFormed,
      Format.double.wellFormed_minPositive .positive⟩
  have hzero : zero.WellFormed := ⟨Value.wellFormed_iff.2 trivial, Value.wellFormed_iff.2 trivial⟩
  have hn : n.HasNan := Or.inr rfl
  have hnumber : ¬ (x.re.isZero ∧ x.im.isZero) := by decide
  obtain ⟨hmul, hregular⟩ := nan_spreads x hzero c
  obtain ⟨hnan, -, hundefined⟩ := hregular rfl rfl
  obtain ⟨hdiv, hflagsRe, hflagsIm⟩ := hundefined ⟨rfl, rfl⟩
  exact ⟨hx, hzero, rfl, rfl, ⟨rfl, rfl⟩, rfl, hn, ((nan_spreads n hzero c).1 (Or.inl hn)).1,
    ((nan_spreads n hx c).1 (Or.inl hn)).2, hnan,
    ((nan_spreads zero hx c).2 rfl rfl).2.1 hnumber, hdiv, hflagsRe, hflagsIm⟩

end Complex
end CrossFloat
