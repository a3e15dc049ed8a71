/-
Negation and mirrored rounding modes.

The modes toward positive and toward negative are mirror images of each other, and the
other three are their own.  In a format with a negative zero, the rounding of a number in
one mode is the negated rounding of the negated number in the mirrored mode.  The sign
takes part in the choice of a neighbour, in overflows and in the zeros that numbers are
flushed to, and each of these is mirrored.

A product or a quotient is negated with one of its operands, and a sum or a difference
with both.  Three results are not, since their sign is not that of a number.  An invalid
operation returns a positive NaN.  A NaN operand is handed on with its own sign, also
where the other operand is the negated one.  And a sum that cancels is a positive zero in
the three modes that are their own mirror images.
-/
import CrossFloat.Proofs.Arithmetic.Folding
import CrossFloat.Proofs.Complex.Quotient

namespace CrossFloat

/-! ## Mirrored modes -/

theorem Sign.flip_injective : Function.Injective flip :=
  Function.Involutive.injective flip_flip

namespace RoundingMode

/-- The mode that does to a number what this one does to the negated number. -/
def mirrored : RoundingMode → RoundingMode
  | towardPositive => towardNegative
  | towardNegative => towardPositive
  | mode => mode

/-- The modes that do the same to both signs. -/
def IsSymmetric (mode : RoundingMode) : Prop :=
  mode = .nearestEven ∨ mode = .nearestAway ∨ mode = .towardZero

theorem roundNat_mirrored (mode : RoundingMode) (sign : Sign) (q : ℚ) :
    mode.mirrored.roundNat sign.flip q = mode.roundNat sign q := by
  cases mode <;> cases sign <;> rfl

theorem overflowsAway_mirrored (mode : RoundingMode) (sign : Sign) :
    mode.mirrored.overflowsAway sign.flip = mode.overflowsAway sign := by
  cases mode <;> cases sign <;> rfl

end RoundingMode

/-- The contexts differ in their modes at most, and these are mirror images. -/
structure Context.Mirrors (d c : Context) : Prop where
  layout : d.format.layout = c.format.layout
  underflow : d.format.underflow = c.format.underflow
  mode : d.mode = c.mode.mirrored

theorem Format.mirrors_withRounding (F : Format) (mode : RoundingMode) :
    (F.withRounding mode.mirrored).alone.Mirrors (F.withRounding mode).alone :=
  ⟨rfl, rfl, rfl⟩

theorem Context.Mirrors.exists_eq {c d : Context} (h : d.Mirrors c) :
    ∃ mode override, d = ⟨c.format.withRounding mode, override⟩ := by
  obtain ⟨⟨layout, mode, underflow⟩, override⟩ := d
  obtain ⟨hlayout, hunderflow, -⟩ := h
  simp only at hlayout hunderflow
  exact ⟨mode, override, by rw [hlayout, hunderflow]; rfl⟩

/-! ## Roundings -/

namespace Format

variable {F : Format} (hsigned : F.hasNegativeZero = true)

include hsigned

theorem zero_flip (sign : Sign) : F.zero sign.flip = -F.zero sign := by
  rw [zero, zero, if_pos hsigned, if_pos hsigned]
  rfl

theorem store_flip (sign : Sign) (r : ℚ) : F.store sign.flip r = -F.store sign r := by
  rw [store, store]
  split_ifs
  · exact zero_flip hsigned sign
  · rfl
  · rfl

end Format

/-- The same number with the other sign. -/
def Intermediate.neg (u : Intermediate) : Intermediate :=
  { u with sign := u.sign.flip }

section Roundings

variable {c d : Context} (h : d.Mirrors c) (hsigned : c.format.hasNegativeZero = true)

include h

theorem Context.Mirrors.rounded_flip (sign : Sign) (v : ℚ) :
    d.rounded sign.flip v = c.rounded sign v := by
  have hmode := h.mode
  obtain ⟨mode, override, rfl⟩ := h.exists_eq
  rw [rounded, hmode, RoundingMode.roundNat_mirrored]
  rfl

theorem Context.Mirrors.saturated_flip (sign : Sign) (flags : Flags) :
    Intermediate.saturated sign.flip flags d = -Intermediate.saturated sign flags c := by
  have hmode := h.mode
  obtain ⟨mode, override, rfl⟩ := h.exists_eq
  rw [Intermediate.saturated, Intermediate.saturated, hmode, RoundingMode.overflowsAway_mirrored]
  by_cases haway : (c.mode.overflowsAway sign && c.format.hasSpecials) = true
  · rw [if_pos haway]
    exact if_pos haway
  · rw [if_neg haway]
    exact if_neg haway

include hsigned

theorem Context.Mirrors.zero_flip (sign : Sign) (flags : Flags) :
    (d.format.zero sign.flip).raise flags = -(c.format.zero sign).raise flags := by
  obtain ⟨mode, override, rfl⟩ := h.exists_eq
  exact congrArg (Value.raise · flags) (Format.zero_flip hsigned sign)

/-- The mirrored rounding of a magnitude with the other sign is the negated rounding. -/
theorem Context.Mirrors.roundRat_flip (sign : Sign) (v : ℚ) (flags : Flags) :
    d.roundRat sign.flip v flags = -c.roundRat sign v flags := by
  have hrounded := h.rounded_flip sign v
  have hsaturated := h.saturated_flip sign flags
  have hzero := h.zero_flip hsigned sign
  obtain ⟨mode, override, rfl⟩ := h.exists_eq
  rw [roundRat, roundRat, raised, hrounded, hsaturated, hzero, hzero]
  by_cases hv : v = 0
  · rw [if_pos hv, if_pos hv]
  by_cases hflush : c.format.Flushes v
  · rw [if_neg hv, if_neg hv, if_pos hflush]
    exact if_pos hflush
  rw [if_neg hv, if_neg hv, if_neg hflush]
  refine (if_neg hflush).trans ?_
  by_cases hlarge : 2 ^ (c.format.maxExponent + 1) ≤ c.rounded sign v
  · rw [if_pos hlarge]
    exact if_pos hlarge
  · rw [if_neg hlarge]
    refine (if_neg hlarge).trans ?_
    exact congrArg (Value.raise · _) (Format.store_flip hsigned sign _)

theorem Intermediate.round_neg (u : Intermediate) : u.neg.round d = -u.round c := by
  rw [round_eq_roundRat, round_eq_roundRat]
  exact h.roundRat_flip hsigned u.sign u.size u.flags

theorem Intermediate.round_flip (u : Intermediate) {sign : Sign} (hsign : sign = u.sign.flip) :
    ({ u with sign := sign } : Intermediate).round d = -u.round c := by
  rw [hsign]
  exact round_neg h hsigned u

theorem Value.convert_neg (x : Value) : (-x).convert d = -x.convert c := by
  have hzero := h.zero_flip hsigned
  have hround := Intermediate.round_neg h hsigned
  obtain ⟨sign, flags, magnitude⟩ := x
  cases magnitude with
  | zero => exact hzero sign flags
  | finite range exponent significand => exact hround ⟨sign, ⟨significand, 0⟩, exponent, flags⟩
  | infinite => rfl
  | nan payload =>
    obtain ⟨mode, override, rfl⟩ := h.exists_eq
    rfl

end Roundings

/-! ## Products and quotients -/

namespace Value

variable {x y r r' : Value} {c d : Context}

/-- A NaN that reports an invalid operation. -/
def IsInvalid (x : Value) : Prop :=
  x.isNan = true ∧ x.flags.invalid = true

theorem not_isInvalid_of_isNan (hr : r.isNan = false) : ¬ r.IsInvalid := fun hinvalid =>
  Bool.false_ne_true (hr.symm.trans hinvalid.1)

theorem isInvalid_invalidResult (flags : Flags) : (invalidResult flags).IsInvalid :=
  ⟨rfl, Bool.or_true _⟩

/-- `r'` is what becomes of the result `r` of a product or a quotient when one of the
operands `x` and `y` is negated and the mode mirrored. -/
structure MirroredProduct (x y r r' : Value) : Prop where
  flags : r'.flags = r.flags
  negated : ¬ x.isNan → ¬ y.isNan → ¬ r.IsInvalid → r' = -r

namespace MirroredProduct

theorem of_neg (h : r' = -r) : MirroredProduct x y r r' :=
  ⟨by rw [h]; rfl, fun _ _ _ => h⟩

theorem of_nan (hnan : x.isNan = true ∨ y.isNan = true) (hflags : r'.flags = r.flags) :
    MirroredProduct x y r r' :=
  ⟨hflags, fun hx hy _ => absurd hnan (not_or.2 ⟨hx, hy⟩)⟩

theorem of_invalid (hinvalid : r.IsInvalid) (hflags : r'.flags = r.flags) :
    MirroredProduct x y r r' :=
  ⟨hflags, fun _ _ hr => absurd hinvalid hr⟩

end MirroredProduct

/-- The same value with the given sign. -/
def withSign (x : Value) (sign : Sign) : Value :=
  { x with sign := sign }

section Products

variable (h : d.Mirrors c) (hsigned : c.format.hasNegativeZero = true) {s t : Sign}
variable (hsign : s.times t = (x.sign.times y.sign).flip)

include h hsigned hsign

theorem zero_times_flip (flags : Flags) :
    (d.format.zero (s.times t)).raise flags =
      -(c.format.zero (x.sign.times y.sign)).raise flags := by
  rw [hsign]
  exact h.zero_flip hsigned _ _

omit h hsigned in
theorem infinite_times_flip (flags : Flags) :
    Value.mk (s.times t) flags .infinite = -Value.mk (x.sign.times y.sign) flags .infinite := by
  rw [hsign]
  rfl

theorem mirroredProduct_mul :
    MirroredProduct x y (x.mul y c) ((x.withSign s).mul (y.withSign t) d) := by
  have hround := Intermediate.round_flip h hsigned
  have hzero := zero_times_flip h hsigned hsign
  have hinfinite := infinite_times_flip hsign
  obtain ⟨signX, flagsX, magnitudeX⟩ := x
  obtain ⟨signY, flagsY, magnitudeY⟩ := y
  cases magnitudeX with
  | nan payload => exact .of_nan (Or.inl rfl) rfl
  | zero =>
    cases magnitudeY with
    | nan payload => exact .of_nan (Or.inr rfl) rfl
    | infinite => exact .of_invalid (isInvalid_invalidResult _) rfl
    | zero | finite => exact .of_neg (hzero _)
  | infinite =>
    cases magnitudeY with
    | nan payload => exact .of_nan (Or.inr rfl) rfl
    | zero => exact .of_invalid (isInvalid_invalidResult _) rfl
    | infinite | finite => exact .of_neg (hinfinite _)
  | finite rangeX exponentX significandX =>
    cases magnitudeY with
    | nan payload => exact .of_nan (Or.inr rfl) rfl
    | infinite => exact .of_neg (hinfinite _)
    | zero => exact .of_neg (hzero _)
    | finite rangeY exponentY significandY => exact .of_neg (hround (Intermediate.mk ..) hsign)

theorem mirroredProduct_div :
    MirroredProduct x y (x.div y c) ((x.withSign s).div (y.withSign t) d) := by
  have hround := Intermediate.round_flip h hsigned
  have hzero := zero_times_flip h hsigned hsign
  have hinfinite := infinite_times_flip hsign
  obtain ⟨signX, flagsX, magnitudeX⟩ := x
  obtain ⟨signY, flagsY, magnitudeY⟩ := y
  cases magnitudeX with
  | nan payload => exact .of_nan (Or.inl rfl) rfl
  | zero =>
    cases magnitudeY with
    | nan payload => exact .of_nan (Or.inr rfl) rfl
    | zero => exact .of_invalid (isInvalid_invalidResult _) rfl
    | infinite | finite => exact .of_neg (hzero _)
  | infinite =>
    cases magnitudeY with
    | nan payload => exact .of_nan (Or.inr rfl) rfl
    | infinite => exact .of_invalid (isInvalid_invalidResult _) rfl
    | zero | finite => exact .of_neg (hinfinite _)
  | finite rangeX exponentX significandX =>
    cases magnitudeY with
    | nan payload => exact .of_nan (Or.inr rfl) rfl
    | infinite => exact .of_neg (hzero _)
    | zero => exact .of_neg (hinfinite _)
    | finite rangeY exponentY significandY => exact .of_neg (hround (Intermediate.mk ..) hsign)

end Products

/-! ## Sums and differences -/

/-- The operands are numbers of opposite signs with the sum zero, where the second one
counts with the sign `signY`. -/
structure Cancels (x y : Value) (signY : Sign) : Prop where
  isFinite_left : x.isFinite = true
  isFinite_right : y.isFinite = true
  opposite : x.sign ≠ signY
  sum_eq_zero : x.toRat + signY.factor * y.magnitude.toRat = 0

/-- `r'` is what becomes of the result `r` of a sum in the context `c` when both operands
are negated and the mode mirrored. -/
structure MirroredSum (c : Context) (x y : Value) (signY : Sign) (r r' : Value) : Prop where
  flags : r'.flags = r.flags
  invalid : ¬ x.isNan → ¬ y.isNan → r.IsInvalid → r' = r
  cancelled : x.Cancels y signY → c.mode.IsSymmetric →
    r = ⟨.positive, x.flags ∪ y.flags, .zero⟩ ∧ r' = r
  negated : (x.isNan ∨ y.isNan ∨ ¬ r.IsInvalid) → ¬ (x.Cancels y signY ∧ c.mode.IsSymmetric) →
    r' = -r

namespace MirroredSum

variable {signY : Sign}

theorem of_cancels (hcancels : x.Cancels y signY) (hmode : c.mode.IsSymmetric) :
    MirroredSum c x y signY ⟨.positive, x.flags ∪ y.flags, .zero⟩
      ⟨.positive, x.flags ∪ y.flags, .zero⟩ where
  flags := rfl
  invalid _ _ _ := rfl
  cancelled _ _ := ⟨rfl, rfl⟩
  negated _ hnot := absurd ⟨hcancels, hmode⟩ hnot

theorem of_neg (h : r' = -r) (hexcept : ¬ (x.Cancels y signY ∧ c.mode.IsSymmetric))
    (hvalid : ¬ x.isNan → ¬ y.isNan → ¬ r.IsInvalid) : MirroredSum c x y signY r r' where
  flags := by rw [h]; rfl
  invalid hx hy hr := absurd hr (hvalid hx hy)
  cancelled hcancels hmode := absurd ⟨hcancels, hmode⟩ hexcept
  negated _ _ := h

theorem of_invalid (h : r' = r) (hcancels : ¬ x.Cancels y signY) (hx : ¬ x.isNan) (hy : ¬ y.isNan)
    (hinvalid : r.IsInvalid) : MirroredSum c x y signY r r' where
  flags := congrArg Value.flags h
  invalid _ _ _ := h
  cancelled h' := absurd h' hcancels
  negated hr := by simp [hx, hy, hinvalid] at hr

end MirroredSum

theorem toRat_neg (x : Value) : (-x).toRat = -x.toRat := by
  show x.sign.flip.factor * x.magnitude.toRat = -(x.sign.factor * x.magnitude.toRat)
  rw [Sign.factor_flip, neg_mul]

theorem sum_neg (x y : Value) (signY : Sign) :
    (-x).toRat + signY.flip.factor * (-y).magnitude.toRat =
      -(x.toRat + signY.factor * y.magnitude.toRat) := by
  rw [toRat_neg, Sign.factor_flip, neg_mul, neg_add]
  rfl

/-- Numbers with a common sign have the sum zero only if both are zeros. -/
theorem isZero_of_sum_eq_zero (hx : x.IsNumber) (hy : y.IsNumber)
    (hsum : x.toRat + x.sign.factor * y.magnitude.toRat = 0) :
    x.isZero = true ∧ y.isZero = true := by
  rw [toRat, ← mul_add, ← abs_eq_zero, Sign.abs_factor_mul, abs_eq_zero] at hsum
  have hnonneg := x.magnitude.toRat_nonneg
  have hnonneg' := y.magnitude.toRat_nonneg
  have hzeroX : x.magnitude.toRat = 0 := by linarith
  have hzeroY : y.magnitude.toRat = 0 := by linarith
  rw [← hx.toRat_eq_zero_iff, ← hy.toRat_eq_zero_iff, toRat, toRat, hzeroX, hzeroY, mul_zero,
    mul_zero]
  exact ⟨rfl, rfl⟩

theorem Cancels.neg {signY : Sign} (h : x.Cancels y signY) : (-x).Cancels (-y) signY.flip where
  isFinite_left := h.isFinite_left
  isFinite_right := h.isFinite_right
  opposite hsigns := h.opposite (Sign.flip_injective hsigns)
  sum_eq_zero := by rw [sum_neg, h.sum_eq_zero, neg_zero]

theorem Cancels.sumSign_eq {signY : Sign} (h : x.Cancels y signY) (c : Context) :
    x.sumSign y signY c = c.zeroSumSign := by
  rw [sumSign, h.sum_eq_zero, if_neg (not_not.2 rfl), if_neg fun hboth => h.opposite hboth.2.2]

section Sums

variable (h : d.Mirrors c)

include h

theorem zeroSumSign_mirrored (hmode : ¬ c.mode.IsSymmetric) :
    d.zeroSumSign = c.zeroSumSign.flip := by
  rw [Context.zeroSumSign_eq, Context.zeroSumSign_eq, h.mode]
  cases hc : c.mode with
  | towardPositive | towardNegative => rfl
  | nearestEven | nearestAway | towardZero => simp [RoundingMode.IsSymmetric, hc] at hmode

theorem zeroSumSign_of_isSymmetric (hmode : c.mode.IsSymmetric) :
    c.zeroSumSign = .positive ∧ d.zeroSumSign = .positive := by
  rw [Context.zeroSumSign_eq, Context.zeroSumSign_eq, h.mode]
  rcases hmode with hc | hc | hc <;> rw [hc] <;> exact ⟨rfl, rfl⟩

/-- The sign of a sum of numbers is mirrored, unless they cancel in a mode that is its own
mirror image. -/
theorem sumSign_neg (hx : x.IsNumber) (hy : y.IsNumber) {signY : Sign}
    (hnot : ¬ (x.Cancels y signY ∧ c.mode.IsSymmetric)) :
    (-x).sumSign (-y) signY.flip d = (x.sumSign y signY c).flip := by
  rw [sumSign, sumSign, sum_neg]
  by_cases hzero : x.toRat + signY.factor * y.magnitude.toRat = 0
  · rw [hzero, neg_zero, if_neg (not_not.2 rfl), if_neg (not_not.2 rfl)]
    by_cases hcommon : x.sign = signY
    · subst hcommon
      obtain ⟨hzeroX, hzeroY⟩ := isZero_of_sum_eq_zero hx hy hzero
      rw [if_pos ⟨hzeroX, hzeroY, rfl⟩, if_pos ⟨hzeroX, hzeroY, rfl⟩]
    · have hcancels : x.Cancels y signY := ⟨hx.isFinite, hy.isFinite, hcommon, hzero⟩
      have hflip : ¬ (-x).sign = signY.flip := fun hsigns => hcommon (Sign.flip_injective hsigns)
      rw [if_neg fun hboth => hflip hboth.2.2, if_neg fun hboth => hcommon hboth.2.2]
      exact zeroSumSign_mirrored h fun hmode => hnot ⟨hcancels, hmode⟩
  · rw [if_pos (neg_ne_zero.2 hzero), if_pos hzero, Sign.ofRat_neg hzero]

theorem mirroredSum_of_isNumber (hsigned : c.format.hasNegativeZero = true) (hx : x.IsNumber)
    (hy : y.IsNumber) (signY : Sign) :
    MirroredSum c x y signY ((x.sumWithSign y signY c).round c)
      (((-x).sumWithSign (-y) signY.flip d).round d) := by
  have hflip := h.roundRat_flip hsigned (x.sumSign y signY c)
    |x.toRat + signY.factor * y.magnitude.toRat| (x.flags ∪ y.flags)
  have hvalid := c.isNan_roundRat (x.sumSign y signY c) (x.flags ∪ y.flags)
    (abs_nonneg (x.toRat + signY.factor * y.magnitude.toRat))
  rw [round_sumWithSign hx hy, round_sumWithSign (x := -x) (y := -y) hx hy, sum_neg, abs_neg]
  by_cases hexcept : x.Cancels y signY ∧ c.mode.IsSymmetric
  · obtain ⟨hcancels, hmode⟩ := hexcept
    obtain ⟨hsignC, hsignD⟩ := zeroSumSign_of_isSymmetric h hmode
    rw [hcancels.sumSign_eq, hcancels.neg.sumSign_eq, hsignC, hsignD, hcancels.sum_eq_zero,
      abs_zero, Context.roundRat_zero, Context.roundRat_zero, ite_self, ite_self]
    exact .of_cancels hcancels hmode
  · rw [sumSign_neg h hx hy hexcept]
    exact .of_neg hflip hexcept fun _ _ => not_isInvalid_of_isNan hvalid

theorem mirroredSum_sumWithSign (hsigned : c.format.hasNegativeZero = true) (hx : x.WellFormed)
    (hy : y.WellFormed) (signY : Sign) :
    MirroredSum c x y signY ((x.sumWithSign y signY c).round c)
      (((-x).sumWithSign (-y) signY.flip d).round d) := by
  by_cases hfinite : x.isFinite = true ∧ y.isFinite = true
  · exact mirroredSum_of_isNumber h hsigned (hx.isNumber hfinite.1) (hy.isNumber hfinite.2) signY
  have hcancels : ¬ x.Cancels y signY := fun hcancels =>
    hfinite ⟨hcancels.isFinite_left, hcancels.isFinite_right⟩
  have hexcept : ¬ (x.Cancels y signY ∧ c.mode.IsSymmetric) := fun hboth => hcancels hboth.1
  -- Some operand is an infinity or a NaN, so the table answers without a rounding.
  obtain ⟨mode, override, rfl⟩ := h.exists_eq
  obtain ⟨signX, flagsX, magnitudeX⟩ := x
  obtain ⟨signY', flagsY, magnitudeY⟩ := y
  cases magnitudeX with
  | nan payload => exact .of_neg rfl hexcept fun hx => absurd rfl hx
  | infinite =>
    cases magnitudeY with
    | nan payload => exact .of_neg rfl hexcept fun _ hy => absurd rfl hy
    | zero | finite => exact .of_neg rfl hexcept fun _ _ => not_isInvalid_of_isNan rfl
    | infinite =>
      cases signX <;> cases signY
      case positive.positive | negative.negative =>
        exact .of_neg rfl hexcept fun _ _ => not_isInvalid_of_isNan rfl
      case positive.negative | negative.positive =>
        exact .of_invalid rfl hcancels Bool.false_ne_true Bool.false_ne_true
          (isInvalid_invalidResult _)
  | zero | finite =>
    cases magnitudeY with
    | nan payload => exact .of_neg rfl hexcept fun _ hy => absurd rfl hy
    | infinite => exact .of_neg rfl hexcept fun _ _ => not_isInvalid_of_isNan rfl
    | zero | finite => exact absurd ⟨rfl, rfl⟩ hfinite

end Sums

/-! ## All operations -/

/-- In a format with a negative zero the mirrored mode does to the negated operands what
the mode does to the operands. -/
theorem operations_mirrored (hmirrors : d.Mirrors c) (hsigned : c.format.hasNegativeZero = true) :
    (∀ u : Intermediate, u.neg.round d = -u.round c) ∧
      (∀ x : Value, (-x).convert d = -x.convert c) ∧
      (∀ x y : Value,
        MirroredProduct x y (x.mul y c) ((-x).mul y d) ∧
        MirroredProduct x y (x.mul y c) (x.mul (-y) d) ∧
        MirroredProduct x y (x.div y c) ((-x).div y d) ∧
        MirroredProduct x y (x.div y c) (x.div (-y) d)) ∧
      ∀ x y : Value, x.WellFormed → y.WellFormed →
        MirroredSum c x y y.sign (x.add y c) ((-x).add (-y) d) ∧
        MirroredSum c x y y.sign.flip (x.sub y c) ((-x).sub (-y) d) := by
  refine ⟨Intermediate.round_neg hmirrors hsigned, convert_neg hmirrors hsigned, fun x y => ?_,
    fun x y hx hy => ?_⟩
  · have hleft : x.sign.flip.times y.sign = (x.sign.times y.sign).flip := Sign.flip_times _ _
    have hright : x.sign.times y.sign.flip = (x.sign.times y.sign).flip := by
      rw [Sign.times_comm, Sign.flip_times, Sign.times_comm]
    exact ⟨mirroredProduct_mul hmirrors hsigned hleft, mirroredProduct_mul hmirrors hsigned hright,
      mirroredProduct_div hmirrors hsigned hleft, mirroredProduct_div hmirrors hsigned hright⟩
  · exact ⟨mirroredSum_sumWithSign hmirrors hsigned hx hy y.sign,
      mirroredSum_sumWithSign hmirrors hsigned hx hy y.sign.flip⟩

/-- Upwards the largest number overflows with anything added to it, and downwards its
negation does. -/
theorem operations_mirrored_maxFinite :
    let c := (Format.double.withRounding .towardPositive).alone
    let d := (Format.double.withRounding .towardNegative).alone
    let x := Format.double.maxFinite .positive
    let y := Format.double.minPositive .positive
    d.Mirrors c ∧ c.format.hasNegativeZero = true ∧ x.WellFormed ∧ y.WellFormed ∧
      (x.add y c).isInfinite = true ∧ (-x).add (-y) d = -x.add y c ∧
      (-x).mul y d = -x.mul y c ∧ x.div (-y) d = -x.div y c := by
  intro c d x y
  have hmirrors : d.Mirrors c := Format.double.mirrors_withRounding .towardPositive
  have hx : x.WellFormed := (Format.double.represents_maxFinite .positive).contains.wellFormed
  have hy : y.WellFormed := Format.double.wellFormed_minPositive .positive
  obtain ⟨-, -, hproducts, hsums⟩ := operations_mirrored hmirrors rfl
  obtain ⟨hmul, -, -, hdiv⟩ := hproducts x y
  obtain ⟨hadd, -⟩ := hsums x y hx hy
  exact ⟨hmirrors, rfl, hx, hy, by decide +kernel,
    hadd.negated (Or.inr (Or.inr (not_isInvalid_of_isNan (by decide +kernel)))) fun hcancels =>
      hcancels.1.opposite rfl,
    hmul.negated Bool.false_ne_true Bool.false_ne_true (not_isInvalid_of_isNan (by decide +kernel)),
    hdiv.negated Bool.false_ne_true Bool.false_ne_true (not_isInvalid_of_isNan (by decide +kernel))⟩

end Value
end CrossFloat
