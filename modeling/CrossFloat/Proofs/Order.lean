/-
Comparison is the order of the extended real numbers.

A value other than a NaN stands for a real number or for an infinity.  The
comparison never computes it.  It looks at the exponent of the leading bit, which
is the binary logarithm of a number, and then at the significand below that bit.
Numbers with different logarithms are ordered as these are, and numbers with the
same one as their significands.
-/
import CrossFloat.Proofs.Arithmetic
import CrossFloat.Proofs.WellFormed
import Mathlib.Data.EReal.Operations

namespace CrossFloat

/-! ## Outcomes -/

/-- The outcome is the one that the order of `v` and `w` asks for. -/
structure Comparison.Reflects {α : Type*} [LT α] (outcome : Comparison) (v w : α) : Prop where
  less : outcome = .less ↔ v < w
  equal : outcome = .equal ↔ v = w
  greater : outcome = .greater ↔ w < v

namespace Comparison

theorem swap_eq_iff {outcome : Comparison} :
    (outcome.swap = .less ↔ outcome = .greater) ∧ (outcome.swap = .equal ↔ outcome = .equal) ∧
      (outcome.swap = .greater ↔ outcome = .less) := by
  cases outcome <;> simp [swap]

section

variable {α β : Type*} [LinearOrder α] [LinearOrder β] {outcome : Comparison} {v w : α}

theorem reflects_less (h : v < w) : less.Reflects v w :=
  ⟨by simp [h], by simp [h.ne], by simp [h.le]⟩

theorem reflects_equal (v : α) : equal.Reflects v v :=
  ⟨by simp, by simp, by simp⟩

theorem reflects_greater (h : w < v) : greater.Reflects v w :=
  ⟨by simp [h.le], by simp [h.ne'], by simp [h]⟩

/-- Two pairs that are ordered alike have the same outcome. -/
theorem Reflects.transfer {v' w' : β} (h : outcome.Reflects v w) (hlt : v < w → v' < w')
    (heq : v = w → v' = w') (hgt : w < v → w' < v') : outcome.Reflects v' w' := by
  rcases lt_trichotomy v w with hvw | hvw | hvw
  · rw [h.less.2 hvw]
    exact reflects_less (hlt hvw)
  · rw [h.equal.2 hvw, heq hvw]
    exact reflects_equal w'
  · rw [h.greater.2 hvw]
    exact reflects_greater (hgt hvw)

theorem Reflects.map {f : α → β} (hf : StrictMono f) (h : outcome.Reflects v w) :
    outcome.Reflects (f v) (f w) :=
  h.transfer (fun hlt => hf hlt) (congrArg f) (fun hgt => hf hgt)

theorem Reflects.swap {f : α → β} (hf : StrictAnti f) (h : outcome.Reflects v w) :
    outcome.swap.Reflects (f v) (f w) := by
  obtain ⟨hless, hequal, hgreater⟩ := outcome.swap_eq_iff
  exact ⟨hless.trans (h.greater.trans hf.lt_iff_gt.symm),
    hequal.trans (h.equal.trans hf.injective.eq_iff.symm),
    hgreater.trans (h.less.trans hf.lt_iff_gt.symm)⟩

theorem Reflects.ne_unordered (h : outcome.Reflects v w) : outcome ≠ .unordered := by
  rintro rfl
  rcases lt_trichotomy v w with hvw | hvw | hvw
  · exact absurd (h.less.2 hvw) (by decide)
  · exact absurd (h.equal.2 hvw) (by decide)
  · exact absurd (h.greater.2 hvw) (by decide)

end

end Comparison

namespace OrderRelation

/-- What a relation means for numbers. -/
def Relates {α : Type*} [LinearOrder α] (r : OrderRelation) (v w : α) : Prop :=
  match r with
  | eq => v = w
  | ne => v ≠ w
  | lt => v < w
  | le => v ≤ w
  | gt => w < v
  | ge => w ≤ v

theorem Relates.trans {α : Type*} [LinearOrder α] {r : OrderRelation} {u v w : α}
    (h : r.Relates u v) (hr : r ≠ .ne) (h' : r.Relates v w) : r.Relates u w := by
  cases r with
  | ne => exact absurd rfl hr
  | eq => exact Eq.trans h h'
  | lt => exact lt_trans h h'
  | le => exact le_trans h h'
  | gt => exact gt_trans h h'
  | ge => exact ge_trans h h'

/-- Unordered values stand in no relation but `ne`. -/
theorem ne_unordered_of_admits (r : OrderRelation) {outcome : Comparison} (hr : r ≠ .ne)
    (h : r.admits outcome = true) : outcome ≠ .unordered := by
  rintro rfl
  cases r with
  | ne => exact hr rfl
  | eq | lt | le | gt | ge => exact absurd h (by decide)

end OrderRelation

theorem Comparison.Reflects.admits_iff {α : Type*} [LinearOrder α] {outcome : Comparison}
    {v w : α} (h : outcome.Reflects v w) (r : OrderRelation) :
    r.admits outcome = true ↔ r.Relates v w := by
  cases r with
  | eq => exact beq_iff_eq.trans h.equal
  | ne => exact bne_iff_ne.trans h.equal.not
  | lt => exact beq_iff_eq.trans h.less
  | gt => exact beq_iff_eq.trans h.greater
  | le =>
    rw [OrderRelation.Relates, le_iff_lt_or_eq, ← h.less, ← h.equal]
    simp [OrderRelation.admits]
  | ge =>
    rw [OrderRelation.Relates, le_iff_lt_or_eq', ← h.greater, ← h.equal]
    simp [OrderRelation.admits]

/-! ## Extended real numbers -/

/-- A number with the sign put in front. -/
def Sign.apply {α : Type*} [Neg α] : Sign → α → α
  | positive, a => a
  | negative, a => -a

theorem Sign.apply_zero {α : Type*} [NegZeroClass α] (s : Sign) : s.apply (0 : α) = 0 := by
  cases s with
  | positive => rfl
  | negative => exact neg_zero

/-- The extended real number that a magnitude stands for, if it is not a NaN. -/
noncomputable def Magnitude.toEReal : Magnitude → EReal
  | infinite => ⊤
  | m => ((m.toRat : ℝ) : EReal)

/-- The extended real number that a value stands for, if it is not a NaN. -/
noncomputable def Value.toEReal (x : Value) : EReal :=
  x.sign.apply x.magnitude.toEReal

namespace Magnitude

theorem toEReal_zero : zero.toEReal = 0 := by
  show (((0 : ℚ) : ℝ) : EReal) = 0
  rw [Rat.cast_zero, EReal.coe_zero]

theorem toEReal_nonneg (m : Magnitude) : 0 ≤ m.toEReal := by
  cases m with
  | infinite => exact le_top
  | zero | nan => exact toEReal_zero.ge
  | finite range exponent significand =>
    exact EReal.coe_nonneg.2 (Rat.cast_nonneg.2 (toRat_nonneg _))

theorem toEReal_finite_pos (range : Range) (exponent : ℤ) {significand : UInt64}
    (h : significand ≠ 0) : 0 < (finite range exponent significand).toEReal :=
  EReal.coe_pos.2 (Rat.cast_pos.2 (Value.magnitude_pos range exponent h))

theorem toEReal_finite_lt_top (range : Range) (exponent : ℤ) (significand : UInt64) :
    (finite range exponent significand).toEReal < ⊤ :=
  EReal.coe_lt_top _

theorem ratCast_strictMono : StrictMono fun v : ℚ => ((v : ℝ) : EReal) :=
  EReal.coe_strictMono.comp Rat.cast_strictMono

theorem compareFinite_reflects (exponentX exponentY : ℤ) {significandX significandY : UInt64}
    (hX : significandX ≠ 0) (hY : significandY ≠ 0) :
    (compareFinite exponentX significandX exponentY significandY).Reflects
      ((significandX.toNat : ℚ) * 2 ^ (exponentX - 63))
      ((significandY.toNat : ℚ) * 2 ^ (exponentY - 63)) := by
  have hlogX := log_eq_leadingExp hX exponentX
  have hlogY := log_eq_leadingExp hY exponentY
  have hvalueX := alignLeft_mul_zpow hX exponentX
  have hvalueY := alignLeft_mul_zpow hY exponentY
  have hposX : 0 < (significandX.toNat : ℚ) * 2 ^ (exponentX - 63) :=
    Value.magnitude_pos .normal exponentX hX
  have hposY : 0 < (significandY.toNat : ℚ) * 2 ^ (exponentY - 63) :=
    Value.magnitude_pos .normal exponentY hY
  rw [compareFinite]
  generalize (significandX.toNat : ℚ) * 2 ^ (exponentX - 63) = v at *
  generalize (significandY.toNat : ℚ) * 2 ^ (exponentY - 63) = w at *
  rw [← hlogX, ← hlogY]
  by_cases hless : Int.log 2 v < Int.log 2 w
  · rw [if_pos hless]
    exact Comparison.reflects_less (lt_of_not_ge fun h => hless.not_ge (Int.log_mono_right hposY h))
  by_cases hgreater : Int.log 2 w < Int.log 2 v
  · rw [if_neg hless, if_pos hgreater]
    exact Comparison.reflects_greater
      (lt_of_not_ge fun h => hgreater.not_ge (Int.log_mono_right hposX h))
  -- The leading bits are level, so the aligned significands count the same unit.
  rw [if_neg hless, if_neg hgreater]
  rw [← hlogX] at hvalueX
  rw [← hlogY, ← le_antisymm (not_lt.1 hgreater) (not_lt.1 hless)] at hvalueY
  rw [← hvalueX, ← hvalueY]
  have hunit := two_zpow_pos (Int.log 2 v - 63)
  refine Comparison.Reflects.map (f := fun n : ℕ => (n : ℚ) * 2 ^ (Int.log 2 v - 63))
    (fun m n h => mul_lt_mul_of_pos_right (by exact_mod_cast h) hunit) ?_
  split_ifs with h₁ h₂
  · exact Comparison.reflects_less (UInt64.lt_iff_toNat_lt.1 h₁)
  · exact Comparison.reflects_greater (UInt64.lt_iff_toNat_lt.1 h₂)
  · rw [UInt64.lt_iff_toNat_lt, not_lt] at h₁ h₂
    rw [le_antisymm h₂ h₁]
    exact Comparison.reflects_equal _

/-- Magnitudes are compared as the extended real numbers that they stand for. -/
theorem compare_reflects {m n : Magnitude} (hm : m.WellFormed) (hn : n.WellFormed)
    (hm' : ∀ payload, m ≠ nan payload) (hn' : ∀ payload, n ≠ nan payload) :
    (m.compare n).Reflects m.toEReal n.toEReal := by
  cases m with
  | nan payload => exact absurd rfl (hm' payload)
  | zero =>
    cases n with
    | nan payload => exact absurd rfl (hn' payload)
    | zero => exact Comparison.reflects_equal _
    | infinite => exact Comparison.reflects_less (toEReal_zero.trans_lt EReal.zero_lt_top)
    | finite range exponent significand =>
      exact Comparison.reflects_less
        (toEReal_zero.trans_lt (toEReal_finite_pos range exponent hn.1.ne_zero))
  | infinite =>
    cases n with
    | nan payload => exact absurd rfl (hn' payload)
    | zero => exact Comparison.reflects_greater (toEReal_zero.trans_lt EReal.zero_lt_top)
    | infinite => exact Comparison.reflects_equal _
    | finite range exponent significand =>
      exact Comparison.reflects_greater (toEReal_finite_lt_top range exponent significand)
  | finite range exponent significand =>
    cases n with
    | nan payload => exact absurd rfl (hn' payload)
    | zero =>
      exact Comparison.reflects_greater
        (toEReal_zero.trans_lt (toEReal_finite_pos range exponent hm.1.ne_zero))
    | infinite =>
      exact Comparison.reflects_less (toEReal_finite_lt_top range exponent significand)
    | finite range' exponent' significand' =>
      have hrat := compareFinite_reflects exponent exponent' hm.1.ne_zero hn.1.ne_zero
      exact hrat.map (f := fun v : ℚ => ((v : ℝ) : EReal)) ratCast_strictMono

end Magnitude

namespace Value

variable {x y z : Value}

theorem magnitude_ne_nan (h : x.isNan = false) (payload : UInt64) :
    x.magnitude ≠ .nan payload := by
  intro hnan
  rw [isNan, hnan] at h
  exact Bool.noConfusion h

/-- A zero stands for the same number whatever its sign. -/
theorem toEReal_of_zero (h : x.magnitude = .zero) : x.toEReal = 0 := by
  rw [toEReal, h, Magnitude.toEReal_zero, Sign.apply_zero]

theorem toEReal_magnitude (h : x.isFinite = true) :
    x.magnitude.toEReal = ((x.magnitude.toRat : ℝ) : EReal) := by
  obtain ⟨sign, flags, magnitude⟩ := x
  cases magnitude with
  | infinite => exact absurd h Bool.false_ne_true
  | zero | finite | nan => rfl

/-- A finite value stands for its number. -/
theorem toEReal_eq_toRat (h : x.isFinite = true) : x.toEReal = ((x.toRat : ℝ) : EReal) := by
  rw [toEReal, toRat, toEReal_magnitude h]
  cases x.sign with
  | positive => rw [Sign.factor, one_mul, Sign.apply]
  | negative => rw [Sign.factor, neg_one_mul, Rat.cast_neg, EReal.coe_neg, Sign.apply]

/-! ## Sizes and signs -/

/-- The number measures the value without its sign, and is zero for a zero only. -/
structure HasSize {α : Type*} [LinearOrder α] [Zero α] (x : Value) (a : α) : Prop where
  nonneg : 0 ≤ a
  eq_zero_iff : a = 0 ↔ x.isZero = true

section HasSize

variable {α : Type*} [LinearOrder α] [NegZeroClass α] {a b : α}

theorem HasSize.apply_of_isBelowZero (ha : x.HasSize a) (h : x.isBelowZero = true) :
    x.sign.apply a = -a ∧ 0 < a := by
  obtain ⟨hsign, hne⟩ : x.sign.isNegative = true ∧ x.isZero = false := by
    simpa [isBelowZero] using h
  constructor
  · cases hs : x.sign with
    | negative => rfl
    | positive =>
      rw [hs] at hsign
      exact Bool.noConfusion hsign
  · refine lt_of_le_of_ne ha.nonneg fun hzero => ?_
    rw [ha.eq_zero_iff.1 hzero.symm] at hne
    exact Bool.noConfusion hne

theorem HasSize.apply_of_not_isBelowZero (ha : x.HasSize a) (h : x.isBelowZero = false) :
    x.sign.apply a = a := by
  cases hs : x.sign with
  | positive => rfl
  | negative =>
    rw [ha.eq_zero_iff.2 (by simpa [isBelowZero, hs, Sign.isNegative] using h)]
    exact neg_zero

/-- Values are compared as their sizes with the signs put in front, if their
magnitudes are compared as the sizes. -/
theorem compare_reflects_apply (hneg : StrictAnti fun a : α => -a) (hnanX : x.isNan = false)
    (hnanY : y.isNan = false) (ha : x.HasSize a) (hb : y.HasSize b)
    (h : (x.magnitude.compare y.magnitude).Reflects a b) :
    (x.compare y).Reflects (x.sign.apply a) (y.sign.apply b) := by
  have hbelow {c : α} (hc : 0 < c) : -c < 0 := (hneg hc).trans_eq neg_zero
  rw [compare, hnanX, hnanY]
  cases hX : x.isBelowZero with
  | false =>
    rw [ha.apply_of_not_isBelowZero hX]
    cases hY : y.isBelowZero with
    | false =>
      rw [hb.apply_of_not_isBelowZero hY]
      exact h
    | true =>
      obtain ⟨happly, hpos⟩ := hb.apply_of_isBelowZero hY
      rw [happly]
      exact Comparison.reflects_greater ((hbelow hpos).trans_le ha.nonneg)
  | true =>
    obtain ⟨happly, hpos⟩ := ha.apply_of_isBelowZero hX
    rw [happly]
    cases hY : y.isBelowZero with
    | false =>
      rw [hb.apply_of_not_isBelowZero hY]
      exact Comparison.reflects_less ((hbelow hpos).trans_le hb.nonneg)
    | true =>
      rw [(hb.apply_of_isBelowZero hY).1]
      exact h.swap hneg

end HasSize

/-! ## The comparison of values -/

theorem hasSize_toEReal (hx : x.WellFormed) (hnan : x.isNan = false) :
    x.HasSize x.magnitude.toEReal := by
  have hwellFormed := wellFormed_iff.1 hx
  have hne := magnitude_ne_nan hnan
  refine ⟨x.magnitude.toEReal_nonneg, ?_⟩
  rw [isZero_iff]
  cases hm : x.magnitude with
  | nan payload => exact absurd hm (hne payload)
  | zero => exact iff_of_true Magnitude.toEReal_zero rfl
  | infinite => exact iff_of_false EReal.top_ne_zero Magnitude.noConfusion
  | finite range exponent significand =>
    rw [hm] at hwellFormed
    exact iff_of_false (Magnitude.toEReal_finite_pos _ _ hwellFormed.1.ne_zero).ne'
      Magnitude.noConfusion

/-- Values other than NaNs are compared as the extended real numbers that they
stand for. -/
theorem compare_reflects (hx : x.WellFormed) (hy : y.WellFormed) (hnanX : x.isNan = false)
    (hnanY : y.isNan = false) : (x.compare y).Reflects x.toEReal y.toEReal :=
  compare_reflects_apply EReal.neg_strictAnti hnanX hnanY (hasSize_toEReal hx hnanX)
    (hasSize_toEReal hy hnanY)
    (Magnitude.compare_reflects (wellFormed_iff.1 hx) (wellFormed_iff.1 hy)
      (magnitude_ne_nan hnanX) (magnitude_ne_nan hnanY))

/-- Finite values are compared as their numbers. -/
theorem compare_reflects_toRat (hx : x.WellFormed) (hy : y.WellFormed)
    (hfiniteX : x.isFinite = true) (hfiniteY : y.isFinite = true) :
    (x.compare y).Reflects x.toRat y.toRat := by
  have hreflects := compare_reflects hx hy (isNan_eq_false_of_isFinite hfiniteX)
    (isNan_eq_false_of_isFinite hfiniteY)
  rw [toEReal_eq_toRat hfiniteX, toEReal_eq_toRat hfiniteY] at hreflects
  exact hreflects.transfer Magnitude.ratCast_strictMono.lt_iff_lt.1
    (fun h => Magnitude.ratCast_strictMono.injective h) Magnitude.ratCast_strictMono.lt_iff_lt.1

theorem compare_eq_unordered_iff (hx : x.WellFormed) (hy : y.WellFormed) :
    x.compare y = .unordered ↔ x.isNan ∨ y.isNan := by
  constructor
  · intro h
    by_contra hnone
    obtain ⟨hnanX, hnanY⟩ := not_or.1 hnone
    rw [Bool.not_eq_true] at hnanX hnanY
    exact (compare_reflects hx hy hnanX hnanY).ne_unordered h
  · intro h
    rw [compare, if_pos (Bool.or_eq_true_iff.2 h)]

theorem isNan_eq_false_of_compare (h : x.compare y ≠ .unordered) :
    x.isNan = false ∧ y.isNan = false := by
  rw [← Bool.or_eq_false_iff]
  by_contra hnan
  rw [compare, if_pos (Bool.eq_true_of_not_eq_false hnan)] at h
  exact h rfl

/-! ## Relations -/

/-- Between values other than NaNs a relation is that of their extended real
numbers. -/
theorem related_iff (hx : x.WellFormed) (hy : y.WellFormed) (hnanX : x.isNan = false)
    (hnanY : y.isNan = false) (r : OrderRelation) :
    related r x y = true ↔ r.Relates x.toEReal y.toEReal :=
  (compare_reflects hx hy hnanX hnanY).admits_iff r

theorem related_trans {r : OrderRelation} (hr : r ≠ .ne) (hx : x.WellFormed) (hy : y.WellFormed)
    (hz : z.WellFormed) (hxy : related r x y = true) (hyz : related r y z = true) :
    related r x z = true := by
  obtain ⟨hnanX, hnanY⟩ := isNan_eq_false_of_compare (r.ne_unordered_of_admits hr hxy)
  obtain ⟨-, hnanZ⟩ := isNan_eq_false_of_compare (r.ne_unordered_of_admits hr hyz)
  rw [related_iff hx hy hnanX hnanY] at hxy
  rw [related_iff hy hz hnanY hnanZ] at hyz
  rw [related_iff hx hz hnanX hnanZ]
  exact hxy.trans hr hyz

/-- Well-formed values are compared as the extended real numbers that they stand
for, and a NaN is unordered.  So exactly one of four relations holds of any two
values, the other relations follow from these, and all but `ne` are transitive. -/
theorem compare_is_extended_real_order (hx : x.WellFormed) (hy : y.WellFormed) :
    (x.compare y = .unordered ↔ x.isNan ∨ y.isNan) ∧
      (¬ x.isNan → ¬ y.isNan → (x.compare y).Reflects x.toEReal y.toEReal) ∧
      [related .lt x y, related .eq x y, related .gt x y, isUnordered x y].count true = 1 ∧
      related .le x y = (related .lt x y || related .eq x y) ∧
      related .ge x y = (related .gt x y || related .eq x y) ∧
      related .ne x y = !related .eq x y ∧
      ∀ z : Value, z.WellFormed → ∀ r : OrderRelation, r ≠ .ne →
        related r x y → related r y z → related r x z := by
  refine ⟨compare_eq_unordered_iff hx hy, fun hnanX hnanY => ?_, ?_, rfl, rfl, rfl,
    fun z hz r hr => related_trans hr hx hy hz⟩
  · rw [Bool.not_eq_true] at hnanX hnanY
    exact compare_reflects hx hy hnanX hnanY
  · simp only [related, isUnordered]
    cases x.compare y <;> rfl

/-- The smallest number of the 64-bit format, as that format stores it and with
its leading bit in bit 63. -/
theorem compare_is_extended_real_order_minPositive :
    let x := Format.double.minPositive .negative
    let y : Value := ⟨.negative, .onUnderflow, .finite .normal (-1074) 0x8000000000000000⟩
    x.WellFormed ∧ y.WellFormed ∧ x.compare y = .equal ∧ x.toEReal = y.toEReal := by
  intro x y
  have hx : x.WellFormed := Format.double.wellFormed_minPositive .negative
  have hy : y.WellFormed := wellFormed_iff.2 ⟨Range.admits_topBit, by decide⟩
  have hequal : x.compare y = .equal := by decide
  obtain ⟨-, hreflects, -⟩ := compare_is_extended_real_order hx hy
  exact ⟨hx, hy, hequal, (hreflects (by decide) (by decide)).equal.1 hequal⟩

end Value
end CrossFloat
