/-
Arithmetic on integers that a format has.

An integer becomes a value by a single correct rounding.  If nothing is raised in it, the
value stands for the integer itself, and converts back to it.

An operation on two such values is a single correct rounding as well, of the result that
the operation has on the integers.  So it returns what that result becomes, flags
included, also where it has to be rounded or is out of the range of the format.
-/
import CrossFloat.Proofs.Arithmetic.Exactness
import CrossFloat.Proofs.Integer

namespace CrossFloat

/-! ## Signs and sizes of integers -/

theorem Sign.ofRat_intCast (n : ℤ) : ofRat n = ofNegative (n < 0) := by
  rw [ofRat]
  simp only [Int.cast_lt_zero]

namespace IntegerType

/-- The type of the integers that become values. -/
def int128 : IntegerType := ⟨128, true⟩

variable {n : ℤ}

theorem natAbs_lt_of_mem_int128 (hn : n ∈ int128.numbers) : n.natAbs < 2 ^ 128 := by
  obtain ⟨hlow, hhigh⟩ : -2 ^ 127 ≤ n ∧ n < 2 ^ 127 := hn
  omega

theorem mem_int128 {t : IntegerType} (ht : t ∈ all) (hn : n ∈ t.numbers) : n ∈ int128.numbers := by
  have hbits := bits_le_of_mem_all ht
  have habs := natAbs_lt_of_mem_numbers (by omega) hn
  show -2 ^ 127 ≤ n ∧ n < 2 ^ 127
  omega

end IntegerType

namespace Value

open IntegerType (int128)

variable {x y : Value} {n m k : ℤ} {c : Context}

/-! ## Integers as values -/

theorem ofInt_eq_roundRat (hn : n ∈ int128.numbers) (c : Context) :
    ofInt n c = c.roundRat (.ofRat n) |(n : ℚ)| ∅ := by
  have hsize : |(n : ℚ)| = n.natAbs := by rw [Nat.cast_natAbs, Int.cast_abs]
  rw [ofInt, ← Sign.ofRat_intCast, hsize, integer]
  by_cases hzero : n.natAbs = 0
  · obtain rfl := Int.natAbs_eq_zero.1 hzero
    rw [if_pos hzero, hzero, Nat.cast_zero, Context.roundRat, if_pos rfl, Format.raise_zero,
      Sign.ofRat_intCast]
    show zero .positive = _
    rw [show Sign.ofNegative (decide ((0 : ℤ) < 0)) = .positive from rfl, ite_self]
    rfl
  · have hword : (Word128.ofNat n.natAbs).toNat = n.natAbs :=
      (Word128.toNat_ofNat _).trans (Nat.mod_eq_of_lt (IntegerType.natAbs_lt_of_mem_int128 hn))
    rw [if_neg hzero]
    show Intermediate.round _ c = _
    rw [Intermediate.round_eq_roundRat, Intermediate.size, hword, sub_self, zpow_zero, mul_one]

/-- The rounding of an exact result that is an integer is what the integer becomes. -/
theorem roundRat_eq_ofInt {sign : Sign} {v : ℚ} (hv : 0 ≤ v) (h : sign.factor * v = k)
    (hne : k ≠ 0) (hk : k ∈ int128.numbers) : c.roundRat sign v ∅ = ofInt k c := by
  have hpos : 0 < v := by
    refine hv.lt_of_ne fun hzero => hne ?_
    rw [← hzero, mul_zero] at h
    exact_mod_cast h.symm
  rw [ofInt_eq_roundRat hk, ← h, Sign.ofRat_factor_mul _ hpos, Sign.abs_factor_mul, abs_of_pos hpos]

/-- The value is a number, it is the integer `n`, and it has no flags. -/
structure IsInteger (x : Value) (n : ℤ) : Prop where
  isNumber : x.IsNumber
  toRat_eq : x.toRat = n
  silent : x.flags = ∅

theorem isInteger_ofInt (hn : n ∈ int128.numbers) (hsilent : (ofInt n c).flags = ∅) :
    (ofInt n c).IsInteger n := by
  rw [ofInt_eq_roundRat hn] at hsilent ⊢
  have hnumber := c.hasNumber_of_silent _ (abs_nonneg _) hsilent
  obtain ⟨hrepresents, hvalue, -⟩ := c.exact_roundRat (.ofRat n) ∅ hnumber
  rw [Sign.factor_ofRat_mul_abs] at hvalue
  exact ⟨hrepresents.contains.wellFormed.isNumber hrepresents.isFinite, hvalue, hsilent⟩

namespace IsInteger

/-! ## Operations -/

section

variable (hx : x.IsInteger n) (hy : y.IsInteger m)

include hx hy

theorem flags_union : x.flags ∪ y.flags = ∅ := by
  rw [hx.silent, hy.silent, Flags.union_self]

theorem round_sumWithSign (signY : Sign) (h : x.toRat + signY.factor * y.magnitude.toRat = k)
    (hne : k ≠ 0) (hk : k ∈ int128.numbers) : (x.sumWithSign y signY c).round c = ofInt k c := by
  rw [Value.round_sumWithSign hx.isNumber hy.isNumber, hx.flags_union hy]
  exact roundRat_eq_ofInt (abs_nonneg _) ((factor_sumSign_mul_abs x y signY c).trans h) hne hk

theorem add (hne : n + m ≠ 0) (hk : n + m ∈ int128.numbers) : x.add y c = ofInt (n + m) c := by
  refine hx.round_sumWithSign hy y.sign ?_ hne hk
  rw [Int.cast_add, ← hx.toRat_eq, ← hy.toRat_eq]
  rfl

theorem sub (hne : n - m ≠ 0) (hk : n - m ∈ int128.numbers) : x.sub y c = ofInt (n - m) c := by
  refine hx.round_sumWithSign hy y.sign.flip ?_ hne hk
  rw [Int.cast_sub, ← hx.toRat_eq, ← hy.toRat_eq, toRat_sub_toRat]

theorem mul (hne : n * m ≠ 0) (hk : n * m ∈ int128.numbers) : x.mul y c = ofInt (n * m) c := by
  rw [Value.mul, round_product hx.isNumber hy.isNumber, hx.flags_union hy]
  refine roundRat_eq_ofInt (mul_nonneg x.magnitude.toRat_nonneg y.magnitude.toRat_nonneg) ?_ hne hk
  rw [Int.cast_mul, ← hx.toRat_eq, ← hy.toRat_eq, Sign.factor_times, mul_mul_mul_comm]
  rfl

theorem div (hm : m ≠ 0) (hdvd : m ∣ n) (hne : n / m ≠ 0) (hk : n / m ∈ int128.numbers) :
    x.div y c = ofInt (n / m) c := by
  have hm' : (m : ℚ) ≠ 0 := Int.cast_ne_zero.2 hm
  have hy0 : y.magnitude ≠ .zero := by
    intro hzero
    refine hm' ?_
    rw [← hy.toRat_eq, toRat, hzero]
    exact mul_zero _
  rw [Value.div, round_quotient hx.isNumber hy.isNumber hy0, hx.flags_union hy]
  refine roundRat_eq_ofInt (div_nonneg x.magnitude.toRat_nonneg y.magnitude.toRat_nonneg) ?_ hne hk
  rw [Int.cast_div hdvd hm', ← hx.toRat_eq, ← hy.toRat_eq, ← Sign.factor_div, div_mul_div_comm]
  rfl

end

theorem toIntegerReporting_eq (hx : x.IsInteger n) {t : IntegerType} (hbits : t.bits ≤ 127)
    (hn : n ∈ t.numbers) : x.toIntegerReporting t = (n, []) := by
  rw [toIntegerReporting, toInteger_of_isNumber hx.isNumber hbits, hx.toRat_eq,
    dropFraction_intCast, if_pos ((t.holds_iff n).2 hn)]

end IsInteger

/-! ## The homomorphism -/

/-- Arithmetic on integers that become values without a flag may be carried out on the
values, and these convert back.  Results of a sum, a difference or a product that are
zero are left out, since the sign of a zero is that of the operation. -/
theorem ofInt_arithmetic (c : Context) :
    (∀ n ∈ int128.numbers, ∀ m ∈ int128.numbers,
      (ofInt n c).flags = ∅ → (ofInt m c).flags = ∅ →
        (n + m ≠ 0 → n + m ∈ int128.numbers → (ofInt n c).add (ofInt m c) c = ofInt (n + m) c) ∧
        (n - m ≠ 0 → n - m ∈ int128.numbers → (ofInt n c).sub (ofInt m c) c = ofInt (n - m) c) ∧
        (n * m ≠ 0 → n * m ∈ int128.numbers → (ofInt n c).mul (ofInt m c) c = ofInt (n * m) c) ∧
        (m ≠ 0 → m ∣ n → n ≠ 0 → n / m ∈ int128.numbers →
          (ofInt n c).div (ofInt m c) c = ofInt (n / m) c)) ∧
      ∀ t ∈ IntegerType.all, ∀ n ∈ t.numbers, (ofInt n c).flags = ∅ →
        (ofInt n c).toIntegerReporting t = (n, []) := by
  constructor
  · intro n hn m hm hsilentN hsilentM
    have hx := isInteger_ofInt hn hsilentN
    have hy := isInteger_ofInt hm hsilentM
    exact ⟨hx.add hy, hx.sub hy, hx.mul hy, fun hne hdvd hn0 =>
      hx.div hy hne hdvd fun hzero => hn0 (Int.eq_zero_of_ediv_eq_zero hdvd hzero)⟩
  · intro t ht n hn hsilent
    have hbits := IntegerType.bits_le_of_mem_all ht
    exact (isInteger_ofInt (IntegerType.mem_int128 ht hn) hsilent).toIntegerReporting_eq
      (by omega) hn

/-- In a format of eight bits whose largest number is 240, twice that is an infinity as the
sum of two values and as an integer. -/
theorem ofInt_arithmetic_overflow :
    let c : Context := ⟨⟨.binary ⟨4, 4, false, true, true, by decide, by decide⟩, .towardZero,
      .sudden⟩, some .towardPositive⟩
    (240 : ℤ) ∈ int128.numbers ∧ (ofInt 240 c).flags = ∅ ∧ (240 + 240 : ℤ) ≠ 0 ∧
      (240 + 240 : ℤ) ∈ int128.numbers ∧ ⟨8, false⟩ ∈ IntegerType.all ∧
      (ofInt 480 c).isInfinite ∧ (ofInt 240 c).add (ofInt 240 c) c = ofInt 480 c ∧
      (ofInt 240 c).toIntegerReporting ⟨8, false⟩ = (240, []) := by
  intro c
  have hmem : (240 : ℤ) ∈ int128.numbers := (int128.holds_iff 240).1 (by decide)
  have hsum : (240 + 240 : ℤ) ∈ int128.numbers := (int128.holds_iff _).1 (by decide)
  have hbyte : (240 : ℤ) ∈ (⟨8, false⟩ : IntegerType).numbers :=
    (IntegerType.holds_iff _ 240).1 (by decide)
  have hsilent : (ofInt 240 c).flags = ∅ := by decide +kernel
  obtain ⟨harithmetic, hback⟩ := ofInt_arithmetic c
  obtain ⟨hadd, -⟩ := harithmetic 240 hmem 240 hmem hsilent hsilent
  exact ⟨hmem, hsilent, by decide, hsum, by decide, by decide +kernel, hadd (by decide) hsum,
    hback ⟨8, false⟩ (by decide) 240 hbyte hsilent⟩

end Value
end CrossFloat
