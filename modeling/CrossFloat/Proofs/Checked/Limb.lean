/-
Words stay in range under the checked arithmetic.

A checked result is the exact one where that is in range.  Each checked function
returns what the library's own function does: a shift count is below the width in
the branch where the shift is made, and the halves of a product leave room for
what is added to them.
-/
import CrossFloat.Checked.Limb
import CrossFloat.Proofs.Limb.Product
import CrossFloat.Proofs.Limb.Word

namespace CrossFloat

/-! ## Results in range -/

namespace Checked

theorem assert_eq {condition : Bool} (h : condition = true) : assert condition = pure () :=
  if_pos h

theorem i32_eq {n : ℤ} (hlow : -0x80000000 ≤ n) (hhigh : n < 0x80000000) : i32 n = pure n :=
  if_pos ⟨hlow, hhigh⟩

theorem i64_eq {n : ℤ} (hlow : -0x8000000000000000 ≤ n) (hhigh : n < 0x8000000000000000) :
    i64 n = pure n :=
  if_pos ⟨hlow, hhigh⟩

theorem u64_eq {n : ℕ} (h : n < 0x10000000000000000) : u64 n = pure (.ofNat n) :=
  if_pos ⟨Int.natCast_nonneg n, by omega⟩

theorem add_eq {x y : UInt64} (h : x.toNat + y.toNat < 0x10000000000000000) :
    add x y = pure (x + y) := by
  have hsum : UInt64.ofNat (x.toNat + y.toNat) = x + y := by
    rw [UInt64.ofNat_add, UInt64.ofNat_toNat, UInt64.ofNat_toNat]
  rw [add, ← Int.natCast_add, u64_eq h, hsum]

theorem mul_eq {x y : UInt64} (h : x.toNat * y.toNat < 0x10000000000000000) :
    mul x y = pure (x * y) := by
  have hproduct : UInt64.ofNat (x.toNat * y.toNat) = x * y := by
    rw [UInt64.ofNat_mul, UInt64.ofNat_toNat, UInt64.ofNat_toNat]
  rw [mul, ← Int.natCast_mul, u64_eq h, hproduct]

theorem shiftLeft_eq (x : UInt64) {count : ℤ} {n : ℕ} (hn : n < 64) (hcount : count = n) :
    shiftLeft x count = pure (x <<< n.toUInt64) := by
  subst hcount
  exact if_pos ⟨Int.natCast_nonneg n, by omega⟩

theorem shiftRight_eq (x : UInt64) {count : ℤ} {n : ℕ} (hn : n < 64) (hcount : count = n) :
    shiftRight x count = pure (x >>> n.toUInt64) := by
  subst hcount
  exact if_pos ⟨Int.natCast_nonneg n, by omega⟩

theorem wideShiftLeft_eq {m : ℕ} {count : ℤ} {n : ℕ} (hn : n < 128) (hcount : count = n)
    (hm : m * 2 ^ n < 0x100000000000000000000000000000000) :
    wideShiftLeft m count = pure (m <<< n) := by
  subst hcount
  rw [← Nat.shiftLeft_eq] at hm
  rw [wideShiftLeft, if_pos ⟨Int.natCast_nonneg n, by omega⟩, Int.toNat_natCast,
    Nat.mod_eq_of_lt hm]

theorem wideShiftLeft_one {n : ℕ} (hn : n < 128) : wideShiftLeft 1 n = pure (1 <<< n) := by
  apply wideShiftLeft_eq hn rfl
  rw [Nat.one_mul]
  exact Nat.pow_lt_pow_right (by decide) hn

theorem wideShiftRight_eq (m : ℕ) {count : ℤ} {n : ℕ} (hn : n < 128) (hcount : count = n) :
    wideShiftRight m count = pure (m >>> n) := by
  subst hcount
  exact if_pos ⟨Int.natCast_nonneg n, by omega⟩

theorem mask_eq {width : ℕ} (h : width ≤ 128) : mask width = pure (2 ^ width - 1) := by
  rw [mask]
  by_cases h0 : width = 0
  · rw [if_pos h0, h0]
    rfl
  · have hones : (0xffffffffffffffffffffffffffffffff : ℕ) >>> (128 - width) = 2 ^ width - 1 := by
      show (2 ^ 128 - 1) >>> (128 - width) = _
      apply Nat.eq_of_testBit_eq
      intro i
      rw [Nat.testBit_shiftRight, Nat.testBit_two_pow_sub_one, Nat.testBit_two_pow_sub_one,
        decide_eq_decide]
      omega
    rw [if_neg h0, wideShiftRight_eq _ (n := 128 - width) (by omega) (by omega), hones]

end Checked

open Checked

/-! ## Limbs -/

namespace Limb

variable (hi lo x : UInt64) {count : ℕ}

theorem shiftRightIntoChecked_eq (hc : count < 64) :
    shiftRightIntoChecked hi lo count = pure (shiftRightInto hi lo count) := by
  rw [shiftRightIntoChecked, shiftRightInto]
  by_cases h0 : count = 0
  · rw [if_pos h0, if_pos h0]
  · rw [if_neg h0, if_neg h0, shiftRight_eq lo hc rfl,
      shiftLeft_eq hi (n := 64 - count) (by omega) (by omega)]
    rfl

theorem shiftLeftIntoChecked_eq (hc : count < 64) :
    shiftLeftIntoChecked hi lo count = pure (shiftLeftInto hi lo count) := by
  rw [shiftLeftIntoChecked, shiftLeftInto]
  by_cases h0 : count = 0
  · rw [if_pos h0, if_pos h0]
  · rw [if_neg h0, if_neg h0, shiftLeft_eq hi hc rfl,
      shiftRight_eq lo (n := 64 - count) (by omega) (by omega)]
    rfl

/-- The low bits are the ones that a move left by the complement keeps. -/
theorem shiftLeft_complement_ne_zero (h0 : count ≠ 0) (hc : count < 64) :
    (x <<< (64 - count).toUInt64 != 0) = hasLowBits x count := by
  have hpow : 2 ^ 64 = 2 ^ count * 2 ^ (64 - count) := by
    rw [← Nat.pow_add, Nat.add_sub_cancel' (by omega)]
  have hmoved : (x <<< (64 - count).toUInt64).toNat = x.toNat % 2 ^ count * 2 ^ (64 - count) := by
    rw [toNat_shiftLeft x (by omega), hpow, Nat.mul_mod_mul_right]
  rw [Bool.eq_iff_iff, hasLowBits_iff x hc, bne_iff_ne, ne_eq, ← UInt64.toNat_inj, hmoved,
    UInt64.toNat_zero, Nat.mul_eq_zero, or_iff_left (Nat.two_pow_pos _).ne']

theorem hasLowBitsChecked_eq (hc : count < 64) :
    hasLowBitsChecked x count = pure (hasLowBits x count) := by
  rw [hasLowBitsChecked]
  by_cases h0 : count = 0
  · have hnone : hasLowBits x 0 = false := by
      rw [← Bool.not_eq_true, hasLowBits_iff x (by decide), Nat.pow_zero, Nat.mod_one]
      exact fun h => h rfl
    rw [if_pos h0, h0, hnone]
  · rw [if_neg h0, shiftLeft_eq x (n := 64 - count) (by omega) (by omega),
      ← shiftLeft_complement_ne_zero x h0 hc]
    rfl

end Limb

/-! ## Two limbs -/

namespace Word128

variable (x : Word128) {count : ℕ}

theorem shiftRightBitsChecked_eq (hc : count < 64) :
    x.shiftRightBitsChecked count = pure (x.shiftRightBits count) := by
  rw [shiftRightBitsChecked, shiftRight_eq x.hi hc rfl, Limb.shiftRightIntoChecked_eq _ _ hc,
    Limb.hasLowBitsChecked_eq _ hc]
  rfl

theorem shiftRightJamChecked_eq (count : ℕ) :
    x.shiftRightJamChecked count = pure (x.shiftRightJam count) := by
  rw [shiftRightJamChecked, shiftRightJam]
  by_cases h64 : count < 64
  · rw [if_pos h64, if_pos h64, shiftRightBitsChecked_eq x h64]
  rw [if_neg h64, if_neg h64]
  by_cases h128 : count < 128
  · rw [if_pos h128, if_pos h128, shiftRightBitsChecked_eq _ (by omega)]
  · rw [if_neg h128, if_neg h128]

theorem shiftLeftBitsChecked_eq (hc : count < 64) :
    x.shiftLeftBitsChecked count = pure (x.shiftLeftBits count) := by
  rw [shiftLeftBitsChecked, Limb.shiftLeftIntoChecked_eq _ _ hc, shiftLeft_eq x.lo hc rfl]
  rfl

theorem shiftLeftChecked_eq (hc : count < 128) :
    x.shiftLeftChecked count = pure (x.shiftLeft count) := by
  rw [shiftLeftChecked, assert_eq (decide_eq_true hc), pure_bind, shiftLeft]
  by_cases h64 : count < 64
  · rw [if_pos h64, if_pos h64, shiftLeftBitsChecked_eq x h64]
  · rw [if_neg h64, if_neg h64, if_pos hc, shiftLeftBitsChecked_eq _ (by omega)]

/-- The middle column is below 3 * 2^32, and the upper limb is at most that of a
product. -/
theorem columnsChecked_eq {low cross₁ cross₂ high : UInt64}
    (hcross₁ : cross₁.toNat ≤ (2 ^ 32 - 1) * (2 ^ 32 - 1))
    (hcross₂ : cross₂.toNat ≤ (2 ^ 32 - 1) * (2 ^ 32 - 1))
    (hhigh : high.toNat ≤ (2 ^ 32 - 1) * (2 ^ 32 - 1)) :
    columnsChecked low cross₁ cross₂ high =
      let middle := (low >>> 32) + (cross₁ &&& 0xffffffff) + (cross₂ &&& 0xffffffff)
      pure ⟨high + (cross₁ >>> 32) + (cross₂ >>> 32) + (middle >>> 32),
        (low &&& (0xffffffff : UInt64)) ||| (middle <<< (32 : UInt64))⟩ := by
  have hlow := low.toNat_lt
  have hcarry : ((low >>> 32) + (cross₁ &&& 0xffffffff)).toNat < 2 * 2 ^ 32 := by
    rw [UInt64.toNat_add, Limb.toNat_highHalf, Limb.toNat_lowHalf]
    omega
  have hmiddle : ((low >>> 32) + (cross₁ &&& 0xffffffff) + (cross₂ &&& 0xffffffff)).toNat <
      3 * 2 ^ 32 := by
    rw [UInt64.toNat_add, Limb.toNat_lowHalf]
    omega
  simp only [columnsChecked]
  rw [add_eq (by rw [Limb.toNat_highHalf, Limb.toNat_lowHalf]; omega), pure_bind,
    add_eq (by rw [Limb.toNat_lowHalf]; omega), pure_bind]
  generalize (low >>> 32) + (cross₁ &&& 0xffffffff) + (cross₂ &&& 0xffffffff) = middle at *
  rw [add_eq (by rw [Limb.toNat_highHalf]; omega), pure_bind,
    add_eq (by rw [UInt64.toNat_add, Limb.toNat_highHalf, Limb.toNat_highHalf]; omega), pure_bind,
    add_eq (by
      rw [UInt64.toNat_add, UInt64.toNat_add, Limb.toNat_highHalf, Limb.toNat_highHalf,
        Limb.toNat_highHalf]
      omega), pure_bind]

theorem ofProductChecked_eq (a b : UInt64) : ofProductChecked a b = pure (ofProduct a b) := by
  have hlower (x : UInt64) : (x &&& 0xffffffff).toNat < 2 ^ 32 := by
    rw [Limb.toNat_lowHalf]
    exact Nat.mod_lt _ (by decide)
  have hupper (x : UInt64) : (x >>> 32).toNat < 2 ^ 32 := by
    have := x.toNat_lt
    rw [Limb.toNat_highHalf]
    omega
  have hmul {x y : UInt64} (hx : x.toNat < 2 ^ 32) (hy : y.toNat < 2 ^ 32) :
      mul x y = pure (x * y) := by
    have := Limb.half_mul_half hx hy
    exact mul_eq (by omega)
  have hbound {x y : UInt64} (hx : x.toNat < 2 ^ 32) (hy : y.toNat < 2 ^ 32) :
      (x * y).toNat ≤ (2 ^ 32 - 1) * (2 ^ 32 - 1) := by
    rw [Limb.toNat_mul_halves hx hy]
    exact Limb.half_mul_half hx hy
  simp only [ofProductChecked, hmul (hlower a) (hlower b), hmul (hlower a) (hupper b),
    hmul (hupper a) (hlower b), hmul (hupper a) (hupper b), pure_bind]
  exact columnsChecked_eq (hbound (hlower a) (hupper b)) (hbound (hupper a) (hlower b))
    (hbound (hupper a) (hupper b))

end Word128

/-! ## Three limbs -/

namespace Word192

variable (x : Word192) {count : ℕ}

theorem shiftRightBitsChecked_eq (hc : count < 64) :
    x.shiftRightBitsChecked count = pure (x.shiftRightBits count) := by
  rw [shiftRightBitsChecked, shiftRight_eq x.hi hc rfl, Limb.shiftRightIntoChecked_eq _ _ hc,
    Limb.shiftRightIntoChecked_eq _ _ hc, Limb.hasLowBitsChecked_eq _ hc]
  rfl

theorem shiftRightJamChecked_eq (count : ℕ) :
    x.shiftRightJamChecked count = pure (x.shiftRightJam count) := by
  rw [shiftRightJamChecked, shiftRightJam]
  by_cases h64 : count < 64
  · rw [if_pos h64, if_pos h64, shiftRightBitsChecked_eq x h64]
  rw [if_neg h64, if_neg h64]
  by_cases h128 : count < 128
  · rw [if_pos h128, if_pos h128, shiftRightBitsChecked_eq _ (by omega)]
  rw [if_neg h128, if_neg h128]
  by_cases h192 : count < 192
  · rw [if_pos h192, if_pos h192, shiftRightBitsChecked_eq _ (by omega)]
  · rw [if_neg h192, if_neg h192]

theorem shiftLeftBitsChecked_eq (hc : count < 64) :
    x.shiftLeftBitsChecked count = pure (x.shiftLeftBits count) := by
  rw [shiftLeftBitsChecked, Limb.shiftLeftIntoChecked_eq _ _ hc,
    Limb.shiftLeftIntoChecked_eq _ _ hc, shiftLeft_eq x.lo hc rfl]
  rfl

theorem shiftLeftChecked_eq (hc : count < 192) :
    x.shiftLeftChecked count = pure (x.shiftLeft count) := by
  rw [shiftLeftChecked, assert_eq (decide_eq_true hc), pure_bind, shiftLeft]
  by_cases h64 : count < 64
  · rw [if_pos h64, if_pos h64, shiftLeftBitsChecked_eq x h64]
  rw [if_neg h64, if_neg h64]
  by_cases h128 : count < 128
  · rw [if_pos h128, if_pos h128, shiftLeftBitsChecked_eq _ (by omega)]
  · rw [if_neg h128, if_neg h128, if_pos hc, shiftLeftBitsChecked_eq _ (by omega)]

end Word192

/-! ## Long division -/

namespace Trial

variable (d : Word192)

theorem extendedChecked_eq (t : Trial) : t.extendedChecked = pure t.extended := by
  rw [extendedChecked, Word128.shiftLeftChecked_eq _ (by decide)]
  rfl

theorem nextChecked_eq (t : Trial) : t.nextChecked d = pure (t.next d) := by
  rw [nextChecked, extendedChecked_eq, Word192.shiftLeftChecked_eq _ (by decide)]
  rfl

theorem advanceChecked_eq (count : ℕ) (t : Trial) :
    advanceChecked d count t = pure (t.advance d count) := by
  induction count generalizing t with
  | zero => rfl
  | succ count ih =>
    rw [advanceChecked, nextChecked_eq, pure_bind, ih]
    rfl

end Trial

theorem Word128.divideChecked_eq {n d : Word128} (hn : 2 ^ 127 ≤ n.toNat)
    (hd : 2 ^ 127 ≤ d.toNat) : n.divideChecked d = pure (n.divide d) := by
  have hbit {x : Word128} (hx : 2 ^ 127 ≤ x.toNat) : (x.hi >>> 63 != 0) = true := by
    have hlo := x.lo.toNat_lt
    have hshift : (x.hi >>> 63).toNat = x.hi.toNat / 2 ^ 63 :=
      Limb.toNat_shiftRight x.hi (by decide)
    rw [toNat_eq] at hx
    rw [bne_iff_ne, ne_eq, ← UInt64.toNat_inj, hshift, UInt64.toNat_zero]
    omega
  have hasserted : (n.hi >>> 63 != 0 && d.hi >>> 63 != 0) = true := by
    rw [hbit hn, hbit hd]
    rfl
  simp only [divideChecked, assert_eq hasserted, Trial.advanceChecked_eq,
    Trial.extendedChecked_eq, pure_bind]
  rfl

end CrossFloat
