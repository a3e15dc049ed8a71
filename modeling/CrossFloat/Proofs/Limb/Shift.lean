/-
Shifts of limbs and of words, as arithmetic on the numbers they stand for.

A move left multiplies by a power of two and drops what leaves the topmost limb.
A jamming move right divides by a power of two and sets the lowest bit of the
quotient when the division leaves a remainder, which is `jamShift` on numbers.
Two jamming moves in a row are one jamming move, so the moves by whole limbs and
by single places compose without a case split on where a bit was lost.
-/
import CrossFloat.Limb.Word192
import Mathlib.Tactic.Ring

namespace CrossFloat

/-! ## Jamming moves of numbers -/

/-- A number moved right by `count` places, with its lowest bit set when
something nonzero was lost below it. -/
def jamShift (n count : Nat) : Nat :=
  if n % 2 ^ count = 0 then n / 2 ^ count else n / 2 ^ count ||| 1

theorem or_one_eq (n : Nat) : n ||| 1 = n / 2 * 2 + 1 := by
  have h : n / 2 * 2 + 1 = 2 ^ 1 * (n / 2) ||| 1 := by
    rw [← Nat.two_pow_add_eq_or_of_lt (by decide)]
    omega
  rw [h]
  apply Nat.eq_of_testBit_eq
  intro i
  rw [Nat.testBit_or, Nat.testBit_or]
  cases i with
  | zero => simp
  | succ i =>
    rw [Nat.testBit_two_pow_mul, Nat.testBit_div_two]
    simp

theorem jamShift_eq (n count : Nat) :
    jamShift n count =
      if n % 2 ^ count = 0 then n / 2 ^ count else n / 2 ^ count / 2 * 2 + 1 := by
  rw [jamShift, or_one_eq]

@[simp] theorem jamShift_zero (n : Nat) : jamShift n 0 = n := by
  rw [jamShift, if_pos (by rw [Nat.pow_zero, Nat.mod_one]), Nat.pow_zero, Nat.div_one]

/-- What one move jams into the lowest bit stays in the lowest bit of the next
move. -/
theorem jamShift_jamShift (n a b : Nat) : jamShift (jamShift n a) b = jamShift n (a + b) := by
  cases b with
  | zero => rw [jamShift_zero, Nat.add_zero]
  | succ b =>
    have hdiv : n / 2 ^ (a + (b + 1)) = n / 2 ^ a / 2 / 2 ^ b := by
      rw [Nat.div_div_eq_div_mul, Nat.div_div_eq_div_mul, ← Nat.pow_succ', ← Nat.pow_add]
    have hmod : n % 2 ^ (a + (b + 1)) = n % 2 ^ a + 2 ^ a * (n / 2 ^ a % 2 ^ (b + 1)) := by
      rw [Nat.pow_add, Nat.mod_mul]
    have hpos : 0 < 2 ^ a := Nat.two_pow_pos a
    have hpow : 2 ^ (b + 1) = 2 * 2 ^ b := Nat.pow_succ'
    by_cases hexact : n % 2 ^ a = 0
    · rw [jamShift_eq n a, if_pos hexact, jamShift_eq, jamShift_eq, hmod, hexact, Nat.zero_add,
        hdiv, hpow, ← Nat.div_div_eq_div_mul]
      simp only [Nat.mul_eq_zero, Nat.ne_of_gt hpos, false_or]
    · -- The first move leaves an odd number, so the second one cannot be exact.
      have hodd : (n / 2 ^ a / 2 * 2 + 1) % 2 ^ (b + 1) ≠ 0 := by
        rw [hpow, Nat.mod_mul]
        omega
      have hlost : n % 2 ^ (a + (b + 1)) ≠ 0 := by
        rw [hmod]
        omega
      rw [jamShift_eq n a, if_neg hexact, jamShift_eq, if_neg hodd, jamShift_eq, if_neg hlost,
        hdiv, hpow, ← Nat.div_div_eq_div_mul]
      have hhalf : (n / 2 ^ a / 2 * 2 + 1) / 2 = n / 2 ^ a / 2 := by omega
      rw [hhalf]

theorem jamShift_of_lt {n count : Nat} (hn : n < 2 ^ count) :
    jamShift n count = if n = 0 then 0 else 1 := by
  rw [jamShift_eq, Nat.mod_eq_of_lt hn, Nat.div_eq_of_lt hn]

/-- A move by 255 places stands for every longer one. -/
theorem jamShift_saturated {n : Nat} (hn : n < 2 ^ 255) (count : Nat) :
    jamShift n (if count < 255 then count else 255) = jamShift n count := by
  by_cases hc : count < 255
  · rw [if_pos hc]
  · have hle : 2 ^ 255 ≤ 2 ^ count := Nat.pow_le_pow_right (by decide) (by omega)
    rw [if_neg hc, jamShift_of_lt hn, jamShift_of_lt (Nat.lt_of_lt_of_le hn hle)]

/-! ## Limbs -/

namespace Limb

theorem toNat_pos {x : UInt64} (hx : x ≠ 0) : 0 < x.toNat := by
  rw [Nat.pos_iff_ne_zero, ← UInt64.toNat_zero, ne_eq, UInt64.toNat_inj]
  exact hx

theorem toNat_shiftRight (x : UInt64) {count : Nat} (hc : count < 64) :
    (x >>> count.toUInt64).toNat = x.toNat / 2 ^ count := by
  have hcount : count.toUInt64.toNat % 64 = count := by
    rw [Nat.toUInt64_eq, UInt64.toNat_ofNat']
    omega
  rw [UInt64.toNat_shiftRight, hcount, Nat.shiftRight_eq_div_pow]

theorem toNat_shiftLeft (x : UInt64) {count : Nat} (hc : count < 64) :
    (x <<< count.toUInt64).toNat = x.toNat * 2 ^ count % 2 ^ 64 := by
  have hcount : count.toUInt64.toNat % 64 = count := by
    rw [Nat.toUInt64_eq, UInt64.toNat_ofNat']
    omega
  rw [UInt64.toNat_shiftLeft, hcount, Nat.shiftLeft_eq]

theorem toNat_jam (x : UInt64) (lost : Bool) :
    (jam x lost).toNat = if lost then x.toNat / 2 * 2 + 1 else x.toNat := by
  cases lost
  · rw [jam, UInt64.toNat_or]
    exact Nat.or_zero _
  · rw [jam, UInt64.toNat_or, if_pos rfl, ← or_one_eq]
    rfl

theorem hasLowBits_iff (x : UInt64) {count : Nat} (hc : count < 64) :
    hasLowBits x count = true ↔ x.toNat % 2 ^ count ≠ 0 := by
  have hlt : 2 ^ count < 2 ^ 64 := Nat.pow_lt_pow_right (by decide) hc
  have hpos : 0 < 2 ^ count := Nat.two_pow_pos count
  have hmask : ((1 <<< count.toUInt64) - 1 : UInt64).toNat = 2 ^ count - 1 := by
    have hone : (1 <<< count.toUInt64 : UInt64).toNat = 2 ^ count := by
      rw [toNat_shiftLeft 1 hc, UInt64.toNat_one, Nat.one_mul, Nat.mod_eq_of_lt hlt]
    rw [UInt64.toNat_sub, hone, UInt64.toNat_one]
    omega
  rw [hasLowBits, bne_iff_ne, ne_eq, ← UInt64.toNat_inj, UInt64.toNat_and, hmask,
    Nat.and_two_pow_sub_one_eq_mod, UInt64.toNat_zero]

theorem pair_div (hi lo : Nat) {count : Nat} (hc : count ≤ 64) :
    (hi * 2 ^ 64 + lo) / 2 ^ count = hi * 2 ^ (64 - count) + lo / 2 ^ count := by
  have hpow : 2 ^ 64 = 2 ^ (64 - count) * 2 ^ count := by
    rw [← Nat.pow_add, Nat.sub_add_cancel hc]
  rw [hpow, ← Nat.mul_assoc, Nat.add_comm, Nat.add_mul_div_right _ _ (Nat.two_pow_pos count),
    Nat.add_comm]

theorem toNat_shiftRightInto (hi lo : UInt64) {count : Nat} (hc : count < 64) :
    (shiftRightInto hi lo count).toNat = (hi.toNat * 2 ^ 64 + lo.toNat) / 2 ^ count % 2 ^ 64 := by
  have hlo := lo.toNat_lt
  rw [shiftRightInto]
  by_cases h0 : count = 0
  · rw [if_pos h0, h0]
    omega
  · have hsmall : lo.toNat / 2 ^ count < 2 ^ (64 - count) := by
      rw [Nat.div_lt_iff_lt_mul (Nat.two_pow_pos count), ← Nat.pow_add,
        Nat.sub_add_cancel (Nat.le_of_lt hc)]
      exact hlo
    have hle : 2 ^ (64 - count) ∣ 2 ^ 64 := Nat.pow_dvd_pow 2 (Nat.sub_le 64 count)
    have hpow : 2 ^ 64 = 2 ^ (64 - count) * 2 ^ count := by
      rw [← Nat.pow_add, Nat.sub_add_cancel (Nat.le_of_lt hc)]
    rw [if_neg h0, UInt64.toNat_or, toNat_shiftRight lo hc, toNat_shiftLeft hi (by omega),
      pair_div _ _ (Nat.le_of_lt hc)]
    have hmoved : hi.toNat * 2 ^ (64 - count) % 2 ^ 64 =
        2 ^ (64 - count) * (hi.toNat % 2 ^ count) := by
      rw [hpow, Nat.mul_comm hi.toNat, Nat.mul_mod_mul_left]
    rw [hmoved, Nat.or_comm, ← Nat.two_pow_add_eq_or_of_lt hsmall, ← hmoved]
    have hbits : hi.toNat * 2 ^ (64 - count) % 2 ^ 64 + lo.toNat / 2 ^ count < 2 ^ 64 := by
      rw [hmoved]
      calc 2 ^ (64 - count) * (hi.toNat % 2 ^ count) + lo.toNat / 2 ^ count
          < 2 ^ (64 - count) * (hi.toNat % 2 ^ count) + 2 ^ (64 - count) := by omega
        _ = 2 ^ (64 - count) * (hi.toNat % 2 ^ count + 1) := by rw [Nat.mul_succ]
        _ ≤ 2 ^ (64 - count) * 2 ^ count :=
          Nat.mul_le_mul_left _ (Nat.mod_lt _ (Nat.two_pow_pos count))
        _ = 2 ^ 64 := hpow.symm
    rw [Nat.add_mod, Nat.mod_eq_of_lt (a := lo.toNat / 2 ^ count) (by omega),
      Nat.mod_eq_of_lt hbits]

theorem toNat_shiftLeftInto (hi lo : UInt64) {count : Nat} (hc : count < 64) :
    (shiftLeftInto hi lo count).toNat =
      (hi.toNat * 2 ^ 64 + lo.toNat) * 2 ^ count / 2 ^ 64 % 2 ^ 64 := by
  have hlo := lo.toNat_lt
  have hhi := hi.toNat_lt
  rw [shiftLeftInto]
  by_cases h0 : count = 0
  · rw [if_pos h0, h0]
    omega
  · have hpow : 2 ^ 64 = 2 ^ (64 - count) * 2 ^ count := by
      rw [← Nat.pow_add, Nat.sub_add_cancel (Nat.le_of_lt hc)]
    have hsmall : lo.toNat / 2 ^ (64 - count) < 2 ^ count := by
      rw [Nat.div_lt_iff_lt_mul (Nat.two_pow_pos _), Nat.mul_comm, ← hpow]
      exact hlo
    have hquot : (hi.toNat * 2 ^ 64 + lo.toNat) * 2 ^ count / 2 ^ 64 =
        2 ^ count * hi.toNat + lo.toNat / 2 ^ (64 - count) := by
      rw [Nat.add_mul, Nat.mul_right_comm, Nat.add_comm,
        Nat.add_mul_div_right _ _ (Nat.two_pow_pos 64)]
      rw [show lo.toNat * 2 ^ count / 2 ^ 64 = lo.toNat / 2 ^ (64 - count) by
        rw [hpow, Nat.mul_div_mul_right _ _ (Nat.two_pow_pos count)], Nat.add_comm,
        Nat.mul_comm]
    have hmoved : hi.toNat * 2 ^ count % 2 ^ 64 = 2 ^ count * (hi.toNat % 2 ^ (64 - count)) := by
      rw [hpow, Nat.mul_comm hi.toNat, Nat.mul_comm (2 ^ (64 - count)), Nat.mul_mod_mul_left]
    have hbits : 2 ^ count * (hi.toNat % 2 ^ (64 - count)) + lo.toNat / 2 ^ (64 - count) <
        2 ^ 64 := by
      calc 2 ^ count * (hi.toNat % 2 ^ (64 - count)) + lo.toNat / 2 ^ (64 - count)
          < 2 ^ count * (hi.toNat % 2 ^ (64 - count)) + 2 ^ count := by omega
        _ = 2 ^ count * (hi.toNat % 2 ^ (64 - count) + 1) := by rw [Nat.mul_succ]
        _ ≤ 2 ^ count * 2 ^ (64 - count) :=
          Nat.mul_le_mul_left _ (Nat.mod_lt _ (Nat.two_pow_pos _))
        _ = 2 ^ 64 := by rw [Nat.mul_comm, ← hpow]
    rw [if_neg h0, UInt64.toNat_or, toNat_shiftLeft hi hc, toNat_shiftRight lo (by omega), hmoved,
      ← Nat.two_pow_add_eq_or_of_lt hsmall, hquot, Nat.add_mod,
      Nat.mul_comm (2 ^ count) hi.toNat, hmoved,
      Nat.mod_eq_of_lt (a := lo.toNat / 2 ^ (64 - count)) (by omega), Nat.mod_eq_of_lt hbits]

end Limb
end CrossFloat
