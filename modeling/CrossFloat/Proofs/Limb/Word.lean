/-
Shifts and leading zeros of the two-limb and the three-limb words.

A jamming move right of a word is `jamShift` of its number, for any count, and a
move left is a multiplication modulo the width.  The number of leading zeros is
the distance of the topmost set bit from the top, so moving a nonzero word left
by it sets the topmost bit and loses nothing.
-/
import CrossFloat.Proofs.Limb.Shift

namespace CrossFloat

namespace Limb

/-! ## Pairs of neighbouring limbs

Both words move right by the same step at their lowest limb: `top` is everything
above that limb. -/

theorem div_add_mod_pair (top lo count : Nat) (hlo : lo < 2 ^ 64) :
    top / 2 ^ count * 2 ^ 64 + (top * 2 ^ 64 + lo) / 2 ^ count % 2 ^ 64 =
      (top * 2 ^ 64 + lo) / 2 ^ count := by
  have hdiv : (top * 2 ^ 64 + lo) / 2 ^ count / 2 ^ 64 = top / 2 ^ count := by
    rw [Nat.div_div_eq_div_mul, Nat.mul_comm (2 ^ count), ← Nat.div_div_eq_div_mul,
      Nat.mul_comm top, Nat.mul_add_div (Nat.two_pow_pos 64), Nat.div_eq_of_lt hlo, Nat.add_zero]
  rw [← hdiv]
  exact Nat.div_add_mod' _ _

/-- A multiple of two limbs above a number does not reach the lowest limb of a
move by at most one limb. -/
theorem mod_of_pair_above (top z : Nat) {count : Nat} (hc : count ≤ 64) :
    (top * 2 ^ 64 * 2 ^ 64 + z) / 2 ^ count % 2 ^ 64 = z / 2 ^ count % 2 ^ 64 := by
  rw [pair_div _ _ hc, Nat.mul_right_comm, Nat.mul_comm (top * _) (2 ^ 64),
    Nat.mul_add_mod]

theorem mul_div_pair (top : Nat) {lo count : Nat} (hlo : lo < 2 ^ 64) (hc : count ≤ 64) :
    (top * 2 ^ 64 + lo) * 2 ^ count / 2 ^ 64 / 2 ^ 64 = top * 2 ^ count / 2 ^ 64 := by
  have hpow : 2 ^ 64 = 2 ^ (64 - count) * 2 ^ count := by
    rw [← Nat.pow_add, Nat.sub_add_cancel hc]
  have hdiv (n : Nat) : n * 2 ^ count / 2 ^ 64 = n / 2 ^ (64 - count) := by
    rw [hpow, Nat.mul_div_mul_right _ _ (Nat.two_pow_pos count)]
  rw [hdiv, hdiv, Nat.div_div_eq_div_mul, Nat.mul_comm (2 ^ (64 - count)),
    ← Nat.div_div_eq_div_mul, Nat.mul_comm top, Nat.mul_add_div (Nat.two_pow_pos 64),
    Nat.div_eq_of_lt hlo, Nat.add_zero]

theorem mod_two_pow_of_pair (top lo : Nat) {count : Nat} (hc : count ≤ 64) :
    (top * 2 ^ 64 + lo) % 2 ^ count = lo % 2 ^ count := by
  have hpow : 2 ^ 64 = 2 ^ count * 2 ^ (64 - count) := by
    rw [← Nat.pow_add, Nat.add_sub_cancel' hc]
  rw [hpow, Nat.mul_comm top, Nat.mul_assoc, Nat.mul_add_mod]

/-- The lowest limb after a jamming move, below the limbs that moved whole. -/
theorem jam_pair (top : Nat) (lo low : UInt64) {count : Nat} (hc : count < 64)
    (hlow : low.toNat = (top * 2 ^ 64 + lo.toNat) / 2 ^ count % 2 ^ 64) :
    top / 2 ^ count * 2 ^ 64 + (jam low (hasLowBits lo count)).toNat =
      jamShift (top * 2 ^ 64 + lo.toNat) count := by
  have hquot := div_add_mod_pair top lo.toNat count lo.toNat_lt
  have hlost := hasLowBits_iff lo hc
  rw [← hlow] at hquot
  rw [toNat_jam, jamShift_eq, mod_two_pow_of_pair _ _ (Nat.le_of_lt hc), ← hquot]
  by_cases h : lo.toNat % 2 ^ count = 0
  · rw [if_pos h, if_neg (fun hb => hlost.1 hb h)]
  · rw [if_neg h, if_pos (hlost.2 h)]
    omega

theorem jam_limb (top : Nat) (lo low : UInt64) (hlow : low.toNat = top % 2 ^ 64) :
    top / 2 ^ 64 * 2 ^ 64 + (jam low (lo != 0)).toNat =
      jamShift (top * 2 ^ 64 + lo.toNat) 64 := by
  have hlo := lo.toNat_lt
  have hzero : (lo != 0) = true ↔ lo.toNat ≠ 0 := by
    rw [bne_iff_ne, ne_eq, ← UInt64.toNat_inj, UInt64.toNat_zero]
  have hmod : (top * 2 ^ 64 + lo.toNat) % 2 ^ 64 = lo.toNat := by omega
  have hdiv : (top * 2 ^ 64 + lo.toNat) / 2 ^ 64 = top := by omega
  rw [toNat_jam, jamShift_eq, hmod, hdiv]
  by_cases h : lo.toNat = 0
  · rw [if_pos h, if_neg (fun hb => hzero.1 hb h)]
    omega
  · rw [if_neg h, if_pos (hzero.2 h)]
    omega

theorem leadingZeros_spec {x : UInt64} (hx : x ≠ 0) :
    leadingZeros x ≤ 63 ∧ 2 ^ 63 ≤ x.toNat * 2 ^ leadingZeros x ∧
      x.toNat * 2 ^ leadingZeros x < 2 ^ 64 := by
  have hne : x.toNat ≠ 0 := (toNat_pos hx).ne'
  have hlog : x.toNat.log2 < 64 := (Nat.log2_lt hne).2 x.toNat_lt
  have hlow := Nat.log2_self_le hne
  have hhigh : x.toNat < 2 ^ (x.toNat.log2 + 1) := Nat.lt_log2_self
  rw [leadingZeros, if_neg hx]
  refine ⟨Nat.sub_le 63 _, ?_, ?_⟩
  · calc 2 ^ 63 = 2 ^ x.toNat.log2 * 2 ^ (63 - x.toNat.log2) := by
          rw [← Nat.pow_add]
          congr 1
          omega
      _ ≤ x.toNat * 2 ^ (63 - x.toNat.log2) := Nat.mul_le_mul_right _ hlow
  · calc x.toNat * 2 ^ (63 - x.toNat.log2)
        < 2 ^ (x.toNat.log2 + 1) * 2 ^ (63 - x.toNat.log2) :=
          Nat.mul_lt_mul_of_pos_right hhigh (Nat.two_pow_pos _)
      _ = 2 ^ 64 := by
          rw [← Nat.pow_add]
          congr 1
          omega

/-- A number with one of its two topmost bits set is at most one place short. -/
theorem places_le_one {n places width : Nat} (hn : 2 ^ width ≤ n)
    (hlt : n * 2 ^ places < 2 ^ (width + 2)) : places ≤ 1 := by
  have hpow : 2 ^ (width + places) < 2 ^ (width + 2) := by
    rw [Nat.pow_add]
    exact (Nat.mul_le_mul_right _ hn).trans_lt hlt
  have := (Nat.pow_lt_pow_iff_right (by decide)).1 hpow
  omega

/-- A row of limbs has the leading zeros of its upper limb, whatever `low` is
below it. -/
theorem normalised_above {hi low zeros width : Nat} (hz : zeros ≤ 63)
    (hmin : 2 ^ 63 ≤ hi * 2 ^ zeros) (hmax : hi * 2 ^ zeros < 2 ^ 64) (hlow : low < 2 ^ width) :
    2 ^ (63 + width) ≤ (hi * 2 ^ width + low) * 2 ^ zeros ∧
      (hi * 2 ^ width + low) * 2 ^ zeros < 2 ^ (64 + width) := by
  have hsplit : 2 ^ 64 = 2 ^ (64 - zeros) * 2 ^ zeros := by
    rw [← Nat.pow_add, Nat.sub_add_cancel (by omega)]
  have hhi : hi + 1 ≤ 2 ^ (64 - zeros) := by
    rw [hsplit] at hmax
    exact Nat.lt_of_mul_lt_mul_right hmax
  constructor
  · calc 2 ^ (63 + width) = 2 ^ 63 * 2 ^ width := Nat.pow_add 2 63 width
      _ ≤ hi * 2 ^ zeros * 2 ^ width := Nat.mul_le_mul_right _ hmin
      _ = hi * 2 ^ width * 2 ^ zeros := Nat.mul_right_comm _ _ _
      _ ≤ (hi * 2 ^ width + low) * 2 ^ zeros := Nat.mul_le_mul_right _ (Nat.le_add_right _ _)
  · calc (hi * 2 ^ width + low) * 2 ^ zeros
        < (hi * 2 ^ width + 2 ^ width) * 2 ^ zeros :=
          Nat.mul_lt_mul_of_pos_right (Nat.add_lt_add_left hlow _) (Nat.two_pow_pos zeros)
      _ = (hi + 1) * 2 ^ zeros * 2 ^ width := by
          rw [← Nat.succ_mul, Nat.mul_right_comm]
      _ ≤ 2 ^ (64 - zeros) * 2 ^ zeros * 2 ^ width :=
          Nat.mul_le_mul_right _ (Nat.mul_le_mul_right _ hhi)
      _ = 2 ^ (64 + width) := by rw [← hsplit, ← Nat.pow_add]

end Limb

/-! ## Two limbs -/

namespace Word128

theorem toNat_eq (x : Word128) : x.toNat = x.hi.toNat * 2 ^ 64 + x.lo.toNat := rfl

theorem toNat_dropLimb (x : Word128) : x.dropLimb.toNat = jamShift x.toNat 64 := by
  have hhi := x.hi.toNat_lt
  have h := Limb.jam_limb x.hi.toNat x.lo x.hi (by omega)
  rw [toNat_eq, toNat_eq, ← h, dropLimb, UInt64.toNat_zero, Nat.div_eq_of_lt hhi]

theorem toNat_shiftRightBits (x : Word128) {count : Nat} (hc : count < 64) :
    (x.shiftRightBits count).toNat = jamShift x.toNat count := by
  rw [toNat_eq, toNat_eq, ← Limb.jam_pair x.hi.toNat x.lo _ hc
    (Limb.toNat_shiftRightInto x.hi x.lo hc), shiftRightBits, Limb.toNat_shiftRight _ hc]

/-- A jamming move right of a word is the jamming move of its number. -/
theorem toNat_shiftRightJam (x : Word128) (count : Nat) :
    (x.shiftRightJam count).toNat = jamShift x.toNat count := by
  rw [shiftRightJam]
  by_cases h64 : count < 64
  · rw [if_pos h64, toNat_shiftRightBits x h64]
  by_cases h128 : count < 128
  · rw [if_neg h64, if_pos h128, toNat_shiftRightBits _ (by omega), toNat_dropLimb,
      jamShift_jamShift, Nat.add_sub_cancel' (by omega)]
  · have hlt : x.toNat < 2 ^ 128 := x.toNat_lt
    have hle : 2 ^ 128 ≤ 2 ^ count := Nat.pow_le_pow_right (by decide) (by omega)
    rw [if_neg h64, if_neg h128, toNat_dropLimb, toNat_dropLimb, jamShift_jamShift,
      jamShift_of_lt (Nat.lt_of_lt_of_le hlt hle), jamShift_of_lt hlt]

theorem toNat_shiftLeftBits (x : Word128) {count : Nat} (hc : count < 64) :
    (x.shiftLeftBits count).toNat = x.toNat * 2 ^ count % 2 ^ 128 := by
  have hlo : x.lo.toNat * 2 ^ count % 2 ^ 64 = x.toNat * 2 ^ count % 2 ^ 64 := by
    rw [toNat_eq, Nat.add_mul, Nat.mul_right_comm, Nat.mul_add_mod']
  rw [toNat_eq (x.shiftLeftBits count), shiftLeftBits, Limb.toNat_shiftLeftInto _ _ hc,
    Limb.toNat_shiftLeft _ hc, hlo, ← toNat_eq]
  omega

theorem toNat_shiftLeft (x : Word128) (count : Nat) :
    (x.shiftLeft count).toNat = x.toNat * 2 ^ count % 2 ^ 128 := by
  rw [shiftLeft]
  by_cases h64 : count < 64
  · rw [if_pos h64, toNat_shiftLeftBits x h64]
  by_cases h128 : count < 128
  · have hpow : 2 ^ count = 2 ^ 64 * 2 ^ (count - 64) := by
      rw [← Nat.pow_add, Nat.add_sub_cancel' (by omega)]
    have hdrop : x.toNat * (2 ^ 64 * 2 ^ (count - 64)) =
        2 ^ 128 * (x.hi.toNat * 2 ^ (count - 64)) + x.lo.toNat * 2 ^ 64 * 2 ^ (count - 64) := by
      rw [toNat_eq]
      ring
    rw [if_neg h64, if_pos h128, toNat_shiftLeftBits _ (by omega), hpow, hdrop, Nat.mul_add_mod,
      toNat_eq, UInt64.toNat_zero, Nat.add_zero]
  · have hdvd : 2 ^ 128 ∣ x.toNat * 2 ^ count :=
      Nat.dvd_mul_left_of_dvd (Nat.pow_dvd_pow 2 (by omega)) _
    rw [if_neg h64, if_neg h128, Nat.mod_eq_zero_of_dvd hdvd]
    rfl

theorem leadingZeros_spec {x : Word128} (hx : x.toNat ≠ 0) :
    x.leadingZeros ≤ 127 ∧ 2 ^ 127 ≤ x.toNat * 2 ^ x.leadingZeros ∧
      x.toNat * 2 ^ x.leadingZeros < 2 ^ 128 := by
  rw [toNat_eq] at hx ⊢
  rw [leadingZeros]
  by_cases hhi : x.hi = 0
  · have hlo : x.lo ≠ 0 := by
      intro h
      rw [hhi, h] at hx
      exact hx rfl
    obtain ⟨hle, hlow, hhigh⟩ := Limb.leadingZeros_spec hlo
    rw [if_pos hhi, hhi, UInt64.toNat_zero, Nat.zero_mul, Nat.zero_add, Nat.pow_add,
      Nat.mul_left_comm]
    omega
  · obtain ⟨hle, hlow, hhigh⟩ := Limb.leadingZeros_spec hhi
    obtain ⟨hlow, hhigh⟩ := Limb.normalised_above hle hlow hhigh x.lo.toNat_lt
    rw [if_neg hhi]
    exact ⟨by omega, hlow, hhigh⟩

/-- A word moved left by its leading zeros keeps its number and has its topmost
bit set. -/
theorem toNat_shiftLeft_leadingZeros {x : Word128} (hx : x.toNat ≠ 0) :
    (x.shiftLeft x.leadingZeros).toNat = x.toNat * 2 ^ x.leadingZeros := by
  rw [toNat_shiftLeft, Nat.mod_eq_of_lt (leadingZeros_spec hx).2.2]

theorem leadingZeros_le_one {x : Word128} (hx : 2 ^ 126 ≤ x.toNat) : x.leadingZeros ≤ 1 :=
  Limb.places_le_one hx (leadingZeros_spec (by omega)).2.2

end Word128

/-! ## Three limbs -/

namespace Word192

theorem toNat_eq (x : Word192) :
    x.toNat = (x.hi.toNat * 2 ^ 64 + x.mid.toNat) * 2 ^ 64 + x.lo.toNat := rfl

/-- The lowest limb jammed into the two above it is a move by one limb. -/
theorem toNat_jamLow (x : Word192) : x.jamLow.toNat = jamShift x.toNat 64 := by
  have hmid := x.mid.toNat_lt
  have h := Limb.jam_limb (x.hi.toNat * 2 ^ 64 + x.mid.toNat) x.lo x.mid (by omega)
  have hhi : (x.hi.toNat * 2 ^ 64 + x.mid.toNat) / 2 ^ 64 = x.hi.toNat := by omega
  rw [hhi] at h
  exact h

theorem toNat_dropLimb (x : Word192) : x.dropLimb.toNat = jamShift x.toNat 64 := by
  rw [← toNat_jamLow, toNat_eq, dropLimb, UInt64.toNat_zero, Nat.zero_mul, Nat.zero_add]
  rfl

theorem toNat_shiftRightBits (x : Word192) {count : Nat} (hc : count < 64) :
    (x.shiftRightBits count).toNat = jamShift x.toNat count := by
  have hmid := x.mid.toNat_lt
  have hupper := Limb.div_add_mod_pair x.hi.toNat x.mid.toNat count hmid
  have hlow : (Limb.shiftRightInto x.mid x.lo count).toNat =
      ((x.hi.toNat * 2 ^ 64 + x.mid.toNat) * 2 ^ 64 + x.lo.toNat) / 2 ^ count % 2 ^ 64 := by
    rw [Limb.toNat_shiftRightInto _ _ hc, Nat.add_mul, Nat.add_assoc,
      Limb.mod_of_pair_above _ _ (Nat.le_of_lt hc)]
  rw [toNat_eq x, ← Limb.jam_pair _ x.lo _ hc hlow, ← hupper, toNat_eq, shiftRightBits,
    Limb.toNat_shiftRight _ hc, Limb.toNat_shiftRightInto _ _ hc]

theorem toNat_shiftRightJam (x : Word192) (count : Nat) :
    (x.shiftRightJam count).toNat = jamShift x.toNat count := by
  rw [shiftRightJam]
  by_cases h64 : count < 64
  · rw [if_pos h64, toNat_shiftRightBits x h64]
  by_cases h128 : count < 128
  · rw [if_neg h64, if_pos h128, toNat_shiftRightBits _ (by omega), toNat_dropLimb,
      jamShift_jamShift, Nat.add_sub_cancel' (by omega)]
  by_cases h192 : count < 192
  · rw [if_neg h64, if_neg h128, if_pos h192, toNat_shiftRightBits _ (by omega), toNat_dropLimb,
      toNat_dropLimb, jamShift_jamShift, jamShift_jamShift,
      show 64 + (64 + (count - 128)) = count by omega]
  · have hlt : x.toNat < 2 ^ 192 := x.toNat_lt
    have hle : 2 ^ 192 ≤ 2 ^ count := Nat.pow_le_pow_right (by decide) (by omega)
    rw [if_neg h64, if_neg h128, if_neg h192, toNat_dropLimb, toNat_dropLimb, toNat_dropLimb,
      jamShift_jamShift, jamShift_jamShift, jamShift_of_lt (Nat.lt_of_lt_of_le hlt hle),
      jamShift_of_lt hlt]

theorem toNat_shiftLeftBits (x : Word192) {count : Nat} (hc : count < 64) :
    (x.shiftLeftBits count).toNat = x.toNat * 2 ^ count % 2 ^ 192 := by
  have hlow : x.toNat * 2 ^ count % 2 ^ 64 = x.lo.toNat * 2 ^ count % 2 ^ 64 := by
    rw [toNat_eq, Nat.add_mul, Nat.mul_right_comm, Nat.mul_add_mod']
  have hmid : x.toNat * 2 ^ count / 2 ^ 64 % 2 ^ 64 =
      (x.mid.toNat * 2 ^ 64 + x.lo.toNat) * 2 ^ count / 2 ^ 64 % 2 ^ 64 := by
    have hsplit : x.toNat * 2 ^ count =
        2 ^ 64 * (x.hi.toNat * 2 ^ count * 2 ^ 64) +
          (x.mid.toNat * 2 ^ 64 + x.lo.toNat) * 2 ^ count := by
      rw [toNat_eq]
      ring
    rw [hsplit, Nat.mul_add_div (Nat.two_pow_pos 64), Nat.mul_add_mod']
  have hhigh : x.toNat * 2 ^ count / 2 ^ 64 / 2 ^ 64 =
      (x.hi.toNat * 2 ^ 64 + x.mid.toNat) * 2 ^ count / 2 ^ 64 := by
    rw [toNat_eq, Limb.mul_div_pair _ x.lo.toNat_lt (Nat.le_of_lt hc)]
  have hword : x.toNat * 2 ^ count % 2 ^ 192 =
      (x.toNat * 2 ^ count / 2 ^ 64 / 2 ^ 64 % 2 ^ 64 * 2 ^ 64 +
        x.toNat * 2 ^ count / 2 ^ 64 % 2 ^ 64) * 2 ^ 64 + x.toNat * 2 ^ count % 2 ^ 64 := by
    rw [show (2 : Nat) ^ 192 = 2 ^ 64 * (2 ^ 64 * 2 ^ 64) by decide, Nat.mod_mul, Nat.mod_mul]
    ring
  rw [hword, hhigh, hmid, hlow, ← Limb.toNat_shiftLeft _ hc, ← Limb.toNat_shiftLeftInto _ _ hc,
    ← Limb.toNat_shiftLeftInto _ _ hc]
  rfl

theorem toNat_shiftLeft (x : Word192) (count : Nat) :
    (x.shiftLeft count).toNat = x.toNat * 2 ^ count % 2 ^ 192 := by
  rw [shiftLeft]
  by_cases h64 : count < 64
  · rw [if_pos h64, toNat_shiftLeftBits x h64]
  by_cases h128 : count < 128
  · have hpow : 2 ^ count = 2 ^ 64 * 2 ^ (count - 64) := by
      rw [← Nat.pow_add, Nat.add_sub_cancel' (by omega)]
    have hdrop : x.toNat * (2 ^ 64 * 2 ^ (count - 64)) =
        2 ^ 192 * (x.hi.toNat * 2 ^ (count - 64)) +
          (x.mid.toNat * 2 ^ 64 + x.lo.toNat) * 2 ^ 64 * 2 ^ (count - 64) := by
      rw [toNat_eq]
      ring
    rw [if_neg h64, if_pos h128, toNat_shiftLeftBits _ (by omega), hpow, hdrop, Nat.mul_add_mod,
      toNat_eq, UInt64.toNat_zero, Nat.add_zero]
  by_cases h192 : count < 192
  · have hpow : 2 ^ count = 2 ^ 128 * 2 ^ (count - 128) := by
      rw [← Nat.pow_add, Nat.add_sub_cancel' (by omega)]
    have hdrop : x.toNat * (2 ^ 128 * 2 ^ (count - 128)) =
        2 ^ 192 * ((x.hi.toNat * 2 ^ 64 + x.mid.toNat) * 2 ^ (count - 128)) +
          x.lo.toNat * 2 ^ 64 * 2 ^ 64 * 2 ^ (count - 128) := by
      rw [toNat_eq]
      ring
    rw [if_neg h64, if_neg h128, if_pos h192, toNat_shiftLeftBits _ (by omega), hpow, hdrop,
      Nat.mul_add_mod, toNat_eq, UInt64.toNat_zero, Nat.add_zero, Nat.add_zero]
  · have hdvd : 2 ^ 192 ∣ x.toNat * 2 ^ count :=
      Nat.dvd_mul_left_of_dvd (Nat.pow_dvd_pow 2 (by omega)) _
    rw [if_neg h64, if_neg h128, if_neg h192, Nat.mod_eq_zero_of_dvd hdvd]
    rfl

theorem leadingZeros_spec {x : Word192} (hx : x.toNat ≠ 0) :
    x.leadingZeros ≤ 191 ∧ 2 ^ 191 ≤ x.toNat * 2 ^ x.leadingZeros ∧
      x.toNat * 2 ^ x.leadingZeros < 2 ^ 192 := by
  have hnum : x.toNat = x.hi.toNat * 2 ^ 128 + (Word128.mk x.mid x.lo).toNat := by
    rw [toNat_eq, Word128.toNat_eq]
    ring
  rw [hnum] at hx ⊢
  rw [leadingZeros]
  by_cases hhi : x.hi = 0
  · rw [hhi, UInt64.toNat_zero, Nat.zero_mul, Nat.zero_add] at hx
    obtain ⟨hle, hlow, hhigh⟩ := Word128.leadingZeros_spec hx
    rw [if_pos hhi, hhi, UInt64.toNat_zero, Nat.zero_mul, Nat.zero_add, Nat.pow_add,
      Nat.mul_left_comm]
    omega
  · obtain ⟨hle, hlow, hhigh⟩ := Limb.leadingZeros_spec hhi
    obtain ⟨hlow, hhigh⟩ := Limb.normalised_above hle hlow hhigh
      (show (Word128.mk x.mid x.lo).toNat < 2 ^ 128 from Word128.toNat_lt _)
    rw [if_neg hhi]
    exact ⟨by omega, hlow, hhigh⟩

theorem toNat_shiftLeft_leadingZeros {x : Word192} (hx : x.toNat ≠ 0) :
    (x.shiftLeft x.leadingZeros).toNat = x.toNat * 2 ^ x.leadingZeros := by
  rw [toNat_shiftLeft, Nat.mod_eq_of_lt (leadingZeros_spec hx).2.2]

theorem leadingZeros_le_one {x : Word192} (hx : 2 ^ 190 ≤ x.toNat) : x.leadingZeros ≤ 1 :=
  Limb.places_le_one hx (leadingZeros_spec (by omega)).2.2

end Word192
end CrossFloat
