/-
The arithmetic at working precision is exact up to a jammed bit.

A number at working precision holds a rational number when its magnitude is that
number rounded to odd at the lowest of its 128 bits.  The precision of a format
is at most half of that, so rounding the number into a format rounds the
rational number correctly.

Operands and products are held exactly.  A quotient keeps 127 bits or 128, and
what remains of the division is jammed into them.
-/
import CrossFloat.Proofs.Limb.Division
import CrossFloat.Proofs.Limb.Product
import CrossFloat.Proofs.Rounding.Settle
import Mathlib.Tactic.LinearCombination

namespace CrossFloat

namespace Nonzero

/-! ## Numbers held up to a jammed bit -/

/-- The number stands for `v`, except that its lowest bit may be a jammed one. -/
structure Holds (t : Nonzero) (v : ℚ) : Prop where
  sign_mul : t.sign.factor * |v| = v
  normalised : t.Normalised
  jammed : t.mag.toNat = roundOdd (|v| / 2 ^ (t.exp - 127))

theorem Normalised.size_pos {t : Nonzero} (h : t.Normalised) : 0 < t.size :=
  Intermediate.Normalised.size_pos (u := t.intermediate ∅) h

theorem Normalised.log_size {t : Nonzero} (h : t.Normalised) : Int.log 2 t.size = t.exp :=
  Intermediate.Normalised.log_size (u := t.intermediate ∅) h

theorem Normalised.holds {t : Nonzero} (h : t.Normalised) : t.Holds t.toRat := by
  have habs : |t.toRat| = t.size := by
    rw [toRat, Sign.abs_factor_mul, abs_of_pos h.size_pos]
  refine ⟨by rw [habs]; rfl, h, ?_⟩
  rw [habs, size, mul_div_cancel_right₀ _ (two_zpow_pos _).ne', roundOdd_natCast]

theorem Holds.of_size {t : Nonzero} {v : ℚ} (hv : 0 ≤ v) (hnormalised : t.Normalised)
    (hjam : t.mag.toNat = roundOdd (v / 2 ^ (t.exp - 127))) : t.Holds (t.sign.factor * v) := by
  have habs : |t.sign.factor * v| = v := by rw [Sign.abs_factor_mul, abs_of_nonneg hv]
  exact ⟨by rw [habs], hnormalised, by rw [habs, hjam]⟩

theorem Holds.ne_zero {t : Nonzero} {v : ℚ} (h : t.Holds v) : v ≠ 0 := by
  rintro rfl
  have hle := h.normalised
  rw [Normalised, h.jammed, abs_zero, zero_div, (roundOdd_eq_zero_iff le_rfl).2 rfl] at hle
  exact absurd hle (by decide)

theorem Holds.sign_eq {t : Nonzero} {v : ℚ} (h : t.Holds v) : t.sign = Sign.ofRat v := by
  have hpos : 0 < |v| := abs_pos.2 h.ne_zero
  rw [← Sign.ofRat_factor_mul t.sign hpos, h.sign_mul]

/-- A rounding into a format does not see what was jammed. -/
theorem Holds.round_eq {t : Nonzero} {v : ℚ} (h : t.Holds v) (flags : Flags) (c : Context) :
    (t.intermediate flags).round c = c.roundRat (Sign.ofRat v) |v| flags := by
  have hprecision := c.format.precision_le
  have hbits : 2 ^ (c.format.precision + 1) ≤ roundOdd (|v| / 2 ^ (t.exp - 127)) := by
    rw [← h.jammed]
    exact (Nat.pow_le_pow_right (by decide) (by omega)).trans h.normalised
  rw [Intermediate.round_eq_roundRat, roundRat_of_roundOdd c _ flags (abs_pos.2 h.ne_zero) hbits,
    ← h.jammed, ← h.sign_eq]
  rfl

/-! ## Operands and products -/

theorem ofFinite_normalised (sign : Sign) (exponent : ℤ) {significand : UInt64}
    (hs : significand ≠ 0) : (ofFinite sign exponent significand).Normalised := by
  have hle := le_toNat_alignLeft hs
  show 2 ^ 127 ≤ (alignLeft significand).toNat * 2 ^ 64 + 0
  omega

theorem toRat_ofFinite (sign : Sign) (exponent : ℤ) {significand : UInt64}
    (hs : significand ≠ 0) :
    (ofFinite sign exponent significand).toRat =
      sign.factor * (significand.toNat * 2 ^ (exponent - 63)) := by
  rw [← alignLeft_mul_zpow hs, ← high_mul_zpow]
  rfl

section Product

variable (sign₁ : Sign) (exponent₁ : ℤ) {significand₁ : UInt64}
variable (sign₂ : Sign) (exponent₂ : ℤ) {significand₂ : UInt64}

theorem toNat_alignLeft_mul_pos (h₁ : significand₁ ≠ 0) (h₂ : significand₂ ≠ 0) :
    (Word128.ofProduct (alignLeft significand₁) (alignLeft significand₂)).toNat ≠ 0 := by
  have hle₁ := le_toNat_alignLeft h₁
  have hle₂ := le_toNat_alignLeft h₂
  rw [Word128.toNat_ofProduct]
  exact Nat.mul_ne_zero (by omega) (by omega)

theorem ofProduct_normalised (h₁ : significand₁ ≠ 0) (h₂ : significand₂ ≠ 0) :
    (ofProduct sign₁ exponent₁ significand₁ sign₂ exponent₂ significand₂).Normalised := by
  have hne := toNat_alignLeft_mul_pos h₁ h₂
  rw [Normalised, ofProduct, Word128.toNat_shiftLeft_leadingZeros hne]
  exact (Word128.leadingZeros_spec hne).2.1

/-- The product of two operands is exact. -/
theorem toRat_ofProduct (h₁ : significand₁ ≠ 0) (h₂ : significand₂ ≠ 0) :
    (ofProduct sign₁ exponent₁ significand₁ sign₂ exponent₂ significand₂).toRat =
      sign₁.factor * (significand₁.toNat * 2 ^ (exponent₁ - 63)) *
        (sign₂.factor * (significand₂.toNat * 2 ^ (exponent₂ - 63))) := by
  have hmag := Word128.toNat_shiftLeft_leadingZeros (toNat_alignLeft_mul_pos h₁ h₂)
  rw [← alignLeft_mul_zpow h₁, ← alignLeft_mul_zpow h₂, toRat, size, ofProduct, hmag,
    Word128.toNat_ofProduct, Sign.factor_times]
  generalize (Word128.ofProduct (alignLeft significand₁) (alignLeft significand₂)).leadingZeros =
    places
  generalize leadingExp exponent₁ significand₁ = exp₁
  generalize leadingExp exponent₂ significand₂ = exp₂
  have hpow : (2 : ℚ) ^ places * 2 ^ (exp₁ + exp₂ + 1 - places - 127) =
      2 ^ (exp₁ - 63) * 2 ^ (exp₂ - 63) := by
    rw [← zpow_natCast, ← two_zpow_add, ← two_zpow_add]
    congr 1
    omega
  push_cast
  linear_combination (sign₁.factor * sign₂.factor * (alignLeft significand₁).toNat *
    (alignLeft significand₂).toNat) * hpow

end Product

/-! ## Quotients -/

theorem toNat_jam_lo (x : Word128) (lost : Bool) :
    (Word128.mk x.hi (Limb.jam x.lo lost)).toNat =
      if lost then x.toNat / 2 * 2 + 1 else x.toNat := by
  show x.hi.toNat * 2 ^ 64 + (Limb.jam x.lo lost).toNat = _
  rw [Word128.toNat_eq, Limb.toNat_jam]
  split
  · omega
  · rfl

section Quotient

variable {n d : Nonzero}

/-- The significand of a quotient is the exact one rounded to odd. -/
theorem toNat_quotient_sig (hd : d.Normalised) (flags : Flags) :
    (n.quotient d flags).sig.toNat =
      roundOdd (((n.mag.toNat * 2 ^ 127 : ℕ) : ℚ) / d.mag.toNat) := by
  have hpos : 0 < d.mag.toNat := lt_of_lt_of_le (by decide) hd
  obtain ⟨hbits, hrest⟩ := Word128.divide_eq (n := n.mag) hd
  rw [roundOdd_natCast_div _ hpos, quotient, toNat_jam_lo, hbits]
  by_cases hexact : n.mag.toNat * 2 ^ 127 % d.mag.toNat = 0
  · rw [if_pos hexact, if_neg (fun h => hrest.1 h hexact)]
  · rw [if_neg hexact, if_pos (hrest.2 hexact)]

theorem size_div_size (n d : Nonzero) :
    n.size / d.size / 2 ^ (n.exp - d.exp - 127) =
      ((n.mag.toNat * 2 ^ 127 : ℕ) : ℚ) / d.mag.toNat := by
  have hsplit : n.exp - 127 = 127 + (d.exp - 127) + (n.exp - d.exp - 127) := by omega
  have hpow : (2 : ℚ) ^ (127 : ℤ) = 2 ^ 127 := zpow_ofNat 2 127
  have hpos := two_zpow_pos (d.exp - 127)
  have hpos' := two_zpow_pos (n.exp - d.exp - 127)
  rw [size, size, hsplit, two_zpow_add, two_zpow_add, hpow, Nat.cast_mul, Nat.cast_pow,
    Nat.cast_ofNat]
  field_simp

theorem toRat_div_toRat (n d : Nonzero) :
    n.toRat / d.toRat = (n.sign.times d.sign).factor * (n.size / d.size) := by
  rw [toRat, toRat, mul_div_mul_comm, Sign.factor_div]

/-- The quotient of two numbers is rounded as the exact one. -/
theorem round_quotient (hn : n.Normalised) (hd : d.Normalised) (flags : Flags) (c : Context) :
    (n.quotient d flags).round c =
      c.roundRat (Sign.ofRat (n.toRat / d.toRat)) |n.toRat / d.toRat| flags := by
  have hprecision := c.format.precision_le
  have hpos : 0 < n.size / d.size := div_pos hn.size_pos hd.size_pos
  have hjam := toNat_quotient_sig (n := n) hd flags
  rw [← size_div_size] at hjam
  have hbits : 2 ^ 126 ≤ roundOdd (n.size / d.size / 2 ^ (n.exp - d.exp - 127)) := by
    have hmag : (0 : ℚ) < d.mag.toNat := by
      exact_mod_cast lt_of_lt_of_le (by decide : 0 < 2 ^ 127) hd
    have hmul : 2 ^ 126 * d.mag.toNat ≤ n.mag.toNat * 2 ^ 127 := by
      have hlt : d.mag.toNat < 2 ^ 128 := d.mag.toNat_lt
      rw [Normalised] at hn
      omega
    have hmul' : ((2 ^ 126 : ℕ) : ℚ) * d.mag.toNat ≤ ((n.mag.toNat * 2 ^ 127 : ℕ) : ℚ) := by
      exact_mod_cast hmul
    rw [le_roundOdd_iff (div_nonneg hpos.le (two_zpow_pos _).le) (by decide), size_div_size,
      le_div_iff₀ hmag]
    exact hmul'
  have hround := roundRat_of_roundOdd c (n.sign.times d.sign) flags hpos
    ((Nat.pow_le_pow_right (by decide) (by omega)).trans hbits)
  rw [← hjam] at hround
  have habs : |n.toRat / d.toRat| = n.size / d.size := by
    rw [toRat_div_toRat, Sign.abs_factor_mul, abs_of_pos hpos]
  rw [habs, toRat_div_toRat, Sign.ofRat_factor_mul _ hpos, hround,
    Intermediate.round_eq_roundRat]
  rfl

end Quotient

end Nonzero
end CrossFloat
