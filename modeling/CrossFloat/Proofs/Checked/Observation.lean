/-
Observations of a well-formed value stay in range.

An order and a whole part only shift where the exponent allows it.  In a text the
zero digits at the end of the fraction are counted by its lowest bit, and there
are fewer of them than digits, unless the fraction is zero.
-/
import CrossFloat.Checked.Observation
import CrossFloat.Proofs.Checked.Arithmetic
import Mathlib.NumberTheory.Padics.PadicVal.Basic

namespace CrossFloat

open Checked

/-! ## Order -/

namespace Magnitude

variable {x y : Magnitude}

theorem compareChecked_eq (hx : x.WellFormed) (hy : y.WellFormed) :
    x.compareChecked y = pure (x.compare y) := by
  cases x with
  | zero | infinite | nan => rfl
  | finite =>
    cases y with
    | zero | infinite | nan => rfl
    | finite =>
      rw [compareChecked, compareFiniteChecked, hx.isOperand.normalisedChecked_eq, pure_bind]
      dsimp only
      rw [hy.isOperand.normalisedChecked_eq, pure_bind]
      rfl

end Magnitude

theorem Value.compareChecked_eq {x y : Value} (hx : x.WellFormed) (hy : y.WellFormed) :
    x.compareChecked y = pure (x.compare y) := by
  have horder := Magnitude.compareChecked_eq (wellFormed_iff.1 hx) (wellFormed_iff.1 hy)
  rw [compareChecked, compare]
  split
  · rfl
  · rw [horder]
    cases x.isBelowZero <;> cases y.isBelowZero <;> rfl

/-! ## Integers -/

namespace Value

theorem wholePartChecked_eq (exponent : ℤ) (significand : UInt64) :
    wholePartChecked exponent significand = pure (wholePart exponent significand) := by
  have hlt := significand.toNat_lt
  rw [wholePartChecked, wholePart]
  split
  · rfl
  split
  · rw [i64_eq (by omega) (by omega), pure_bind,
      shiftRight_eq significand (n := (63 - exponent).toNat) (by omega) (by omega), pure_bind,
      Limb.toNat_shiftRight _ (by omega), Nat.shiftRight_eq_div_pow]
  split
  · have hplaces : (exponent - 63).toNat ≤ 64 := by omega
    have hwide : significand.toNat * 2 ^ (exponent - 63).toNat < 2 ^ 128 :=
      calc significand.toNat * 2 ^ (exponent - 63).toNat
          < 2 ^ 64 * 2 ^ (exponent - 63).toNat :=
            Nat.mul_lt_mul_of_pos_right hlt (Nat.two_pow_pos _)
        _ ≤ 2 ^ 64 * 2 ^ 64 := Nat.mul_le_mul_left _ (Nat.pow_le_pow_right (by decide) hplaces)
    rw [i64_eq (by omega) (by omega), pure_bind,
      wideShiftLeft_eq (n := (exponent - 63).toNat) (by omega) (by omega) hwide]
  · rfl

theorem truncateChecked_eq {x : Value} (hx : x.WellFormed) :
    x.truncateChecked = pure x.truncate := by
  have hm := wellFormed_iff.1 hx
  obtain ⟨sign, flags, magnitude⟩ := x
  cases magnitude with
  | zero | infinite | nan => rfl
  | finite range exponent significand =>
    simp only [truncateChecked, hm.isOperand.normalisedChecked_eq, wholePartChecked_eq, pure_bind]
    rfl

theorem toIntegerReportingChecked_eq {x : Value} (hx : x.WellFormed) (t : IntegerType) :
    x.toIntegerReportingChecked t = pure (x.toIntegerReporting t) := by
  rw [toIntegerReportingChecked, truncateChecked_eq hx, pure_bind, toIntegerReporting, toInteger]
  cases x.truncate with
  | error e => rfl
  | ok n =>
    dsimp only
    cases t.holds n <;> rfl

end Value

/-! ## Text -/

namespace Digits

/-- The lowest digits of a multiple of a power of the base are zeros. -/
theorem fixed_mul_pow (width m count : ℕ) :
    fixed 16 (width + count) (m * 16 ^ count) = fixed 16 width m ++ List.replicate count '0' := by
  induction count with
  | zero => simp
  | succ count ih =>
    have hdiv : m * 16 ^ (count + 1) / 16 = m * 16 ^ count := by
      rw [pow_succ, ← mul_assoc, Nat.mul_div_cancel _ (by decide)]
    have hmod : m * 16 ^ (count + 1) % 16 = 0 := by
      rw [pow_succ, ← mul_assoc, Nat.mul_mod_left]
    rw [← Nat.add_assoc, fixed, hdiv, hmod, ih, List.replicate_succ', List.append_assoc]
    rfl

theorem dropTrailingZeros_append (digits : List Char) (count : ℕ) :
    dropTrailingZeros (digits ++ List.replicate count '0') = dropTrailingZeros digits := by
  induction count with
  | zero => simp
  | succ count ih =>
    have hlast (l : List Char) : dropTrailingZeros (l ++ ['0']) = dropTrailingZeros l := by
      simp [dropTrailingZeros]
    rw [List.replicate_succ', ← List.append_assoc, hlast, ih]

/-- Above the zeros at the end there are all the digits of a number that does not
end in a zero. -/
theorem dropTrailingZeros_fixed {m width : ℕ} (hm : m % 16 ≠ 0) (hwidth : 0 < width)
    (count : ℕ) :
    dropTrailingZeros (fixed 16 (width + count) (m * 16 ^ count)) = fixed 16 width m := by
  have hlast : Nat.digitChar (m % 16) ≠ '0' := mt Nat.digitChar_eq_zero.1 hm
  rw [fixed_mul_pow, dropTrailingZeros_append]
  cases width with
  | zero => exact absurd hwidth (Nat.lt_irrefl 0)
  | succ width => simp [dropTrailingZeros, fixed, hlast]

theorem dropTrailingZeros_fixed_zero (width : ℕ) : dropTrailingZeros (fixed 16 width 0) = [] := by
  have hzeros := fixed_mul_pow 0 0 width
  rw [Nat.zero_mul, Nat.zero_add] at hzeros
  rw [hzeros, dropTrailingZeros_append]
  rfl

end Digits

/-- A fraction that is not zero is a number times the power of 16 that its
trailing zeros make up, and the number has a lowest digit. -/
theorem Limb.trailingZeros_spec {x : UInt64} (hx : x ≠ 0) :
    trailingZeros x / 4 < 16 ∧
      x.toNat = x.toNat / 2 ^ (4 * (trailingZeros x / 4)) * 16 ^ (trailingZeros x / 4) ∧
      x.toNat / 2 ^ (4 * (trailingZeros x / 4)) % 16 ≠ 0 := by
  have hpos := toNat_pos hx
  have hlt := x.toNat_lt
  have hdvd {k : ℕ} : 2 ^ k ∣ x.toNat ↔ k ≤ trailingZeros x := by
    rw [trailingZeros, if_neg hx]
    exact padicValNat_dvd_iff_le hpos.ne'
  generalize trailingZeros x = zeros at *
  have hzeros : zeros < 64 :=
    (Nat.pow_lt_pow_iff_right (by decide)).1 ((Nat.le_of_dvd hpos (hdvd.2 le_rfl)).trans_lt hlt)
  have hdigits : 2 ^ (4 * (zeros / 4)) ∣ x.toNat := hdvd.2 (by omega)
  have hpow : (16 : ℕ) ^ (zeros / 4) = 2 ^ (4 * (zeros / 4)) := by rw [Nat.pow_mul]
  refine ⟨by omega, by rw [hpow, Nat.div_mul_cancel hdigits], fun hmod => ?_⟩
  have hmore : 2 ^ (4 * (zeros / 4) + 4) ∣ x.toNat := by
    rw [Nat.pow_add, ← Nat.dvd_div_iff_mul_dvd hdigits]
    exact Nat.dvd_of_mod_eq_zero hmod
  have hle := hdvd.1 hmore
  omega

namespace Magnitude

theorem finiteTextChecked_eq (exp : ℤ) (significand : UInt64) :
    finiteTextChecked exp significand = pure (finiteText exp significand) := by
  have hfraction : shiftLeft significand 1 = pure (significand <<< 1) :=
    shiftLeft_eq significand (n := 1) (by decide) rfl
  rw [finiteTextChecked, hfraction, pure_bind, finiteText]
  generalize significand <<< 1 = fraction
  by_cases hzero : fraction = 0
  · rw [if_pos hzero, hzero, UInt64.toNat_zero, Digits.dropTrailingZeros_fixed_zero]
    rfl
  · obtain ⟨hlt, hvalue, hdigit⟩ := Limb.trailingZeros_spec hzero
    rw [if_neg hzero]
    generalize Limb.trailingZeros fraction / 4 = trailing at *
    have hkept := Limb.toNat_shiftRight fraction (show 4 * trailing < 64 by omega)
    dsimp only
    rw [shiftRight_eq fraction (n := 4 * trailing) (by omega) rfl, pure_bind, hkept]
    generalize fraction.toNat / 2 ^ (4 * trailing) = kept at *
    have hdigits := Digits.dropTrailingZeros_fixed hdigit (show 0 < 16 - trailing by omega) trailing
    rw [Nat.sub_add_cancel hlt.le, ← hvalue] at hdigits
    have hsome : (Digits.fixed 16 (16 - trailing) kept).isEmpty = false := by
      rw [List.isEmpty_eq_false_iff, ← List.length_pos_iff, Digits.length_fixed]
      omega
    rw [hdigits, hsome]
    rfl

theorem textChecked_eq {m : Magnitude} (hm : m.WellFormed) : m.textChecked = pure m.text := by
  cases m with
  | zero | infinite | nan => rfl
  | finite =>
    rw [textChecked, hm.isOperand.normalisedChecked_eq, pure_bind]
    exact finiteTextChecked_eq _ _

end Magnitude

theorem Value.textChecked_eq {x : Value} (hx : x.WellFormed) : x.textChecked = pure x.text := by
  rw [textChecked, Magnitude.textChecked_eq (wellFormed_iff.1 hx), pure_bind]
  rfl

end CrossFloat
