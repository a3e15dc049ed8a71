/-
The numbers that the representations stand for.

A finite value, an intermediate result and a number at working precision each
denote a rational number.  Moving a significand left until its leading bit is in
place, with the exponent lowered by as much, does not change the number, and the
exponent then is the floor of its binary logarithm.
-/
import CrossFloat.Nonzero
import CrossFloat.Proofs.Limb.Word
import Mathlib.Algebra.Order.Floor.Semifield
import Mathlib.Data.Int.Log
import Mathlib.Data.Rat.Floor
import Mathlib.Tactic.FieldSimp
import Mathlib.Tactic.Linarith
import Mathlib.Tactic.Positivity

namespace CrossFloat

/-! ## Denotations -/

/-- The factor that a sign stands for. -/
def Sign.factor : Sign → ℚ
  | positive => 1
  | negative => -1

/-- The sign of a number that is not zero. -/
def Sign.ofRat (v : ℚ) : Sign :=
  .ofNegative (v < 0)

/-- The number that a finite magnitude stands for, and zero for the others. -/
def Magnitude.toRat : Magnitude → ℚ
  | finite _ exponent significand => significand.toNat * 2 ^ (exponent - 63)
  | _ => 0

/-- The number that a finite value stands for. -/
def Value.toRat (x : Value) : ℚ :=
  x.sign.factor * x.magnitude.toRat

/-- The magnitude of the number before its rounding. -/
def Intermediate.size (u : Intermediate) : ℚ :=
  u.sig.toNat * 2 ^ (u.exp - 127)

/-- The magnitude of a number at working precision. -/
def Nonzero.size (t : Nonzero) : ℚ :=
  t.mag.toNat * 2 ^ (t.exp - 127)

def Nonzero.toRat (t : Nonzero) : ℚ :=
  t.sign.factor * t.size

/-! ## Representations of numbers -/

/-- A zero, or a finite magnitude whose significand has a leading bit. -/
def Magnitude.IsNumber : Magnitude → Prop
  | zero => True
  | finite _ _ significand => significand ≠ 0
  | _ => False

/-- The value is finite, and only a zero has no leading bit. -/
def Value.IsNumber (x : Value) : Prop :=
  x.magnitude.IsNumber

instance : DecidablePred Magnitude.IsNumber
  | .zero => inferInstanceAs (Decidable True)
  | .finite _ _ significand => inferInstanceAs (Decidable (significand ≠ 0))
  | .infinite => inferInstanceAs (Decidable False)
  | .nan _ => inferInstanceAs (Decidable False)

instance : DecidablePred Value.IsNumber :=
  fun x => inferInstanceAs (Decidable x.magnitude.IsNumber)

/-- The magnitude has its leading bit in bit 127. -/
def Nonzero.Normalised (t : Nonzero) : Prop :=
  2 ^ 127 ≤ t.mag.toNat

/-! ## Signs -/

theorem Sign.factor_flip (s : Sign) : s.flip.factor = -s.factor := by
  cases s <;> simp [flip, factor]

theorem Sign.factor_of_ne {s t : Sign} (h : s ≠ t) : t.factor = -s.factor := by
  cases s <;> cases t <;> first | exact absurd rfl h | simp [factor]

theorem Sign.factor_times (s t : Sign) : (s.times t).factor = s.factor * t.factor := by
  cases s <;> cases t <;> simp [times, flip, factor]

theorem Sign.factor_div (s t : Sign) : s.factor / t.factor = (s.times t).factor := by
  cases s <;> cases t <;> simp [times, flip, factor]

theorem Sign.abs_factor_mul (s : Sign) (v : ℚ) : |s.factor * v| = |v| := by
  cases s <;> simp [factor]

theorem Sign.ofRat_factor_mul (s : Sign) {v : ℚ} (hv : 0 < v) : ofRat (s.factor * v) = s := by
  cases s
  · have h : ¬ factor positive * v < 0 := by
      rw [factor]
      linarith
    rw [ofRat, decide_eq_false h]
    rfl
  · have h : factor negative * v < 0 := by
      rw [factor]
      linarith
    rw [ofRat, decide_eq_true h]
    rfl

theorem Sign.factor_ofRat_mul_abs (v : ℚ) : (ofRat v).factor * |v| = v := by
  rw [ofRat, ofNegative]
  by_cases hneg : v < 0
  · rw [decide_eq_true hneg, if_pos rfl, factor, abs_of_neg hneg, neg_one_mul, neg_neg]
  · rw [decide_eq_false hneg, if_neg Bool.false_ne_true, factor, abs_of_nonneg (not_lt.1 hneg),
      one_mul]

/-! ## Powers of two -/

theorem two_zpow_pos (k : ℤ) : (0 : ℚ) < 2 ^ k := zpow_pos (by norm_num) k

theorem two_zpow_add (a b : ℤ) : (2 : ℚ) ^ (a + b) = 2 ^ a * 2 ^ b :=
  zpow_add₀ (by norm_num) a b

theorem two_zpow_natCast (n : ℕ) : (2 : ℚ) ^ (n : ℤ) = ((2 ^ n : ℕ) : ℚ) := by
  rw [zpow_natCast]
  push_cast
  rfl

theorem two_zpow_le_iff {a b : ℤ} : (2 : ℚ) ^ a ≤ 2 ^ b ↔ a ≤ b :=
  zpow_le_zpow_iff_right₀ (by norm_num)

theorem two_zpow_lt_iff {a b : ℤ} : (2 : ℚ) ^ a < 2 ^ b ↔ a < b :=
  zpow_lt_zpow_iff_right₀ (by norm_num)

theorem two_zpow_eq_natCast_mul {a b : ℤ} (h : a ≤ b) :
    (2 : ℚ) ^ b = ((2 ^ (b - a).toNat : ℕ) : ℚ) * 2 ^ a := by
  rw [← two_zpow_natCast, ← two_zpow_add]
  congr 1
  omega

theorem log_eq_of_bounds {v : ℚ} {k : ℤ} (hlow : 2 ^ k ≤ v) (hhigh : v < 2 ^ (k + 1)) :
    Int.log 2 v = k := by
  have hv : 0 < v := lt_of_lt_of_le (two_zpow_pos k) hlow
  have h₁ : k ≤ Int.log 2 v := (Int.zpow_le_iff_le_log (by norm_num) hv).1 (by exact_mod_cast hlow)
  have h₂ : Int.log 2 v < k + 1 :=
    (Int.lt_zpow_iff_log_lt (by norm_num) hv).1 (by exact_mod_cast hhigh)
  omega

theorem le_log_iff {v : ℚ} (hv : 0 < v) {k : ℤ} : k ≤ Int.log 2 v ↔ 2 ^ k ≤ v := by
  rw [← Int.zpow_le_iff_le_log (by norm_num) hv]
  push_cast
  rfl

theorem log_lt_iff {v : ℚ} (hv : 0 < v) {k : ℤ} : Int.log 2 v < k ↔ v < 2 ^ k := by
  rw [← Int.lt_zpow_iff_log_lt (by norm_num) hv]
  push_cast
  rfl

theorem two_zpow_log_le {v : ℚ} (hv : 0 < v) : 2 ^ Int.log 2 v ≤ v :=
  (le_log_iff hv).1 le_rfl

theorem lt_two_zpow_log {v : ℚ} (hv : 0 < v) : v < 2 ^ (Int.log 2 v + 1) :=
  (log_lt_iff hv).1 (by omega)

theorem Magnitude.toRat_nonneg (m : Magnitude) : 0 ≤ m.toRat := by
  cases m with
  | finite range exponent significand =>
    exact mul_nonneg (Nat.cast_nonneg _) (two_zpow_pos _).le
  | zero | infinite | nan => exact le_refl 0

/-- A significand of the leading bit alone. -/
theorem Magnitude.toRat_topBit (range : Range) (exponent : ℤ) :
    (finite range exponent 0x8000000000000000).toRat = 2 ^ exponent := by
  show ((2 ^ 63 : ℕ) : ℚ) * 2 ^ (exponent - 63) = 2 ^ exponent
  rw [← two_zpow_natCast, ← two_zpow_add]
  congr 1
  omega

theorem Magnitude.abs_factor_mul (m : Magnitude) (sign : Sign) :
    |sign.factor * m.toRat| = m.toRat := by
  rw [Sign.abs_factor_mul, abs_of_nonneg m.toRat_nonneg]

theorem Value.abs_toRat (x : Value) : |x.toRat| = x.magnitude.toRat :=
  x.magnitude.abs_factor_mul x.sign

/-! ## Normalisation -/

theorem toNat_alignLeft {s : UInt64} (hs : s ≠ 0) :
    (alignLeft s).toNat = s.toNat * 2 ^ Limb.leadingZeros s := by
  obtain ⟨hle, -, hlt⟩ := Limb.leadingZeros_spec hs
  rw [alignLeft, Limb.toNat_shiftLeft _ (by omega), Nat.mod_eq_of_lt hlt]

theorem le_toNat_alignLeft {s : UInt64} (hs : s ≠ 0) : 2 ^ 63 ≤ (alignLeft s).toNat := by
  rw [toNat_alignLeft hs]
  exact (Limb.leadingZeros_spec hs).2.1

/-- The aligned significand stands for the same number at the exponent of its
leading bit. -/
theorem alignLeft_mul_zpow {s : UInt64} (hs : s ≠ 0) (exponent : ℤ) :
    ((alignLeft s).toNat : ℚ) * 2 ^ (leadingExp exponent s - 63) =
      s.toNat * 2 ^ (exponent - 63) := by
  have hexp : exponent - 63 = Limb.leadingZeros s + (leadingExp exponent s - 63) := by
    rw [leadingExp]
    omega
  rw [toNat_alignLeft hs, hexp, two_zpow_add, zpow_natCast]
  push_cast
  ring

theorem high_mul_zpow (hi : UInt64) (exponent : ℤ) :
    ((Word128.mk hi 0).toNat : ℚ) * 2 ^ (exponent - 127) = hi.toNat * 2 ^ (exponent - 63) := by
  have hword : (Word128.mk hi 0).toNat = hi.toNat * 2 ^ 64 := Nat.add_zero _
  have hexp : exponent - 63 = (64 : ℕ) + (exponent - 127) := by omega
  rw [hword, hexp, two_zpow_add, two_zpow_natCast, Nat.cast_mul, mul_assoc]

/-- A count with its leading bit in bit `width` has the exponent of that bit as
its logarithm. -/
theorem log_natCast_mul_zpow {n width : ℕ} (hlow : 2 ^ width ≤ n) (hhigh : n < 2 ^ (width + 1))
    (exponent : ℤ) : Int.log 2 ((n : ℚ) * 2 ^ (exponent - width)) = exponent := by
  have hlow' : ((2 ^ width : ℕ) : ℚ) ≤ n := by exact_mod_cast hlow
  have hhigh' : (n : ℚ) < ((2 ^ (width + 1) : ℕ) : ℚ) := by exact_mod_cast hhigh
  have hpos := two_zpow_pos (exponent - width)
  rw [← two_zpow_natCast] at hlow' hhigh'
  apply log_eq_of_bounds
  · calc (2 : ℚ) ^ exponent = 2 ^ (width : ℤ) * 2 ^ (exponent - width) := by
          rw [← two_zpow_add, add_sub_cancel]
      _ ≤ _ := mul_le_mul_of_nonneg_right hlow' hpos.le
  · calc _ < (2 : ℚ) ^ ((width + 1 : ℕ) : ℤ) * 2 ^ (exponent - width) :=
          mul_lt_mul_of_pos_right hhigh' hpos
      _ = 2 ^ (exponent + 1) := by
          rw [← two_zpow_add]
          congr 1
          push_cast
          omega

theorem log_eq_leadingExp {s : UInt64} (hs : s ≠ 0) (exponent : ℤ) :
    Int.log 2 ((s.toNat : ℚ) * 2 ^ (exponent - 63)) = leadingExp exponent s := by
  rw [← alignLeft_mul_zpow hs]
  exact log_natCast_mul_zpow (le_toNat_alignLeft hs) (alignLeft s).toNat_lt _

/-- Whether a significand has its top bit tells on which side of `2^exponent` its
number is. -/
theorem lt_two_zpow_iff_toNat_lt (s : UInt64) (exponent : ℤ) :
    (s.toNat : ℚ) * 2 ^ (exponent - 63) < 2 ^ exponent ↔ s.toNat < 2 ^ 63 := by
  rw [two_zpow_eq_natCast_mul (show exponent - 63 ≤ exponent by omega),
    mul_lt_mul_iff_left₀ (two_zpow_pos _), Nat.cast_lt,
    show exponent - (exponent - 63) = 63 by omega]
  rfl

theorem lt_two_zpow_succ (s : UInt64) (exponent : ℤ) :
    (s.toNat : ℚ) * 2 ^ (exponent - 63) < 2 ^ (exponent + 1) := by
  rw [two_zpow_eq_natCast_mul (show exponent - 63 ≤ exponent + 1 by omega),
    mul_lt_mul_iff_left₀ (two_zpow_pos _), Nat.cast_lt,
    show exponent + 1 - (exponent - 63) = 64 by omega]
  exact s.toNat_lt

end CrossFloat
