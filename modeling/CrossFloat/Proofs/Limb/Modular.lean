/-
Words calculate as the numbers they stand for.

A sum, a difference and a move left are those of the numbers modulo the width of the word.
What does not fit is reported: a sum carries exactly when it is too large, and a difference
borrows exactly when it is negative.  Both are read off one equation, in which the carry or
the borrow weighs as much as the width.

The product of two limbs fills two limbs and is exact.  No sum of its columns leaves a limb,
so the checked product is the same.  Three limbs hold the difference of two quantities of 128
bits with its sign in the topmost bit.
-/
import CrossFloat.Proofs.Checked.Limb
import CrossFloat.Proofs.Limb.Division
import Mathlib.Data.Nat.Size

namespace CrossFloat

/-! ## Carries, borrows and leading zeros of numbers -/

theorem mod_and_carry_iff {n sum x y : ℕ} {carry : Bool} (hsum : sum < n)
    (h : sum + carry.toNat * n = x + y) :
    sum = (x + y) % n ∧ (carry = true ↔ n ≤ x + y) := by
  cases carry with
  | false =>
    rw [Bool.toNat_false, Nat.zero_mul, Nat.add_zero] at h
    rw [← h, Nat.mod_eq_of_lt hsum]
    exact ⟨rfl, iff_of_false Bool.false_ne_true (Nat.not_le.2 hsum)⟩
  | true =>
    rw [Bool.toNat_true, Nat.one_mul] at h
    rw [← h, Nat.add_mod_right, Nat.mod_eq_of_lt hsum]
    exact ⟨rfl, iff_of_true rfl (Nat.le_add_left n sum)⟩

theorem emod_and_borrow_iff {n difference x y : ℕ} {borrow : Bool} (hdifference : difference < n)
    (h : difference + y = x + borrow.toNat * n) :
    (difference : ℤ) = ((x : ℤ) - y) % n ∧ (borrow = true ↔ (x : ℤ) - y < 0) := by
  cases borrow with
  | false =>
    rw [Bool.toNat_false, Nat.zero_mul, Nat.add_zero] at h
    have hexact : (x : ℤ) - y = difference := by omega
    rw [hexact, Int.emod_eq_of_lt (Int.natCast_nonneg _) (by omega)]
    exact ⟨rfl, iff_of_false Bool.false_ne_true (by omega)⟩
  | true =>
    rw [Bool.toNat_true, Nat.one_mul] at h
    have hexact : (x : ℤ) - y = difference - n := by omega
    rw [hexact, Int.sub_emod_right, Int.emod_eq_of_lt (Int.natCast_nonneg _) (by omega)]
    exact ⟨rfl, iff_of_true rfl (by omega)⟩

/-- The places by which a number is short of its width, from where its leading bit comes to
stand. -/
theorem places_eq_sub_size {n places width : ℕ} (hle : places ≤ width)
    (hmin : 2 ^ width ≤ n * 2 ^ places) (hmax : n * 2 ^ places < 2 ^ (width + 1)) :
    places = width + 1 - n.size := by
  have hsplitMin : 2 ^ width = 2 ^ (width - places) * 2 ^ places := by
    rw [← Nat.pow_add, Nat.sub_add_cancel hle]
  have hsplitMax : 2 ^ (width + 1) = 2 ^ (width + 1 - places) * 2 ^ places := by
    rw [← Nat.pow_add, Nat.sub_add_cancel (by omega)]
  rw [hsplitMin] at hmin
  rw [hsplitMax] at hmax
  have hlow : width - places < n.size :=
    Nat.lt_size.2 (Nat.le_of_mul_le_mul_right hmin (Nat.two_pow_pos places))
  have hhigh : n.size ≤ width + 1 - places := Nat.size_le.2 (Nat.lt_of_mul_lt_mul_right hmax)
  omega

/-! ## Words -/

/-- The words stand for one number below `2 ^ width` each, and calculate as these numbers do
modulo `2 ^ width`.  The checked move left finds its shift counts in range. -/
structure CalculatesModulo {α : Type} (width : ℕ) (toNat : α → ℕ) (add sub : α → α → α × Bool)
    (shiftLeft : α → ℕ → α) (shiftLeftChecked : α → ℕ → Checked α) : Prop where
  toNat_lt (x : α) : toNat x < 2 ^ width
  injective : Function.Injective toNat
  sum (x y : α) : toNat (add x y).1 = (toNat x + toNat y) % 2 ^ width
  carry_iff (x y : α) : (add x y).2 = true ↔ 2 ^ width ≤ toNat x + toNat y
  difference (x y : α) : (toNat (sub x y).1 : ℤ) = ((toNat x : ℤ) - toNat y) % 2 ^ width
  borrow_iff (x y : α) : (sub x y).2 = true ↔ (toNat x : ℤ) - toNat y < 0
  moved {count : ℕ} (h : count < width) (x : α) :
    toNat (shiftLeft x count) = toNat x * 2 ^ count % 2 ^ width
  checked {count : ℕ} (h : count < width) (x : α) :
    shiftLeftChecked x count = pure (shiftLeft x count)

namespace CalculatesModulo

variable {α : Type} {width : ℕ} {toNat : α → ℕ} {add sub : α → α → α × Bool}
  {shiftLeft : α → ℕ → α} {shiftLeftChecked : α → ℕ → Checked α}

/-- One equation for the sum and one for the difference are enough. -/
theorem of_equations (hlt : ∀ x, toNat x < 2 ^ width) (hinjective : Function.Injective toNat)
    (hadd : ∀ x y, toNat (add x y).1 + (add x y).2.toNat * 2 ^ width = toNat x + toNat y)
    (hsub : ∀ x y, toNat (sub x y).1 + toNat y = toNat x + (sub x y).2.toNat * 2 ^ width)
    (hmoved : ∀ x count, toNat (shiftLeft x count) = toNat x * 2 ^ count % 2 ^ width)
    (hchecked : ∀ x {count}, count < width → shiftLeftChecked x count = pure (shiftLeft x count)) :
    CalculatesModulo width toNat add sub shiftLeft shiftLeftChecked where
  toNat_lt := hlt
  injective := hinjective
  sum x y := (mod_and_carry_iff (hlt _) (hadd x y)).1
  carry_iff x y := (mod_and_carry_iff (hlt _) (hadd x y)).2
  difference x y := (emod_and_borrow_iff (hlt _) (hsub x y)).1
  borrow_iff x y := (emod_and_borrow_iff (hlt _) (hsub x y)).2
  moved _ x := hmoved x _
  checked h x := hchecked x h

/-- What is taken away can be put back, also if the difference has borrowed. -/
theorem add_sub (h : CalculatesModulo width toNat add sub shiftLeft shiftLeftChecked) (x y : α) :
    (add (sub x y).1 y).1 = x := by
  apply h.injective
  have hlt : (toNat x : ℤ) < 2 ^ width := by exact_mod_cast h.toNat_lt x
  have hback : (toNat (add (sub x y).1 y).1 : ℤ) = toNat x := by
    calc (toNat (add (sub x y).1 y).1 : ℤ)
        = (((toNat x : ℤ) - toNat y) % 2 ^ width + toNat y) % 2 ^ width := by
          rw [h.sum, ← h.difference]
          push_cast
          rfl
      _ = (toNat x : ℤ) % 2 ^ width := by rw [Int.emod_add_emod, sub_add_cancel]
      _ = toNat x := Int.emod_eq_of_lt (Int.natCast_nonneg _) hlt
  exact_mod_cast hback

end CalculatesModulo

namespace Word128

theorem calculatesModulo :
    CalculatesModulo 128 toNat addCarry subBorrow shiftLeft shiftLeftChecked :=
  .of_equations toNat_lt (fun _ _ => toNat_inj.1) toNat_addCarry toNat_subBorrow toNat_shiftLeft
    shiftLeftChecked_eq

theorem leadingZeros_eq_sub_size (x : Word128) : x.leadingZeros = 128 - x.toNat.size := by
  by_cases hx : x.toNat = 0
  · obtain rfl : x = zero := toNat_inj.1 hx
    rw [hx, Nat.size_zero]
    rfl
  · obtain ⟨hle, hmin, hmax⟩ := leadingZeros_spec hx
    exact places_eq_sub_size hle hmin hmax

theorem compare_eq_compare (x y : Word128) : x.compare y = Ord.compare x.toNat y.toNat := by
  rw [compare_eq, Nat.compare_eq_ite_lt]

end Word128

namespace Word192

theorem calculatesModulo :
    CalculatesModulo 192 toNat addCarry subBorrow shiftLeft shiftLeftChecked :=
  .of_equations toNat_lt (fun _ _ => toNat_inj.1) toNat_addCarry toNat_subBorrow toNat_shiftLeft
    shiftLeftChecked_eq

/-- Quantities of 128 bits differ by less than the topmost bit of three limbs is worth. -/
theorem isNegative_subBorrow_ofLow (a b : Word128) :
    ((ofLow a).subBorrow (ofLow b)).1.isNegative = true ↔ a.toNat < b.toNat := by
  have ha : a.toNat < 2 ^ 128 := a.toNat_lt
  have hb : b.toNat < 2 ^ 128 := b.toNat_lt
  have hdifference : ((ofLow a).subBorrow (ofLow b)).1.toInt = a.toNat - b.toNat := by
    rw [toInt_subBorrow] <;> rw [toInt_ofLow, toNat_ofLow] <;> omega
  rw [isNegative_iff_toInt, hdifference, sub_neg, Nat.cast_lt]

end Word192

/-- Words of two and of three limbs calculate as the numbers they stand for, modulo their
widths.  Products of limbs are exact, the order and the leading zeros of a word are those of
its number, and a difference of 128-bit quantities keeps its sign in three limbs. -/
theorem words_calculate_as_numbers :
    CalculatesModulo 128 Word128.toNat Word128.addCarry Word128.subBorrow Word128.shiftLeft
        Word128.shiftLeftChecked ∧
      CalculatesModulo 192 Word192.toNat Word192.addCarry Word192.subBorrow Word192.shiftLeft
        Word192.shiftLeftChecked ∧
      (∀ a b : UInt64, Word128.ofProductChecked a b = pure (.ofProduct a b) ∧
        (Word128.ofProduct a b).toNat = a.toNat * b.toNat) ∧
      (∀ x : Word128, x.leadingZeros = 128 - x.toNat.size) ∧
      (∀ x y : Word128, x.compare y = Ord.compare x.toNat y.toNat) ∧
      ∀ a b : Word128,
        let difference := ((Word192.ofLow a).subBorrow (.ofLow b)).1
        (difference.isNegative = true ↔ a.toNat < b.toNat) ∧
          (difference.addCarry (.ofLow b)).1 = .ofLow a := by
  refine ⟨Word128.calculatesModulo, Word192.calculatesModulo, fun a b => ?_,
    Word128.leadingZeros_eq_sub_size, Word128.compare_eq_compare, fun a b => ?_⟩
  · exact ⟨Word128.ofProductChecked_eq a b, Word128.toNat_ofProduct a b⟩
  · exact ⟨Word192.isNegative_subBorrow_ofLow a b,
      Word192.calculatesModulo.add_sub (.ofLow a) (.ofLow b)⟩

end CrossFloat
