/-
A sum of operands and products is the exact sum rounded to odd.

`add_spec` holds of any two numbers.  Of the numbers that the operations build
more can be said: how far their difference can cancel.  One place apart, the
difference is smallest when the larger magnitude is 2^127.  It is then 2^128 less
the smaller magnitude, in places of which the lowest is one below the 128 bits.
No operand and no product has all of its 128 bits set, since (2^64 - 1)^2 stays
below that, so what is left is at least two such places.  A difference that is
not zero therefore reaches into the two upper limbs.
-/
import CrossFloat.Proofs.Nonzero.Sum

namespace CrossFloat
namespace Nonzero

/-! ## Operands and products -/

/-- The numbers that the operations add: operands, products of two operands, and
these with the opposite sign. -/
inductive IsTerm : Nonzero → Prop
  | ofFinite (sign : Sign) (exponent : ℤ) {significand : UInt64} (hs : significand ≠ 0) :
    IsTerm (ofFinite sign exponent significand)
  | ofProduct (sign₁ : Sign) (exponent₁ : ℤ) {significand₁ : UInt64} (h₁ : significand₁ ≠ 0)
      (sign₂ : Sign) (exponent₂ : ℤ) {significand₂ : UInt64} (h₂ : significand₂ ≠ 0) :
    IsTerm (ofProduct sign₁ exponent₁ significand₁ sign₂ exponent₂ significand₂)
  | neg {t : Nonzero} (h : IsTerm t) : IsTerm t.neg

namespace IsTerm

variable {t : Nonzero}

theorem normalised (h : t.IsTerm) : t.Normalised := by
  induction h with
  | ofFinite sign exponent hs => exact ofFinite_normalised sign exponent hs
  | ofProduct sign₁ exponent₁ h₁ sign₂ exponent₂ h₂ =>
    exact ofProduct_normalised sign₁ exponent₁ sign₂ exponent₂ h₁ h₂
  | neg _ ih => exact ih

/-- The bits of a product of two limbs are not all set, however far it is moved
left. -/
theorem toNat_ofProduct_ne (x y : UInt64) (places : ℕ) :
    (Word128.ofProduct x y).toNat * 2 ^ places ≠ 2 ^ 128 - 1 := by
  have hle : x.toNat * y.toNat ≤ (2 ^ 64 - 1) * (2 ^ 64 - 1) :=
    Nat.mul_le_mul (Nat.le_pred_of_lt x.toNat_lt) (Nat.le_pred_of_lt y.toNat_lt)
  rw [Word128.toNat_ofProduct]
  rcases Nat.eq_zero_or_pos places with rfl | hpos
  · omega
  · have heven : 2 ∣ x.toNat * y.toNat * 2 ^ places :=
      Dvd.dvd.mul_left (dvd_pow_self 2 hpos.ne') _
    omega

theorem toNat_mag_ne (h : t.IsTerm) : t.mag.toNat ≠ 2 ^ 128 - 1 := by
  induction h with
  | @ofFinite sign exponent significand hs =>
    show (alignLeft significand).toNat * 2 ^ 64 + 0 ≠ _
    omega
  | ofProduct sign₁ exponent₁ h₁ sign₂ exponent₂ h₂ =>
    have hne := toNat_alignLeft_mul_pos h₁ h₂
    rw [Nonzero.ofProduct, Word128.toNat_shiftLeft_leadingZeros hne]
    exact toNat_ofProduct_ne _ _ _
  | neg _ ih => exact ih

theorem toNat_mag_lt (h : t.IsTerm) : t.mag.toNat + 1 < 2 ^ 128 := by
  have hlt : t.mag.toNat < 2 ^ 128 := t.mag.toNat_lt
  have hne := h.toNat_mag_ne
  omega

end IsTerm

/-! ## How far a difference cancels -/

variable {big small : Nonzero}

/-- What a difference of such numbers leaves is at least one of the 128 places of
the larger one. -/
theorem two_pow_le_inRoom_sub (hbig : big.Normalised) (hsmall : small.IsTerm)
    (hdom : big.dominates small = true) (hne : big.inRoom big - small.inRoom big ≠ 0) :
    2 ^ 64 ≤ big.inRoom big - small.inRoom big := by
  have hle := inRoom_le_of_dominates hbig hsmall.normalised hdom
  have hmag := hsmall.toNat_mag_lt
  obtain ⟨gap, hgap⟩ := Int.eq_ofNat_of_zero_le (sub_nonneg.2 (exp_le_of_dominates hdom))
  rw [sub_eq_iff_eq_add'] at hgap
  rcases (by omega : gap = 0 ∨ gap = 1 ∨ 2 ≤ gap) with rfl | rfl | hfar
  · -- Both are whole numbers of places of the 128 bits, so they differ by one at least.
    rw [inRoom_eq_natCast small hgap (by decide), inRoom_self] at hle hne ⊢
    have hle' : small.mag.toNat ≤ big.mag.toNat :=
      Nat.le_of_mul_le_mul_right (by exact_mod_cast hle) (Nat.two_pow_pos 64)
    have hne' : small.mag.toNat ≠ big.mag.toNat := by
      intro h
      rw [h] at hne
      exact hne (sub_self _)
    rw [le_sub_iff_add_le]
    exact_mod_cast (by omega :
      2 ^ 64 + small.mag.toNat * 2 ^ (64 - 0) ≤ big.mag.toNat * 2 ^ 64)
  · -- The smaller one is a whole number of half places, and less than 2^128 - 1 of them.
    rw [inRoom_eq_natCast small hgap (by decide), inRoom_self, le_sub_iff_add_le]
    rw [Normalised] at hbig
    exact_mod_cast (by omega :
      2 ^ 64 + small.mag.toNat * 2 ^ (64 - 1) ≤ big.mag.toNat * 2 ^ 64)
  · exact le_trans (by norm_num) (le_inRoom_sub hbig hsmall.normalised (by omega))

/-- A difference of such numbers is zero or reaches into the two upper limbs. -/
theorem le_toNat_difference (hbig : big.Normalised) (hsmall : small.IsTerm)
    (hdom : big.dominates small = true) (hne : (big.difference small).toNat ≠ 0) :
    2 ^ 64 ≤ (big.difference small).toNat := by
  have hnonneg := sub_nonneg.2 (inRoom_le_of_dominates hbig hsmall.normalised hdom)
  rw [toNat_difference hbig hsmall.normalised hdom] at hne ⊢
  rw [ne_eq, roundOdd_eq_zero_iff hnonneg] at hne
  rw [le_roundOdd_iff hnonneg (by decide)]
  exact_mod_cast two_pow_le_inRoom_sub hbig hsmall hdom hne

/-! ## The sum -/

/-- Two numbers, the one of larger magnitude first. -/
def ordered (x y : Nonzero) : Nonzero × Nonzero :=
  if x.dominates y then (x, y) else (y, x)

theorem ordered_eq_or (x y : Nonzero) : x.ordered y = (x, y) ∨ x.ordered y = (y, x) := by
  rw [ordered]
  split
  · exact Or.inl rfl
  · exact Or.inr rfl

theorem dominates_ordered (x y : Nonzero) :
    (x.ordered y).1.dominates (x.ordered y).2 = true := by
  rw [ordered]
  by_cases hdom : x.dominates y = true
  · rw [if_pos hdom]
    exact hdom
  · rw [if_neg hdom]
    exact dominates_total hdom

theorem add_eq_addSmaller (x y : Nonzero) :
    x.add y = addSmaller (x.ordered y).1 (x.ordered y).2 := by
  rw [add, ordered]
  split <;> rfl

namespace Holds

variable {t : Nonzero} {v : ℚ}

/-- The leading place of what is held is that of the number. -/
theorem abs_bounds (h : t.Holds v) : 2 ^ t.exp ≤ |v| ∧ |v| < 2 ^ (t.exp + 1) := by
  have hpos := two_zpow_pos (t.exp - 127)
  have hnonneg : 0 ≤ |v| / 2 ^ (t.exp - 127) := div_nonneg (abs_nonneg v) hpos.le
  have hlow := h.normalised
  have hhigh : t.mag.toNat < 2 ^ 128 := t.mag.toNat_lt
  rw [Normalised, h.jammed, le_roundOdd_iff hnonneg (by decide), le_div_iff₀ hpos,
    ← two_zpow_natCast, ← two_zpow_add, show ((127 : ℕ) : ℤ) + (t.exp - 127) = t.exp by omega]
    at hlow
  rw [h.jammed, roundOdd_lt_iff hnonneg (by decide), div_lt_iff₀ hpos, ← two_zpow_natCast,
    ← two_zpow_add, show ((128 : ℕ) : ℤ) + (t.exp - 127) = t.exp + 1 by omega] at hhigh
  exact ⟨hlow, hhigh⟩

end Holds

/-- The result without flags that is `v` rounded to odd at the lowest of 128 bits,
of which the topmost is set. -/
structure RoundedToOdd (u : Intermediate) (v : ℚ) : Prop where
  flags : u.flags = ∅
  sign : u.sign = Sign.ofRat v
  normalised : 2 ^ 127 ≤ u.sig.toNat
  le_abs : 2 ^ u.exp ≤ |v|
  abs_lt : |v| < 2 ^ (u.exp + 1)
  sig : u.sig.toNat = roundOdd (|v| * 2 ^ (127 - u.exp))

theorem Holds.roundedToOdd {t : Nonzero} {v : ℚ} (h : t.Holds v) :
    RoundedToOdd (t.intermediate ∅) v where
  flags := rfl
  sign := h.sign_eq
  normalised := h.normalised
  le_abs := h.abs_bounds.1
  abs_lt := h.abs_bounds.2
  sig := by
    show t.mag.toNat = roundOdd (|v| * 2 ^ (127 - t.exp))
    rw [h.jammed, div_eq_mul_inv, ← zpow_neg, neg_sub]

theorem leadingZeros_le_of_le_toNat {x : Word192} (hx : 2 ^ 64 ≤ x.toNat) :
    x.leadingZeros ≤ 127 := by
  obtain ⟨-, -, hlt⟩ := Word192.leadingZeros_spec (x := x) (by omega)
  have hpow : 2 ^ 64 * 2 ^ x.leadingZeros < 2 ^ 192 :=
    (Nat.mul_le_mul_right _ hx).trans_lt hlt
  rw [← Nat.pow_add, Nat.pow_lt_pow_iff_right (by decide)] at hpow
  omega

theorem IsTerm.ordered {x y : Nonzero} (hx : x.IsTerm) (hy : y.IsTerm) :
    (x.ordered y).1.IsTerm ∧ (x.ordered y).2.IsTerm := by
  rcases ordered_eq_or x y with h | h <;> rw [h]
  · exact ⟨hx, hy⟩
  · exact ⟨hy, hx⟩

theorem sign_ordered_ne {x y : Nonzero} (hsign : x.sign ≠ y.sign) :
    (x.ordered y).1.sign ≠ (x.ordered y).2.sign := by
  rcases ordered_eq_or x y with h | h <;> rw [h]
  · exact hsign
  · exact hsign.symm

/-- Two terms have no sum when they cancel, and otherwise their exact sum rounded
to odd.  When they have opposite signs, the sum is their normalised difference,
which is below 2^64 only if it is zero. -/
theorem add_roundedToOdd {x y : Nonzero} (hx : x.IsTerm) (hy : y.IsTerm) :
    (x.add y = none ↔ x.toRat + y.toRat = 0) ∧
      (∀ u, (x.add y).map (·.intermediate ∅) = some u → RoundedToOdd u (x.toRat + y.toRat)) ∧
      (x.sign ≠ y.sign →
        let big := (x.ordered y).1
        let difference := big.difference (x.ordered y).2
        let places := difference.leadingZeros
        x.add y =
            (if difference.isZero then none
            else some ⟨big.sign, (difference.shiftLeft places).jamLow, big.exp - places⟩) ∧
          (difference.toNat ≠ 0 → 2 ^ 64 ≤ difference.toNat ∧ places ≤ 127)) := by
  have hspec := add_spec hx.normalised hy.normalised
  refine ⟨?_, ?_, ?_⟩
  · cases hadd : x.add y with
    | none =>
      rw [hadd] at hspec
      exact iff_of_true rfl hspec
    | some t =>
      rw [hadd] at hspec
      exact iff_of_false (Option.some_ne_none t) hspec.ne_zero
  · intro u hu
    obtain ⟨t, hadd, rfl⟩ := Option.map_eq_some_iff.1 hu
    rw [hadd] at hspec
    exact hspec.roundedToOdd
  · intro hsign big difference places
    obtain ⟨hbig, hsmall⟩ := hx.ordered hy
    refine ⟨?_, ?_⟩
    · rw [add_eq_addSmaller]
      exact addSmaller_of_ne (sign_ordered_ne hsign)
    · intro hne
      have hle := le_toNat_difference hbig.normalised hsmall (dominates_ordered x y) hne
      exact ⟨hle, leadingZeros_le_of_le_toNat hle⟩

/-- All of 128 bits but the last cancel: (2^64 - 1)^2 - (2^64 - 2) * 2^64 = 1. -/
theorem add_roundedToOdd_one :
    let x := ofProduct .positive 63 0xffffffffffffffff .positive 63 0xffffffffffffffff
    let y := ofFinite .negative 127 0xfffffffffffffffe
    x.IsTerm ∧ y.IsTerm ∧ x.add y = some ⟨.positive, ⟨0x8000000000000000, 0⟩, 0⟩ ∧
      RoundedToOdd ⟨.positive, ⟨0x8000000000000000, 0⟩, 0, ∅⟩ (x.toRat + y.toRat) ∧
      ((x.ordered y).1.difference (x.ordered y).2).leadingZeros ≤ 127 := by
  intro x y
  have hx : x.IsTerm := .ofProduct _ _ (by decide) _ _ (by decide)
  have hy : y.IsTerm := .ofFinite _ _ (by decide)
  have hadd : x.add y = some ⟨.positive, ⟨0x8000000000000000, 0⟩, 0⟩ := by decide
  obtain ⟨-, hsum, hdifference⟩ := add_roundedToOdd hx hy
  refine ⟨hx, hy, hadd, hsum _ (by rw [hadd]; rfl), ?_⟩
  exact ((hdifference (by decide)).2 (by decide)).2

end Nonzero
end CrossFloat
