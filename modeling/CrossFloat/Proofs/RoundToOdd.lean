/-
Rounding to odd.

A number that is not whole is rounded to the odd one of its two neighbours, and
a whole number stays as it is.  This is what a jammed bit records.  The rounding
keeps every comparison with an even number, so a later rounding at a coarser
place, whose neighbours and halfway points are all even, sees no difference.
The same comparisons make one rounding to odd after another a single one.
-/
import CrossFloat.Proofs.Limb.Word
import Mathlib.Algebra.Order.Floor.Semifield
import Mathlib.Data.Rat.Floor
import Mathlib.Tactic.Linarith
import Mathlib.Tactic.Positivity

namespace CrossFloat

/-- A nonnegative number rounded to odd: its floor, with the lowest bit set
unless the number is whole. -/
def roundOdd (t : ℚ) : ℕ :=
  if (⌊t⌋₊ : ℚ) = t then ⌊t⌋₊ else ⌊t⌋₊ ||| 1

theorem roundOdd_eq_iff {t : ℚ} (ht : 0 ≤ t) {n : ℕ} :
    roundOdd t = n ↔ t = n ∨ (n % 2 = 1 ∧ (n : ℚ) < t + 1 ∧ t < n + 1) := by
  have hle : (⌊t⌋₊ : ℚ) ≤ t := Nat.floor_le ht
  have hlt : t < ⌊t⌋₊ + 1 := Nat.lt_floor_add_one t
  rw [roundOdd]
  by_cases hwhole : (⌊t⌋₊ : ℚ) = t
  · rw [if_pos hwhole]
    constructor
    · rintro rfl
      exact Or.inl hwhole.symm
    · rintro (h | ⟨-, hlow, hhigh⟩)
      · rw [h, Nat.floor_natCast]
      · rw [← hwhole] at hlow hhigh
        have hlow' : n < ⌊t⌋₊ + 1 := by exact_mod_cast hlow
        have hhigh' : ⌊t⌋₊ < n + 1 := by exact_mod_cast hhigh
        omega
  · have hne : (⌊t⌋₊ : ℚ) < t := lt_of_le_of_ne hle hwhole
    rw [if_neg hwhole, or_one_eq]
    constructor
    · intro h
      have hlow : n ≤ ⌊t⌋₊ + 1 := by omega
      have hhigh : ⌊t⌋₊ ≤ n := by omega
      have hlow' : (n : ℚ) ≤ ⌊t⌋₊ + 1 := by exact_mod_cast hlow
      have hhigh' : (⌊t⌋₊ : ℚ) ≤ n := by exact_mod_cast hhigh
      exact Or.inr ⟨by omega, by linarith, by linarith⟩
    · rintro (h | ⟨hodd, hlow, hhigh⟩)
      · rw [h, Nat.floor_natCast] at hwhole
        exact absurd rfl hwhole
      · have hlow' : n < ⌊t⌋₊ + 2 := by
          have : (n : ℚ) < ⌊t⌋₊ + 2 := by linarith
          exact_mod_cast this
        have hhigh' : ⌊t⌋₊ < n + 1 := by
          have : (⌊t⌋₊ : ℚ) < n + 1 := by linarith
          exact_mod_cast this
        omega

theorem roundOdd_spec {t : ℚ} (ht : 0 ≤ t) :
    t = roundOdd t ∨ (roundOdd t % 2 = 1 ∧ (roundOdd t : ℚ) < t + 1 ∧ t < roundOdd t + 1) :=
  (roundOdd_eq_iff ht).1 rfl

@[simp] theorem roundOdd_natCast (n : ℕ) : roundOdd n = n :=
  (roundOdd_eq_iff n.cast_nonneg).2 (Or.inl rfl)

/-! ## Comparisons with even numbers -/

theorem lt_roundOdd_iff {t : ℚ} (ht : 0 ≤ t) {n : ℕ} (hn : n % 2 = 0) :
    n < roundOdd t ↔ (n : ℚ) < t := by
  rcases roundOdd_spec ht with h | ⟨hodd, hlow, hhigh⟩
  · conv => rhs; rw [h]
    exact Nat.cast_lt.symm
  · constructor
    · intro hlt
      have hle : n + 1 ≤ roundOdd t := hlt
      have hle' : (n : ℚ) + 1 ≤ roundOdd t := by exact_mod_cast hle
      linarith
    · intro hlt
      have hlt' : (n : ℚ) < roundOdd t + 1 := by linarith
      have : n < roundOdd t + 1 := by exact_mod_cast hlt'
      omega

theorem roundOdd_lt_iff {t : ℚ} (ht : 0 ≤ t) {n : ℕ} (hn : n % 2 = 0) :
    roundOdd t < n ↔ t < n := by
  rcases roundOdd_spec ht with h | ⟨hodd, hlow, hhigh⟩
  · conv => rhs; rw [h]
    exact Nat.cast_lt.symm
  · constructor
    · intro hlt
      have hle : roundOdd t + 1 ≤ n := hlt
      have hle' : (roundOdd t : ℚ) + 1 ≤ n := by exact_mod_cast hle
      linarith
    · intro hlt
      have hlt' : (roundOdd t : ℚ) < n + 1 := by linarith
      have : roundOdd t < n + 1 := by exact_mod_cast hlt'
      omega

theorem le_roundOdd_iff {t : ℚ} (ht : 0 ≤ t) {n : ℕ} (hn : n % 2 = 0) :
    n ≤ roundOdd t ↔ (n : ℚ) ≤ t := by
  rw [← not_lt, ← not_lt, roundOdd_lt_iff ht hn]

theorem roundOdd_le_iff {t : ℚ} (ht : 0 ≤ t) {n : ℕ} (hn : n % 2 = 0) :
    roundOdd t ≤ n ↔ t ≤ n := by
  rw [← not_lt, ← not_lt, lt_roundOdd_iff ht hn]

theorem roundOdd_eq_even_iff {t : ℚ} (ht : 0 ≤ t) {n : ℕ} (hn : n % 2 = 0) :
    roundOdd t = n ↔ t = n := by
  rw [roundOdd_eq_iff ht]
  constructor
  · rintro (h | ⟨hodd, -⟩)
    · exact h
    · omega
  · exact Or.inl

theorem roundOdd_eq_zero_iff {t : ℚ} (ht : 0 ≤ t) : roundOdd t = 0 ↔ t = 0 := by
  rw [roundOdd_eq_even_iff ht (by decide), Nat.cast_zero]

/-! ## Arithmetic after a rounding to odd -/

theorem roundOdd_add {t : ℚ} (ht : 0 ≤ t) {n : ℕ} (hn : n % 2 = 0) :
    roundOdd (n + t) = n + roundOdd t := by
  have hn' : (0 : ℚ) ≤ n := n.cast_nonneg
  rw [roundOdd_eq_iff (by linarith)]
  rcases roundOdd_spec ht with h | ⟨hodd, hlow, hhigh⟩
  · left
    push_cast
    rw [← h]
  · right
    push_cast
    exact ⟨by omega, by linarith, by linarith⟩

/-- What is taken from an even number can be rounded before. -/
theorem roundOdd_sub {t : ℚ} (ht : 0 ≤ t) {n : ℕ} (hn : n % 2 = 0) (hle : t ≤ n) :
    roundOdd (n - t) = n - roundOdd t ∧ roundOdd t ≤ n := by
  have hround : roundOdd t ≤ n := (roundOdd_le_iff ht hn).2 hle
  refine ⟨?_, hround⟩
  rw [roundOdd_eq_iff (by linarith), Nat.cast_sub hround]
  rcases roundOdd_spec ht with h | ⟨hodd, hlow, hhigh⟩
  · left
    rw [← h]
  · right
    exact ⟨by omega, by linarith, by linarith⟩

/-- Rounding to odd once more at a coarser place is rounding to odd there. -/
theorem roundOdd_roundOdd_div {t : ℚ} (ht : 0 ≤ t) (k : ℕ) :
    roundOdd (roundOdd t / 2 ^ k) = roundOdd (t / 2 ^ k) := by
  have hpow : (0 : ℚ) < 2 ^ k := by positivity
  have hdiv : 0 ≤ t / 2 ^ k := div_nonneg ht hpow.le
  have hround : (0 : ℚ) ≤ (roundOdd t : ℚ) / 2 ^ k := div_nonneg (Nat.cast_nonneg _) hpow.le
  rw [roundOdd_eq_iff hround]
  generalize hr : roundOdd (t / 2 ^ k) = r
  rw [roundOdd_eq_iff hdiv] at hr
  rcases hr with h | ⟨hodd, hlow, hhigh⟩
  · left
    rw [div_eq_iff hpow.ne'] at h ⊢
    have hwhole : t = ((r * 2 ^ k : ℕ) : ℚ) := by
      push_cast
      exact h
    rw [hwhole, roundOdd_natCast]
    push_cast
    rfl
  · right
    -- The even numbers `(r - 1) * 2^k` and `(r + 1) * 2^k` lie around both.
    obtain ⟨s, rfl⟩ : ∃ s, r = 2 * s + 1 := ⟨r / 2, by omega⟩
    push_cast at hlow hhigh ⊢
    have hbelow : ((2 * s * 2 ^ k : ℕ) : ℚ) < t := by
      have : (2 * s : ℚ) < t / 2 ^ k := by linarith
      rw [lt_div_iff₀ hpow] at this
      exact_mod_cast this
    have habove : t < ((2 * (s + 1) * 2 ^ k : ℕ) : ℚ) := by
      have : t / 2 ^ k < 2 * (s + 1) := by linarith
      rw [div_lt_iff₀ hpow] at this
      exact_mod_cast this
    have hbelow' := (lt_roundOdd_iff ht (by rw [Nat.mul_assoc]; omega)).2 hbelow
    have habove' := (roundOdd_lt_iff ht (by rw [Nat.mul_assoc]; omega)).2 habove
    have hbelow'' : ((2 * s * 2 ^ k : ℕ) : ℚ) < roundOdd t := by exact_mod_cast hbelow'
    have habove'' : (roundOdd t : ℚ) < ((2 * (s + 1) * 2 ^ k : ℕ) : ℚ) := by
      exact_mod_cast habove'
    push_cast at hbelow'' habove''
    rw [← lt_div_iff₀ hpow] at hbelow''
    rw [← div_lt_iff₀ hpow] at habove''
    exact ⟨by omega, by linarith, by linarith⟩

/-- A move left before the coarser rounding is harmless if nothing was lost
before, or if the move does not reach back to what was. -/
theorem roundOdd_roundOdd_mul_div {t : ℚ} (ht : 0 ≤ t) {up down : ℕ}
    (h : (roundOdd t : ℚ) = t ∨ up ≤ down) :
    roundOdd (roundOdd t * 2 ^ up / 2 ^ down) = roundOdd (t * 2 ^ up / 2 ^ down) := by
  rcases h with hwhole | hle
  · rw [hwhole]
  · have hpow : (2 : ℚ) ^ down = 2 ^ (down - up) * 2 ^ up := by
      rw [← pow_add, Nat.sub_add_cancel hle]
    rw [hpow, mul_div_mul_right _ _ (by positivity), mul_div_mul_right _ _ (by positivity),
      roundOdd_roundOdd_div ht]

/-! ## Quotients and jamming moves -/

theorem roundOdd_natCast_div (n : ℕ) {d : ℕ} (hd : 0 < d) :
    roundOdd (n / d) = if n % d = 0 then n / d else n / d / 2 * 2 + 1 := by
  have hfloor : ⌊(n / d : ℚ)⌋₊ = n / d := Nat.floor_div_eq_div n d
  have hmod := Nat.div_add_mod' n d
  rw [roundOdd, hfloor, or_one_eq]
  congr 1
  rw [eq_div_iff (by exact_mod_cast hd.ne'), ← Nat.cast_mul, Nat.cast_inj, eq_iff_iff]
  omega

theorem roundOdd_div_two_pow (n count : ℕ) : roundOdd (n / 2 ^ count) = jamShift n count := by
  have hpow : ((2 ^ count : ℕ) : ℚ) = 2 ^ count := by push_cast; rfl
  rw [jamShift_eq, ← hpow, roundOdd_natCast_div n (Nat.two_pow_pos count)]

end CrossFloat
