/-
Numbers that round alike.

A cell is the open interval between two neighbouring multiples of a power of
two.  Two numbers in one cell compare alike with every multiple of that power.
If the cell is at most half a last place wide, the thresholds of a rounding are
all among those multiples: the candidates, the points halfway between them, the
end of the tiny range and the start of the overflow range.  So the numbers round
to the same result with the same flags, whatever the mode.

A jammed lowest bit stands for such a cell, which is why it is enough.
-/
import CrossFloat.Proofs.RoundToOdd
import CrossFloat.Proofs.Rounding.Correct

namespace CrossFloat

/-- The number lies strictly between the `m`-th multiple of `2^k` and the next. -/
def InCell (m : ℕ) (k : ℤ) (v : ℚ) : Prop :=
  m * 2 ^ k < v ∧ v < (m + 1) * 2 ^ k

namespace InCell

variable {m : ℕ} {k : ℤ} {v w : ℚ}

theorem pos (h : InCell m k v) : 0 < v :=
  lt_of_le_of_lt (mul_nonneg m.cast_nonneg (two_zpow_pos k).le) h.1

theorem lt_two_zpow_iff (h : InCell m k v) {j : ℤ} (hj : k ≤ j) :
    v < 2 ^ j ↔ m + 1 ≤ 2 ^ (j - k).toNat := by
  have hpos := two_zpow_pos k
  rw [two_zpow_eq_natCast_mul hj]
  constructor
  · intro hlt
    have : (m : ℚ) < ((2 ^ (j - k).toNat : ℕ) : ℚ) :=
      lt_of_mul_lt_mul_right (h.1.trans hlt) hpos.le
    exact_mod_cast this
  · intro hle
    have hle' : (m : ℚ) + 1 ≤ ((2 ^ (j - k).toNat : ℕ) : ℚ) := by exact_mod_cast hle
    exact h.2.trans_le (mul_le_mul_of_nonneg_right hle' hpos.le)

theorem log_lt_iff_log_lt (hv : InCell m k v) (hw : InCell m k w) {j : ℤ} (hj : k ≤ j) :
    Int.log 2 v < j ↔ Int.log 2 w < j := by
  rw [log_lt_iff hv.pos, log_lt_iff hw.pos, hv.lt_two_zpow_iff hj, hw.lt_two_zpow_iff hj]

theorem coarsen (h : InCell m k v) {j : ℤ} (hj : k ≤ j) :
    InCell (m / 2 ^ (j - k).toNat) j v := by
  have hpos := two_zpow_pos k
  rw [InCell, two_zpow_eq_natCast_mul hj, ← mul_assoc, ← mul_assoc]
  have hlow : m / 2 ^ (j - k).toNat * 2 ^ (j - k).toNat ≤ m := Nat.div_mul_le_self _ _
  have hhigh : m + 1 ≤ (m / 2 ^ (j - k).toNat + 1) * 2 ^ (j - k).toNat := by
    rw [Nat.succ_mul]
    exact Nat.lt_div_mul_add (Nat.two_pow_pos _)
  have hlow' : ((m / 2 ^ (j - k).toNat : ℕ) : ℚ) * ((2 ^ (j - k).toNat : ℕ) : ℚ) ≤ m := by
    exact_mod_cast hlow
  have hhigh' : (m : ℚ) + 1 ≤
      (((m / 2 ^ (j - k).toNat : ℕ) : ℚ) + 1) * ((2 ^ (j - k).toNat : ℕ) : ℚ) := by
    exact_mod_cast hhigh
  exact ⟨(mul_le_mul_of_nonneg_right hlow' hpos.le).trans_lt h.1,
    h.2.trans_le (mul_le_mul_of_nonneg_right hhigh' hpos.le)⟩

/-- No multiple of the width lies in a cell. -/
theorem ne_mul (h : InCell m k v) {j : ℤ} (hj : k ≤ j) (n : ℕ) : (n : ℚ) * 2 ^ j ≠ v := by
  rintro rfl
  obtain ⟨hlow, hhigh⟩ := h.coarsen hj
  rw [mul_lt_mul_iff_left₀ (two_zpow_pos j)] at hlow hhigh
  have hlow' : m / 2 ^ (j - k).toNat < n := by exact_mod_cast hlow
  have hhigh' : n < m / 2 ^ (j - k).toNat + 1 := by exact_mod_cast hhigh
  omega

end InCell

/-- What lies between two even numbers of places is in a cell of two places. -/
theorem inCell_mul_two_zpow {s : ℕ} {t : ℚ} (hlow : 2 * s < t) (hhigh : t < 2 * s + 2) (k : ℤ) :
    InCell s (k + 1) (t * 2 ^ k) := by
  have hpos := two_zpow_pos k
  have hdouble : (2 : ℚ) ^ (k + 1) = 2 * 2 ^ k := by
    rw [two_zpow_add, zpow_one, mul_comm]
  have hhigh' : t < (s + 1) * 2 := by linarith
  rw [InCell, hdouble, ← mul_assoc, ← mul_assoc, mul_comm (s : ℚ)]
  exact ⟨mul_lt_mul_of_pos_right hlow hpos, mul_lt_mul_of_pos_right hhigh' hpos⟩

/-! ## Whole numbers -/

namespace RoundingMode

/-- Strictly between two halves the floor, the ceiling and the side of the
midpoint are known. -/
theorem halfCell {m : ℕ} {q : ℚ} (hlow : m < 2 * q) (hhigh : 2 * q < m + 1) :
    ⌊q⌋₊ = m / 2 ∧ ⌈q⌉₊ = m / 2 + 1 ∧ (q - ⌊q⌋₊ < 1 / 2 ↔ m % 2 = 0) ∧ q - ⌊q⌋₊ ≠ 1 / 2 := by
  have hm : (0 : ℚ) ≤ m := m.cast_nonneg
  have hsplit : (m : ℚ) = 2 * ((m / 2 : ℕ) : ℚ) + ((m % 2 : ℕ) : ℚ) := by
    exact_mod_cast (Nat.div_add_mod m 2).symm
  have hbit : m % 2 = 0 ∨ m % 2 = 1 := Nat.mod_two_eq_zero_or_one m
  have hbit' : (0 : ℚ) ≤ ((m % 2 : ℕ) : ℚ) ∧ ((m % 2 : ℕ) : ℚ) ≤ 1 := by
    rcases hbit with h | h <;> rw [h] <;> norm_num
  have hfloor : ⌊q⌋₊ = m / 2 := by
    rw [Nat.floor_eq_iff (by linarith)]
    constructor <;> linarith
  have hceil : ⌈q⌉₊ = m / 2 + 1 := by
    rw [Nat.ceil_eq_iff (by omega)]
    push_cast
    constructor <;> linarith
  rw [hfloor]
  refine ⟨rfl, hceil, ?_, ?_⟩
  · rcases hbit with h | h <;> rw [h] at hsplit ⊢ <;> push_cast at hsplit
    · exact iff_of_true (by linarith) rfl
    · exact iff_of_false (by linarith) (by decide)
  · intro heq
    rcases hbit with h | h <;> rw [h] at hsplit <;> push_cast at hsplit <;> linarith

/-- Two numbers in one half cell are rounded to the same whole number, and from
the same side. -/
theorem roundNat_congr (mode : RoundingMode) (sign : Sign) {m : ℕ} {q p : ℚ}
    (hq : (m : ℚ) < 2 * q) (hq' : 2 * q < m + 1) (hp : (m : ℚ) < 2 * p) (hp' : 2 * p < m + 1) :
    mode.roundNat sign q = mode.roundNat sign p ∧
      ((mode.roundNat sign q : ℚ) < q ↔ (mode.roundNat sign p : ℚ) < p) ∧
      (q < mode.roundNat sign q ↔ p < mode.roundNat sign p) := by
  obtain ⟨hfloor, hceil, hbelow, hhalf⟩ := halfCell hq hq'
  obtain ⟨hfloor', hceil', hbelow', hhalf'⟩ := halfCell hp hp'
  have hround : mode.roundNat sign q = mode.roundNat sign p := by
    cases mode <;>
      simp only [roundNat, hbelow, hbelow', hhalf, hhalf', false_and, or_false] <;>
      simp only [hfloor, hceil, hfloor', hceil']
  have hside {x : ℚ} (hx : (m : ℚ) < 2 * x) (hx' : 2 * x < m + 1) :
      (((m / 2 : ℕ) : ℚ) < x ∧ x < ((m / 2 + 1 : ℕ) : ℚ)) := by
    have hle : 2 * (m / 2) ≤ m := by omega
    have hle' : m + 1 ≤ 2 * (m / 2 + 1) := by omega
    have hcast : (2 : ℚ) * ((m / 2 : ℕ) : ℚ) ≤ m := by exact_mod_cast hle
    have hcast' : (m : ℚ) + 1 ≤ 2 * ((m / 2 + 1 : ℕ) : ℚ) := by exact_mod_cast hle'
    exact ⟨by linarith, by linarith⟩
  obtain ⟨hlow, hhigh⟩ := hside hq hq'
  obtain ⟨hlow', hhigh'⟩ := hside hp hp'
  refine ⟨hround, ?_, ?_⟩ <;> rw [← hround] <;>
    rcases mode.roundNat_eq_floor_or_ceil sign q with h | h <;> rw [h]
  · rw [hfloor]
    exact iff_of_true hlow hlow'
  · rw [hceil]
    exact iff_of_false hhigh.not_gt hhigh'.not_gt
  · rw [hfloor]
    exact iff_of_false hlow.not_gt hlow'.not_gt
  · rw [hceil]
    exact iff_of_true hhigh hhigh'

end RoundingMode

/-! ## Roundings -/

namespace InCell

variable {m : ℕ} {k : ℤ} {v w : ℚ} {c : Context}

theorem binade_eq (F : Format) (hv : InCell m k v) (hw : InCell m k w) (hk : k < F.place v) :
    max (Int.log 2 v) F.minExponent = max (Int.log 2 w) F.minExponent := by
  have hplace := F.place_le v
  rcases le_or_gt F.minExponent (Int.log 2 v) with hle | hgt
  · have h₁ := hv.log_lt_iff_log_lt hw (j := Int.log 2 v) (by omega)
    have h₂ := hv.log_lt_iff_log_lt hw (j := Int.log 2 v + 1) (by omega)
    omega
  · have h := hv.log_lt_iff_log_lt hw (j := F.minExponent) (by omega)
    omega

theorem tiny_iff (F : Format) (hv : InCell m k v) (hw : InCell m k w) (hk : k < F.place v) :
    v < 2 ^ F.minExponent ↔ w < 2 ^ F.minExponent := by
  have hplace := F.place_le v
  have hbinade := hv.binade_eq F hw hk
  rw [← log_lt_iff hv.pos, ← log_lt_iff hw.pos]
  rcases le_or_gt F.minExponent (Int.log 2 v) with hle | hgt
  · have h := hv.log_lt_iff_log_lt hw (j := Int.log 2 v) (by omega)
    omega
  · exact hv.log_lt_iff_log_lt hw (by omega)

/-- With so many bits above it, a cell is at most half a last place wide. -/
theorem lt_place {F : Format} (h : InCell m k v) (hm : 2 ^ F.precision ≤ m) : k < F.place v := by
  have hm' : (2 : ℚ) ^ (F.precision : ℤ) ≤ m := by
    rw [two_zpow_natCast]
    exact_mod_cast hm
  have hlog : F.precision + k ≤ Int.log 2 v := by
    rw [le_log_iff h.pos, two_zpow_add]
    exact (mul_le_mul_of_nonneg_right hm' (two_zpow_pos _).le).trans h.1.le
  have hplace := F.le_lastPlace (max (Int.log 2 v) F.minExponent)
  rw [Format.place]
  omega

/-- Numbers in a cell of at most half a last place are rounded to the same number, and
from the same side. -/
theorem rounded_congr (hv : InCell m k v) (hw : InCell m k w) (hk : k < c.format.place v)
    (sign : Sign) :
    c.rounded sign v = c.rounded sign w ∧
      (c.rounded sign v < v ↔ c.rounded sign w < w) ∧
      (v < c.rounded sign v ↔ w < c.rounded sign w) := by
  have hplace : c.format.place w = c.format.place v := by
    rw [Format.place, Format.place, hv.binade_eq c.format hw hk]
  have hpos := two_zpow_pos (c.format.place v)
  have hhalf : (2 : ℚ) ^ c.format.place v = 2 * 2 ^ (c.format.place v - 1) := by
    rw [← zpow_one_add₀ (by norm_num), add_sub_cancel]
  have hhalves (x : ℚ) : 2 * (x / 2 ^ c.format.place v) = x / 2 ^ (c.format.place v - 1) := by
    rw [hhalf]
    field_simp
  -- Counted in halves of the last place, both numbers lie in one cell of width one.
  obtain ⟨hv₁, hv₂⟩ := hv.coarsen (j := c.format.place v - 1) (by omega)
  obtain ⟨hw₁, hw₂⟩ := hw.coarsen (j := c.format.place v - 1) (by omega)
  have hpos' := two_zpow_pos (c.format.place v - 1)
  rw [← lt_div_iff₀ hpos', ← hhalves] at hv₁ hw₁
  rw [← div_lt_iff₀ hpos', ← hhalves] at hv₂ hw₂
  obtain ⟨hround, hbelow, habove⟩ := c.mode.roundNat_congr sign hv₁ hv₂ hw₁ hw₂
  rw [Context.rounded, Context.rounded, hplace, ← lt_div_iff₀ hpos, ← lt_div_iff₀ hpos,
    ← div_lt_iff₀ hpos, ← div_lt_iff₀ hpos]
  exact ⟨by rw [hround], hbelow, habove⟩

/-- Numbers in a cell of at most half a last place have the same correct
rounding. -/
theorem roundRat_eq (hv : InCell m k v) (hw : InCell m k w) (hk : k < c.format.place v)
    (sign : Sign) (flags : Flags) : c.roundRat sign v flags = c.roundRat sign w flags := by
  have htiny := hv.tiny_iff c.format hw hk
  have hflush : c.format.Flushes v ↔ c.format.Flushes w := and_congr_left fun _ => htiny
  obtain ⟨hrounded, hlow, hhigh⟩ := hv.rounded_congr hw hk sign
  have hraised : c.raised sign v = c.raised sign w := by
    simp only [Context.raised, htiny, hlow, hhigh]
  simp only [Context.roundRat, hv.pos.ne', hw.pos.ne', hflush, hrounded, hraised]

end InCell

/-- A number and its rounding to odd with at least two bits more than the
precision have the same correct rounding. -/
theorem roundRat_of_roundOdd (c : Context) (sign : Sign) (flags : Flags) {v : ℚ} {k : ℤ}
    (hv : 0 < v) (hbits : 2 ^ (c.format.precision + 1) ≤ roundOdd (v / 2 ^ k)) :
    c.roundRat sign v flags = c.roundRat sign (roundOdd (v / 2 ^ k) * 2 ^ k) flags := by
  have hpos := two_zpow_pos k
  rcases roundOdd_spec (div_nonneg hv.le hpos.le) with h | ⟨hodd, hlow, hhigh⟩
  · rw [← h, div_mul_cancel₀ _ hpos.ne']
  generalize roundOdd (v / 2 ^ k) = n at *
  -- The odd number lies in the middle of a cell, and `v` in the same one.
  obtain ⟨s, rfl⟩ : ∃ s, n = 2 * s + 1 := ⟨n / 2, by omega⟩
  push_cast at hlow hhigh ⊢
  have hcell := inCell_mul_two_zpow (s := s) (t := v / 2 ^ k) (by linarith) (by linarith) k
  have hcell' := inCell_mul_two_zpow (s := s) (t := 2 * s + 1) (by linarith) (by linarith) k
  rw [div_mul_cancel₀ _ hpos.ne'] at hcell
  refine hcell.roundRat_eq hcell' (hcell.lt_place ?_) sign flags
  rw [Nat.pow_succ] at hbits
  omega

end CrossFloat
