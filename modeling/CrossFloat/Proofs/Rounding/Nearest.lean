/-
Rounding to nearest, and rounding twice.

A nearest mode moves a number by at most half a last place, and a number that is
closer than this to a candidate is rounded to it.

Rounding into a fine format first, and then into a coarse one, is the same as
rounding once unless the first rounding moves the number to a point halfway
between two candidates of the second.  It may move it to another place in the same
half cell, which a rounding to nearest does not notice, or to a candidate at the
end of the half cell, where the number is rounded to in any case.
-/
import CrossFloat.Proofs.Rounding.Monotone

namespace CrossFloat

/-! ## Whole numbers -/

namespace RoundingMode

/-- The modes that go to the nearer candidate.  They differ halfway between two. -/
def IsNearest (mode : RoundingMode) : Prop :=
  mode = .nearestEven ∨ mode = .nearestAway

variable {mode : RoundingMode} {q : ℚ}

theorem abs_roundNat_sub_lt (mode : RoundingMode) (sign : Sign) (hq : 0 ≤ q) :
    |(mode.roundNat sign q : ℚ) - q| < 1 := by
  have hfloor := Nat.floor_le hq
  have hfloor' := Nat.lt_floor_add_one q
  have hceil := Nat.le_ceil q
  have hceil' := Nat.ceil_lt_add_one hq
  rw [abs_lt]
  rcases mode.roundNat_eq_floor_or_ceil sign q with h | h <;> rw [h] <;>
    constructor <;> linarith

theorem IsNearest.abs_roundNat_sub_le (h : mode.IsNearest) (sign : Sign) (hq : 0 ≤ q) :
    |(mode.roundNat sign q : ℚ) - q| ≤ 1 / 2 := by
  have hfloor := Nat.floor_le hq
  have hceil := Nat.le_ceil q
  have hstep : (⌈q⌉₊ : ℚ) ≤ ⌊q⌋₊ + 1 := by exact_mod_cast Nat.ceil_le_floor_add_one q
  have hdown (hhalf : q - ⌊q⌋₊ ≤ 1 / 2) : |(⌊q⌋₊ : ℚ) - q| ≤ 1 / 2 := by
    rw [abs_le]
    constructor <;> linarith
  have hup (hhalf : 1 / 2 ≤ q - ⌊q⌋₊) : |(⌈q⌉₊ : ℚ) - q| ≤ 1 / 2 := by
    rw [abs_le]
    constructor <;> linarith
  rcases h with rfl | rfl
  · rw [roundNat]
    split
    · next hlow => exact hdown (hlow.elim le_of_lt fun heven => heven.1.le)
    · next hhigh => exact hup (not_lt.1 fun hlow => hhigh (Or.inl hlow))
  · rw [roundNat]
    split
    · next hlow => exact hdown hlow.le
    · next hhigh => exact hup (not_lt.1 hhigh)

/-- What is closer than one half to a whole number is rounded to it. -/
theorem IsNearest.roundNat_of_near (h : mode.IsNearest) (sign : Sign) (hq : 0 ≤ q) {n : ℕ}
    (hn : |(n : ℚ) - q| < 1 / 2) : mode.roundNat sign q = n := by
  have herror := h.abs_roundNat_sub_le sign hq
  have hdistance : |(mode.roundNat sign q : ℚ) - n| < 1 := by
    rw [abs_lt] at hn ⊢
    rw [abs_le] at herror
    constructor <;> linarith
  have hint : |(mode.roundNat sign q : ℤ) - n| < 1 := by exact_mod_cast hdistance
  rw [Int.abs_lt_one_iff, sub_eq_zero] at hint
  exact_mod_cast hint

end RoundingMode

/-! ## Roundings -/

namespace Context

variable {c d : Context} {sign sign' : Sign} {v w : ℚ}

/-- Every mode stays within one last place. -/
theorem abs_rounded_sub_lt (c : Context) (sign : Sign) (hv : 0 ≤ v) :
    |c.rounded sign v - v| < 2 ^ c.format.place v := by
  have hpos := two_zpow_pos (c.format.place v)
  have hunits := c.mode.abs_roundNat_sub_lt sign (div_nonneg hv hpos.le)
  have hscaled : c.rounded sign v - v =
      (c.mode.roundNat sign (v / 2 ^ c.format.place v) - v / 2 ^ c.format.place v) *
        2 ^ c.format.place v := by
    rw [sub_mul, div_mul_cancel₀ _ hpos.ne']
    rfl
  rw [hscaled, abs_mul, abs_of_pos hpos]
  exact mul_lt_of_lt_one_left hpos hunits

/-- What is closer than half a last place to a multiple of it is rounded to that. -/
theorem rounded_of_near (h : c.mode.IsNearest) (sign : Sign) (hv : 0 ≤ v) {n : ℕ}
    (hn : |n * 2 ^ c.format.place v - v| < 2 ^ (c.format.place v - 1)) :
    c.rounded sign v = n * 2 ^ c.format.place v := by
  have hpos := two_zpow_pos (c.format.place v)
  have hunits : |(n : ℚ) - v / 2 ^ c.format.place v| < 1 / 2 := by
    rw [sub_div' hpos.ne', abs_div, abs_of_pos hpos, div_lt_iff₀ hpos]
    rw [zpow_sub_one₀ (by norm_num)] at hn
    linarith
  rw [rounded, h.roundNat_of_near sign (div_nonneg hv hpos.le) hunits]

/-- Rounded to a candidate of `c` that is nearer than half a last place, a number is
still rounded by `c` as it was. -/
theorem rounded_candidate (h : c.mode.IsNearest) (sign : Sign) (hv : 0 < v) {m : ℕ}
    (heven : Even m) (hw : w = m * 2 ^ (c.format.place v - 1))
    (hnear : |w - v| < 2 ^ (c.format.place v - 1)) : c.rounded sign w = c.rounded sign v := by
  obtain ⟨n, rfl⟩ := heven
  have hplaces : w = n * 2 ^ c.format.place v := by
    rw [hw, zpow_sub_one₀ (by norm_num)]
    push_cast
    ring
  have hround : c.rounded sign v = w := by
    rw [hplaces]
    exact c.rounded_of_near h sign hv.le (hplaces ▸ hnear)
  conv => lhs; rw [← hround]
  exact c.rounded_of_whole sign (c.rounded_whole sign hv)

/-- The rounding in `d` does not move `v` to a point halfway between two candidates
of the rounding in `c`. -/
def ClearOfMidpoints (d c : Context) (sign : Sign) (v : ℚ) : Prop :=
  ∀ m : ℕ, d.rounded sign v = m * 2 ^ (c.format.place v - 1) → d.rounded sign v = v ∨ Even m

/-- A rounding with finer places may be put in front of a rounding to nearest, unless it
leads to a midpoint. -/
theorem rounded_rounded (h : c.mode.IsNearest) (hv : 0 < v)
    (hfine : d.format.place v < c.format.place v) (hmid : d.ClearOfMidpoints c sign' v) :
    c.rounded sign (d.rounded sign' v) = c.rounded sign v := by
  by_cases hexact : d.rounded sign' v = v
  · rw [hexact]
  have hk : d.format.place v ≤ c.format.place v - 1 := by omega
  have hunit := two_zpow_pos (c.format.place v - 1)
  generalize hm : ⌊v / 2 ^ (c.format.place v - 1)⌋₊ = m
  have hfloor : (m : ℚ) ≤ v / 2 ^ (c.format.place v - 1) :=
    hm ▸ Nat.floor_le (div_nonneg hv.le hunit.le)
  have hceil : v / 2 ^ (c.format.place v - 1) < m + 1 := hm ▸ Nat.lt_floor_add_one _
  rw [le_div_iff₀ hunit] at hfloor
  rw [div_lt_iff₀ hunit] at hceil
  -- Both numbers lie in one half cell, and `v` on none of its ends.
  have hlow := d.mul_le_rounded sign' hk hfloor
  have hhigh := d.rounded_le_mul sign' (n := m + 1) hk (by exact_mod_cast hceil.le)
  have hinside : m * 2 ^ (c.format.place v - 1) < v := by
    refine hfloor.lt_of_ne fun hend => hexact ?_
    exact le_antisymm ((d.rounded_le_mul sign' hk hend.ge).trans_eq hend) (hend.ge.trans hlow)
  push_cast at hhigh
  rcases hlow.eq_or_lt with hend | hlow
  · refine rounded_candidate h sign hv ((hmid m hend.symm).resolve_left hexact) hend.symm ?_
    rw [← hend, abs_lt]
    constructor <;> linarith
  rcases hhigh.eq_or_lt with hend | hhigh
  · have hend' : d.rounded sign' v = ((m + 1 : ℕ) : ℚ) * 2 ^ (c.format.place v - 1) := by
      rw [hend, Nat.cast_succ]
    refine rounded_candidate h sign hv ((hmid _ hend').resolve_left hexact) hend' ?_
    rw [hend, abs_lt]
    constructor <;> linarith
  · have hcell : InCell m (c.format.place v - 1) v := ⟨hinside, hceil⟩
    exact (hcell.rounded_congr ⟨hlow, hhigh⟩ (by omega) sign).1.symm

end Context
end CrossFloat
