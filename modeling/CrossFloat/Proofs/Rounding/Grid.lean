/-
Numbers as whole counts of a place.

The counts of a place, of either sign, are closed under sums and differences, and the
counts of a coarser place are among those of a finer one.  Each number of a format is a
count of its own last place, and so of the least place that the format has.

The other way round, a count of a place is a number of the format if it is in range and
has no last place coarser than that one.  So the difference of two close numbers is a
number of the format: it is a count of the last place of the smaller one, and not
larger than that.
-/
import CrossFloat.Proofs.Rounding.Monotone
import Mathlib.Algebra.Group.Subgroup.Order
import Mathlib.Algebra.Group.Subgroup.ZPowers.Basic

namespace CrossFloat

/-! ## Whole counts of a place -/

/-- The whole counts, of either sign, of the place `2^e`. -/
def grid (e : ℤ) : AddSubgroup ℚ :=
  .zmultiples (2 ^ e)

variable {e k : ℤ} {v w : ℚ}

theorem mem_grid_iff : v ∈ grid e ↔ ∃ n : ℤ, n * 2 ^ e = v := by
  simp only [grid, AddSubgroup.mem_zmultiples_iff, zsmul_eq_mul]

theorem natCast_mul_mem_grid (n : ℕ) (e : ℤ) : (n : ℚ) * 2 ^ e ∈ grid e :=
  mem_grid_iff.2 ⟨n, by rw [Int.cast_natCast]⟩

theorem two_zpow_mem_grid (e : ℤ) : (2 : ℚ) ^ e ∈ grid e :=
  AddSubgroup.mem_zmultiples _

theorem grid_anti (h : e ≤ k) : grid k ≤ grid e := by
  intro v hv
  obtain ⟨n, rfl⟩ := mem_grid_iff.1 hv
  refine mem_grid_iff.2 ⟨n * 2 ^ (k - e).toNat, ?_⟩
  rw [two_zpow_eq_natCast_mul h]
  push_cast
  ring

theorem mul_mem_grid (hv : v ∈ grid e) (hw : w ∈ grid k) : v * w ∈ grid (e + k) := by
  obtain ⟨n, rfl⟩ := mem_grid_iff.1 hv
  obtain ⟨m, rfl⟩ := mem_grid_iff.1 hw
  refine mem_grid_iff.2 ⟨n * m, ?_⟩
  rw [two_zpow_add]
  push_cast
  ring

theorem le_abs_of_mem_grid (h : v ∈ grid e) (hv : v ≠ 0) : 2 ^ e ≤ |v| := by
  obtain ⟨n, rfl⟩ := mem_grid_iff.1 h
  have hn : n ≠ 0 := by
    rintro rfl
    exact hv (by rw [Int.cast_zero, zero_mul])
  have hone : (1 : ℚ) ≤ |(n : ℚ)| := by exact_mod_cast Int.one_le_abs hn
  rw [abs_mul, abs_of_pos (two_zpow_pos e)]
  exact le_mul_of_one_le_left (two_zpow_pos e).le hone

/-- Different counts of a place are at least that place apart. -/
theorem eq_of_abs_sub_lt (hv : v ∈ grid e) (hw : w ∈ grid e) (h : |v - w| < 2 ^ e) : v = w := by
  by_contra hne
  exact h.not_ge (le_abs_of_mem_grid (sub_mem hv hw) (sub_ne_zero.2 hne))

/-! ## Counts of the last places of a format -/

theorem Format.whole_of_mem_grid {F : Format} (h : v ∈ grid e) (hv : 0 ≤ v)
    (he : F.place v ≤ e) : ∃ count : ℕ, v = count * 2 ^ F.place v := by
  obtain ⟨n, hn⟩ := mem_grid_iff.1 (grid_anti he h)
  have hnonneg : 0 ≤ n := by
    rw [← hn] at hv
    exact_mod_cast nonneg_of_mul_nonneg_left hv (two_zpow_pos (F.place v))
  refine ⟨n.toNat, ?_⟩
  rw [← Int.cast_natCast n.toNat, Int.toNat_of_nonneg hnonneg, hn]

theorem Context.rounded_of_mem_grid (c : Context) (sign : Sign) (h : v ∈ grid e) (hv : 0 ≤ v)
    (he : c.format.place v ≤ e) : c.rounded sign v = v :=
  c.rounded_of_whole sign (Format.whole_of_mem_grid h hv he)

namespace Format

variable {F : Format} {r s : ℚ}

theorem HasNumber.mem_grid (h : F.HasNumber r) : r ∈ grid (F.place r) := by
  obtain ⟨n, hn⟩ := h.whole
  exact mem_grid_iff.2 ⟨n, by rw [Int.cast_natCast, ← hn]⟩

theorem HasNumber.mem_grid_of_abs {a : ℚ} (h : F.HasNumber |a|) : a ∈ grid (F.place |a|) :=
  abs_mem_iff.1 h.mem_grid

theorem HasNumber.mem_least_grid {a : ℚ} (h : F.HasNumber |a|) :
    a ∈ grid (F.lastPlace F.minExponent) :=
  grid_anti (F.lastPlace_minExponent_le_place _) h.mem_grid_of_abs

theorem Represents.hasNumber_abs {x : Value} (h : F.Represents x) : F.HasNumber |x.toRat| := by
  rw [Value.abs_toRat]
  exact h.number

theorem Represents.toRat_mem_grid {x : Value} (h : F.Represents x) :
    x.toRat ∈ grid (F.lastPlace F.minExponent) :=
  h.hasNumber_abs.mem_least_grid

/-- Below the normal range the last place is the least one. -/
theorem place_of_tiny (hpos : 0 < r) (htiny : r < 2 ^ F.minExponent) :
    F.place r = F.lastPlace F.minExponent := by
  rw [place, max_eq_right ((log_lt_iff hpos).2 htiny).le]

variable (hgradual : F.underflow = .gradual)

include hgradual

/-- A count of a place is a number of the format, if it is in range and its own last
place is no coarser. -/
theorem hasNumber_of_mem_grid (hr : r ∈ grid e) (hnonneg : 0 ≤ r) (he : 0 < r → F.place r ≤ e)
    (hlt : r < 2 ^ (F.maxExponent + 1)) : F.HasNumber r := by
  rcases hnonneg.eq_or_lt with rfl | hpos
  · exact F.hasNumber_zero
  · exact ⟨whole_of_mem_grid hr hnonneg (he hpos), hlt,
      Or.inr fun hflush => absurd (hgradual.symm.trans hflush.2) (by decide)⟩

/-- Below the normal range every count of the least place is a number of the format. -/
theorem hasNumber_of_tiny (hr : r ∈ grid (F.lastPlace F.minExponent)) (hnonneg : 0 ≤ r)
    (htiny : r < 2 ^ F.minExponent) : F.HasNumber r := by
  have hrange := F.minExponent_le_maxExponent
  exact hasNumber_of_mem_grid hgradual hr hnonneg (fun hpos => (place_of_tiny hpos htiny).le)
    (htiny.trans_le (two_zpow_le_iff.2 (by omega)))

/-- What is a count of the last place of a number, and not larger than it, is a number
as well. -/
theorem HasNumber.of_mem_grid (hs : F.HasNumber s) (hr : r ∈ grid (F.place s)) (hnonneg : 0 ≤ r)
    (hle : r ≤ s) : F.HasNumber r :=
  hasNumber_of_mem_grid hgradual hr hnonneg (fun hpos => F.place_mono hpos hle)
    (hle.trans_lt hs.lt)

theorem HasNumber.sub (hr : F.HasNumber r) (hs : F.HasNumber s) (hle : s ≤ r)
    (hclose : r ≤ 2 * s) : F.HasNumber (r - s) := by
  rcases hs.nonneg.eq_or_lt with rfl | hpos
  · rwa [sub_zero]
  have hcount : r - s ∈ grid (F.place s) :=
    sub_mem (grid_anti (F.place_mono hpos hle) hr.mem_grid) hs.mem_grid
  exact hs.of_mem_grid hgradual hcount (sub_nonneg.2 hle) (by linarith)

/-- The difference of two numbers is one if neither is more than twice the other. -/
theorem HasNumber.abs_sub (hr : F.HasNumber r) (hs : F.HasNumber s) (hrs : r ≤ 2 * s)
    (hsr : s ≤ 2 * r) : F.HasNumber |r - s| := by
  rcases le_total s r with hle | hle
  · rw [abs_of_nonneg (sub_nonneg.2 hle)]
    exact hr.sub hgradual hs hle hrs
  · rw [abs_sub_comm, abs_of_nonneg (sub_nonneg.2 hle)]
    exact hs.sub hgradual hr hle hsr

end Format
end CrossFloat
