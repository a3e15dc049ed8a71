/-
Comparison agrees with subtraction under gradual underflow.

All numbers of a format are whole counts of the last place of its smallest normal
numbers, and so are their differences.  A difference that is not zero is therefore
at least one such place.  If it is below the normal range it has this last place
and is kept as it is, and above that range no rounding leads to zero.
-/
import CrossFloat.Proofs.Order
import CrossFloat.Proofs.Rounding.Grid

namespace CrossFloat

theorem Sign.ofRat_eq_negative_iff (v : ℚ) : ofRat v = negative ↔ v < 0 := by
  by_cases h : v < 0 <;> simp [ofRat, ofNegative, h]

/-- A count of least places that is not zero is not rounded to zero. -/
theorem Context.rounded_pos (c : Context) (sign : Sign) {v : ℚ}
    (hcount : v ∈ grid (c.format.lastPlace c.format.minExponent)) (hv : 0 < v) :
    0 < c.rounded sign v := by
  rcases lt_or_ge v (2 ^ c.format.minExponent) with htiny | hnormal
  · rw [c.rounded_of_mem_grid sign hcount hv.le (Format.place_of_tiny hv htiny).le]
    exact hv
  · exact (two_zpow_pos _).trans_le (c.rounded_normal sign hnormal)

namespace Value

variable {x y : Value} {c : Context}

theorem kind_eq_zero_iff : x.kind = .zero ↔ x.magnitude = .zero := by
  rw [← isZero_iff, isZero, beq_iff_eq]

/-- A difference of numbers of the format is rounded to a number of its sign. -/
theorem sub_of_ne (hgradual : c.format.underflow = .gradual) (hx : c.format.Represents x)
    (hy : c.format.Represents y) (hnumberX : x.IsNumber) (hnumberY : y.IsNumber)
    (hne : x.toRat - y.toRat ≠ 0) :
    (x.sub y c).sign = Sign.ofRat (x.toRat - y.toRat) ∧ (x.sub y c).magnitude ≠ .zero ∧
      (x.sub y c).isNan = false := by
  have hrounded := ((correctSum_sub hnumberX hnumberY c).rounded hne).eq_roundRat
  have hpos : 0 < |x.toRat - y.toRat| := abs_pos.2 hne
  have hcount : |x.toRat - y.toRat| ∈ grid (c.format.lastPlace c.format.minExponent) :=
    abs_mem_iff.2 (sub_mem hx.toRat_mem_grid hy.toRat_mem_grid)
  have hflush : ¬ c.format.Flushes |x.toRat - y.toRat| := by
    rintro ⟨-, hsudden⟩
    exact absurd (hgradual.symm.trans hsudden) (by decide)
  have hkept := c.rounded_pos (Sign.ofRat (x.toRat - y.toRat)) hcount hpos
  rw [hrounded]
  obtain ⟨hsign, hzero⟩ := c.sign_roundRat _ (x.flags ∪ y.flags) hpos hflush hkept
  exact ⟨hsign, hzero, c.isNan_roundRat _ _ hpos.le⟩

/-- With gradual underflow the difference of two numbers of a format is zero if they
compare as equal.  Otherwise it is not, and it is negative if the first is less. -/
theorem compare_agrees_with_sub (hgradual : c.format.underflow = .gradual)
    (hx : c.format.Contains x) (hy : c.format.Contains y) (hfiniteX : x.isFinite)
    (hfiniteY : y.isFinite) :
    ((x.sub y c).kind = .zero ↔ x.compare y = .equal) ∧
      (x.compare y ≠ .equal →
        ¬ (x.sub y c).isNan ∧ (x.sub y c).kind ≠ .zero ∧
          ((x.sub y c).sign = .negative ↔ x.compare y = .less)) := by
  have hreflects := compare_reflects_toRat hx.wellFormed hy.wellFormed hfiniteX hfiniteY
  have hnumberX := hx.wellFormed.isNumber hfiniteX
  have hnumberY := hy.wellFormed.isNumber hfiniteY
  rw [hreflects.equal, hreflects.less, kind_eq_zero_iff]
  by_cases hzero : x.toRat - y.toRat = 0
  · have hequal : x.toRat = y.toRat := sub_eq_zero.1 hzero
    have hmagnitude := ((correctSum_sub hnumberX hnumberY c).zero hzero).1
    exact ⟨iff_of_true hmagnitude hequal, fun hne => absurd (hreflects.equal.2 hequal) hne⟩
  · obtain ⟨hsign, hmagnitude, hnan⟩ := sub_of_ne hgradual (hx.represents hfiniteX)
      (hy.represents hfiniteY) hnumberX hnumberY hzero
    refine ⟨iff_of_false hmagnitude (fun h => hzero (sub_eq_zero.2 h)), fun _ => ?_⟩
    rw [hsign, hnan, Sign.ofRat_eq_negative_iff, sub_neg]
    exact ⟨Bool.false_ne_true, kind_eq_zero_iff.not.2 hmagnitude, Iff.rfl⟩

/-- The largest numbers of either sign, whose difference overflows, in a base-16
format with gradual underflow. -/
theorem compare_agrees_with_sub_maxFinite :
    let F : Format := ⟨.hexadecimal ⟨7, 6, by decide, by decide⟩, .towardZero, .gradual⟩
    let c := F.alone
    let x := F.maxFinite .negative
    let y := F.maxFinite .positive
    c.format.underflow = .gradual ∧ c.format.Contains x ∧ c.format.Contains y ∧ x.isFinite ∧
      y.isFinite ∧ x.compare y = .less ∧ (x.sub y c).kind ≠ .zero ∧
      (x.sub y c).sign = .negative := by
  intro F c x y
  have hx : c.format.Contains x := (F.represents_maxFinite .negative).contains
  have hy : c.format.Contains y := (F.represents_maxFinite .positive).contains
  have hless : x.compare y = .less := by decide
  obtain ⟨-, hagrees⟩ := compare_agrees_with_sub rfl hx hy rfl rfl
  obtain ⟨-, hkind, hsign⟩ := hagrees (by rw [hless]; decide)
  exact ⟨rfl, hx, hy, rfl, rfl, hless, hkind, hsign.2 hless⟩

end Value
end CrossFloat
