/-
Formats that are wide enough for arithmetic in a narrower one.

If a format has more than twice the precision of another one, the operations on the
numbers of the narrow format are rounded by the wide one without harm.  A product
fits.  A quotient that is close to a point halfway between two candidates is that
point, because it differs from it by a count of last places over a short divisor.
A sum fits as well, unless its smaller operand lies below all places of the wide
format.  The larger one is then a candidate of the narrow rounding, and the sum is
so close to it that no midpoint comes in between.

The exponents of the wide format reach twice as far, so nothing overflows or gets
tiny in the first rounding.
-/
import CrossFloat.Proofs.Rounding.Grid
import CrossFloat.Proofs.Rounding.Nearest
import CrossFloat.Proofs.Rounding.Widening

namespace CrossFloat

variable {e k : ℤ} {v w : ℚ}

/-! ## Counts next to a quotient and next to a sum -/

theorem two_zpow_add_self (e : ℤ) : (2 : ℚ) ^ e + 2 ^ e = 2 ^ (e + 1) := by
  rw [← mul_two, zpow_add_one₀ (by norm_num)]

/-- A count of a place does not leave the binade of a number that it is close to. -/
theorem two_zpow_le_of_near {L : ℤ} (hw : w ∈ grid e) (he : e ≤ L) (hv : 2 ^ L ≤ v)
    (hnear : |v - w| < 2 ^ e) : 2 ^ L ≤ w := by
  by_contra hlt
  have hpower : (2 : ℚ) ^ L ∈ grid e := grid_anti he (two_zpow_mem_grid L)
  have hpos := two_zpow_pos e
  refine hlt (eq_of_abs_sub_lt hpower hw ?_).le
  rw [abs_lt] at hnear ⊢
  constructor <;> linarith

/-- A count of a place that is close to a quotient of short numbers is the quotient.
The distance, times the divisor, is a count of the finer of two places. -/
theorem eq_div_of_near {r s : ℚ} {i j l : ℤ} {p : ℕ} (hrpos : 0 < r) (hspos : 0 < s)
    (hr : r ∈ grid i) (hs : s ∈ grid j) (hshortR : r < 2 ^ (i + p)) (hshortS : s < 2 ^ (j + p))
    (hw : w ∈ grid k) (hk : Int.log 2 (r / s) - p ≤ k) (hl : l + 2 * p < Int.log 2 (r / s))
    (hnear : |w - r / s| < 2 ^ l) : w = r / s := by
  by_contra hne
  have hgrid : w * s - r ∈ grid (min i (k + j)) :=
    sub_mem (grid_anti (min_le_right _ _) (mul_mem_grid hw hs)) (grid_anti (min_le_left _ _) hr)
  have hnonzero : w * s - r ≠ 0 := fun hzero =>
    hne (eq_div_of_mul_eq hspos.ne' (sub_eq_zero.1 hzero))
  have hscaled : |w * s - r| < 2 ^ l * s := by
    have hfactor : w * s - r = (w - r / s) * s := by rw [sub_mul, div_mul_cancel₀ _ hspos.ne']
    rw [hfactor, abs_mul, abs_of_pos hspos]
    exact mul_lt_mul_of_pos_right hnear hspos
  have hbelow := (le_abs_of_mem_grid hgrid hnonzero).trans_lt hscaled
  rcases le_total i (k + j) with hle | hle
  · -- The dividend would be less than one of its own places.
    have hlog := (le_div_iff₀ hspos).1 (two_zpow_log_le (div_pos hrpos hspos))
    have hupper : 2 ^ l * s < 2 ^ (l - Int.log 2 (r / s) + (i + p)) := by
      calc 2 ^ l * s = 2 ^ (l - Int.log 2 (r / s)) * (2 ^ Int.log 2 (r / s) * s) := by
            rw [← mul_assoc, ← two_zpow_add, sub_add_cancel]
        _ ≤ 2 ^ (l - Int.log 2 (r / s)) * r := mul_le_mul_of_nonneg_left hlog (two_zpow_pos _).le
        _ < _ := by
          rw [two_zpow_add]
          exact mul_lt_mul_of_pos_left hshortR (two_zpow_pos _)
    rw [min_eq_left hle] at hbelow
    have hexponents := two_zpow_lt_iff.1 (hbelow.trans hupper)
    omega
  · have hupper : 2 ^ l * s < 2 ^ (l + (j + p)) := by
      rw [two_zpow_add]
      exact mul_lt_mul_of_pos_left hshortS (two_zpow_pos _)
    rw [min_eq_right hle] at hbelow
    have hexponents := two_zpow_lt_iff.1 (hbelow.trans hupper)
    omega

/-- If `b` is far smaller than `a`, which has at most `p` bits, then a count of half
places that is close to their sum is `a`, and so a count of whole places. -/
theorem even_of_near_add {a b : ℚ} {i L : ℤ} {p m : ℕ} (hL : Int.log 2 |a + b| = L)
    (hpos : 0 < |a + b|) (ha : a ∈ grid i) (hi : Int.log 2 |a| + 1 - p ≤ i)
    (hb : |b| < 2 ^ (L - p - 2)) (hnear : |(m * 2 ^ (L - p) - |a + b|)| < 2 ^ (L - p - 1)) :
    Even m := by
  have hlow : 2 ^ L ≤ |a + b| := hL ▸ two_zpow_log_le hpos
  have hdistance : |(|a + b| - |a|)| < 2 ^ (L - p - 1) := by
    have hbound := abs_abs_sub_abs_le (a + b) a
    rw [add_sub_cancel_left] at hbound
    exact hbound.trans_lt (hb.trans (two_zpow_lt_iff.2 (by omega)))
  obtain ⟨hupper, hlower⟩ := abs_lt.1 hdistance
  have hplace := two_zpow_add_self (L - p - 1)
  have hbinade := two_zpow_add_self (L - 1)
  rw [sub_add_cancel] at hplace hbinade
  -- At first `a` is only known not to be far below the binade of the sum.
  have hclose : 2 ^ (L - 1) ≤ |a| := by
    have hfar : (2 : ℚ) ^ (L - p - 1) ≤ 2 ^ (L - 1) := two_zpow_le_iff.2 (by omega)
    linarith
  have hapos : 0 < |a| := (two_zpow_pos _).trans_le hclose
  have hlog := (le_log_iff hapos).2 hclose
  have hsame : 2 ^ L ≤ |a| :=
    two_zpow_le_of_near (grid_anti (k := i) (by omega) (abs_mem_iff.2 ha)) (by omega) hlow
      (hdistance.trans (two_zpow_lt_iff.2 (sub_one_lt (L - p))))
  have hlog' := (le_log_iff hapos).2 hsame
  have hplaces : |a| ∈ grid (L - p + 1) := grid_anti (by omega) (abs_mem_iff.2 ha)
  have hcount : m * 2 ^ (L - p) = |a| := by
    refine eq_of_abs_sub_lt (natCast_mul_mem_grid m _) (grid_anti (by omega) hplaces) ?_
    rw [abs_lt] at hnear ⊢
    constructor <;> linarith
  obtain ⟨n, hn⟩ := mem_grid_iff.1 hplaces
  rw [← hn, zpow_add_one₀ (by norm_num), mul_comm (2 ^ (L - p)) (2 : ℚ), ← mul_assoc,
    mul_left_inj' (two_zpow_pos _).ne'] at hcount
  have heven : Even (m : ℤ) := ⟨n, by exact_mod_cast hcount.trans (mul_two _)⟩
  exact_mod_cast heven

/-! ## Formats -/

namespace Format

variable {F G : Format} {r s : ℚ}

/-- The numbers of the format lie between `2^(-reach)` and `2^reach`. -/
def reach (F : Format) : ℤ :=
  max (F.maxExponent + 1) (-F.lastPlace F.minExponent)

theorem HasNumber.lt_reach (h : F.HasNumber r) : r < 2 ^ F.reach :=
  h.lt.trans_le (two_zpow_le_iff.2 (le_max_left _ _))

theorem HasNumber.reach_le (h : F.HasNumber r) (hpos : 0 < r) : 2 ^ (-F.reach) ≤ r := by
  refine le_trans (two_zpow_le_iff.2 ?_) (h.two_zpow_place_le hpos)
  have hleast := F.lastPlace_minExponent_le_place r
  have hreach : -F.lastPlace F.minExponent ≤ F.reach := le_max_right _ _
  omega

theorem reach_pos (F : Format) : 0 < F.reach := by
  have hlast := F.lastPlace_le F.minExponent
  have hrange := F.minExponent_le_maxExponent
  rw [reach]
  omega

/-- The arithmetic of the binary format `F` may be carried out in `G`. -/
structure FoldsIn (F G : Format) : Prop extends F.WidensTo G where
  underflow : F.underflow = .gradual
  twice_precision : 2 * F.precision + 2 ≤ G.precision
  least : G.minExponent ≤ -(2 * F.reach)
  greatest : 2 * F.reach ≤ G.maxExponent

theorem single_foldsIn_double : single.FoldsIn double where
  toWidensTo := single_widensTo_double
  underflow := rfl
  twice_precision := by decide
  least := by decide
  greatest := by decide

/-- A number of a binary format has no more bits than the precision allows. -/
theorem HasNumber.lt_two_zpow_place (h : F.HasNumber r) (hbinary : F.digitWidth = 1) :
    r < 2 ^ (F.place r + F.precision) := by
  rcases h.nonneg.eq_or_lt with hzero | hpos
  · rw [← hzero]
    exact two_zpow_pos _
  · refine (lt_two_zpow_log hpos).trans_le (two_zpow_le_iff.2 ?_)
    rw [place, lastPlace_of_binary hbinary]
    omega

/-- The number is in the normal range, with a binade to spare. -/
structure InRange (G : Format) (v : ℚ) : Prop where
  least : 2 ^ G.minExponent ≤ v
  greatest : v ≤ 2 ^ G.maxExponent

theorem InRange.pos (h : G.InRange v) : 0 < v :=
  (two_zpow_pos _).trans_le h.least

namespace FoldsIn

variable (h : F.FoldsIn G)

include h

theorem inRange (hlow : 2 ^ (-(2 * F.reach)) ≤ v) (hhigh : v ≤ 2 ^ (2 * F.reach)) :
    G.InRange v :=
  ⟨(two_zpow_le_iff.2 h.least).trans hlow, hhigh.trans (two_zpow_le_iff.2 h.greatest)⟩

theorem inRange_mul (hr : F.HasNumber r) (hs : F.HasNumber s) (hrpos : 0 < r) (hspos : 0 < s) :
    G.InRange (r * s) := by
  apply h.inRange
  · rw [two_mul, neg_add, two_zpow_add]
    exact mul_le_mul (hr.reach_le hrpos) (hs.reach_le hspos) (two_zpow_pos _).le hrpos.le
  · rw [two_mul, two_zpow_add]
    exact mul_le_mul hr.lt_reach.le hs.lt_reach.le hspos.le (two_zpow_pos _).le

theorem inRange_div (hr : F.HasNumber r) (hs : F.HasNumber s) (hrpos : 0 < r) (hspos : 0 < s) :
    G.InRange (r / s) := by
  apply h.inRange
  · rw [le_div_iff₀ hspos]
    calc 2 ^ (-(2 * F.reach)) * s ≤ 2 ^ (-(2 * F.reach)) * 2 ^ F.reach :=
          mul_le_mul_of_nonneg_left hs.lt_reach.le (two_zpow_pos _).le
      _ = 2 ^ (-F.reach) := by
        rw [← two_zpow_add]
        congr 1
        omega
      _ ≤ r := hr.reach_le hrpos
  · rw [div_le_iff₀ hspos]
    calc r ≤ 2 ^ F.reach := hr.lt_reach.le
      _ = 2 ^ (2 * F.reach) * 2 ^ (-F.reach) := by
        rw [← two_zpow_add]
        congr 1
        omega
      _ ≤ 2 ^ (2 * F.reach) * s :=
          mul_le_mul_of_nonneg_left (hs.reach_le hspos) (two_zpow_pos _).le

theorem inRange_add {a b : ℚ} (ha : F.HasNumber |a|) (hb : F.HasNumber |b|) (hne : a + b ≠ 0) :
    G.InRange |a + b| := by
  have hreach := F.reach_pos
  have hleast : -F.lastPlace F.minExponent ≤ F.reach := le_max_right _ _
  apply h.inRange
  · have hgrid : a + b ∈ grid (F.lastPlace F.minExponent) :=
      add_mem ha.mem_least_grid hb.mem_least_grid
    exact (two_zpow_le_iff.2 (by omega)).trans (le_abs_of_mem_grid hgrid hne)
  · calc |a + b| ≤ |a| + |b| := abs_add_le a b
      _ ≤ 2 ^ F.reach + 2 ^ F.reach := add_le_add ha.lt_reach.le hb.lt_reach.le
      _ = 2 ^ (F.reach + 1) := two_zpow_add_self F.reach
      _ ≤ 2 ^ (2 * F.reach) := two_zpow_le_iff.2 (by omega)

theorem place_wide (hv : G.InRange v) : G.place v = Int.log 2 v + 1 - G.precision := by
  rw [place, max_eq_left ((le_log_iff hv.pos).2 hv.least), lastPlace_of_binary h.binary_wide]

theorem le_place_narrow (v : ℚ) : Int.log 2 v + 1 - F.precision ≤ F.place v := by
  rw [place, lastPlace_of_binary h.binary]
  omega

theorem place_lt (hv : G.InRange v) : G.place v < F.place v := by
  have hwide := h.place_wide hv
  have hnarrow := h.le_place_narrow v
  have hprecision := h.twice_precision
  have hthree := F.three_le_precision
  omega

end FoldsIn
end Format

/-! ## Operations rounded by the wide format -/

namespace Context

variable {c d : Context} {sign : Sign} {r s : ℚ}

/-- A product has at most twice as many bits as its factors. -/
theorem rounded_mul (h : c.format.FoldsIn d.format) (sign : Sign) (hr : c.format.HasNumber r)
    (hs : c.format.HasNumber s) (hrpos : 0 < r) (hspos : 0 < s) :
    d.rounded sign (r * s) = r * s := by
  have hpos := mul_pos hrpos hspos
  have hplace := h.place_wide (h.inRange_mul hr hs hrpos hspos)
  have hprecision := h.twice_precision
  have hlog : Int.log 2 (r * s) <
      c.format.place r + c.format.precision + (c.format.place s + c.format.precision) := by
    rw [log_lt_iff hpos, two_zpow_add]
    exact mul_lt_mul'' (hr.lt_two_zpow_place h.binary) (hs.lt_two_zpow_place h.binary) hrpos.le
      hspos.le
  exact d.rounded_of_mem_grid sign (mul_mem_grid hr.mem_grid hs.mem_grid) hpos.le (by omega)

/-- A quotient is not rounded to a midpoint unless it is one. -/
theorem clearOfMidpoints_div (h : c.format.FoldsIn d.format) (sign : Sign)
    (hr : c.format.HasNumber r) (hs : c.format.HasNumber s) (hrpos : 0 < r) (hspos : 0 < s) :
    d.ClearOfMidpoints c sign (r / s) := by
  intro m hm
  left
  have hwide := h.place_wide (h.inRange_div hr hs hrpos hspos)
  have hnarrow := h.le_place_narrow (r / s)
  have hprecision := h.twice_precision
  refine eq_div_of_near hrpos hspos hr.mem_grid hs.mem_grid (hr.lt_two_zpow_place h.binary)
    (hs.lt_two_zpow_place h.binary) (k := c.format.place (r / s) - 1) ?_ (by omega) ?_
    (d.abs_rounded_sub_lt sign (div_pos hrpos hspos).le)
  · rw [hm]
    exact natCast_mul_mem_grid _ _
  · omega

theorem clearOfMidpoints_add_of_le (h : c.format.FoldsIn d.format) (sign : Sign) {a b : ℚ}
    (ha : c.format.HasNumber |a|) (hb : c.format.HasNumber |b|) (hne : a + b ≠ 0)
    (hle : c.format.place |b| ≤ c.format.place |a|) : d.ClearOfMidpoints c sign |a + b| := by
  intro m hm
  have hrange := h.inRange_add ha hb hne
  have hwide := h.place_wide hrange
  have hprecision := h.twice_precision
  rcases le_or_gt (d.format.place |a + b|) (c.format.place |b|) with hcoarse | hfine
  · -- All places of the sum are places of the wide format.
    left
    refine d.rounded_of_mem_grid sign ?_ (abs_nonneg _) hcoarse
    exact abs_mem_iff.2 (add_mem (grid_anti hle ha.mem_grid_of_abs) hb.mem_grid_of_abs)
  right
  -- The sum is so large that it is normal in the narrow format as well.
  have hnormal : c.format.place |a + b| = Int.log 2 |a + b| + 1 - c.format.precision := by
    have hleast := c.format.lastPlace_minExponent_le_place |b|
    rw [Format.lastPlace_of_binary h.binary] at hleast
    rw [Format.place, Format.lastPlace_of_binary h.binary, max_eq_left (by omega)]
  have herror := d.abs_rounded_sub_lt sign (abs_nonneg (a + b))
  rw [hnormal] at hm
  refine even_of_near_add rfl hrange.pos ha.mem_grid_of_abs (h.le_place_narrow |a|) ?_ ?_
  · exact (hb.lt_two_zpow_place h.binary).trans_le (two_zpow_le_iff.2 (by omega))
  · have hhalf : Int.log 2 |a + b| - c.format.precision =
        Int.log 2 |a + b| + 1 - c.format.precision - 1 := by omega
    rw [hhalf, ← hm]
    exact herror.trans_le (two_zpow_le_iff.2 (by omega))

/-- A sum is not rounded to a midpoint unless it is one. -/
theorem clearOfMidpoints_add (h : c.format.FoldsIn d.format) (sign : Sign) {a b : ℚ}
    (ha : c.format.HasNumber |a|) (hb : c.format.HasNumber |b|) (hne : a + b ≠ 0) :
    d.ClearOfMidpoints c sign |a + b| := by
  rcases le_total (c.format.place |b|) (c.format.place |a|) with hle | hle
  · exact clearOfMidpoints_add_of_le h sign ha hb hne hle
  · rw [add_comm] at hne ⊢
    exact clearOfMidpoints_add_of_le h sign hb ha hne hle

/-! ## Results that are rounded twice -/

/-- Apart from the flags, a rounding depends on the rounded number only. -/
theorem clearFlags_roundRat_congr (hgradual : c.format.underflow = .gradual) (hr : 0 < r)
    (hs : 0 < s) (hround : c.rounded sign r = c.rounded sign s) (flags flags' : Flags) :
    (c.roundRat sign r flags).clearFlags = (c.roundRat sign s flags').clearFlags := by
  have hkept (v : ℚ) : ¬ c.format.Flushes v := fun hflush =>
    absurd (hgradual.symm.trans hflush.2) (by decide)
  rw [roundRat, roundRat, if_neg hr.ne', if_neg hs.ne', if_neg (hkept r), if_neg (hkept s), hround]
  split
  · rw [Intermediate.saturated, Intermediate.saturated]
    split <;> rfl
  · rfl

/-- What is in range with a binade to spare is rounded to a normal number. -/
theorem stores_roundRat_of_inRange (hr : d.format.InRange r) (sign : Sign) (flags : Flags) :
    (d.roundRat sign r flags).isFinite = true ∧ (d.roundRat sign r flags).sign = sign ∧
      (d.roundRat sign r flags).magnitude.toRat = d.rounded sign r := by
  have hplace := d.format.place_le r
  have hrange := d.format.minExponent_le_maxExponent
  have hlog : Int.log 2 r < d.format.maxExponent + 1 :=
    (log_lt_iff hr.pos).2 (hr.greatest.trans_lt (two_zpow_lt_iff.2 (by omega)))
  have hbelow := d.rounded_le sign (by omega) hr.greatest
  have hlt : d.rounded sign r < 2 ^ (d.format.maxExponent + 1) :=
    hbelow.trans_lt (two_zpow_lt_iff.2 (by omega))
  have hkept : ¬ d.format.Flushes r := fun hflush => hflush.1.not_ge hr.least
  obtain ⟨hstores, -⟩ := (correctRounding_roundRat hr.pos.le : CorrectRounding d sign r flags
    (d.roundRat sign r flags)).stored hr.pos.ne' hkept hlt
  have hnumber := d.hasNumber_rounded sign hr.pos hkept hlt
  exact ⟨(hstores.represents hnumber).isFinite, (hstores.normal (d.rounded_normal sign hr.least)).1,
    hstores.toRat_eq hnumber.nonneg⟩

/-- A number that the wide format has in range may be rounded by it first. -/
theorem convert_roundRat (h : c.format.FoldsIn d.format) (hnearest : c.mode.IsNearest)
    (hr : d.format.InRange r) (hmid : d.ClearOfMidpoints c sign r) (flags flags' : Flags) :
    ((d.roundRat sign r flags).convert c).clearFlags = (c.roundRat sign r flags').clearFlags := by
  obtain ⟨hfinite, hsign, hvalue⟩ := stores_roundRat_of_inRange hr sign flags
  have hpos : 0 < d.rounded sign r := (two_zpow_pos _).trans_le (d.rounded_normal sign hr.least)
  rw [Value.convert_eq_roundRat hfinite, hsign, hvalue]
  exact clearFlags_roundRat_congr h.underflow hpos hr.pos
    (rounded_rounded hnearest hr.pos (h.place_lt hr) hmid) _ _

theorem convert_roundRat_zero (h : c.format.FoldsIn d.format) (sign : Sign)
    (flags flags' : Flags) :
    ((d.roundRat sign 0 flags).convert c).clearFlags = (c.roundRat sign 0 flags').clearFlags := by
  rw [roundRat, roundRat, if_pos rfl, if_pos rfl]
  show Value.mk (if c.format.hasNegativeZero then
      (if d.format.hasNegativeZero then sign else .positive) else .positive) ∅ .zero =
    ⟨if c.format.hasNegativeZero then sign else .positive, ∅, .zero⟩
  by_cases hsigned : c.format.hasNegativeZero = true
  · rw [if_pos hsigned, if_pos hsigned, if_pos (h.negativeZero hsigned)]
  · rw [if_neg hsigned, if_neg hsigned]

end Context
end CrossFloat
