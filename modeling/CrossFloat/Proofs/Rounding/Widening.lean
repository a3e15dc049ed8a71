/-
Widening is exact, and narrowing undoes it.

A binary format extends another one if it has at least the same precision and
largest exponent, and if its least place reaches as far down.  Its numbers then
include those of the narrower format, so a conversion into it changes no number.  It
may change the form, since what was below the normal range can be inside it now.

The way back meets a number that the narrower format has, which is stored in the one
form that this format has for it.  No mode takes part in either direction.
-/
import CrossFloat.Proofs.Rounding.Idempotent
import CrossFloat.Proofs.Rounding.Monotone

namespace CrossFloat
namespace Format

/-- The binary format `G` has the precision and the range of the binary format `F`,
and a negative zero if `F` has one. -/
structure WidensTo (F G : Format) : Prop where
  binary : F.digitWidth = 1
  binary_wide : G.digitWidth = 1
  precision_le : F.precision ≤ G.precision
  maxExponent_le : F.maxExponent ≤ G.maxExponent
  negativeZero : F.hasNegativeZero = true → G.hasNegativeZero = true
  gradual : G.underflow = .gradual → G.lastPlace G.minExponent ≤ F.lastPlace F.minExponent
  sudden : G.underflow = .sudden → G.minExponent ≤ F.lastPlace F.minExponent

variable {F G : Format} {sign : Sign} {r : ℚ}

/-! ## Numbers -/

theorem lastPlace_of_binary (h : F.digitWidth = 1) (exp : ℤ) :
    F.lastPlace exp = exp + 1 - F.precision := by
  rw [lastPlace, h, Nat.cast_one, Int.ediv_one, one_mul]

/-- A number is at least its last place. -/
theorem HasNumber.two_zpow_place_le (h : F.HasNumber r) (hpos : 0 < r) : 2 ^ F.place r ≤ r := by
  obtain ⟨count, hcount⟩ := h.whole
  have hone : (1 : ℚ) ≤ count := by
    rw [Nat.one_le_cast, Nat.one_le_iff_ne_zero]
    rintro rfl
    rw [Nat.cast_zero, zero_mul] at hcount
    exact hpos.ne' hcount
  conv => rhs; rw [hcount]
  exact le_mul_of_one_le_left (two_zpow_pos _).le hone

namespace WidensTo

/-- With sudden underflow the wide format has no numbers below its normal range, and
none of the narrow format are there. -/
theorem not_flushes (h : F.WidensTo G) (hr : F.HasNumber r) (hpos : 0 < r) :
    ¬ G.Flushes r := by
  rintro ⟨htiny, hsudden⟩
  have hplace := F.lastPlace_minExponent_le_place r
  have hleast := two_zpow_le_iff.2 ((h.sudden hsudden).trans hplace)
  exact htiny.not_ge (hleast.trans (hr.two_zpow_place_le hpos))

theorem place_le (h : F.WidensTo G) (hr : F.HasNumber r) (hpos : 0 < r) :
    G.place r ≤ F.place r := by
  have hprecision := h.precision_le
  have hleast := F.lastPlace_minExponent_le_place r
  have hown := F.lastPlace_mono (le_max_left (Int.log 2 r) F.minExponent)
  rw [lastPlace_of_binary h.binary (Int.log 2 r)] at hown
  rcases le_or_gt G.minExponent (Int.log 2 r) with hnormal | htiny
  · rw [place, max_eq_left hnormal, lastPlace_of_binary h.binary_wide]
    exact le_trans (by omega) hown
  · rw [place, max_eq_right htiny.le]
    have hgradual : G.underflow = .gradual := by
      cases hunderflow : G.underflow with
      | gradual => rfl
      | sudden => exact absurd ⟨(log_lt_iff hpos).1 htiny, hunderflow⟩ (h.not_flushes hr hpos)
    exact (h.gradual hgradual).trans hleast

/-- The wide format has the numbers of the narrow one. -/
theorem hasNumber (h : F.WidensTo G) (hr : F.HasNumber r) : G.HasNumber r := by
  rcases hr.nonneg.eq_or_lt with rfl | hpos
  · exact G.hasNumber_zero
  have hmax := h.maxExponent_le
  obtain ⟨count, hcount⟩ := hr.whole
  refine ⟨⟨count * 2 ^ (F.place r - G.place r).toNat, ?_⟩, ?_, Or.inr (h.not_flushes hr hpos)⟩
  · rw [Nat.cast_mul, mul_assoc, ← two_zpow_eq_natCast_mul (h.place_le hr hpos)]
    exact hcount
  · exact hr.lt.trans_le (two_zpow_le_iff.2 (by omega))

theorem payloadWidth_le (h : F.WidensTo G) : F.payloadWidth ≤ G.payloadWidth := by
  have hprecision := h.precision_le
  unfold payloadWidth
  omega

/-- The wide format keeps the infinities and the NaNs of the narrow one. -/
theorem keeps_special (h : F.WidensTo G) {x : Value} (hx : F.Contains x)
    (hspecial : x.isFinite = false) : G.Keeps x := by
  cases hx with
  | zero | normal | denormal => exact absurd hspecial.symm Bool.false_ne_true
  | infinite => exact Or.inr (Or.inl rfl)
  | nan hspecials hpayload =>
    have hwidth := h.payloadWidth_le
    refine Or.inr (Or.inr ⟨_, rfl, trimPayload_eq_self_iff.2 (dvd_trans ?_ hpayload)⟩)
    exact Nat.pow_dvd_pow 2 (by omega)

end WidensTo

theorem single_widensTo_double : single.WidensTo double where
  binary := rfl
  binary_wide := rfl
  precision_le := by decide
  maxExponent_le := by decide
  negativeZero _ := rfl
  gradual _ := by decide
  sudden h := absurd h (by decide)

theorem sign_store (h : r = 0 → F.hasNegativeZero = true ∨ sign = .positive) :
    (F.store sign r).sign = sign := by
  rw [store]
  split_ifs with hzero
  · show (if F.hasNegativeZero then sign else .positive) = sign
    rcases h hzero with hsigned | rfl
    · rw [if_pos hsigned]
    · exact ite_self _
  · rfl
  · rfl

/-- A format without a negative zero contains no negative zero. -/
theorem Represents.sign_of_zero {x : Value} (h : F.Represents x)
    (hzero : x.magnitude.toRat = 0) : F.hasNegativeZero = true ∨ x.sign = .positive := by
  have hsign := (h.stores.zero hzero).1
  by_cases hsigned : F.hasNegativeZero = true
  · exact Or.inl hsigned
  · exact Or.inr (hsign.trans (if_neg hsigned))

end Format

/-! ## Conversions -/

namespace Value

variable {x : Value} {c d : Context}

/-- A number of the format takes the form of that format in a conversion into it, from
whatever form, and only the report of a denormal result is raised. -/
theorem convert_of_hasNumber (hx : x.isFinite = true)
    (hnumber : d.format.HasNumber x.magnitude.toRat) :
    d.format.Represents (x.convert d) ∧
      (x.convert d).clearFlags = d.format.store x.sign x.magnitude.toRat ∧
      (x.convert d).flags = x.flags ∪ if (x.convert d).isDenormal then .onUnderflow else ∅ := by
  obtain ⟨hrepresents, -, hflags⟩ := d.exact_roundRat x.sign x.flags hnumber
  rw [convert_eq_roundRat hx]
  exact ⟨hrepresents, d.clearFlags_roundRat _ _ hnumber, hflags⟩

/-- A conversion into a wider format keeps the sign and the number, or the infinity or
the payload.  It raises nothing but the report of a denormal result.  The conversion
back restores the value up to its flags. -/
theorem convert_widens (h : c.format.WidensTo d.format) (hx : c.format.Contains x) :
    let y := x.convert d
    y.sign = x.sign ∧ y.isFinite = x.isFinite ∧ y.toRat = x.toRat ∧
      (¬ x.isFinite → y.magnitude = x.magnitude) ∧
      y.flags = x.flags ∪ (if y.isDenormal then .onUnderflow else ∅) ∧
      (y.convert c).clearFlags = x.clearFlags := by
  intro y
  cases hfinite : x.isFinite with
  | false =>
    have hy : y = x := convert_of_special (h.keeps_special hx hfinite) hfinite
    rw [hy, convert_of_special hx.keeps hfinite, isDenormal_eq_false hfinite]
    exact ⟨rfl, hfinite, rfl, fun _ => rfl, (Flags.union_empty _).symm, rfl⟩
  | true =>
    have hrepresents := hx.represents hfinite
    have hwide := h.hasNumber hrepresents.number
    obtain ⟨hy, hstored, hflags⟩ := convert_of_hasNumber hfinite hwide
    have hsign : y.sign = x.sign := by
      show y.clearFlags.sign = x.sign
      rw [hstored]
      exact Format.sign_store fun hzero =>
        (hrepresents.sign_of_zero hzero).imp_left h.negativeZero
    have hsize : y.magnitude.toRat = x.magnitude.toRat := by
      show y.clearFlags.magnitude.toRat = x.magnitude.toRat
      rw [hstored]
      exact (hwide.stores_store x.sign).toRat_eq hwide.nonneg
    have hback : c.format.HasNumber y.magnitude.toRat := hsize ▸ hrepresents.number
    refine ⟨hsign, hy.isFinite, ?_, fun hspecial => absurd rfl hspecial, hflags, ?_⟩
    · rw [toRat, toRat, hsign, hsize]
    · rw [(convert_of_hasNumber hy.isFinite hback).2.1, hsign, hsize, hrepresents.eq_store]

/-- The smallest number of the 32-bit format is a normal number of the 64-bit one. -/
theorem convert_widens_minPositive :
    let c : Context := ⟨.single, some .towardNegative⟩
    let d : Context := ⟨.double, some .towardPositive⟩
    let x := Format.single.minPositive .negative
    c.format.WidensTo d.format ∧ c.format.Contains x ∧ (x.convert d).isNormal = true ∧
      (x.convert d).toRat = x.toRat ∧ ((x.convert d).convert c).clearFlags = x.clearFlags := by
  intro c d x
  have hx : c.format.Contains x :=
    .denormal rfl (by decide) (by decide) ((c.format.toRat_eq_count_iff _ _ _ 1).2 (by decide))
  obtain ⟨-, -, hnumber, -, -, hback⟩ :=
    convert_widens (c := c) (d := d) Format.single_widensTo_double hx
  exact ⟨Format.single_widensTo_double, hx, by decide +kernel, hnumber, hback⟩

end Value
end CrossFloat
