/-
Arithmetic carried out in a wider format.

The result of an operation on values of a narrow format may be computed in a format
that is wide enough and converted afterwards, if the rounding goes to nearest.  Up to
the flags it is the result of the operation in the narrow format.  The 32-bit format
can be folded into the 64-bit one in this way.

For numbers each operation is a single rounding of an exact result, so this is the
question when rounding twice is harmless.  The other results (infinities, NaNs, and the
zeros that are exact) do not depend on the format, apart from the cut of a payload,
which is short enough already.
-/
import CrossFloat.Proofs.Complex
import CrossFloat.Proofs.Rounding.Twice
import CrossFloat.Proofs.WellFormed

namespace CrossFloat

/-! ## Operations as roundings of a magnitude -/

theorem Sign.eq_of_negative_iff {s t : Sign} (h : s = negative ↔ t = negative) : s = t := by
  cases s with
  | negative => exact (h.1 rfl).symm
  | positive =>
    cases t with
    | positive => rfl
    | negative => exact h.2 rfl

theorem Context.roundRat_zero (c : Context) (sign : Sign) (flags : Flags) :
    c.roundRat sign 0 flags =
      ⟨if c.format.hasNegativeZero then sign else .positive, flags, .zero⟩ := by
  rw [roundRat, if_pos rfl, Format.raise_zero]

/-- A sum that is exactly zero is a zero, with the sign that addition gives it. -/
theorem CorrectSum.eq_zero {c : Context} {x y r : Value} {signY : Sign}
    (h : CorrectSum c x y signY 0 r) :
    r = (c.format.zero (if x.isZero ∧ y.isZero ∧ x.sign = signY then signY
      else c.zeroSumSign)).raise (x.flags ∪ y.flags) := by
  have hsign : r.sign = if c.format.hasNegativeZero then
      (if x.isZero ∧ y.isZero ∧ x.sign = signY then signY else c.zeroSumSign) else .positive := by
    by_cases hsigned : c.format.hasNegativeZero = true
    · rw [if_pos hsigned]
      by_cases hcommon : x.isZero ∧ y.isZero ∧ x.sign = signY
      · rw [if_pos hcommon]
        exact h.common rfl hsigned hcommon
      · rw [if_neg hcommon]
        refine Sign.eq_of_negative_iff ?_
        rw [h.cancelled rfl hsigned hcommon, c.zeroSumSign_eq_negative_iff]
    · rw [if_neg hsigned]
      exact h.unsigned rfl hsigned
  obtain ⟨hmagnitude, hflags⟩ := h.zero rfl
  rw [Format.raise_zero, ← hsign, ← hflags, ← hmagnitude]

namespace Value

variable {x y : Value}

/-- The sign of a sum of numbers before it is rounded, where the second operand counts
with the sign `signY`. -/
def sumSign (x y : Value) (signY : Sign) (c : Context) : Sign :=
  if x.toRat + signY.factor * y.magnitude.toRat ≠ 0 then
    .ofRat (x.toRat + signY.factor * y.magnitude.toRat)
  else if x.isZero ∧ y.isZero ∧ x.sign = signY then signY
  else c.zeroSumSign

theorem round_sumWithSign (hx : x.IsNumber) (hy : y.IsNumber) (signY : Sign) (c : Context) :
    (x.sumWithSign y signY c).round c = c.roundRat (x.sumSign y signY c)
      |x.toRat + signY.factor * y.magnitude.toRat| (x.flags ∪ y.flags) := by
  have h := correctSum_sumWithSign hx hy signY c
  rw [sumSign]
  generalize x.toRat + signY.factor * y.magnitude.toRat = v at *
  by_cases hv : v = 0
  · subst hv
    rw [if_neg (not_not.2 rfl), abs_zero, Context.roundRat, if_pos rfl, h.eq_zero]
  · rw [if_pos hv]
    exact (h.rounded hv).eq_roundRat

/-- Real and complex arithmetic multiply numbers by the same computation. -/
theorem product_eq_pending (hx : x.IsNumber) (hy : y.IsNumber) (c : Context) :
    x.product y c = (Quantity.ofProduct x y).pending (x.flags ∪ y.flags) c := by
  obtain ⟨signX, flagsX, magnitudeX⟩ := x
  obtain ⟨signY, flagsY, magnitudeY⟩ := y
  rcases hx.cases with rfl | ⟨rangeX, exponentX, significandX, rfl, -⟩ <;>
    rcases hy.cases with rfl | ⟨rangeY, exponentY, significandY, rfl, -⟩ <;> rfl

theorem round_product_eq_ofProduct (hx : x.IsNumber) (hy : y.IsNumber) (c : Context) :
    (x.product y c).round c = c.roundRat (SignedRat.ofProduct x y).sign
      |(SignedRat.ofProduct x y).value| (x.flags ∪ y.flags) := by
  rw [product_eq_pending hx hy, (Quantity.exact_ofProduct hx hy).holds.round_pending]

theorem round_product (hx : x.IsNumber) (hy : y.IsNumber) (c : Context) :
    (x.product y c).round c = c.roundRat (x.sign.times y.sign)
      (x.magnitude.toRat * y.magnitude.toRat) (x.flags ∪ y.flags) := by
  rw [round_product_eq_ofProduct hx hy, SignedRat.ofProduct, abs_mul, abs_toRat, abs_toRat]

theorem round_quotient (hx : x.IsNumber) (hy : y.IsNumber) (hne : y.magnitude ≠ .zero)
    (c : Context) :
    (x.quotient y c).round c = c.roundRat (x.sign.times y.sign)
      (x.magnitude.toRat / y.magnitude.toRat) (x.flags ∪ y.flags) := by
  obtain ⟨signX, flagsX, magnitudeX⟩ := x
  obtain ⟨signY, flagsY, magnitudeY⟩ := y
  rcases hy.cases with rfl | ⟨rangeY, exponentY, significandY, rfl, hsY⟩
  · exact absurd rfl hne
  rcases hx.cases with rfl | ⟨rangeX, exponentX, significandX, rfl, hsX⟩
  · have hzero (r : ℚ) : Magnitude.zero.toRat / r = 0 := zero_div r
    rw [hzero, Context.roundRat, if_pos rfl]
    rfl
  · have hround := Nonzero.round_quotient (Nonzero.ofFinite_normalised signX exponentX hsX)
      (Nonzero.ofFinite_normalised signY exponentY hsY) (flagsX ∪ flagsY) c
    rw [Nonzero.toRat_ofFinite _ _ hsX, Nonzero.toRat_ofFinite _ _ hsY, mul_div_mul_comm,
      Sign.factor_div] at hround
    have hpos := div_pos (magnitude_pos rangeX exponentX hsX) (magnitude_pos rangeY exponentY hsY)
    rw [Magnitude.toRat, Magnitude.toRat] at hpos ⊢
    rw [Sign.ofRat_factor_mul _ hpos, Sign.abs_factor_mul, abs_of_pos hpos] at hround
    exact hround

end Value

/-! ## Results that fold -/

namespace Pending

/-- The result in `d`, converted to the format of `c`, is the result in `c` up to its
flags. -/
def FoldsTo (p q : Pending) (d c : Context) : Prop :=
  ((p.round d).convert c).clearFlags = (q.round c).clearFlags

variable {c d : Context} {sign : Sign} {flags : Flags} {r : Value}

theorem foldsTo_self (hkeeps : c.format.Keeps r) (hspecial : r.isFinite = false) :
    (settled r).FoldsTo (settled r) d c :=
  congrArg Value.clearFlags (Value.convert_of_special hkeeps hspecial)

theorem foldsTo_infinite :
    (settled ⟨sign, flags, .infinite⟩).FoldsTo (settled ⟨sign, flags, .infinite⟩) d c :=
  foldsTo_self (Or.inr (Or.inl rfl)) rfl

theorem foldsTo_invalid :
    (settled (Value.invalidResult flags)).FoldsTo (settled (Value.invalidResult flags)) d c :=
  foldsTo_self (Or.inr (Or.inr ⟨0, rfl, Format.trimPayload_eq_self_iff.2 (dvd_zero _)⟩)) rfl

variable (h : c.format.FoldsIn d.format)

include h

theorem foldsTo_nan {x : Value} {payload : UInt64} (hx : c.format.Contains x)
    (hpayload : x.magnitude = .nan payload) :
    (settled (Value.nanIn d.format sign flags payload)).FoldsTo
      (settled (Value.nanIn c.format sign flags payload)) d c := by
  have hspecial : x.isFinite = false := by rw [Value.isFinite, hpayload]
  have hwide := (h.keeps_special hx hspecial).trimPayload_eq hpayload
  have hnarrow := hx.keeps.trimPayload_eq hpayload
  rw [Value.nanIn, Value.nanIn, hwide, hnarrow]
  exact foldsTo_self (Or.inr (Or.inr ⟨payload, rfl, hnarrow⟩)) rfl

theorem foldsTo_zero :
    (settled ((d.format.zero sign).raise flags)).FoldsTo
      (settled ((c.format.zero sign).raise flags)) d c := by
  have hzero := Context.convert_roundRat_zero h sign flags flags
  rwa [Context.roundRat, Context.roundRat, if_pos rfl, if_pos rfl] at hzero

end Pending

/-! ## The operations -/

namespace Value

variable {x y : Value} {c d : Context}

section

variable (h : c.format.FoldsIn d.format) (hnearest : c.mode.IsNearest)

include h hnearest

theorem sumWithSign_foldsTo_of_isNumber (hmode : d.mode = c.mode) (hx : c.format.Represents x)
    (hy : c.format.Represents y) (hnumberX : x.IsNumber) (hnumberY : y.IsNumber) (signY : Sign) :
    (x.sumWithSign y signY d).FoldsTo (x.sumWithSign y signY c) d c := by
  have hsign : x.sumSign y signY d = x.sumSign y signY c := by
    rw [sumSign, sumSign, Context.zeroSumSign_eq, Context.zeroSumSign_eq, hmode]
  have hnumber {z : Value} (hz : c.format.Represents z) (sign : Sign) :
      c.format.HasNumber |sign.factor * z.magnitude.toRat| := by
    rw [Magnitude.abs_factor_mul]
    exact hz.number
  rw [Pending.FoldsTo, round_sumWithSign hnumberX hnumberY, round_sumWithSign hnumberX hnumberY,
    hsign]
  by_cases hzero : x.toRat + signY.factor * y.magnitude.toRat = 0
  · rw [hzero, abs_zero]
    exact Context.convert_roundRat_zero h _ _ _
  · exact Context.convert_roundRat h hnearest
      (h.inRange_add (hnumber hx x.sign) (hnumber hy signY) hzero)
      (Context.clearOfMidpoints_add h _ (hnumber hx x.sign) (hnumber hy signY) hzero) _ _

theorem sumWithSign_foldsTo (hmode : d.mode = c.mode) (hx : c.format.Contains x)
    (hy : c.format.Contains y) (signY : Sign) :
    (x.sumWithSign y signY d).FoldsTo (x.sumWithSign y signY c) d c := by
  by_cases hfinite : x.isFinite = true ∧ y.isFinite = true
  · exact sumWithSign_foldsTo_of_isNumber h hnearest hmode (hx.represents hfinite.1)
      (hy.represents hfinite.2) (hx.wellFormed.isNumber hfinite.1)
      (hy.wellFormed.isNumber hfinite.2) signY
  obtain ⟨signX, flagsX, magnitudeX⟩ := x
  obtain ⟨signY', flagsY, magnitudeY⟩ := y
  cases magnitudeX with
  | nan payload => exact Pending.foldsTo_nan h hx rfl
  | infinite =>
    cases magnitudeY with
    | nan payload => exact Pending.foldsTo_nan h hy rfl
    | infinite =>
      rw [sumWithSign, sumWithSign]
      dsimp only
      split
      · exact Pending.foldsTo_infinite
      · exact Pending.foldsTo_invalid
    | zero | finite => exact Pending.foldsTo_infinite
  | zero | finite =>
    cases magnitudeY with
    | nan payload => exact Pending.foldsTo_nan h hy rfl
    | infinite => exact Pending.foldsTo_infinite
    | zero | finite => exact absurd ⟨rfl, rfl⟩ hfinite

theorem product_foldsTo_of_isNumber (hx : c.format.HasNumber x.magnitude.toRat)
    (hy : c.format.HasNumber y.magnitude.toRat) (hnumberX : x.IsNumber) (hnumberY : y.IsNumber) :
    (x.product y d).FoldsTo (x.product y c) d c := by
  rw [Pending.FoldsTo, round_product hnumberX hnumberY, round_product hnumberX hnumberY]
  rcases hx.nonneg.eq_or_lt with hzero | hposX
  · rw [← hzero, zero_mul]
    exact Context.convert_roundRat_zero h _ _ _
  rcases hy.nonneg.eq_or_lt with hzero | hposY
  · rw [← hzero, mul_zero]
    exact Context.convert_roundRat_zero h _ _ _
  · exact Context.convert_roundRat h hnearest (h.inRange_mul hx hy hposX hposY)
      (fun _ _ => Or.inl (Context.rounded_mul h _ hx hy hposX hposY)) _ _

theorem product_foldsTo (hx : c.format.Contains x) (hy : c.format.Contains y) :
    (x.product y d).FoldsTo (x.product y c) d c := by
  by_cases hfinite : x.isFinite = true ∧ y.isFinite = true
  · exact product_foldsTo_of_isNumber h hnearest (hx.represents hfinite.1).number
      (hy.represents hfinite.2).number (hx.wellFormed.isNumber hfinite.1)
      (hy.wellFormed.isNumber hfinite.2)
  obtain ⟨signX, flagsX, magnitudeX⟩ := x
  obtain ⟨signY, flagsY, magnitudeY⟩ := y
  cases magnitudeX with
  | nan payload => exact Pending.foldsTo_nan h hx rfl
  | infinite =>
    cases magnitudeY with
    | nan payload => exact Pending.foldsTo_nan h hy rfl
    | zero => exact Pending.foldsTo_invalid
    | infinite | finite => exact Pending.foldsTo_infinite
  | zero =>
    cases magnitudeY with
    | nan payload => exact Pending.foldsTo_nan h hy rfl
    | infinite => exact Pending.foldsTo_invalid
    | zero | finite => exact absurd ⟨rfl, rfl⟩ hfinite
  | finite =>
    cases magnitudeY with
    | nan payload => exact Pending.foldsTo_nan h hy rfl
    | infinite => exact Pending.foldsTo_infinite
    | zero | finite => exact absurd ⟨rfl, rfl⟩ hfinite

theorem quotient_foldsTo_of_isNumber (hx : c.format.HasNumber x.magnitude.toRat)
    (hy : c.format.HasNumber y.magnitude.toRat) (hnumberX : x.IsNumber) (hnumberY : y.IsNumber)
    (hne : y.magnitude ≠ .zero) : (x.quotient y d).FoldsTo (x.quotient y c) d c := by
  have hposY : 0 < y.magnitude.toRat := by
    rcases hnumberY.cases with hzero | ⟨range, exponent, significand, hm, hs⟩
    · exact absurd hzero hne
    · rw [hm]
      exact magnitude_pos range exponent hs
  rw [Pending.FoldsTo, round_quotient hnumberX hnumberY hne, round_quotient hnumberX hnumberY hne]
  rcases hx.nonneg.eq_or_lt with hzero | hposX
  · rw [← hzero, zero_div]
    exact Context.convert_roundRat_zero h _ _ _
  · exact Context.convert_roundRat h hnearest (h.inRange_div hx hy hposX hposY)
      (Context.clearOfMidpoints_div h _ hx hy hposX hposY) _ _

theorem quotient_foldsTo (hx : c.format.Contains x) (hy : c.format.Contains y) :
    (x.quotient y d).FoldsTo (x.quotient y c) d c := by
  by_cases hfinite : x.isFinite = true ∧ y.isFinite = true ∧ y.magnitude ≠ .zero
  · exact quotient_foldsTo_of_isNumber h hnearest (hx.represents hfinite.1).number
      (hy.represents hfinite.2.1).number (hx.wellFormed.isNumber hfinite.1)
      (hy.wellFormed.isNumber hfinite.2.1) hfinite.2.2
  obtain ⟨signX, flagsX, magnitudeX⟩ := x
  obtain ⟨signY, flagsY, magnitudeY⟩ := y
  cases magnitudeX with
  | nan payload => exact Pending.foldsTo_nan h hx rfl
  | infinite =>
    cases magnitudeY with
    | nan payload => exact Pending.foldsTo_nan h hy rfl
    | infinite => exact Pending.foldsTo_invalid
    | zero | finite => exact Pending.foldsTo_infinite
  | zero =>
    cases magnitudeY with
    | nan payload => exact Pending.foldsTo_nan h hy rfl
    | zero => exact Pending.foldsTo_invalid
    | infinite => exact Pending.foldsTo_zero h
    | finite => exact absurd ⟨rfl, rfl, Magnitude.noConfusion⟩ hfinite
  | finite =>
    cases magnitudeY with
    | nan payload => exact Pending.foldsTo_nan h hy rfl
    | zero => exact Pending.foldsTo_infinite
    | infinite => exact Pending.foldsTo_zero h
    | finite => exact absurd ⟨rfl, rfl, Magnitude.noConfusion⟩ hfinite

end

/-- With ties to even, arithmetic on values of the 32-bit format may be carried
out in the 64-bit format.  The result converted back is that of the 32-bit format, up
to its flags. -/
theorem arithmetic_folds_in_double (hc : c.format = .single) (hd : d.format = .double)
    (hmodeC : c.mode = .nearestEven) (hmodeD : d.mode = .nearestEven)
    (hx : Format.single.Contains x) (hy : Format.single.Contains y) :
    ((x.add y d).convert c).clearFlags = (x.add y c).clearFlags ∧
      ((x.sub y d).convert c).clearFlags = (x.sub y c).clearFlags ∧
      ((x.mul y d).convert c).clearFlags = (x.mul y c).clearFlags ∧
      ((x.div y d).convert c).clearFlags = (x.div y c).clearFlags := by
  have h : c.format.FoldsIn d.format := hc ▸ hd ▸ Format.single_foldsIn_double
  have hnearest : c.mode.IsNearest := Or.inl hmodeC
  have hmode : d.mode = c.mode := hmodeD.trans hmodeC.symm
  rw [← hc] at hx hy
  exact ⟨sumWithSign_foldsTo h hnearest hmode hx hy y.sign,
    sumWithSign_foldsTo h hnearest hmode hx hy y.sign.flip, product_foldsTo h hnearest hx hy,
    quotient_foldsTo h hnearest hx hy⟩

/-- The square of the largest number overflows in the 32-bit format only. -/
theorem arithmetic_folds_in_double_maxFinite :
    let c : Context := ⟨.single, some .nearestEven⟩
    let d : Context := ⟨.double, none⟩
    let x := Format.single.maxFinite .negative
    c.mode = .nearestEven ∧ d.mode = .nearestEven ∧ Format.single.Contains x ∧
      (x.mul x d).isFinite = true ∧ (x.mul x c).isInfinite = true ∧
      ((x.mul x d).convert c).clearFlags = (x.mul x c).clearFlags := by
  intro c d x
  have hx : Format.single.Contains x := (Format.single.represents_maxFinite .negative).contains
  obtain ⟨-, -, hmul, -⟩ :=
    arithmetic_folds_in_double (c := c) (d := d) rfl rfl rfl rfl hx hx
  exact ⟨rfl, rfl, hx, by decide +kernel, by decide +kernel, hmul⟩

end Value
end CrossFloat
