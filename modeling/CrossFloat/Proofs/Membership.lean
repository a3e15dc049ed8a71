/-
Arithmetic stays inside its format, with one exception.

The values of a format are its zeros, its numbers in the form in which it stores
them, and its infinities and NaNs if it has any.  A rounding returns one of
these.  Beside the rounded results an operation has results of its own: the
zeros, the infinities that follow from infinite operands, and the NaNs.  All of
them are values of the format once the operands are.

The exception is a division by zero.  Its result is an infinity or a NaN also in
a format that has neither.
-/
import CrossFloat.Arithmetic
import CrossFloat.Integer
import CrossFloat.Proofs.Encoding

namespace CrossFloat

/-- The value is one of the format, with any flags. -/
inductive Format.Contains (F : Format) : Value → Prop
  | zero {sign : Sign} {flags : Flags} (hsign : F.hasNegativeZero = true ∨ sign = .positive) :
    F.Contains ⟨sign, flags, .zero⟩
  | normal {sign : Sign} {flags : Flags} {exponent : ℤ} {significand : UInt64} {count : ℕ}
    (hbit : 2 ^ 63 ≤ significand.toNat)
    (hmin : F.minExponent ≤ exponent) (hmax : exponent ≤ F.maxExponent)
    (hcount : (Magnitude.finite .normal exponent significand).toRat =
      count * 2 ^ F.lastPlace exponent) :
    F.Contains ⟨sign, flags, .finite .normal exponent significand⟩
  | denormal {sign : Sign} {flags : Flags} {significand : UInt64} {count : ℕ}
    (hgradual : F.underflow = .gradual)
    (hpos : 0 < significand.toNat) (hbit : significand.toNat < 2 ^ 63)
    (hcount : (Magnitude.finite .denormal F.minExponent significand).toRat =
      count * 2 ^ F.lastPlace F.minExponent) :
    F.Contains ⟨sign, flags, .finite .denormal F.minExponent significand⟩
  | infinite {sign : Sign} {flags : Flags} (hspecials : F.hasSpecials = true) :
    F.Contains ⟨sign, flags, .infinite⟩
  | nan {sign : Sign} {flags : Flags} {payload : UInt64} (hspecials : F.hasSpecials = true)
    (hpayload : 2 ^ (64 - F.payloadWidth) ∣ payload.toNat) :
    F.Contains ⟨sign, flags, .nan payload⟩

namespace Format

variable {F : Format} {x : Value} {sign : Sign} {flags : Flags}

/-! ## The values of a format -/

theorem trimPayload_eq_self_iff {payload : UInt64} :
    F.trimPayload payload = payload ↔ 2 ^ (64 - F.payloadWidth) ∣ payload.toNat := by
  constructor
  · intro h
    have hvalue := F.toNat_trimPayload payload
    rw [h] at hvalue
    exact Dvd.intro_left _ hvalue.symm
  · rintro ⟨q, hq⟩
    exact trimPayload_eq_self (q := q) (by rw [hq, mul_comm])

/-- The multiples of the last place, as numbers and in the bits of a significand. -/
theorem toRat_eq_count_iff (range : Range) (exponent : ℤ) (significand : UInt64) (count : ℕ) :
    (Magnitude.finite range exponent significand).toRat = count * 2 ^ F.lastPlace exponent ↔
      significand.toNat = count * 2 ^ F.lastBit exponent := by
  show (significand.toNat : ℚ) * 2 ^ (exponent - 63) = _ ↔ _
  rw [F.count_mul_zpow, mul_left_inj' (two_zpow_pos _).ne', Nat.cast_inj]

theorem Represents.contains (h : F.Represents x) : F.Contains x := by
  obtain ⟨sign, flags, magnitude⟩ := x
  cases magnitude with
  | zero =>
    refine .zero ?_
    by_cases hsigned : F.hasNegativeZero = true
    · exact Or.inl hsigned
    · exact Or.inr ((h.stores.zero rfl).1.trans (if_neg hsigned))
  | finite range exponent significand =>
    obtain ⟨hmin, hmax, ⟨count, hcount⟩, hcovers⟩ := h.parts rfl
    rw [← F.toRat_eq_count_iff range] at hcount
    cases range with
    | normal => exact .normal hcovers hmin hmax hcount
    | denormal =>
      obtain ⟨rfl, hbit⟩ := hcovers
      -- A zero has no significand, so the number is positive and was not flushed.
      have hne : (Magnitude.finite .denormal F.minExponent significand).toRat ≠ 0 :=
        fun h0 => Magnitude.noConfusion (h.stores.zero h0).2
      have hpos : 0 < significand.toNat := by
        refine Nat.pos_of_ne_zero fun h0 => hne ?_
        show (significand.toNat : ℚ) * _ = 0
        rw [h0, Nat.cast_zero, zero_mul]
      refine .denormal ?_ hpos hbit hcount
      by_contra hsudden
      refine h.number.kept.resolve_left hne ⟨(lt_two_zpow_iff_toNat_lt _ _).2 hbit, ?_⟩
      cases hunderflow : F.underflow with
      | gradual => exact absurd hunderflow hsudden
      | sudden => rfl
  | infinite | nan => exact absurd h.isFinite Bool.false_ne_true

/-- The values of a format are those that it has an encoding for. -/
theorem contains_iff_hasEncoding : F.Contains x ↔ F.HasEncoding x := by
  constructor
  · intro h
    cases h with
    | zero hsign => exact Or.inl (represents_zero hsign _)
    | normal hbit hmin hmax hcount =>
      exact Or.inl (represents_normal hmin hmax hbit ((F.toRat_eq_count_iff ..).1 hcount) _ _)
    | denormal hgradual hpos hbit hcount =>
      refine Or.inl (represents_denormal hgradual ?_ hbit
        ((F.toRat_eq_count_iff ..).1 hcount) _ _)
      rintro rfl
      exact absurd hpos (by decide)
    | infinite hspecials => exact Or.inr ⟨hspecials, Or.inl rfl⟩
    | nan hspecials hpayload =>
      exact Or.inr ⟨hspecials, Or.inr ⟨_, rfl, trimPayload_eq_self_iff.2 hpayload⟩⟩
  · rintro (h | ⟨hspecials, h | ⟨payload, hpayload, htrim⟩⟩)
    · exact h.contains
    · obtain ⟨sign, flags, magnitude⟩ := x
      obtain rfl : magnitude = .infinite := h
      exact .infinite hspecials
    · obtain ⟨sign, flags, magnitude⟩ := x
      obtain rfl : magnitude = .nan payload := hpayload
      exact .nan hspecials (trimPayload_eq_self_iff.1 htrim)

theorem Contains.represents (h : F.Contains x) (hx : x.isFinite = true) : F.Represents x := by
  rcases contains_iff_hasEncoding.1 h with hnumber | ⟨-, hinfinite | ⟨payload, hnan, -⟩⟩
  · exact hnumber
  · rw [Value.isFinite, hinfinite] at hx
    exact absurd hx Bool.false_ne_true
  · rw [Value.isFinite, hnan] at hx
    exact absurd hx Bool.false_ne_true

/-! ## Results without a rounding -/

theorem contains_zero (F : Format) (sign : Sign) (flags : Flags) :
    F.Contains ((F.zero sign).raise flags) := by
  refine .zero ?_
  by_cases hsigned : F.hasNegativeZero = true
  · exact Or.inl hsigned
  · exact Or.inr (if_neg hsigned)

theorem contains_nanIn (hspecials : F.hasSpecials = true) (sign : Sign) (flags : Flags)
    (payload : UInt64) : F.Contains (Value.nanIn F sign flags payload) :=
  .nan hspecials (trimPayload_eq_self_iff.1 (trimPayload_eq_self (F.toNat_trimPayload payload)))

theorem contains_invalidResult (hspecials : F.hasSpecials = true) (flags : Flags) :
    F.Contains (Value.invalidResult flags) :=
  .nan hspecials (dvd_zero _)

/-- Only a format with infinities and NaNs contains a value that is not a number. -/
theorem Contains.hasSpecials (h : F.Contains x) (hx : x.isFinite = false) :
    F.hasSpecials = true := by
  cases h with
  | zero | normal | denormal => exact absurd hx.symm Bool.false_ne_true
  | infinite hspecials | nan hspecials => exact hspecials

end Format

/-! ## Results of a rounding -/

theorem Intermediate.contains_round (u : Intermediate) (c : Context) :
    c.format.Contains (u.round c) := by
  rw [Format.contains_iff_hasEncoding, Intermediate.round_eq_roundRat]
  have hsize : 0 ≤ u.size := mul_nonneg (Nat.cast_nonneg _) (two_zpow_pos _).le
  rcases c.roundRat_represents u.sign u.flags hsize with ⟨hspecials, hinfinite⟩ | hnumber
  · exact Or.inr ⟨hspecials, Or.inl hinfinite⟩
  · exact Or.inl hnumber

namespace Value

variable {x y : Value} {c : Context}

open Format

/-! ## The operations -/

theorem contains_sumWithSign (hx : c.format.Contains x) (hy : c.format.Contains y)
    (signY : Sign) : c.format.Contains ((x.sumWithSign y signY c).round c) := by
  have hspecialsX := hx.hasSpecials
  have hspecialsY := hy.hasSpecials
  obtain ⟨signX, flagsX, magnitudeX⟩ := x
  obtain ⟨signY', flagsY, magnitudeY⟩ := y
  cases magnitudeX with
  | nan payload => exact contains_nanIn (hspecialsX rfl) ..
  | infinite =>
    cases magnitudeY with
    | nan payload => exact contains_nanIn (hspecialsY rfl) ..
    | infinite =>
      simp only [sumWithSign]
      split
      · exact .infinite (hspecialsX rfl)
      · exact contains_invalidResult (hspecialsX rfl) _
    | zero | finite => exact .infinite (hspecialsX rfl)
  | zero =>
    cases magnitudeY with
    | nan payload => exact contains_nanIn (hspecialsY rfl) ..
    | infinite => exact .infinite (hspecialsY rfl)
    | zero => exact contains_zero ..
    | finite => exact Intermediate.contains_round ..
  | finite =>
    cases magnitudeY with
    | nan payload => exact contains_nanIn (hspecialsY rfl) ..
    | infinite => exact .infinite (hspecialsY rfl)
    | zero => exact Intermediate.contains_round ..
    | finite =>
      simp only [sumWithSign]
      split
      · exact Intermediate.contains_round ..
      · exact contains_zero ..

theorem contains_product (hx : c.format.Contains x) (hy : c.format.Contains y) :
    c.format.Contains ((x.product y c).round c) := by
  have hspecialsX := hx.hasSpecials
  have hspecialsY := hy.hasSpecials
  obtain ⟨signX, flagsX, magnitudeX⟩ := x
  obtain ⟨signY, flagsY, magnitudeY⟩ := y
  cases magnitudeX with
  | nan payload => exact contains_nanIn (hspecialsX rfl) ..
  | infinite =>
    cases magnitudeY with
    | nan payload => exact contains_nanIn (hspecialsY rfl) ..
    | zero => exact contains_invalidResult (hspecialsX rfl) _
    | infinite | finite => exact .infinite (hspecialsX rfl)
  | zero =>
    cases magnitudeY with
    | nan payload => exact contains_nanIn (hspecialsY rfl) ..
    | infinite => exact contains_invalidResult (hspecialsY rfl) _
    | zero | finite => exact contains_zero ..
  | finite =>
    cases magnitudeY with
    | nan payload => exact contains_nanIn (hspecialsY rfl) ..
    | infinite => exact .infinite (hspecialsY rfl)
    | zero => exact contains_zero ..
    | finite => exact Intermediate.contains_round ..

theorem contains_quotient (hx : c.format.Contains x) (hy : c.format.Contains y)
    (hzero : c.format.hasSpecials = true ∨ ¬ y.isZero) :
    c.format.Contains ((x.quotient y c).round c) := by
  have hspecialsX := hx.hasSpecials
  have hspecialsY := hy.hasSpecials
  obtain ⟨signX, flagsX, magnitudeX⟩ := x
  obtain ⟨signY, flagsY, magnitudeY⟩ := y
  cases magnitudeX with
  | nan payload => exact contains_nanIn (hspecialsX rfl) ..
  | infinite =>
    cases magnitudeY with
    | nan payload => exact contains_nanIn (hspecialsY rfl) ..
    | infinite => exact contains_invalidResult (hspecialsX rfl) _
    | zero | finite => exact .infinite (hspecialsX rfl)
  | zero =>
    cases magnitudeY with
    | nan payload => exact contains_nanIn (hspecialsY rfl) ..
    | zero => exact contains_invalidResult (hzero.resolve_right fun h => h rfl) _
    | infinite | finite => exact contains_zero ..
  | finite =>
    cases magnitudeY with
    | nan payload => exact contains_nanIn (hspecialsY rfl) ..
    | zero => exact .infinite (hzero.resolve_right fun h => h rfl)
    | infinite => exact contains_zero ..
    | finite => exact Intermediate.contains_round ..

theorem isZero_iff : x.isZero = true ↔ x.magnitude = .zero := by
  obtain ⟨sign, flags, magnitude⟩ := x
  show (magnitude.kind == .zero) = true ↔ magnitude = .zero
  cases magnitude with
  | zero | infinite => simp [Magnitude.kind]
  | finite range => cases range <;> simp [Magnitude.kind]
  | nan payload => by_cases h : payload = 0 <;> simp [Magnitude.kind, h]

/-- A division by zero has no number as its result. -/
theorem isFinite_div_zero (x : Value) (hy : y.isZero = true) (c : Context) :
    (x.div y c).isFinite = false := by
  obtain ⟨signX, flagsX, magnitudeX⟩ := x
  obtain ⟨signY, flagsY, magnitudeY⟩ := y
  obtain rfl : magnitudeY = .zero := isZero_iff.1 hy
  cases magnitudeX <;> rfl

/-- Sums, differences and products of values of a format are values of the
format.  So are quotients, but for the division by zero where the format has no
infinities and NaNs. -/
theorem contains_arithmetic (hx : c.format.Contains x) (hy : c.format.Contains y) :
    c.format.Contains (x.add y c) ∧ c.format.Contains (x.sub y c) ∧
      c.format.Contains (x.mul y c) ∧
      (c.format.Contains (x.div y c) ↔ c.format.hasSpecials = true ∨ ¬ y.isZero) := by
  refine ⟨contains_sumWithSign hx hy _, contains_sumWithSign hx hy _, contains_product hx hy,
    fun hquotient => ?_, contains_quotient hx hy⟩
  by_contra hnone
  obtain ⟨hspecials, hzero⟩ := not_or.1 hnone
  exact hspecials (hquotient.hasSpecials (isFinite_div_zero x (not_not.1 hzero) c))

/-- The largest numbers of either sign, in a format that has neither the negative
zero of their sum nor the infinity beyond their product. -/
theorem contains_arithmetic_maxFinite :
    let c : Context := ⟨Format.double.withoutSpecials.withoutNegativeZero, some .towardNegative⟩
    let x := c.format.maxFinite .positive
    let y := c.format.maxFinite .negative
    c.format.Contains x ∧ c.format.Contains y ∧ c.format.Contains (x.add y c) ∧
      c.format.Contains (x.mul y c) ∧ c.format.Contains (x.div y c) := by
  intro c x y
  have hx : c.format.Contains x := (c.format.represents_maxFinite .positive).contains
  have hy : c.format.Contains y := (c.format.represents_maxFinite .negative).contains
  obtain ⟨hadd, -, hmul, hdiv⟩ := contains_arithmetic hx hy
  exact ⟨hx, hy, hadd, hmul, hdiv.2 (Or.inr (by decide))⟩

/-- One divided by zero, in a format without infinities. -/
theorem not_contains_one_div_zero :
    let c := Format.double.withoutSpecials.alone
    let one : Value := .ofNat 1 c
    let zero := c.format.zero .positive
    c.format.Contains one ∧ c.format.Contains zero ∧ ¬ c.format.Contains (one.div zero c) := by
  intro c one zero
  have hone : c.format.Contains one :=
    Intermediate.contains_round ⟨.positive, .ofNat 1, 127, ∅⟩ c
  refine ⟨hone, .zero (Or.inr rfl), fun hquotient => ?_⟩
  have hspecials := hquotient.hasSpecials (isFinite_div_zero one rfl c)
  exact absurd hspecials (by decide)

end Value
end CrossFloat
