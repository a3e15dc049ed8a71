/-
A conversion to an integer drops the fraction, or reports once why it cannot.

The whole part of a number below 2^128 is found by a single move of its significand.
From there on it stays at 2^128 - 1, with either sign.  No integer type has that
number or any beyond it, so the check of the range turns out as it would for the
exact number.
-/
import CrossFloat.Proofs.WellFormed

namespace CrossFloat

/-! ## What a conversion is to return -/

/-- A number without its fraction. -/
def dropFraction (v : ℚ) : ℤ :=
  if 0 ≤ v then ⌊v⌋ else ⌈v⌉

/-- The numbers of an integer type, in two's complement if it is signed. -/
def IntegerType.numbers (t : IntegerType) : Set ℤ :=
  if t.signed then {n | -2 ^ (t.bits - 1) ≤ n ∧ n < 2 ^ (t.bits - 1)}
  else {n | 0 ≤ n ∧ n < 2 ^ t.bits}

/-- `n` and the reports in `errors` are the outcome of converting `x` to the type `t`:
the number without its fraction if the type has it, and otherwise zero and the one
reason why not. -/
structure CorrectInteger (x : Value) (t : IntegerType) (n : ℤ) (errors : List ConversionError) :
    Prop where
  special : ¬ x.isFinite → n = 0 ∧ errors = [.notFinite x.kind]
  inRange : x.isFinite → dropFraction x.toRat ∈ t.numbers →
    n = dropFraction x.toRat ∧ errors = []
  outOfRange : x.isFinite → dropFraction x.toRat ∉ t.numbers →
    n = 0 ∧ errors = [.outOfRange t]

@[simp] theorem dropFraction_intCast (n : ℤ) : dropFraction n = n := by
  rw [dropFraction, Int.floor_intCast, Int.ceil_intCast, ite_self]

theorem dropFraction_factor_mul (sign : Sign) {r : ℚ} (hr : 0 ≤ r) :
    dropFraction (sign.factor * r) = if sign.isNegative then -(⌊r⌋₊ : ℤ) else ⌊r⌋₊ := by
  rw [Int.natCast_floor_eq_floor hr]
  cases sign with
  | positive =>
    rw [Sign.factor, one_mul, dropFraction, if_pos hr]
    rfl
  | negative =>
    rw [Sign.factor, neg_one_mul, dropFraction, Int.ceil_neg, Sign.isNegative, if_pos rfl]
    split
    · next hneg =>
      obtain rfl : r = 0 := le_antisymm (neg_nonneg.1 hneg) hr
      rw [neg_zero, Int.floor_zero, neg_zero]
    · rfl

/-! ## Integer types -/

namespace IntegerType

variable {t : IntegerType} {n : ℤ}

theorem holds_iff (t : IntegerType) (n : ℤ) : t.holds n = true ↔ n ∈ t.numbers := by
  rw [holds, Bool.and_eq_true, decide_eq_true_iff, decide_eq_true_iff, least, greatest, numbers,
    Nat.one_shiftLeft, Nat.one_shiftLeft]
  push_cast
  split <;> rw [Set.mem_ofPred_eq, Int.le_sub_one_iff]

/-- The numbers of a type of up to 127 bits are below 2^127 in magnitude. -/
theorem natAbs_lt_of_mem_numbers (hbits : t.bits ≤ 127) (hn : n ∈ t.numbers) :
    n.natAbs < 2 ^ 127 := by
  have hall : 2 ^ t.bits ≤ 2 ^ 127 := Nat.pow_le_pow_right (by decide) hbits
  have hhalf : 2 ^ (t.bits - 1) ≤ 2 ^ 126 := Nat.pow_le_pow_right (by decide) (by omega)
  zify at hall hhalf
  rw [numbers] at hn
  split at hn <;> rw [Set.mem_ofPred_eq] at hn <;> omega

theorem bits_le_of_mem_all (ht : t ∈ all) : t.bits ≤ 64 := by
  revert t
  decide

end IntegerType

namespace Value

/-! ## Whole parts -/

/-- The single move is the floor. -/
theorem wholePart_eq_floor (s : UInt64) {exponent : ℤ} (h : exponent ≤ 127) :
    wholePart exponent s = ⌊(s.toNat : ℚ) * 2 ^ (exponent - 63)⌋₊ := by
  rw [wholePart]
  by_cases hneg : exponent < 0
  · have hlt : (s.toNat : ℚ) * 2 ^ (exponent - 63) < 1 :=
      (lt_two_zpow_succ s exponent).trans_le (zpow_le_one_of_nonpos₀ (by norm_num) (by omega))
    rw [if_pos hneg, Nat.floor_eq_zero.2 hlt]
  rw [if_neg hneg]
  by_cases hright : exponent ≤ 63
  · have hexp : exponent - 63 = -((63 - exponent).toNat : ℤ) := by omega
    rw [if_pos hright, Nat.shiftRight_eq_div_pow, hexp, zpow_neg, two_zpow_natCast,
      ← div_eq_mul_inv, Nat.floor_div_eq_div]
  · have hexp : exponent - 63 = ((exponent - 63).toNat : ℤ) := by omega
    rw [if_neg hright, if_pos h, Nat.shiftLeft_eq]
    conv => rhs; rw [hexp, two_zpow_natCast, ← Nat.cast_mul, Nat.floor_natCast]

theorem wholePart_eq_min {s : UInt64} (hbit : 2 ^ 63 ≤ s.toNat) (exponent : ℤ) :
    wholePart exponent s = min ⌊(s.toNat : ℚ) * 2 ^ (exponent - 63)⌋₊ (2 ^ 128 - 1) := by
  have hnonneg : 0 ≤ (s.toNat : ℚ) * 2 ^ (exponent - 63) :=
    mul_nonneg s.toNat.cast_nonneg (two_zpow_pos _).le
  rcases le_or_gt exponent 127 with hsmall | hlarge
  · rw [wholePart_eq_floor s hsmall, left_eq_inf, Nat.le_sub_one_iff_lt (by decide),
      Nat.floor_lt hnonneg, ← two_zpow_natCast]
    exact (lt_two_zpow_succ s exponent).trans_le (two_zpow_le_iff.2 (by omega))
  · have hpower : (2 : ℚ) ^ ((128 : ℕ) : ℤ) ≤ s.toNat * 2 ^ (exponent - 63) :=
      (two_zpow_le_iff.2 (by omega)).trans
        (not_lt.1 ((lt_two_zpow_iff_toNat_lt s exponent).not.2 (not_lt.2 hbit)))
    rw [two_zpow_natCast] at hpower
    rw [min_eq_right ((Nat.sub_le _ 1).trans (Nat.le_floor hpower)), wholePart, if_neg (by omega),
      if_neg (by omega), if_neg (by omega)]
    rfl

/-! ## Conversions -/

variable {x : Value} {t : IntegerType}

theorem truncate_of_isNumber (hx : x.IsNumber) :
    x.truncate = .ok (if x.sign.isNegative then -(min ⌊x.magnitude.toRat⌋₊ (2 ^ 128 - 1) : ℕ)
      else (min ⌊x.magnitude.toRat⌋₊ (2 ^ 128 - 1) : ℕ)) := by
  obtain ⟨sign, flags, magnitude⟩ := x
  cases magnitude with
  | zero =>
    have hzero : min ⌊Magnitude.zero.toRat⌋₊ (2 ^ 128 - 1) = 0 := by
      rw [show Magnitude.zero.toRat = 0 from rfl, Nat.floor_zero, Nat.zero_min]
    show Except.ok 0 = _
    rw [hzero, Nat.cast_zero, neg_zero, ite_self]
  | finite range exponent significand =>
    have hs : significand ≠ 0 := hx
    have hwhole := wholePart_eq_min (le_toNat_alignLeft hs) (leadingExp exponent significand)
    rw [alignLeft_mul_zpow hs] at hwhole
    rw [Magnitude.toRat, ← hwhole]
    rfl
  | infinite | nan => exact absurd hx id

/-- The check of the range lets the whole part pass if it lets the exact number pass,
and then they are the same. -/
theorem toInteger_of_isNumber (hx : x.IsNumber) (hbits : t.bits ≤ 127) :
    x.toInteger t = if t.holds (dropFraction x.toRat) then .ok (dropFraction x.toRat)
      else .error (.outOfRange t) := by
  have hnumber := dropFraction_factor_mul x.sign x.magnitude.toRat_nonneg
  have houtside {n : ℤ} (hn : 2 ^ 127 ≤ n.natAbs) : t.holds n = false := by
    rw [← Bool.not_eq_true, t.holds_iff]
    exact fun hmem => absurd (IntegerType.natAbs_lt_of_mem_numbers hbits hmem) (not_lt.2 hn)
  rw [toInteger, truncate_of_isNumber hx, toRat, hnumber]
  dsimp only
  rcases le_total ⌊x.magnitude.toRat⌋₊ (2 ^ 128 - 1) with hsmall | hlarge
  · rw [min_eq_left hsmall]
  · rw [min_eq_right hlarge, houtside, houtside]
    · rfl
    all_goals split <;> omega

theorem correctInteger_toIntegerReporting (hx : x.WellFormed) (hbits : t.bits ≤ 127) :
    CorrectInteger x t (x.toIntegerReporting t).1 (x.toIntegerReporting t).2 := by
  by_cases hfinite : x.isFinite = true
  · have hconverted := toInteger_of_isNumber (hx.isNumber hfinite) hbits
    refine ⟨fun hspecial => absurd hfinite hspecial, fun _ hmem => ?_, fun _ hmem => ?_⟩
    · rw [toIntegerReporting, hconverted, if_pos ((t.holds_iff _).2 hmem)]
      exact ⟨rfl, rfl⟩
    · rw [toIntegerReporting, hconverted, if_neg ((t.holds_iff _).not.2 hmem)]
      exact ⟨rfl, rfl⟩
  · refine ⟨fun _ => ?_, fun h => absurd h hfinite, fun h => absurd h hfinite⟩
    obtain ⟨sign, flags, magnitude⟩ := x
    cases magnitude with
    | zero | finite => exact absurd rfl hfinite
    | infinite | nan => exact ⟨rfl, rfl⟩

/-- A conversion makes at most one report, and makes it to whatever collects them. -/
theorem toIntegerInto_eq {σ : Type} (x : Value) (t : IntegerType)
    (report : σ → ConversionError → σ) (state : σ) :
    x.toIntegerInto t report state =
      ((x.toIntegerReporting t).1, (x.toIntegerReporting t).2.foldl report state) := by
  rw [toIntegerInto, toIntegerReporting]
  cases x.toInteger t <;> rfl

/-- A conversion to an integer type drops the fraction, or returns zero and reports once
why it cannot.  Its outcome depends on the sign and the magnitude of the value alone:
not on its flags, not on an override in force, and not on where reports go. -/
theorem toInteger_drops_fraction (hx : x.WellFormed) (ht : t ∈ IntegerType.all) :
    ∃ n errors, CorrectInteger x t n errors ∧
      ∀ flags : Flags,
        (∀ override : Option RoundingMode,
          (Request.plain (.toInteger { x with flags := flags } t)).answer override =
            .integer n errors) ∧
        ∀ {σ : Type} (report : σ → ConversionError → σ) (state : σ),
          ({ x with flags := flags } : Value).toIntegerInto t report state =
            (n, errors.foldl report state) := by
  have hbits := IntegerType.bits_le_of_mem_all ht
  exact ⟨_, _, correctInteger_toIntegerReporting hx (by omega),
    fun flags => ⟨fun override => rfl, fun report state => toIntegerInto_eq _ t report state⟩⟩

/-- The signed type of eight bits has -128, so it has -128.75 without its fraction.  The
unsigned one does not, which is reported once. -/
theorem toInteger_drops_fraction_least :
    let x : Value := ⟨.negative, .onInexactLow, .finite .normal 7 0x80c0000000000000⟩
    let count (reports : ℕ) (_ : ConversionError) := reports + 1
    x.WellFormed ∧ ⟨8, true⟩ ∈ IntegerType.all ∧ ⟨8, false⟩ ∈ IntegerType.all ∧
      x.toIntegerInto ⟨8, true⟩ count 0 = (-128, 0) ∧
      x.toIntegerInto ⟨8, false⟩ count 0 = (0, 1) := by
  intro x count
  have hbit : 2 ^ 63 ≤ x.significand.toNat := by decide
  have hx : x.WellFormed := wellFormed_iff.2 ⟨hbit, by decide⟩
  have hsigned : ⟨8, true⟩ ∈ IntegerType.all := by decide
  have hunsigned : ⟨8, false⟩ ∈ IntegerType.all := by decide
  have hnumber : dropFraction x.toRat = -128 := by
    have hfloor : ⌊x.magnitude.toRat⌋₊ = 128 := by
      rw [Nat.floor_eq_iff x.magnitude.toRat_nonneg]
      decide +kernel
    rw [toRat, dropFraction_factor_mul _ x.magnitude.toRat_nonneg, hfloor]
    rfl
  refine ⟨hx, hsigned, hunsigned, ?_, ?_⟩
  · obtain ⟨n, errors, hcorrect, hall⟩ := toInteger_drops_fraction hx hsigned
    obtain ⟨rfl, rfl⟩ := hcorrect.inRange rfl (by rw [hnumber, ← IntegerType.holds_iff]; decide)
    exact ((hall x.flags).2 count 0).trans (congrArg (·, 0) hnumber)
  · obtain ⟨n, errors, hcorrect, hall⟩ := toInteger_drops_fraction hx hunsigned
    obtain ⟨rfl, rfl⟩ := hcorrect.outOfRange rfl (by rw [hnumber, ← IntegerType.holds_iff]; decide)
    exact (hall x.flags).2 count 0

end Value
end CrossFloat
