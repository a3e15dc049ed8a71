/-
What the layouts write and read.

The fraction of a finite number is the count of its last places, in a binary
layout without the leading bit where that is implied.  Reading gives the count
and the exponent of the last place back, so the fields denote the number.
Infinities and NaNs have the largest biased exponent, which no number of a layout
with infinities reaches, and are told apart by the fraction below the leading
bit.
-/
import CrossFloat.Proofs.Encoding.Fields
import CrossFloat.Proofs.Rounding.Representable

namespace CrossFloat

/-! ## Counts aligned to the left of a limb -/

theorem lt_two_pow_of_toNat_eq {s : UInt64} {n width : ℕ} (hwidth : width ≤ 64)
    (hs : s.toNat = n * 2 ^ (64 - width)) : n < 2 ^ width := by
  have hword := s.toNat_lt
  rw [hs, ← pow_mul_pow_sub 2 hwidth] at hword
  exact Nat.lt_of_mul_lt_mul_right hword

theorem mul_two_pow_lt {n width : ℕ} (hwidth : width ≤ 64) (hn : n < 2 ^ width) :
    n * 2 ^ (64 - width) < 2 ^ 64 := by
  rw [← pow_mul_pow_sub 2 hwidth]
  exact Nat.mul_lt_mul_of_pos_right hn (Nat.two_pow_pos _)

/-! ## Fields that denote numbers -/

namespace Fields

/-- The fields fit, and are read as the number `r`. -/
def Denotes (f : Fields) (F : Format) (r : ℚ) : Prop :=
  f.Fits F ∧ ∃ count place, F.read f = .number count place ∧ count.toNat * 2 ^ place = r

theorem Denotes.unique {f : Fields} {F : Format} {r r' : ℚ} (h : f.Denotes F r)
    (h' : f.Denotes F r') : r = r' := by
  obtain ⟨-, count, place, hread, rfl⟩ := h
  obtain ⟨-, count', place', hread', rfl⟩ := h'
  rw [hread, Reading.number.injEq] at hread'
  rw [hread'.1, hread'.2]

end Fields

/-! ## Binary layouts -/

namespace BinaryLayout

variable (b : BinaryLayout)

theorem bias_eq : b.bias = 2 ^ (b.exponentWidth - 1) - 1 := by
  rw [bias, Nat.one_shiftLeft]

theorem two_pow_exponentWidth : 2 ^ b.exponentWidth = 2 * b.bias + 2 := by
  have hwidth := b.exponentWidth_mem.1
  have hone : 1 ≤ 2 ^ (b.exponentWidth - 1) := Nat.one_le_two_pow
  have hdouble : 2 ^ b.exponentWidth = 2 ^ (b.exponentWidth - 1) * 2 := by
    rw [← pow_succ, Nat.sub_add_cancel (by omega)]
  rw [bias_eq]
  omega

theorem two_pow_exponentWidth_le : 2 ^ b.exponentWidth ≤ 2 ^ 30 :=
  Nat.pow_le_pow_right (by decide) b.exponentWidth_mem.2

theorem bias_pos : 0 < b.bias := by
  have hwidth := b.exponentWidth_mem.1
  have hpow : 2 ^ 2 ≤ 2 ^ b.exponentWidth := Nat.pow_le_pow_right (by decide) hwidth
  rw [two_pow_exponentWidth] at hpow
  omega

theorem topBiased_eq : b.topBiased = 2 * b.bias + 1 := by
  rw [topBiased, Nat.one_shiftLeft, two_pow_exponentWidth]
  omega

theorem two_pow_precision : 2 ^ b.precision = 2 ^ (b.precision - 1) * 2 := by
  have hprecision := b.precision_mem.1
  rw [← pow_succ, Nat.sub_add_cancel (by omega)]

theorem two_pow_63 : 2 ^ 63 = 2 ^ (b.precision - 1) * 2 ^ (64 - b.precision) := by
  have hprecision := b.precision_mem
  rw [← pow_add]
  congr 1
  omega

/-- The width of the fraction. -/
def fractionWidth : ℕ :=
  if b.storesLeadingBit then b.precision else b.precision - 1

/-- The count that a biased exponent and a fraction stand for. -/
def count (biased fraction : ℕ) : ℕ :=
  fraction + if b.storesLeadingBit || biased == 0 then 0 else 2 ^ (b.precision - 1)

/-- The exponent of the last place that a biased exponent stands for. -/
def place (biased : ℕ) : ℤ :=
  (max biased 1 : ℕ) - b.bias - (b.precision - 1)

/-- The biased exponent of a finite magnitude. -/
def biasedExponent (range : Range) (exponent : ℤ) : ℕ :=
  match range with
  | .normal => (exponent + b.bias).toNat
  | .denormal => 0

/-- The fraction of a number that is a count of last places. -/
def fraction (n : ℕ) : ℕ :=
  if b.storesLeadingBit then n else n % 2 ^ (b.precision - 1)

variable {b}

theorem count_lt {biased fraction : ℕ} (hfraction : fraction < 2 ^ b.fractionWidth) :
    b.count biased fraction < 2 ^ b.precision := by
  have hdouble := b.two_pow_precision
  rw [fractionWidth] at hfraction
  rw [count]
  cases hstores : b.storesLeadingBit <;> cases hzero : biased == 0 <;>
    simp only [hstores, if_true, if_false, Bool.false_eq_true, Bool.or_true, Bool.or_false,
      Bool.or_self] at hfraction ⊢ <;> omega

/-- The reading of the fields of a number. -/
theorem read_number {f : Fields} (hnumber : ¬ (f.biased = b.topBiased ∧ b.hasSpecials))
    (hfraction : f.fraction < 2 ^ b.fractionWidth) :
    b.read f = .number (.ofNat (b.count f.biased f.fraction)) (b.place f.biased) := by
  have hcount : f.fraction ||| (if b.storesLeadingBit || f.biased == 0 then 0
      else 1 <<< (b.precision - 1)) = b.count f.biased f.fraction := by
    rw [count]
    cases hcase : b.storesLeadingBit || f.biased == 0 with
    | true => simp
    | false =>
      have hstores : b.storesLeadingBit = false := (Bool.or_eq_false_iff.1 hcase).1
      rw [fractionWidth, hstores, if_neg Bool.false_ne_true] at hfraction
      rw [if_neg Bool.false_ne_true, if_neg Bool.false_ne_true, Nat.one_shiftLeft, Nat.or_comm,
        ← Nat.mul_one (2 ^ (b.precision - 1)), ← Nat.two_pow_add_eq_or_of_lt hfraction,
        Nat.add_comm]
  have hscale : (if f.biased = 0 then 1 else f.biased) = max f.biased 1 := by
    split_ifs <;> omega
  simp only [read, if_neg hnumber, hcount, hscale, place]

/-- The fields of a finite magnitude that is a whole count of last places. -/
theorem write_finite (range : Range) (exponent : ℤ) {significand : UInt64} {n : ℕ}
    (hn : significand.toNat = n * 2 ^ (64 - b.precision)) :
    b.write (.finite range exponent significand) =
      (b.biasedExponent range exponent, b.fraction n) := by
  have hshift : significand.toNat >>> (64 - b.precision) = n := by
    rw [hn, Nat.shiftRight_eq_div_pow, Nat.mul_div_cancel _ (Nat.two_pow_pos _)]
  simp only [write, hshift, Nat.one_shiftLeft]
  rfl

/-- The fraction gives its count back when the leading bit is implied by the
biased exponent. -/
theorem count_fraction {biased n : ℕ} (hn : n < 2 ^ b.precision)
    (hlead : n < 2 ^ (b.precision - 1) ↔ biased = 0) :
    b.count biased (b.fraction n) = n ∧ b.fraction n < 2 ^ b.fractionWidth := by
  have hdouble := b.two_pow_precision
  rw [count, fraction, fractionWidth]
  cases b.storesLeadingBit with
  | true => exact ⟨Nat.add_zero n, hn⟩
  | false =>
    refine ⟨?_, Nat.mod_lt _ (Nat.two_pow_pos _)⟩
    by_cases hzero : biased = 0
    · rw [if_neg Bool.false_ne_true, Nat.mod_eq_of_lt (hlead.2 hzero), hzero]
      rfl
    · have hle : 2 ^ (b.precision - 1) ≤ n := not_lt.1 (hlead.not.2 hzero)
      simp only [hzero, Bool.false_or, beq_iff_eq, if_false, Bool.false_eq_true]
      rw [Nat.mod_eq_sub_mod hle, Nat.mod_eq_of_lt (by omega), Nat.sub_add_cancel hle]

/-- The biased exponent of a finite magnitude in range tells whether its count has
the leading bit, gives the last place back, and is not the largest one. -/
theorem biasedExponent_spec {range : Range} {exponent : ℤ} {significand : UInt64} {n : ℕ}
    (hn : significand.toNat = n * 2 ^ (64 - b.precision))
    (hmin : 1 - b.bias ≤ exponent) (hmax : exponent ≤ b.bias)
    (hrange : range.Covers (1 - b.bias) exponent significand) :
    (n < 2 ^ (b.precision - 1) ↔ b.biasedExponent range exponent = 0) ∧
      b.place (b.biasedExponent range exponent) = exponent + 1 - b.precision ∧
      b.biasedExponent range exponent < b.topBiased := by
  have hprecision := b.precision_mem.1
  have htop := b.topBiased_eq
  rw [Range.Covers.eq_def, hn, b.two_pow_63] at hrange
  cases range with
  | normal =>
    have hlead := Nat.le_of_mul_le_mul_right hrange (Nat.two_pow_pos _)
    simp only [biasedExponent, place]
    refine ⟨iff_of_false (not_lt.2 hlead) ?_, ?_, ?_⟩ <;> omega
  | denormal =>
    have hlead := Nat.lt_of_mul_lt_mul_right hrange.2
    have hleast : exponent = 1 - b.bias := hrange.1
    simp only [biasedExponent, place]
    refine ⟨iff_of_true hlead trivial, ?_, ?_⟩ <;> omega

/-! ### Infinities and NaNs -/

theorem two_pow_precision_pred : 2 ^ (b.precision - 1) = 2 ^ (b.precision - 2) * 2 := by
  have hprecision := b.precision_mem.1
  rw [← pow_succ]
  congr 1
  omega

theorem quietBit_or {q : ℕ} (hq : q < 2 ^ (b.precision - 2)) :
    b.quietBit ||| q = 2 ^ (b.precision - 2) + q := by
  rw [quietBit, Nat.one_shiftLeft, ← Nat.mul_one (2 ^ (b.precision - 2)),
    ← Nat.two_pow_add_eq_or_of_lt hq, Nat.mul_one]

/-- A stored leading bit is out of the way of the rest of a special fraction. -/
theorem storedLeadingBit_or {m : ℕ} (hm : m < 2 ^ (b.precision - 1)) :
    b.storedLeadingBit ||| m < 2 ^ b.fractionWidth ∧
      (b.storedLeadingBit ||| m) % 2 ^ (b.precision - 1) = m := by
  have hdouble := b.two_pow_precision
  rw [storedLeadingBit, fractionWidth]
  cases b.storesLeadingBit with
  | true =>
    have hor := Nat.two_pow_add_eq_or_of_lt hm 1
    rw [Nat.mul_one] at hor
    rw [if_pos rfl, if_pos rfl, Nat.one_shiftLeft, ← hor, Nat.add_mod_left, Nat.mod_eq_of_lt hm]
    exact ⟨by omega, rfl⟩
  | false =>
    rw [if_neg Bool.false_ne_true, if_neg Bool.false_ne_true, Nat.zero_or]
    exact ⟨hm, Nat.mod_eq_of_lt hm⟩

theorem read_infinite {f : Fields} (hspecial : f.biased = b.topBiased ∧ b.hasSpecials)
    (hfraction : f.fraction % 2 ^ (b.precision - 1) = 0) : b.read f = .special .infinite := by
  simp only [read, if_pos hspecial, Nat.one_shiftLeft, if_pos hfraction]

theorem read_nan {f : Fields} (hspecial : f.biased = b.topBiased ∧ b.hasSpecials)
    (hfraction : f.fraction % 2 ^ (b.precision - 1) ≠ 0) :
    b.read f = .special (.nan (.ofNat (f.fraction % 2 ^ (b.precision - 2)) <<<
      (64 - (b.precision - 2)).toUInt64)) := by
  simp only [read, if_pos hspecial, Nat.one_shiftLeft, if_neg hfraction]

/-- The fraction of a NaN tells its payload and is not that of an infinity. -/
theorem fraction_nan {q : ℕ} (hq : q < 2 ^ (b.precision - 2)) :
    b.storedLeadingBit ||| (b.quietBit ||| q) < 2 ^ b.fractionWidth ∧
      (b.storedLeadingBit ||| (b.quietBit ||| q)) % 2 ^ (b.precision - 1) ≠ 0 ∧
      (b.storedLeadingBit ||| (b.quietBit ||| q)) % 2 ^ (b.precision - 2) = q := by
  have hdouble := b.two_pow_precision_pred
  have hquiet := quietBit_or hq
  have hlow : b.quietBit ||| q < 2 ^ (b.precision - 1) := by omega
  obtain ⟨hwidth, hrest⟩ := storedLeadingBit_or hlow
  refine ⟨hwidth, by omega, ?_⟩
  rw [← Nat.mod_mod_of_dvd _ (Dvd.intro 2 hdouble.symm), hrest, hquiet, Nat.add_mod_left,
    Nat.mod_eq_of_lt hq]

/-- A payload aligned to the left. -/
theorem toNat_payload {q : ℕ} (hq : q < 2 ^ (b.precision - 2)) :
    (UInt64.ofNat q <<< (64 - (b.precision - 2)).toUInt64).toNat =
      q * 2 ^ (64 - (b.precision - 2)) := by
  have hprecision := b.precision_mem
  have hword := mul_two_pow_lt (by omega) hq
  have hq64 : q < 2 ^ 64 := (Nat.le_mul_of_pos_right q (Nat.two_pow_pos _)).trans_lt hword
  rw [Limb.toNat_shiftLeft _ (by omega), UInt64.toNat_ofNat', Nat.mod_eq_of_lt hq64,
    Nat.mod_eq_of_lt hword]

/-- The fields of a NaN whose payload is cut to its width. -/
theorem write_nan {payload : UInt64} {q : ℕ}
    (hq : payload.toNat = q * 2 ^ (64 - (b.precision - 2))) :
    b.write (.nan payload) = (b.topBiased, b.storedLeadingBit ||| (b.quietBit ||| q)) := by
  have hprecision := b.precision_mem
  have hplaces : 64 - (b.precision - 2) < 64 := by omega
  simp only [write, Limb.toNat_shiftRight payload hplaces, hq,
    Nat.mul_div_cancel _ (Nat.two_pow_pos _), Nat.or_assoc]

end BinaryLayout

/-! ## Hexadecimal layouts -/

theorem leadingZeros_eq_zero {s : UInt64} (hs : 2 ^ 63 ≤ s.toNat) : Limb.leadingZeros s = 0 := by
  have hne : s ≠ 0 := by
    rintro rfl
    exact absurd hs (by decide)
  have hlt := (Limb.leadingZeros_spec hne).2.2
  by_contra hmany
  have hpow : 2 ^ 1 ≤ 2 ^ Limb.leadingZeros s := Nat.pow_le_pow_right (by decide) (by omega)
  have hmul := Nat.mul_le_mul hs hpow
  omega

theorem alignLeft_eq_self {s : UInt64} (hs : 2 ^ 63 ≤ s.toNat) : alignLeft s = s := by
  have hne : s ≠ 0 := by
    rintro rfl
    exact absurd hs (by decide)
  rw [← UInt64.toNat_inj, toNat_alignLeft hne, leadingZeros_eq_zero hs, pow_zero, mul_one]

theorem leadingExp_eq_self {s : UInt64} (hs : 2 ^ 63 ≤ s.toNat) (exponent : ℤ) :
    leadingExp exponent s = exponent := by
  rw [leadingExp, leadingZeros_eq_zero hs, Nat.cast_zero, sub_zero]

namespace HexadecimalLayout

variable {h : HexadecimalLayout}

theorem two_pow_exponentWidth (h : HexadecimalLayout) : 2 ^ h.exponentWidth = 2 * h.bias := by
  have hwidth := h.exponentWidth_mem.1
  rw [bias, Nat.one_shiftLeft, ← pow_succ', Nat.sub_add_cancel (by omega)]

theorem two_pow_exponentWidth_le (h : HexadecimalLayout) : 2 ^ h.exponentWidth ≤ 2 ^ 24 :=
  Nat.pow_le_pow_right (by decide) h.exponentWidth_mem.2

/-- The fields of a finite magnitude that is a whole count of last places. -/
theorem write_finite (range : Range) (exponent : ℤ) {significand : UInt64} {n : ℕ}
    (hn : significand.toNat =
      n * 2 ^ ((4 * (exponent / 4 + 1) - 1 - exponent).toNat + (64 - 4 * h.digits)))
    (hrange : range = .normal → 2 ^ 63 ≤ significand.toNat) :
    h.write (.finite range exponent significand) = ((exponent / 4 + 1 + h.bias).toNat, n) := by
  have hshift : significand.toNat >>>
      ((4 * (exponent / 4 + 1) - 1 - exponent).toNat + (64 - 4 * h.digits)) = n := by
    rw [hn, Nat.shiftRight_eq_div_pow, Nat.mul_div_cancel _ (Nat.two_pow_pos _)]
  cases range with
  | normal =>
    have hbit := hrange rfl
    simp only [write, alignLeft_eq_self hbit, leadingExp_eq_self hbit, hshift]
  | denormal => simp only [write, hshift]

end HexadecimalLayout

namespace Format

section Binary

variable {F : Format} {b : BinaryLayout}

theorem read_binary (hlayout : F.layout = .binary b) (f : Fields) : F.read f = b.read f := by
  rw [read, hlayout]

theorem fields_binary (hlayout : F.layout = .binary b) (x : Value) :
    F.fields x = ⟨x.sign, (b.write x.magnitude).1, (b.write x.magnitude).2⟩ := by
  rw [fields, hlayout]

theorem hasSpecials_binary (hlayout : F.layout = .binary b) : F.hasSpecials = b.hasSpecials := by
  rw [hasSpecials, hlayout]

theorem digitWidth_binary (hlayout : F.layout = .binary b) : F.digitWidth = 1 := by
  rw [digitWidth, hlayout]

theorem precision_binary (hlayout : F.layout = .binary b) : F.precision = b.precision := by
  rw [precision, hlayout]

theorem bias_binary (hlayout : F.layout = .binary b) : F.bias = b.bias := by
  rw [bias, hlayout]

theorem storesLeadingBit_binary (hlayout : F.layout = .binary b) :
    F.storesLeadingBit = b.storesLeadingBit := by
  rw [storesLeadingBit, hlayout]

theorem exponentWidth_binary (hlayout : F.layout = .binary b) :
    F.exponentWidth = b.exponentWidth := by
  rw [exponentWidth, hlayout]

theorem topBiased_binary (hlayout : F.layout = .binary b) :
    b.topBiased = 2 ^ F.exponentWidth - 1 := by
  rw [BinaryLayout.topBiased, Nat.one_shiftLeft, exponentWidth_binary hlayout]

theorem fractionWidth_binary (hlayout : F.layout = .binary b) :
    F.fractionWidth = b.fractionWidth := by
  rw [fractionWidth, storesLeadingBit, precision, hlayout]
  rfl

theorem payloadWidth_binary (hlayout : F.layout = .binary b) :
    F.payloadWidth = b.precision - 2 := by
  rw [payloadWidth, precision, hlayout]

theorem minExponent_binary (hlayout : F.layout = .binary b) : F.minExponent = 1 - b.bias := by
  rw [minExponent, bias, hlayout]

theorem maxExponent_binary (hlayout : F.layout = .binary b) : F.maxExponent = b.bias := by
  rw [maxExponent, bias, hlayout]

theorem lastPlace_binary (hlayout : F.layout = .binary b) (exponent : ℤ) :
    F.lastPlace exponent = exponent + 1 - b.precision := by
  simp only [lastPlace, digitWidth, precision, hlayout]
  omega

theorem lastBit_binary (hlayout : F.layout = .binary b) (exponent : ℤ) :
    F.lastBit exponent = 64 - b.precision := by
  rw [lastBit, lastPlace_binary hlayout]
  omega

theorem ieee_eq_ok {exponentWidth precision : ℕ}
    (hF : ieee exponentWidth precision = .ok F) :
    ∃ he hp, F = ⟨.binary ⟨exponentWidth, precision, false, true, true, he, hp⟩,
      .nearestEven, .gradual⟩ := by
  unfold ieee at hF
  split at hF
  case isFalse => exact absurd hF (by simp)
  next he =>
  split at hF
  case isFalse => exact absurd hF (by simp)
  next hp => exact ⟨he, hp, (Except.ok.inj hF).symm⟩

/-- Only a binary layout has infinities and NaNs. -/
theorem exists_binary (hspecials : F.hasSpecials = true) :
    ∃ b, F.layout = .binary b ∧ b.hasSpecials = true := by
  obtain ⟨layout, mode, underflow⟩ := F
  cases layout with
  | binary b => exact ⟨b, rfl, hspecials⟩
  | hexadecimal h => exact absurd hspecials Bool.false_ne_true

end Binary

/-! ## Numbers -/

variable {F : Format} {x : Value}

theorem read_place {f : Fields} {count : UInt64} {place : ℤ}
    (hread : F.read f = .number count place) : F.minExponent - 63 ≤ place := by
  obtain ⟨layout, mode, underflow⟩ := F
  cases layout with
  | binary b =>
    have hprecision := b.precision_mem.2
    simp only [read, BinaryLayout.read] at hread
    simp only [minExponent, bias]
    split_ifs at hread <;> simp only [Reading.number.injEq] at hread <;> omega
  | hexadecimal h =>
    have hdigits := h.digits_mem.2
    simp only [read, HexadecimalLayout.read, Reading.number.injEq] at hread
    simp only [minExponent, bias]
    omega

/-- A word whose fields are read as a number stands for that number. -/
theorem decode_of_denotes {word : ℕ} {r : ℚ} (hdenotes : (Fields.ofWord word F).Denotes F r) :
    F.decode word = F.store (Fields.ofWord word F).sign r := by
  obtain ⟨-, count, place, hread, hr⟩ := hdenotes
  rw [decode, hread, ← hr]
  exact F.represent_eq_store _ (read_place hread)

theorem decode_of_special {word : ℕ} {m : Magnitude}
    (hread : F.read (Fields.ofWord word F) = .special m) :
    F.decode word = ⟨(Fields.ofWord word F).sign, ∅, m⟩ := by
  rw [decode, hread]

section Binary

variable {b : BinaryLayout}

theorem denotes_binary (hlayout : F.layout = .binary b) (sign : Sign) {biased fraction : ℕ}
    (hbiased : biased < 2 ^ b.exponentWidth) (hfraction : fraction < 2 ^ b.fractionWidth)
    (hnumber : ¬ (biased = b.topBiased ∧ b.hasSpecials)) :
    (Fields.mk sign biased fraction).Denotes F (b.count biased fraction * 2 ^ b.place biased) := by
  have hcount : b.count biased fraction < 2 ^ 64 :=
    (BinaryLayout.count_lt hfraction).trans_le
      (Nat.pow_le_pow_right (by decide) b.precision_mem.2)
  have hread := BinaryLayout.read_number (f := ⟨sign, biased, fraction⟩) hnumber hfraction
  rw [← read_binary hlayout] at hread
  rw [← exponentWidth_binary hlayout] at hbiased
  rw [← fractionWidth_binary hlayout] at hfraction
  refine ⟨⟨hbiased, hfraction⟩, _, _, hread, ?_⟩
  rw [UInt64.toNat_ofNat', Nat.mod_eq_of_lt hcount]

theorem eq_of_denotes_binary {f : Fields} {r : ℚ} (hlayout : F.layout = .binary b)
    (h : f.Denotes F r) : r = b.count f.biased f.fraction * 2 ^ b.place f.biased := by
  have hbiased := h.1.biased_lt
  have hfraction := h.1.fraction_lt
  rw [exponentWidth_binary hlayout] at hbiased
  rw [fractionWidth_binary hlayout] at hfraction
  refine h.unique (denotes_binary hlayout f.sign hbiased hfraction fun hspecial => ?_)
  obtain ⟨-, count, place, hread, -⟩ := h
  rw [read_binary hlayout, BinaryLayout.read, if_pos hspecial] at hread
  split at hread <;> exact absurd hread Reading.noConfusion

theorem denotes_fields_binary (hlayout : F.layout = .binary b) (hx : F.Represents x) :
    (F.fields x).Denotes F x.magnitude.toRat := by
  have hbiased := b.two_pow_exponentWidth
  have htop := b.topBiased_eq
  have hfinite := hx.isFinite
  rw [fields_binary hlayout]
  cases hm : x.magnitude with
  | infinite | nan =>
    simp [Value.isFinite, hm] at hfinite
  | zero =>
    have hzero : b.count 0 0 = 0 := by simp [BinaryLayout.count]
    have hdenotes : (Fields.mk x.sign 0 0).Denotes F (b.count 0 0 * 2 ^ b.place 0) :=
      denotes_binary hlayout x.sign (by omega) (Nat.two_pow_pos _) (by omega)
    rw [hzero, Nat.cast_zero, zero_mul] at hdenotes
    exact hdenotes
  | finite range exponent significand =>
    obtain ⟨hmin, hmax, ⟨n, hn⟩, hrange⟩ := hx.parts hm
    have hvalue := F.count_mul_zpow exponent n
    rw [lastPlace_binary hlayout, ← hn] at hvalue
    rw [lastBit_binary hlayout] at hn
    rw [minExponent_binary hlayout] at hmin hrange
    rw [maxExponent_binary hlayout] at hmax
    have hlt := lt_two_pow_of_toNat_eq b.precision_mem.2 hn
    obtain ⟨hlead, hplace, hbelow⟩ := BinaryLayout.biasedExponent_spec hn hmin hmax hrange
    obtain ⟨hcount, hfraction⟩ := BinaryLayout.count_fraction hlt hlead
    have hdenotes := denotes_binary hlayout x.sign (by omega) hfraction (fun h => hbelow.ne h.1)
    rw [hcount, hplace, hvalue] at hdenotes
    rw [BinaryLayout.write_finite range exponent hn]
    exact hdenotes

end Binary

section Hexadecimal

variable {h : HexadecimalLayout} {mode : RoundingMode} {underflow : Underflow}

theorem denotes_hexadecimal (sign : Sign) {biased fraction : ℕ}
    (hbiased : biased < 2 ^ h.exponentWidth) (hfraction : fraction < 2 ^ (4 * h.digits)) :
    (Fields.mk sign biased fraction).Denotes ⟨.hexadecimal h, mode, underflow⟩
      (fraction * 2 ^ (4 * ((biased : ℤ) - h.bias) - 4 * h.digits)) := by
  have hcount : fraction < 2 ^ 64 := by
    have hdigits := h.digits_mem.2
    exact hfraction.trans_le (Nat.pow_le_pow_right (by decide) (by omega))
  refine ⟨⟨hbiased, hfraction⟩, _, _, rfl, ?_⟩
  rw [UInt64.toNat_ofNat', Nat.mod_eq_of_lt hcount]

theorem eq_of_denotes_hexadecimal {f : Fields} {r : ℚ}
    (hdenotes : f.Denotes ⟨.hexadecimal h, mode, underflow⟩ r) :
    r = f.fraction * 2 ^ (4 * ((f.biased : ℤ) - h.bias) - 4 * h.digits) :=
  hdenotes.unique (denotes_hexadecimal f.sign hdenotes.1.biased_lt hdenotes.1.fraction_lt)

theorem denotes_fields_hexadecimal (hx : Represents ⟨.hexadecimal h, mode, underflow⟩ x) :
    (fields ⟨.hexadecimal h, mode, underflow⟩ x).Denotes ⟨.hexadecimal h, mode, underflow⟩
      x.magnitude.toRat := by
  have hbiased := h.two_pow_exponentWidth
  have hdigits := h.digits_mem
  have hfinite := hx.isFinite
  cases hm : x.magnitude with
  | infinite | nan =>
    simp [Value.isFinite, hm] at hfinite
  | zero =>
    have hdenotes : (Fields.mk x.sign 0 0).Denotes ⟨.hexadecimal h, mode, underflow⟩ _ :=
      denotes_hexadecimal x.sign (Nat.two_pow_pos _) (Nat.two_pow_pos _)
    rw [Nat.cast_zero, zero_mul] at hdenotes
    simp only [fields, hm]
    exact hdenotes
  | finite range exponent significand =>
    obtain ⟨hmin, hmax, ⟨n, hn⟩, hrange⟩ := hx.parts hm
    have hvalue := count_mul_zpow ⟨.hexadecimal h, mode, underflow⟩ exponent n
    rw [← hn] at hvalue
    have hbit : lastBit ⟨.hexadecimal h, mode, underflow⟩ exponent =
        (4 * (exponent / 4 + 1) - 1 - exponent).toNat + (64 - 4 * h.digits) := by
      simp only [lastBit, lastPlace, digitWidth, precision]
      omega
    rw [hbit] at hn
    simp only [minExponent, maxExponent, bias] at hmin hmax
    have hlt : n < 2 ^ (4 * h.digits) := by
      have hlimb : 2 ^ 64 ≤ 2 ^ (4 * h.digits) *
          2 ^ ((4 * (exponent / 4 + 1) - 1 - exponent).toNat + (64 - 4 * h.digits)) := by
        rw [← pow_add]
        exact Nat.pow_le_pow_right (by decide) (by omega)
      have hword := significand.toNat_lt.trans_le hlimb
      rw [hn] at hword
      exact Nat.lt_of_mul_lt_mul_right hword
    have hplace : 4 * (((exponent / 4 + 1 + h.bias).toNat : ℤ) - h.bias) - 4 * h.digits =
        lastPlace ⟨.hexadecimal h, mode, underflow⟩ exponent := by
      simp only [lastPlace, digitWidth, precision]
      omega
    have hdenotes : (Fields.mk x.sign (exponent / 4 + 1 + h.bias).toNat n).Denotes
        ⟨.hexadecimal h, mode, underflow⟩ _ :=
      denotes_hexadecimal x.sign (by omega) hlt
    rw [hplace, hvalue] at hdenotes
    have hwrite := HexadecimalLayout.write_finite range exponent hn (by
      rintro rfl
      exact hrange)
    simp only [fields, hm, hwrite]
    exact hdenotes

end Hexadecimal

/-- The fields of a number of the format denote it. -/
theorem denotes_fields (hx : F.Represents x) : (F.fields x).Denotes F x.magnitude.toRat := by
  cases hlayout : F.layout with
  | binary b => exact denotes_fields_binary hlayout hx
  | hexadecimal h =>
    obtain ⟨layout, mode, underflow⟩ := F
    obtain rfl : layout = .hexadecimal h := hlayout
    exact denotes_fields_hexadecimal hx

end Format
end CrossFloat
