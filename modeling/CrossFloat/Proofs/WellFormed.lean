/-
Reachable values are well-formed.

A finite magnitude can be written down with any significand and any exponent.  In
those that the library makes the significand is not zero, and the exponent takes
30 bits with its sign.  A rounding returns a value of its format, decoding finds
the leading bit of a number before it files it, and the extremes of a format are
numbers of that format or the last place of one.  Whatever else is answered is a
zero, an infinity, a NaN, or an operand with another sign or other flags.
-/
import CrossFloat.Request
import CrossFloat.Proofs.Encoding.Layout
import CrossFloat.Proofs.Membership

namespace CrossFloat

/-- The significand and the exponent are as the kind of the value says. -/
structure Value.WellFormed (x : Value) : Prop where
  blank : x.kind = .zero ∨ x.kind = .infinite ∨ x.kind = .nan →
    x.significand = 0 ∧ x.exponent = 0
  payload : x.kind = .nanPayload → x.significand ≠ 0 ∧ x.exponent = 0
  normal : x.kind = .normal → 2 ^ 63 ≤ x.significand.toNat
  denormal : x.kind = .denormal → x.significand ≠ 0
  exponent_le : |x.exponent| ≤ 2 ^ 29

/-- A normal number has its leading bit in bit 63, and a denormal one has some
bit. -/
def Range.Admits (range : Range) (significand : UInt64) : Prop :=
  match range with
  | normal => 2 ^ 63 ≤ significand.toNat
  | denormal => significand ≠ 0

theorem Range.Admits.ne_zero {range : Range} {significand : UInt64}
    (h : range.Admits significand) : significand ≠ 0 := by
  cases range with
  | denormal => exact h
  | normal =>
    rintro rfl
    exact absurd (show 2 ^ 63 ≤ (0 : UInt64).toNat from h) (by decide)

theorem Range.admits_topBit : normal.Admits 0x8000000000000000 :=
  le_refl (2 ^ 63)

/-- What arithmetic relies on in the number `significand / 2^63 * 2^exponent`. -/
structure IsOperand (exponent : ℤ) (significand : UInt64) : Prop where
  ne_zero : significand ≠ 0
  le_exponent : -2 ^ 29 ≤ exponent
  exponent_le : exponent ≤ 2 ^ 29

/-- Well-formedness is about numbers only, because no other magnitude has an
exponent or a choice of significand. -/
def Magnitude.WellFormed : Magnitude → Prop
  | finite range exponent significand => range.Admits significand ∧ |exponent| ≤ 2 ^ 29
  | _ => True

theorem Magnitude.WellFormed.isOperand {range : Range} {exponent : ℤ} {significand : UInt64}
    (h : (finite range exponent significand).WellFormed) : IsOperand exponent significand :=
  ⟨h.1.ne_zero, (abs_le.1 h.2).1, (abs_le.1 h.2).2⟩

namespace Value

theorem wellFormed_iff {x : Value} : x.WellFormed ↔ x.magnitude.WellFormed := by
  obtain ⟨sign, flags, magnitude⟩ := x
  constructor
  · intro h
    cases magnitude with
    | zero | infinite | nan => trivial
    | finite range exponent significand =>
      cases range with
      | normal => exact ⟨h.normal rfl, h.exponent_le⟩
      | denormal => exact ⟨h.denormal rfl, h.exponent_le⟩
  · intro h
    cases magnitude with
    | zero | infinite =>
      constructor <;> simp [kind, significand, exponent, Magnitude.kind,
        Magnitude.significand, Magnitude.exponent]
    | nan payload =>
      by_cases hpayload : payload = 0 <;> constructor <;>
        simp [kind, significand, exponent, Magnitude.kind, Magnitude.significand,
          Magnitude.exponent, hpayload]
    | finite range exponent significand =>
      obtain ⟨hsignificand, hexponent⟩ := h
      cases range <;> constructor <;>
        simp_all [kind, Value.significand, Value.exponent, Magnitude.kind, Magnitude.significand,
          Magnitude.exponent, Range.Admits]

/-- The value is well-formed whatever its sign and its flags are. -/
theorem WellFormed.congr {x y : Value} (hx : x.WellFormed) (h : y.magnitude = x.magnitude) :
    y.WellFormed := by
  rw [wellFormed_iff] at hx ⊢
  rwa [h]

theorem WellFormed.isNumber {x : Value} (hx : x.WellFormed) (hfinite : x.isFinite = true) :
    x.IsNumber := by
  rw [wellFormed_iff] at hx
  obtain ⟨sign, flags, magnitude⟩ := x
  cases magnitude with
  | zero => trivial
  | finite range exponent significand => exact hx.1.ne_zero
  | infinite | nan => exact absurd hfinite Bool.false_ne_true

end Value

/-! ## Values of a format -/

namespace Format

variable {F : Format} {x : Value}

theorem abs_exponent_le {exponent : ℤ} (hmin : F.minExponent ≤ exponent)
    (hmax : exponent ≤ F.maxExponent) : |exponent| ≤ 2 ^ 29 :=
  abs_le.2 ⟨F.exponents_small.1.trans hmin, hmax.trans F.exponents_small.2⟩

theorem abs_minExponent_le (F : Format) : |F.minExponent| ≤ 2 ^ 29 :=
  abs_exponent_le le_rfl F.minExponent_le_maxExponent

theorem Contains.wellFormed (h : F.Contains x) : x.WellFormed := by
  rw [Value.wellFormed_iff]
  cases h with
  | zero | infinite | nan => trivial
  | normal hbit hmin hmax => exact ⟨hbit, abs_exponent_le hmin hmax⟩
  | denormal hgradual hpos =>
    refine ⟨?_, F.abs_minExponent_le⟩
    rintro rfl
    exact absurd hpos (by decide)

theorem wellFormed_minNormal (F : Format) (sign : Sign) : (F.minNormal sign).WellFormed :=
  Value.wellFormed_iff.2 ⟨Range.admits_topBit, F.abs_minExponent_le⟩

theorem wellFormed_minPositive (F : Format) (sign : Sign) : (F.minPositive sign).WellFormed := by
  rw [minPositive]
  cases F.underflow with
  | sudden => exact F.wellFormed_minNormal sign
  | gradual =>
    refine Value.wellFormed_iff.2 ⟨?_, F.abs_minExponent_le⟩
    rw [Range.Admits, ne_eq, ← UInt64.toNat_inj, F.toNat_minPositive, Nat.one_mul]
    exact (Nat.two_pow_pos _).ne'

theorem wellFormed_epsilon (F : Format) : F.epsilon.WellFormed := by
  have hplace := F.lastPlace_le 0
  have hplace' := F.le_lastPlace 0
  have hprecision := F.precision_le
  exact Value.wellFormed_iff.2 ⟨Range.admits_topBit, abs_le.2 ⟨by omega, by omega⟩⟩

/-! ## Decoding -/

/-- A number is well-formed as it is filed, if its leading bit is not beyond the
largest exponent. -/
theorem wellFormed_represent (sign : Sign) {count : UInt64} {place : ℤ}
    (hplace : F.minExponent - 63 ≤ place)
    (htop : count ≠ 0 → leadingExp (place + 63) count ≤ 2 ^ 29) :
    (F.represent sign count place).WellFormed := by
  have hleast := F.exponents_small.1
  rw [represent]
  by_cases hcount : count = 0
  · rw [if_pos hcount]
    exact Value.wellFormed_iff.2 trivial
  have hzeros := (Limb.leadingZeros_spec hcount).1
  have hbit := le_toNat_alignLeft hcount
  have hexp : leadingExp (place + 63) count = place + 63 - Limb.leadingZeros count := rfl
  have htop := htop hcount
  rw [if_neg hcount]
  by_cases htiny : leadingExp (place + 63) count < F.minExponent
  · rw [if_pos htiny]
    refine Value.wellFormed_iff.2 ⟨?_, F.abs_minExponent_le⟩
    -- The leading bit is at or above `place`, so moving by the distance keeps it.
    have hplaces : (F.minExponent - leadingExp (place + 63) count).toNat ≤ 63 := by omega
    have hpow := (Nat.pow_le_pow_right (by decide) hplaces).trans hbit
    rw [Range.Admits, ne_eq, ← UInt64.toNat_inj, Limb.toNat_shiftRight _ (by omega)]
    exact (Nat.div_pos hpow (Nat.two_pow_pos _)).ne'
  · rw [if_neg htiny]
    exact Value.wellFormed_iff.2 ⟨hbit, abs_le.2 ⟨by omega, by omega⟩⟩

theorem leadingExp_le {count : UInt64} {width : ℕ} (hcount : count ≠ 0)
    (hwidth : count.toNat < 2 ^ width) (exponent : ℤ) :
    leadingExp exponent count ≤ exponent + width - 64 := by
  obtain ⟨-, hlow, -⟩ := Limb.leadingZeros_spec hcount
  have hlt : 2 ^ 63 < 2 ^ (width + Limb.leadingZeros count) := by
    rw [pow_add]
    exact hlow.trans_lt (Nat.mul_lt_mul_of_pos_right hwidth (Nat.two_pow_pos _))
  have hsum := (Nat.pow_lt_pow_iff_right (by decide)).1 hlt
  rw [leadingExp]
  omega

/-- The number that fields stand for is below twice the largest power of two with
a well-formed exponent. -/
theorem read_top {f : Fields} (hf : f.Fits F) {count : UInt64} {place : ℤ}
    (hread : F.read f = .number count place) (hcount : count ≠ 0) :
    leadingExp (place + 63) count ≤ 2 ^ 29 := by
  obtain ⟨layout, mode, underflow⟩ := F
  obtain ⟨hbiased, hfraction⟩ := hf
  cases layout with
  | binary b =>
    have hprecision := b.precision_mem
    have hcapacity := b.two_pow_exponentWidth
    have hwidth := b.two_pow_exponentWidth_le
    have hbiased : f.biased < 2 ^ b.exponentWidth := hbiased
    rw [fractionWidth_binary rfl] at hfraction
    rw [read_binary rfl] at hread
    by_cases hspecial : f.biased = b.topBiased ∧ b.hasSpecials = true
    · rw [BinaryLayout.read, if_pos hspecial] at hread
      split at hread <;> exact absurd hread Reading.noConfusion
    rw [BinaryLayout.read_number hspecial hfraction, Reading.number.injEq] at hread
    obtain ⟨rfl, rfl⟩ := hread
    have hlt : b.count f.biased f.fraction < 2 ^ b.precision := BinaryLayout.count_lt hfraction
    have hword := Nat.pow_le_pow_right (n := 2) (by decide) hprecision.2
    rw [← Nat.mod_eq_of_lt (hlt.trans_le hword), ← UInt64.toNat_ofNat'] at hlt
    have htop := leadingExp_le hcount hlt (b.place f.biased + 63)
    rw [BinaryLayout.place] at htop ⊢
    omega
  | hexadecimal h =>
    have hdigits := h.digits_mem
    have hcapacity := h.two_pow_exponentWidth
    have hwidth := h.two_pow_exponentWidth_le
    have hbiased : f.biased < 2 ^ h.exponentWidth := hbiased
    have hfraction : f.fraction < 2 ^ (4 * h.digits) := hfraction
    simp only [read, HexadecimalLayout.read, Reading.number.injEq] at hread
    obtain ⟨rfl, rfl⟩ := hread
    have hword := Nat.pow_le_pow_right (n := 2) (by decide) (show 4 * h.digits ≤ 64 by omega)
    rw [← Nat.mod_eq_of_lt (hfraction.trans_le hword), ← UInt64.toNat_ofNat'] at hfraction
    have htop := leadingExp_le hcount hfraction (4 * ((f.biased : ℤ) - h.bias) - 4 * h.digits + 63)
    push_cast at htop
    omega

theorem read_special {f : Fields} {magnitude : Magnitude}
    (hread : F.read f = .special magnitude) : magnitude.WellFormed := by
  obtain ⟨layout, mode, underflow⟩ := F
  cases layout with
  | binary b =>
    simp only [read, BinaryLayout.read] at hread
    split_ifs at hread <;> cases hread <;> trivial
  | hexadecimal h => exact absurd hread Reading.noConfusion

theorem wellFormed_decode (F : Format) (word : ℕ) : (F.decode word).WellFormed := by
  have hfits := Fields.fits_ofWord word F
  rw [decode]
  cases hread : F.read (Fields.ofWord word F) with
  | number count place => exact wellFormed_represent _ (read_place hread) (read_top hfits hread)
  | special magnitude => exact Value.wellFormed_iff.2 (read_special hread)

end Format

/-! ## Results of operations -/

/-- A result that is not rounded any more is well-formed. -/
def Pending.WellFormed : Pending → Prop
  | settled x => x.WellFormed
  | number _ => True

theorem Pending.WellFormed.round {p : Pending} (h : p.WellFormed) (c : Context) :
    (p.round c).WellFormed := by
  cases p with
  | settled x => exact h
  | number u => exact (u.contains_round c).wellFormed

namespace Value

variable (x y : Value) (c : Context)

theorem wellFormed_sumWithSign (signY : Sign) : (x.sumWithSign y signY c).WellFormed := by
  obtain ⟨signX, flagsX, magnitudeX⟩ := x
  obtain ⟨signY', flagsY, magnitudeY⟩ := y
  cases magnitudeX with
  | nan => exact wellFormed_iff.2 trivial
  | zero =>
    cases magnitudeY with
    | finite => trivial
    | zero | infinite | nan => exact wellFormed_iff.2 trivial
  | infinite =>
    cases magnitudeY with
    | infinite =>
      simp only [sumWithSign]
      split <;> exact wellFormed_iff.2 trivial
    | zero | finite | nan => exact wellFormed_iff.2 trivial
  | finite =>
    cases magnitudeY with
    | zero => trivial
    | finite =>
      simp only [sumWithSign]
      split
      · trivial
      · exact wellFormed_iff.2 trivial
    | infinite | nan => exact wellFormed_iff.2 trivial

theorem wellFormed_product : (x.product y c).WellFormed := by
  obtain ⟨signX, flagsX, magnitudeX⟩ := x
  obtain ⟨signY, flagsY, magnitudeY⟩ := y
  cases magnitudeX with
  | nan => exact wellFormed_iff.2 trivial
  | zero | infinite => cases magnitudeY <;> exact wellFormed_iff.2 trivial
  | finite =>
    cases magnitudeY with
    | finite => trivial
    | zero | infinite | nan => exact wellFormed_iff.2 trivial

theorem wellFormed_quotient : (x.quotient y c).WellFormed := by
  obtain ⟨signX, flagsX, magnitudeX⟩ := x
  obtain ⟨signY, flagsY, magnitudeY⟩ := y
  cases magnitudeX with
  | nan => exact wellFormed_iff.2 trivial
  | zero | infinite => cases magnitudeY <;> exact wellFormed_iff.2 trivial
  | finite =>
    cases magnitudeY with
    | finite => trivial
    | zero | infinite | nan => exact wellFormed_iff.2 trivial

variable {x y c}

theorem wellFormed_add : (x.add y c).WellFormed := (wellFormed_sumWithSign x y c _).round c

theorem wellFormed_sub : (x.sub y c).WellFormed := (wellFormed_sumWithSign x y c _).round c

theorem wellFormed_mul : (x.mul y c).WellFormed := (wellFormed_product x y c).round c

theorem wellFormed_div : (x.div y c).WellFormed := (wellFormed_quotient x y c).round c

theorem WellFormed.convert (h : x.WellFormed) (c : Context) : (x.convert c).WellFormed := by
  obtain ⟨sign, flags, magnitude⟩ := x
  cases magnitude with
  | zero | nan => exact wellFormed_iff.2 trivial
  | infinite => exact h
  | finite => exact (Intermediate.contains_round _ c).wellFormed

theorem wellFormed_literal (sign : Sign) (magnitude : Magnitude) (flags : Flags) (c : Context) :
    (literal sign magnitude flags c).WellFormed := by
  cases magnitude with
  | zero | nan => exact wellFormed_iff.2 trivial
  | finite => trivial
  | infinite =>
    simp only [literal]
    split
    · exact wellFormed_iff.2 trivial
    · exact (c.format.represents_maxFinite sign).contains.wellFormed.congr rfl

theorem wellFormed_integer (sign : Sign) (n : ℕ) : (integer sign n).WellFormed := by
  rw [integer]
  split
  · exact wellFormed_iff.2 trivial
  · trivial

end Value

/-! ## Complex numbers -/

theorem Quantity.wellFormed_pending (q : Quantity) (flags : Flags) (c : Context) :
    (q.pending flags c).WellFormed := by
  cases q with
  | zero => exact Value.wellFormed_iff.2 trivial
  | nonzero => trivial

theorem Quantity.wellFormed_quotient (q : Quantity) (denominator : Nonzero) (flags : Flags)
    (c : Context) : (q.quotient denominator flags c).WellFormed := by
  cases q with
  | zero => exact Value.wellFormed_iff.2 trivial
  | nonzero => trivial

namespace Complex

structure WellFormed (z : Complex) : Prop where
  re : z.re.WellFormed
  im : z.im.WellFormed

variable (x y : Complex) (c : Context)

theorem wellFormed_ofPending {re im : Pending} (hre : re.WellFormed) (him : im.WellFormed) :
    (ofPending re im c).value.WellFormed :=
  ⟨hre.round c, him.round c⟩

theorem wellFormed_mul : (x.mul y c).WellFormed := by
  rw [mul, product]
  split
  · exact wellFormed_ofPending c (Quantity.wellFormed_pending ..) (Quantity.wellFormed_pending ..)
  · exact ⟨Value.wellFormed_sub, Value.wellFormed_add⟩

theorem wellFormed_div : (x.div y c).WellFormed := by
  have htextbook : (x.textbookQuotient y c).value.WellFormed :=
    ⟨Value.wellFormed_div, Value.wellFormed_div⟩
  rw [div, quotient]
  split
  · split
    · exact wellFormed_ofPending c (Quantity.wellFormed_quotient ..)
        (Quantity.wellFormed_quotient ..)
    · exact htextbook
  · exact htextbook

end Complex

/-! ## Answers -/

theorem Value.WellFormed.values {x : Value} (h : x.WellFormed) :
    ∀ y ∈ (Answer.value x).values, y.WellFormed := by
  simp only [Answer.values, List.forall_mem_cons]
  exact ⟨h, List.forall_mem_nil _⟩

theorem Complex.WellFormed.values {z : Complex} (h : z.WellFormed) :
    ∀ x ∈ (Answer.complex z).values, x.WellFormed := by
  simp only [Answer.values, List.forall_mem_cons]
  exact ⟨h.re, h.im, List.forall_mem_nil _⟩

theorem RoundedRequest.wellFormed_answer (r : RoundedRequest) (c : Context)
    (hoperands : ∀ y ∈ r.operands, y.WellFormed) :
    ∀ x ∈ (r.answer c).values, x.WellFormed := by
  cases r with
  | raw number => exact (number.contains_round c).wellFormed.values
  | literal => exact ((Value.wellFormed_literal ..).round c).values
  | integer | natural => exact ((Value.wellFormed_integer ..).round c).values
  | convert x => exact ((hoperands x List.mem_cons_self).convert c).values
  | add => exact Value.wellFormed_add.values
  | sub => exact Value.wellFormed_sub.values
  | mul => exact Value.wellFormed_mul.values
  | div => exact Value.wellFormed_div.values
  | complexMul x y => exact (x.wellFormed_mul y c).values
  | complexDiv x y => exact (x.wellFormed_div y c).values
  | encode | encodeBytes => exact List.forall_mem_nil _

theorem PlainRequest.wellFormed_answer (r : PlainRequest)
    (hoperands : ∀ y ∈ r.operands, y.WellFormed) :
    ∀ x ∈ r.answer.values, x.WellFormed := by
  cases r with
  | zero | infinity | nan | nanIn | formatZero =>
    exact Value.WellFormed.values (Value.wellFormed_iff.2 trivial)
  | maxFinite F sign => exact (F.represents_maxFinite sign).contains.wellFormed.values
  | minNormal F sign => exact (F.wellFormed_minNormal sign).values
  | minPositive F sign => exact (F.wellFormed_minPositive sign).values
  | epsilon F => exact F.wellFormed_epsilon.values
  | decode F word => exact (F.wellFormed_decode word).values
  | neg x | abs x | raise x | clearFlags x =>
    exact Value.WellFormed.values ((hoperands x List.mem_cons_self).congr rfl)
  | compare | toInteger | text => exact List.forall_mem_nil _

/-- What a request answers is well-formed if what it is given is. -/
theorem Request.wellFormed_answer (r : Request) (override : Option RoundingMode)
    (hoperands : ∀ y ∈ r.operands, y.WellFormed) :
    ∀ x ∈ (r.answer override).values, x.WellFormed := by
  cases r with
  | rounded F request => exact request.wellFormed_answer _ hoperands
  | plain request => exact request.wellFormed_answer hoperands

/-- Every value that comes out of a sequence of requests is well-formed. -/
theorem Reachable.wellFormed {x : Value} (h : Reachable x) : x.WellFormed := by
  induction h with
  | answer hoperands hx ih => exact Request.wellFormed_answer _ _ ih _ hx

end CrossFloat
