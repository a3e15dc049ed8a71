/-
Words of the interchange formats.

With a hidden leading bit, gradual underflow, infinities, NaNs and signed zeros,
no two words stand for the same value, NaNs apart.  So encoding what a word
stands for gives the word back.  A NaN comes back as a quiet one: its word has
the bit set that tells a quiet NaN, whether the original had it or not.

The fields of a word are taken case by case: zero, a denormal number, a normal
number, an infinity, a NaN.  In each case the value with these fields has an
encoding, and the results on values that have one do the rest.
-/
import CrossFloat.Proofs.Encoding

namespace CrossFloat

/-! ## Words and values -/

namespace Format

/-- Only the bits below the width of an encoding have a meaning. -/
theorem decode_congr {F : Format} {word other : ℕ}
    (h : other % 2 ^ F.storageWidth = word % 2 ^ F.storageWidth) :
    F.decode other = F.decode word := by
  rw [decode, decode, ← Fields.ofWord_mod other, h, Fields.ofWord_mod]

/-- A value that has an encoding is what its word stands for, and is encoded as
that word. -/
theorem HasEncoding.decode_word {c : Context} {y : Value} (hy : c.format.HasEncoding y)
    (hflags : y.flags = ∅) {word : ℕ} (hfields : c.format.fields y = .ofWord word c.format) :
    c.format.decode word = y ∧ y.encode c = word % 2 ^ c.format.storageWidth := by
  have hword : (c.format.fields y).toWord c.format = word % 2 ^ c.format.storageWidth := by
    rw [hfields, Fields.toWord_ofWord]
  refine ⟨?_, by rw [hy.encode_eq, hword]⟩
  rw [← decode_congr (Nat.mod_mod word _), ← hword, hy.decode_toWord.2]
  show Value.mk y.sign ∅ y.magnitude = y
  rw [← hflags]

end Format

/-! ## The fields of numbers -/

namespace BinaryLayout

variable {b : BinaryLayout}

/-- A count of last places, aligned to the left. -/
theorem toNat_significand {n : ℕ} (hn : n < 2 ^ b.precision) :
    (UInt64.ofNat (n * 2 ^ (64 - b.precision))).toNat = n * 2 ^ (64 - b.precision) := by
  rw [UInt64.toNat_ofNat', Nat.mod_eq_of_lt (mul_two_pow_lt b.precision_mem.2 hn)]

end BinaryLayout

/-- Fields below the largest biased exponent are those of a number. -/
theorem Format.exists_fields_eq {F : Format} {b : BinaryLayout} (hlayout : F.layout = .binary b)
    (hgradual : F.underflow = .gradual) (hhidden : b.storesLeadingBit = false)
    (hsigned : b.hasNegativeZero = true) {f : Fields} (hbiased : f.biased < b.topBiased)
    (hfraction : f.fraction < 2 ^ (b.precision - 1)) :
    ∃ y, F.Represents y ∧ y.flags = ∅ ∧ F.fields y = f := by
  have hdouble := b.two_pow_precision
  have htop := b.topBiased_eq
  have hunit := Nat.two_pow_pos (64 - b.precision)
  obtain ⟨sign, biased, fraction⟩ := f
  simp only at hbiased hfraction
  -- A biased exponent of zero implies no leading bit, and any other one does.
  rcases Nat.eq_zero_or_pos biased with rfl | hpos
  · rcases Nat.eq_zero_or_pos fraction with rfl | hnonzero
    · refine ⟨⟨sign, ∅, .zero⟩, represents_zero (Or.inl ?_) ∅, rfl, fields_binary hlayout _⟩
      rw [hasNegativeZero, hlayout]
      exact hsigned
    · have hs := BinaryLayout.toNat_significand (b := b) (n := fraction) (by omega)
      generalize UInt64.ofNat _ = s at hs
      have hcount := hs
      rw [← lastBit_binary hlayout F.minExponent] at hcount
      refine ⟨_, represents_denormal hgradual ?_ ?_ hcount sign ∅, rfl, ?_⟩
      · rintro rfl
        exact absurd hs.symm (Nat.mul_pos hnonzero hunit).ne'
      · rw [hs, b.two_pow_63]
        exact Nat.mul_lt_mul_of_pos_right hfraction hunit
      · rw [fields_binary hlayout, BinaryLayout.write_finite .denormal _ hs,
          BinaryLayout.fraction, hhidden, if_neg Bool.false_ne_true, Nat.mod_eq_of_lt hfraction]
        rfl
  · have hs := BinaryLayout.toNat_significand (b := b) (n := fraction + 2 ^ (b.precision - 1))
      (by omega)
    generalize UInt64.ofNat _ = s at hs
    have hcount := hs
    rw [← lastBit_binary hlayout (biased - b.bias)] at hcount
    refine ⟨_, represents_normal ?_ ?_ ?_ hcount sign ∅, rfl, ?_⟩
    · rw [minExponent_binary hlayout]
      omega
    · rw [maxExponent_binary hlayout]
      omega
    · rw [hs, b.two_pow_63]
      exact Nat.mul_le_mul_right _ (Nat.le_add_left _ _)
    · rw [fields_binary hlayout, BinaryLayout.write_finite .normal _ hs, BinaryLayout.fraction,
        hhidden, if_neg Bool.false_ne_true, Nat.add_mod_right, Nat.mod_eq_of_lt hfraction,
        BinaryLayout.biasedExponent]
      simp only [Int.sub_add_cancel, Int.toNat_natCast]

/-! ## The fields of infinities and NaNs -/

namespace BinaryLayout

variable {b : BinaryLayout}

theorem storedLeadingBit_hidden (hhidden : b.storesLeadingBit = false) :
    b.storedLeadingBit = 0 := by
  simp [storedLeadingBit, hhidden]

/-- A NaN is written with its payload and the bit that tells a quiet NaN. -/
theorem quietBit_or_mod {fraction : ℕ} (hfraction : fraction < 2 ^ (b.precision - 1)) :
    b.quietBit ||| fraction % 2 ^ (b.precision - 2) = fraction ||| 2 ^ (b.precision - 2) := by
  have hprecision := b.precision_mem
  rw [quietBit, Nat.one_shiftLeft]
  refine Nat.eq_of_testBit_eq fun i => ?_
  rw [Nat.testBit_or, Nat.testBit_or, Nat.testBit_mod_two_pow]
  rcases lt_trichotomy i (b.precision - 2) with hlow | rfl | hhigh
  · simp [hlow, Bool.or_comm]
  · simp [Nat.testBit_two_pow_self]
  · have hnone : fraction.testBit i = false :=
      Nat.testBit_lt_two_pow (hfraction.trans_le (Nat.pow_le_pow_right (by decide) (by omega)))
    simp [hnone]

end BinaryLayout

theorem Fields.toWord_or (sign : Sign) (biased fraction bit : ℕ) (F : Format) :
    (Fields.mk sign biased (fraction ||| bit)).toWord F =
      (Fields.mk sign biased fraction).toWord F ||| bit :=
  (Nat.or_assoc _ _ _).symm

/-! ## Encoding what a word stands for -/

namespace Format

section Hidden

variable {c : Context} {b : BinaryLayout} {word : ℕ}

theorem fraction_lt_of_hidden (word : ℕ) (hlayout : c.format.layout = .binary b)
    (hhidden : b.storesLeadingBit = false) :
    (Fields.ofWord word c.format).fraction < 2 ^ (b.precision - 1) := by
  have hwidth : b.fractionWidth = b.precision - 1 := if_neg (by simp [hhidden])
  rw [← hwidth, ← fractionWidth_binary hlayout]
  exact (Fields.fits_ofWord word c.format).fraction_lt

theorem encode_decode_number (hlayout : c.format.layout = .binary b)
    (hgradual : c.format.underflow = .gradual) (hhidden : b.storesLeadingBit = false)
    (hsigned : b.hasNegativeZero = true)
    (hbiased : (Fields.ofWord word c.format).biased < b.topBiased) :
    (c.format.decode word).flags = ∅ ∧
      (c.format.decode word).encode c = word % 2 ^ c.format.storageWidth := by
  have hfraction := fraction_lt_of_hidden word hlayout hhidden
  obtain ⟨y, hy, hflags, hfields⟩ :=
    exists_fields_eq hlayout hgradual hhidden hsigned hbiased hfraction
  obtain ⟨hdecode, hencode⟩ := HasEncoding.decode_word (Or.inl hy) hflags hfields
  rw [hdecode]
  exact ⟨hflags, hencode⟩

theorem encode_decode_infinite (hlayout : c.format.layout = .binary b)
    (hhidden : b.storesLeadingBit = false) (hspecials : b.hasSpecials = true)
    (hbiased : (Fields.ofWord word c.format).biased = b.topBiased)
    (hzero : (Fields.ofWord word c.format).fraction = 0) :
    (c.format.decode word).flags = ∅ ∧
      (c.format.decode word).encode c = word % 2 ^ c.format.storageWidth := by
  rw [← hasSpecials_binary hlayout] at hspecials
  have hencoding : c.format.HasEncoding ⟨(Fields.ofWord word c.format).sign, ∅, .infinite⟩ :=
    Or.inr ⟨hspecials, Or.inl rfl⟩
  have hfields : c.format.fields ⟨(Fields.ofWord word c.format).sign, ∅, .infinite⟩ =
      Fields.ofWord word c.format := by
    rw [fields_binary hlayout]
    simp only [BinaryLayout.write, BinaryLayout.storedLeadingBit_hidden hhidden, ← hbiased, ← hzero]
  obtain ⟨hdecode, hencode⟩ := hencoding.decode_word rfl hfields
  rw [hdecode]
  exact ⟨rfl, hencode⟩

/-- A NaN is encoded as a quiet one. -/
theorem encode_decode_nan (hlayout : c.format.layout = .binary b)
    (hhidden : b.storesLeadingBit = false) (hspecials : b.hasSpecials = true)
    (hbiased : (Fields.ofWord word c.format).biased = b.topBiased)
    (hnonzero : (Fields.ofWord word c.format).fraction ≠ 0) :
    (c.format.decode word).flags = ∅ ∧
      (c.format.decode word).encode c =
        word % 2 ^ c.format.storageWidth ||| 2 ^ (b.precision - 2) := by
  have hfraction := fraction_lt_of_hidden word hlayout hhidden
  have hread := BinaryLayout.read_nan ⟨hbiased, hspecials⟩
    (by rwa [Nat.mod_eq_of_lt hfraction])
  have hq : (Fields.ofWord word c.format).fraction % 2 ^ (b.precision - 2) <
      2 ^ (b.precision - 2) := Nat.mod_lt _ (Nat.two_pow_pos _)
  have hpayload := BinaryLayout.toNat_payload hq
  rw [← read_binary hlayout] at hread
  rw [← hasSpecials_binary hlayout] at hspecials
  have hencoding : c.format.HasEncoding ⟨(Fields.ofWord word c.format).sign, ∅, .nan _⟩ :=
    Or.inr ⟨hspecials, Or.inr ⟨_, rfl, trimPayload_eq_self (by
      rw [payloadWidth_binary hlayout]
      exact hpayload)⟩⟩
  rw [decode_of_special hread, hencoding.encode_eq, fields_binary hlayout,
    BinaryLayout.write_nan hpayload, BinaryLayout.storedLeadingBit_hidden hhidden, Nat.zero_or,
    BinaryLayout.quietBit_or_mod hfraction, Fields.toWord_or, ← hbiased, Fields.toWord_ofWord]
  exact ⟨rfl, rfl⟩

theorem encode_decode_hidden (hlayout : c.format.layout = .binary b)
    (hgradual : c.format.underflow = .gradual) (hhidden : b.storesLeadingBit = false)
    (hspecials : b.hasSpecials = true) (hsigned : b.hasNegativeZero = true) (word : ℕ) :
    (c.format.decode word).flags = ∅ ∧
      (c.format.decode word).encode c =
        if (Fields.ofWord word c.format).biased = b.topBiased ∧
            (Fields.ofWord word c.format).fraction ≠ 0 then
          word % 2 ^ c.format.storageWidth ||| 2 ^ (b.precision - 2)
        else word % 2 ^ c.format.storageWidth := by
  by_cases htop : (Fields.ofWord word c.format).biased = b.topBiased
  · by_cases hzero : (Fields.ofWord word c.format).fraction = 0
    · rw [if_neg (fun h => h.2 hzero)]
      exact encode_decode_infinite hlayout hhidden hspecials htop hzero
    · rw [if_pos ⟨htop, hzero⟩]
      exact encode_decode_nan hlayout hhidden hspecials htop hzero
  · rw [if_neg (fun h => htop h.1)]
    refine encode_decode_number hlayout hgradual hhidden hsigned ?_
    have hlt := (Fields.fits_ofWord word c.format).biased_lt
    have htopBiased := b.topBiased_eq
    rw [exponentWidth_binary hlayout, b.two_pow_exponentWidth] at hlt
    omega

end Hidden

end Format

namespace Value

/-- In an interchange format a decoded word carries no flags, depends on no bit
above the width, and is encoded as the same word, except that a NaN becomes
quiet. -/
theorem encode_decode {exponentWidth precision : ℕ} {F : Format}
    (hF : Format.ieee exponentWidth precision = .ok F) (mode : RoundingMode)
    (override : Option RoundingMode) (word : ℕ) :
    let c : Context := ⟨F.withRounding mode, override⟩
    let low := word % 2 ^ F.storageWidth
    (c.format.decode word).flags = ∅ ∧
      (∀ other, other % 2 ^ F.storageWidth = low → c.format.decode other = c.format.decode word) ∧
      (c.format.decode word).encode c =
        if word / 2 ^ (precision - 1) % 2 ^ exponentWidth = 2 ^ exponentWidth - 1 ∧
            word % 2 ^ (precision - 1) ≠ 0 then
          low ||| 2 ^ (precision - 2)
        else low := by
  unfold Format.ieee at hF
  split at hF
  case isFalse => exact absurd hF (by simp)
  split at hF
  case isFalse => exact absurd hF (by simp)
  obtain rfl := Except.ok.inj hF
  intro c low
  obtain ⟨hflags, hencode⟩ := Format.encode_decode_hidden (c := c) rfl rfl rfl rfl rfl word
  refine ⟨hflags, fun other hother => Format.decode_congr hother, ?_⟩
  simp only [Fields.ofWord, BinaryLayout.topBiased, Nat.shiftRight_eq_div_pow,
    Nat.one_shiftLeft] at hencode
  exact hencode

/-- A signalling NaN of the 64-bit format comes back quiet, and with its payload. -/
theorem encode_decode_signalling :
    Format.ieee 11 53 = .ok .double ∧
      (Format.double.decode 0x7ff0000000000001).encode Format.double.alone =
        0x7ff8000000000001 := by
  have hdouble : Format.ieee 11 53 = .ok .double := rfl
  refine ⟨hdouble, (encode_decode hdouble .nearestEven none 0x7ff0000000000001).2.2.trans ?_⟩
  decide

end Value
end CrossFloat
