/-
Words of a format without infinities and NaNs.

Such a format keeps the exponent range that it has with them, so the largest
biased exponent is left over.  A rounding never leads there, since what is out of
range becomes the largest number.  Decoding reads it as an ordinary exponent, one
above the largest.

Words with any other biased exponent are exactly those of the numbers of the
format.  A word with the largest one stands for a number that exceeds all of
these, and encoding that number saturates.
-/
import CrossFloat.Proofs.Encoding.Decoding

namespace CrossFloat

/-! ## Numbers out of range -/

namespace Format

variable {F : Format} {c : Context} {x : Value}

/-- A number beyond the largest exponent is none of the format. -/
theorem not_contains_of_large (hfinite : x.isFinite = true)
    (hlarge : 2 ^ (F.maxExponent + 1) ≤ x.magnitude.toRat) : ¬ F.Contains x :=
  fun hcontains => not_lt.2 hlarge (hcontains.represents hfinite).number.lt

/-- Without infinities such a number is encoded as the largest one. -/
theorem encode_of_large (hnone : c.format.hasSpecials = false) (hfinite : x.isFinite = true)
    (hlarge : 2 ^ (c.format.maxExponent + 1) ≤ x.magnitude.toRat) :
    x.encode c = (c.format.fields (c.format.maxFinite x.sign)).toWord c.format := by
  have hstay : ¬ (c.format.hasSpecials = true ∧ c.mode.LeavesRange x.sign) :=
    fun h => Bool.false_ne_true (hnone.symm.trans h.1)
  have hmax := (c.format.represents_maxFinite x.sign).raise (x.flags ∪ .onOverflow ∪ .onInexactLow)
  rw [Value.encode, encodeRounded, Value.convert_eq_roundRat hfinite,
    c.roundRat_of_large _ _ hlarge, Intermediate.saturated_of_not_leavesRange hstay,
    encodable_eq_self (Or.inl hmax.isFinite)]
  rfl

end Format

/-! ## The largest biased exponent -/

section Binary

variable {F : Format} {b : BinaryLayout} {word : ℕ}

/-- The largest number has all ones in its fraction, and the biased exponent below
the largest. -/
theorem Format.fields_maxFinite (hlayout : F.layout = .binary b)
    (hhidden : b.storesLeadingBit = false) (sign : Sign) :
    F.fields (F.maxFinite sign) = ⟨sign, b.topBiased - 1, 2 ^ (b.precision - 1) - 1⟩ := by
  have hones := F.toNat_maxFinite
  have htop := b.topBiased_eq
  have hdouble := b.two_pow_precision
  have hhalf : 1 ≤ 2 ^ (b.precision - 1) := Nat.one_le_two_pow
  have hfraction : (2 ^ b.precision - 1) % 2 ^ (b.precision - 1) = 2 ^ (b.precision - 1) - 1 := by
    rw [Nat.mod_eq_sub_mod (by omega), Nat.mod_eq_of_lt (by omega)]
    omega
  rw [precision_binary hlayout] at hones
  rw [fields_binary hlayout, maxFinite, precision_binary hlayout, maxExponent_binary hlayout]
  simp only [BinaryLayout.write_finite .normal _ hones, BinaryLayout.fraction, hhidden,
    Bool.false_eq_true, if_false, hfraction, BinaryLayout.biasedExponent, Fields.mk.injEq,
    true_and, and_true]
  omega

namespace BinaryLayout

theorem count_topBiased (hhidden : b.storesLeadingBit = false) (fraction : ℕ) :
    b.count b.topBiased fraction = fraction + 2 ^ (b.precision - 1) := by
  have hpos : b.topBiased ≠ 0 := by
    rw [b.topBiased_eq]
    omega
  rw [count, hhidden, Bool.false_or, beq_eq_false_iff_ne.2 hpos, if_neg Bool.false_ne_true]

theorem place_topBiased (b : BinaryLayout) :
    b.place b.topBiased = (b.bias : ℤ) + 1 - (b.precision - 1) := by
  rw [place, b.topBiased_eq]
  omega

/-- What the largest biased exponent stands for is beyond the largest exponent. -/
theorem two_zpow_le_count_topBiased (hhidden : b.storesLeadingBit = false) (fraction : ℕ) :
    2 ^ ((b.bias : ℤ) + 1) ≤ (b.count b.topBiased fraction : ℚ) * 2 ^ b.place b.topBiased := by
  have hprecision := b.precision_mem.1
  have hlead : ((2 ^ (b.precision - 1) : ℕ) : ℚ) ≤ b.count b.topBiased fraction := by
    rw [count_topBiased hhidden]
    exact_mod_cast Nat.le_add_left _ fraction
  calc (2 : ℚ) ^ ((b.bias : ℤ) + 1)
      = ((2 ^ (b.precision - 1) : ℕ) : ℚ) * 2 ^ b.place b.topBiased := by
        rw [place_topBiased, ← two_zpow_natCast, ← two_zpow_add]
        congr 1
        omega
    _ ≤ _ := mul_le_mul_of_nonneg_right hlead (two_zpow_pos _).le

end BinaryLayout

namespace Format

/-- Without infinities and NaNs every word stands for a number. -/
theorem denotes_ofWord_withoutSpecials (hlayout : F.layout = .binary b)
    (hnone : b.hasSpecials = false) (word : ℕ) :
    (Fields.ofWord word F).Denotes F
      (b.count (Fields.ofWord word F).biased (Fields.ofWord word F).fraction *
        2 ^ b.place (Fields.ofWord word F).biased) :=
  denotes_ofWord_binary hlayout fun h => Bool.false_ne_true (hnone.symm.trans h.2)

theorem magnitude_decode_topBiased (hlayout : F.layout = .binary b)
    (hnone : b.hasSpecials = false)
    (hbiased : (Fields.ofWord word F).biased = b.topBiased) :
    (F.decode word).magnitude.toRat =
      (b.count b.topBiased (Fields.ofWord word F).fraction : ℚ) * 2 ^ b.place b.topBiased := by
  have hdenotes := denotes_ofWord_withoutSpecials hlayout hnone word
  rw [hbiased] at hdenotes
  exact (stores_decode hdenotes).toRat_eq (mul_nonneg (Nat.cast_nonneg _) (two_zpow_pos _).le)

theorem two_zpow_le_decode_topBiased (hlayout : F.layout = .binary b)
    (hnone : b.hasSpecials = false) (hhidden : b.storesLeadingBit = false)
    (hbiased : (Fields.ofWord word F).biased = b.topBiased) :
    2 ^ (F.maxExponent + 1) ≤ (F.decode word).magnitude.toRat := by
  rw [magnitude_decode_topBiased hlayout hnone hbiased, maxExponent_binary hlayout]
  exact BinaryLayout.two_zpow_le_count_topBiased hhidden _

end Format

end Binary

/-! ## Formats without infinities and NaNs -/

namespace Value

/-- Without infinities and NaNs, a word whose biased exponent is not the largest is
the encoding of the number that it stands for, which is one of the format.  A word
with the largest biased exponent stands for a number beyond the largest one, and
encoding that number gives the word of the largest. -/
theorem decode_withoutSpecials {exponentWidth precision : ℕ} {F : Format}
    (hF : Format.ieee exponentWidth precision = .ok F) (mode : RoundingMode)
    (override : Option RoundingMode) (word : ℕ) :
    let c : Context := ⟨F.withoutSpecials.withRounding mode, override⟩
    let f := Fields.ofWord word c.format
    let x := c.format.decode word
    x.isFinite = true ∧ x.flags = ∅ ∧
      (f.biased ≠ 2 ^ exponentWidth - 1 →
        c.format.Contains x ∧ |x.toRat| ≤ |(c.format.maxFinite x.sign).toRat| ∧
          x.encode c = word % 2 ^ c.format.storageWidth) ∧
      (f.biased = 2 ^ exponentWidth - 1 →
        ¬ c.format.Contains x ∧ |(c.format.maxFinite x.sign).toRat| < |x.toRat| ∧
          |x.toRat| = ((f.fraction + 2 ^ (precision - 1) : ℕ) : ℚ) *
            2 ^ ((F.bias : ℤ) + 1 - (precision - 1)) ∧
          x.encode c =
            (Fields.mk x.sign (2 ^ exponentWidth - 2) (2 ^ (precision - 1) - 1)).toWord
              c.format) := by
  obtain ⟨he, hp, rfl⟩ := Format.ieee_eq_ok hF
  intro c f x
  let b : BinaryLayout := ⟨exponentWidth, precision, false, false, true, he, hp⟩
  have hlayout : c.format.layout = .binary b := rfl
  have htop : b.topBiased = 2 ^ exponentWidth - 1 := Format.topBiased_binary hlayout
  have hfinite : x.isFinite = true :=
    Format.isFinite_decode (Format.denotes_ofWord_withoutSpecials hlayout rfl word)
  refine ⟨hfinite, c.format.flags_decode word, fun hbelow => ?_, fun hbiased => ?_⟩
  · have hcontains : c.format.Contains x :=
      Format.contains_iff_hasEncoding.2 (Format.hasEncoding_decode rfl fun _ _ => hbelow)
    have hlt : f.biased < b.topBiased := by
      have hfits : f.biased < 2 ^ exponentWidth := (Fields.fits_ofWord word c.format).biased_lt
      omega
    refine ⟨hcontains, ?_, (Format.encode_decode_number hlayout rfl rfl rfl hlt).2⟩
    rw [abs_toRat, abs_toRat]
    exact (hcontains.represents hfinite).number.le_maxFinite x.sign
  · rw [← htop] at hbiased
    have hlarge : 2 ^ (c.format.maxExponent + 1) ≤ x.magnitude.toRat :=
      Format.two_zpow_le_decode_topBiased hlayout rfl rfl hbiased
    have hmax := (c.format.represents_maxFinite x.sign).number.lt
    refine ⟨Format.not_contains_of_large hfinite hlarge, ?_, ?_, ?_⟩
    · rw [abs_toRat, abs_toRat]
      exact hmax.trans_le hlarge
    · rw [abs_toRat, Format.magnitude_decode_topBiased hlayout rfl hbiased,
        BinaryLayout.count_topBiased rfl, b.place_topBiased]
      rfl
    · rw [Format.encode_of_large rfl hfinite hlarge, Format.fields_maxFinite hlayout rfl, htop]
      rfl

/-- The word after that of the largest number of the 32-bit format. -/
theorem decode_withoutSpecials_single :
    let c := Format.single.withoutSpecials.alone
    let x := c.format.decode 0x7f800000
    Format.ieee 8 24 = .ok .single ∧ x.encode c = 0x7f7fffff ∧ ¬ c.format.Contains x := by
  intro c x
  have hsingle : Format.ieee 8 24 = .ok .single := rfl
  obtain ⟨-, -, -, htop⟩ := decode_withoutSpecials hsingle .nearestEven none 0x7f800000
  obtain ⟨hnone, -, -, hencode⟩ := htop (by decide)
  exact ⟨hsingle, hencode.trans (by decide), hnone⟩

/-- It stands for 2^128, and is not what that number is encoded as. -/
theorem not_decode_le_maxFinite :
    let c := Format.single.withoutSpecials.alone
    let x := c.format.decode 0x7f800000
    Format.ieee 8 24 = .ok .single ∧ x.toRat = 2 ^ 128 ∧
      ¬ |x.toRat| ≤ |(c.format.maxFinite .positive).toRat| ∧ ¬ c.format.Contains x ∧
      x.encode c ≠ 0x7f800000 % 2 ^ c.format.storageWidth := by
  intro c x
  have hx : x = ⟨.positive, ∅, .finite .normal 128 0x8000000000000000⟩ := by decide
  have hlead : (0x8000000000000000 : UInt64).toNat = 2 ^ 63 := rfl
  have hsize : x.magnitude.toRat = 2 ^ 128 := by
    rw [hx, Magnitude.toRat, hlead]
    norm_num
  have hvalue : x.toRat = 2 ^ 128 := by
    rw [toRat, hsize, hx]
    norm_num [Sign.factor]
  have hlarge : 2 ^ (c.format.maxExponent + 1) ≤ x.magnitude.toRat := by
    rw [hsize]
    exact le_refl ((2 : ℚ) ^ 128)
  refine ⟨rfl, hvalue, ?_, Format.not_contains_of_large (by rw [hx]; rfl) hlarge, by decide⟩
  rw [abs_toRat, abs_toRat, not_le]
  exact (c.format.represents_maxFinite .positive).number.lt.trans_le hlarge

end Value
end CrossFloat
