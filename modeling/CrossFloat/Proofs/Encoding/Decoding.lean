/-
Decoding is exact.

The fields of a word denote an infinity, a NaN or a number, and decoding gives
just that, whatever the word looks like.  A word need not be the encoding of
anything: a stored leading bit may be clear in front of a biased exponent that is
not zero, or set in front of one that is, and a hexadecimal fraction may begin
with zeros.  Such a word stands for its number all the same, since a number is
filed by its size and not by its fields.

With gradual underflow what is decoded is a value of the format.  The last place of
a word is that of an exponent in range, and a number with leading zeros only has a
finer one.  Without infinities and NaNs the largest biased exponent is an exception,
which `Proofs.Encoding.Saturation` is about.  A value of the format has an encoding
of its own, and that decodes to the same value again.
-/
import CrossFloat.Proofs.Encoding.Interchange
import CrossFloat.Proofs.Rounding.Grid
import CrossFloat.Proofs.Rounding.Idempotent

namespace CrossFloat

namespace Format

variable {F : Format} {word : ℕ} {r : ℚ}

/-! ## What decoding returns -/

theorem flags_represent (F : Format) (sign : Sign) (count : UInt64) (place : ℤ) :
    (F.represent sign count place).flags = ∅ := by
  simp only [represent]
  split
  · rfl
  · split <;> rfl

theorem flags_decode (F : Format) (word : ℕ) : (F.decode word).flags = ∅ := by
  simp only [decode]
  split
  · exact F.flags_represent _ _ _
  · rfl

/-- The number that a word denotes is stored in the format's own form, with all of
its places. -/
theorem stores_decode (h : (Fields.ofWord word F).Denotes F r) :
    F.Stores (Fields.ofWord word F).sign r (F.decode word) := by
  rw [decode_of_denotes h]
  obtain ⟨-, count, place, hread, rfl⟩ := h
  have hplace := read_place hread
  have hstores := F.stores_store (Fields.ofWord word F).sign (r := count.toNat * 2 ^ place)
    (n := count.toNat * 2 ^
      (place + 63 - max (Int.log 2 ((count.toNat : ℚ) * 2 ^ place)) F.minExponent).toNat)
    (fun hpos => ?_) ∅
  · rwa [Value.raise_empty] at hstores
  -- The count fits in a limb, so its leading bit is at most 63 places above the last.
  have hlog : Int.log 2 ((count.toNat : ℚ) * 2 ^ place) < place + 64 := by
    rw [log_lt_iff hpos, add_comm, two_zpow_add]
    exact mul_lt_mul_of_pos_right (by exact_mod_cast count.toNat_lt) (two_zpow_pos _)
  generalize Int.log 2 ((count.toNat : ℚ) * 2 ^ place) = e at *
  rw [mul_assoc, ← two_zpow_add, Nat.cast_mul, ← two_zpow_natCast,
    Int.toNat_of_nonneg (by omega)]
  congr 2
  omega

theorem isFinite_decode (h : (Fields.ofWord word F).Denotes F r) :
    (F.decode word).isFinite = true := by
  rw [decode_of_denotes h, store]
  split_ifs <;> rfl

end Format

/-! ## The fields of a word -/

/-- The value `x` is what the fields `f` denote. -/
structure Format.Decodes (F : Format) (f : Fields) (x : Value) : Prop where
  /-- The fraction is one of hexadecimal digits, `0.hh...`. -/
  hexadecimal : F.digitWidth = 4 →
    x.isFinite = true ∧ x.toRat = f.sign.factor * f.fraction *
      16 ^ ((f.biased : ℤ) - F.bias) * 2 ^ (-(F.precision : ℤ))
  /-- Below the leading bit, which may be stored, the fraction is zero. -/
  infinite : F.digitWidth = 1 → F.hasSpecials = true → f.biased = 2 ^ F.exponentWidth - 1 →
    f.fraction % 2 ^ (F.precision - 1) = 0 → x = ⟨f.sign, ∅, .infinite⟩
  /-- The payload is what lies below the leading bit and the bit of a quiet NaN,
  aligned to the left of its limb. -/
  nan : F.digitWidth = 1 → F.hasSpecials = true → f.biased = 2 ^ F.exponentWidth - 1 →
    f.fraction % 2 ^ (F.precision - 1) ≠ 0 →
    ∃ payload, x = ⟨f.sign, ∅, .nan payload⟩ ∧
      payload.toNat = f.fraction % 2 ^ (F.precision - 2) * 2 ^ (64 - (F.precision - 2))
  /-- A biased exponent of zero has the place of the least other one, and does not
  imply a leading bit. -/
  number : F.digitWidth = 1 →
    ¬ (F.hasSpecials = true ∧ f.biased = 2 ^ F.exponentWidth - 1) →
    x.isFinite = true ∧ x.toRat = f.sign.factor *
      (if F.storesLeadingBit ∨ f.biased = 0 then (f.fraction : ℚ)
      else f.fraction + 2 ^ (F.precision - 1)) *
      2 ^ (((max f.biased 1 : ℕ) : ℤ) - F.bias - (F.precision - 1))

theorem BinaryLayout.cast_count (b : BinaryLayout) (biased fraction : ℕ) :
    (b.count biased fraction : ℚ) =
      if b.storesLeadingBit ∨ biased = 0 then (fraction : ℚ)
      else fraction + 2 ^ (b.precision - 1) := by
  rw [count]
  by_cases himplied : b.storesLeadingBit = true ∨ biased = 0
  · rw [if_pos himplied, if_pos (by simpa using himplied), Nat.add_zero]
  · rw [if_neg himplied, if_neg (by simpa using himplied)]
    push_cast
    rfl

namespace Format

variable {F : Format}

section Binary

variable {b : BinaryLayout} {word : ℕ}

/-- A word with other than the fields of an infinity or a NaN denotes a number. -/
theorem denotes_ofWord_binary (hlayout : F.layout = .binary b)
    (hnumber : ¬ ((Fields.ofWord word F).biased = b.topBiased ∧ b.hasSpecials)) :
    (Fields.ofWord word F).Denotes F
      (b.count (Fields.ofWord word F).biased (Fields.ofWord word F).fraction *
        2 ^ b.place (Fields.ofWord word F).biased) := by
  obtain ⟨hbiased, hfraction⟩ := Fields.fits_ofWord word F
  rw [exponentWidth_binary hlayout] at hbiased
  rw [fractionWidth_binary hlayout] at hfraction
  exact denotes_binary hlayout _ hbiased hfraction hnumber

theorem decode_of_infinite (hlayout : F.layout = .binary b)
    (hspecial : (Fields.ofWord word F).biased = b.topBiased ∧ b.hasSpecials)
    (hzero : (Fields.ofWord word F).fraction % 2 ^ (b.precision - 1) = 0) :
    F.decode word = ⟨(Fields.ofWord word F).sign, ∅, .infinite⟩ :=
  decode_of_special ((read_binary hlayout _).trans (BinaryLayout.read_infinite hspecial hzero))

theorem decode_of_nan (hlayout : F.layout = .binary b)
    (hspecial : (Fields.ofWord word F).biased = b.topBiased ∧ b.hasSpecials)
    (hnonzero : (Fields.ofWord word F).fraction % 2 ^ (b.precision - 1) ≠ 0) :
    ∃ payload, F.decode word = ⟨(Fields.ofWord word F).sign, ∅, .nan payload⟩ ∧
      payload.toNat =
        (Fields.ofWord word F).fraction % 2 ^ (b.precision - 2) * 2 ^ (64 - (b.precision - 2)) :=
  ⟨_, decode_of_special
      ((read_binary hlayout _).trans (BinaryLayout.read_nan hspecial hnonzero)),
    BinaryLayout.toNat_payload (Nat.mod_lt _ (Nat.two_pow_pos _))⟩

theorem decodes_decode_binary (hlayout : F.layout = .binary b) (word : ℕ) :
    F.Decodes (.ofWord word F) (F.decode word) := by
  have hwidth := digitWidth_binary hlayout
  have hspecials := hasSpecials_binary hlayout
  have htop := topBiased_binary hlayout
  have hprecision := precision_binary hlayout
  refine ⟨fun h => ?_, fun _ h hbiased hfraction => ?_, fun _ h hbiased hfraction => ?_,
    fun _ hnumber => ?_⟩
  · omega
  · rw [hspecials] at h
    rw [← htop] at hbiased
    rw [hprecision] at hfraction
    exact decode_of_infinite hlayout ⟨hbiased, h⟩ hfraction
  · rw [hspecials] at h
    rw [← htop] at hbiased
    rw [hprecision] at hfraction ⊢
    exact decode_of_nan hlayout ⟨hbiased, h⟩ hfraction
  · rw [hspecials, ← htop, and_comm] at hnumber
    have hdenotes := denotes_ofWord_binary hlayout hnumber
    have hcount := b.cast_count (Fields.ofWord word F).biased (Fields.ofWord word F).fraction
    refine ⟨isFinite_decode hdenotes, ?_⟩
    rw [(stores_decode hdenotes).toRat_value
      (mul_nonneg (Nat.cast_nonneg _) (two_zpow_pos _).le), hcount, BinaryLayout.place,
      storesLeadingBit_binary hlayout, hprecision, bias_binary hlayout, mul_assoc]

end Binary

section Hexadecimal

variable {h : HexadecimalLayout} {mode : RoundingMode} {underflow : Underflow} {word : ℕ}

theorem denotes_ofWord_hexadecimal :
    let F : Format := ⟨.hexadecimal h, mode, underflow⟩
    (Fields.ofWord word F).Denotes F ((Fields.ofWord word F).fraction *
      2 ^ (4 * (((Fields.ofWord word F).biased : ℤ) - h.bias) - 4 * h.digits)) := by
  intro F
  obtain ⟨hbiased, hfraction⟩ := Fields.fits_ofWord word F
  exact denotes_hexadecimal _ hbiased hfraction

theorem decodes_decode_hexadecimal :
    let F : Format := ⟨.hexadecimal h, mode, underflow⟩
    F.Decodes (.ofWord word F) (F.decode word) := by
  intro F
  have hwidth : F.digitWidth ≠ 1 := show (4 : ℕ) ≠ 1 by decide
  refine ⟨fun _ => ?_, fun h => absurd h hwidth, fun h => absurd h hwidth,
    fun h => absurd h hwidth⟩
  have hdenotes : (Fields.ofWord word F).Denotes F _ := denotes_ofWord_hexadecimal
  have hpower (e : ℤ) : (16 : ℚ) ^ e = 2 ^ (4 * e) := by
    rw [zpow_mul]
    norm_num
  refine ⟨isFinite_decode hdenotes, ?_⟩
  rw [(stores_decode hdenotes).toRat_value
    (mul_nonneg (Nat.cast_nonneg _) (two_zpow_pos _).le), sub_eq_add_neg, two_zpow_add, hpower,
    ← mul_assoc, ← mul_assoc]
  rfl

end Hexadecimal

/-- Decoding gives what the fields of the word denote. -/
theorem decodes_decode (F : Format) (word : ℕ) : F.Decodes (.ofWord word F) (F.decode word) := by
  cases hlayout : F.layout with
  | binary b => exact decodes_decode_binary hlayout word
  | hexadecimal h =>
    obtain ⟨layout, mode, underflow⟩ := F
    obtain rfl : layout = .hexadecimal h := hlayout
    exact decodes_decode_hexadecimal

/-! ## Decoded values are values of the format -/

/-- A count of the last places of an exponent in range is a number of the format,
also when it is so small that its own last place is finer. -/
theorem hasNumber_of_count (hgradual : F.underflow = .gradual) {count : ℕ} {e : ℤ}
    (hmin : F.minExponent ≤ e) (hmax : e ≤ F.maxExponent)
    (hlast : F.lastPlace e = e + 1 - F.precision) (hcount : count < 2 ^ F.precision) :
    F.HasNumber (count * 2 ^ F.lastPlace e) := by
  have hunit := two_zpow_pos (F.lastPlace e)
  have hlt : (count : ℚ) * 2 ^ F.lastPlace e < 2 ^ (e + 1) := by
    rw [two_zpow_eq_natCast_mul (show F.lastPlace e ≤ e + 1 by omega),
      show (e + 1 - F.lastPlace e).toNat = F.precision by omega, mul_lt_mul_iff_left₀ hunit]
    exact_mod_cast hcount
  refine hasNumber_of_mem_grid hgradual (natCast_mul_mem_grid count _)
    (mul_nonneg count.cast_nonneg hunit.le) (fun hpos => ?_)
    (hlt.trans_le (two_zpow_le_iff.2 (by omega)))
  have hlog := (log_lt_iff hpos).2 hlt
  exact F.lastPlace_mono (max_le (by omega) hmin)

theorem hasNumber_binary {b : BinaryLayout} (hlayout : F.layout = .binary b)
    (hgradual : F.underflow = .gradual) {biased fraction : ℕ} (hbiased : biased < b.topBiased)
    (hfraction : fraction < 2 ^ b.fractionWidth) :
    F.HasNumber (b.count biased fraction * 2 ^ b.place biased) := by
  have htop := b.topBiased_eq
  have hbias := b.bias_pos
  have hlast := lastPlace_binary hlayout ((max biased 1 : ℕ) - b.bias)
  have hplace : b.place biased = F.lastPlace ((max biased 1 : ℕ) - b.bias) := by
    rw [hlast, BinaryLayout.place]
    omega
  rw [hplace]
  apply hasNumber_of_count hgradual
  · rw [minExponent_binary hlayout]
    omega
  · rw [maxExponent_binary hlayout]
    omega
  · rw [hlast, precision_binary hlayout]
  · rw [precision_binary hlayout]
    exact BinaryLayout.count_lt hfraction

theorem hasNumber_hexadecimal {h : HexadecimalLayout} (mode : RoundingMode) {biased fraction : ℕ}
    (hbiased : biased < 2 ^ h.exponentWidth) (hfraction : fraction < 2 ^ (4 * h.digits)) :
    HasNumber ⟨.hexadecimal h, mode, .gradual⟩
      (fraction * 2 ^ (4 * ((biased : ℤ) - h.bias) - 4 * h.digits)) := by
  have hwidth := h.two_pow_exponentWidth
  have hplace : 4 * ((biased : ℤ) - h.bias) - 4 * h.digits =
      lastPlace ⟨.hexadecimal h, mode, .gradual⟩ (4 * ((biased : ℤ) - h.bias) - 1) := by
    simp only [lastPlace, digitWidth, precision]
    omega
  rw [hplace]
  apply hasNumber_of_count rfl
  · simp only [minExponent, bias]
    omega
  · simp only [maxExponent, bias]
    omega
  · simp only [← hplace, precision]
    omega
  · exact hfraction

theorem hasEncoding_decode_binary {b : BinaryLayout} (hlayout : F.layout = .binary b)
    (hgradual : F.underflow = .gradual)
    (htop : b.hasSpecials = false → (Fields.ofWord word F).biased ≠ b.topBiased) :
    F.HasEncoding (F.decode word) := by
  obtain ⟨hbiased, hfraction⟩ := Fields.fits_ofWord word F
  have htopBiased := b.topBiased_eq
  rw [exponentWidth_binary hlayout, b.two_pow_exponentWidth] at hbiased
  rw [fractionWidth_binary hlayout] at hfraction
  by_cases hspecial : (Fields.ofWord word F).biased = b.topBiased ∧ b.hasSpecials
  · refine Or.inr ⟨(hasSpecials_binary hlayout).trans hspecial.2, ?_⟩
    by_cases hzero : (Fields.ofWord word F).fraction % 2 ^ (b.precision - 1) = 0
    · rw [decode_of_infinite hlayout hspecial hzero]
      exact Or.inl rfl
    · obtain ⟨payload, hdecode, hpayload⟩ := decode_of_nan hlayout hspecial hzero
      rw [← payloadWidth_binary hlayout] at hpayload
      rw [hdecode]
      exact Or.inr ⟨payload, rfl, trimPayload_eq_self hpayload⟩
  · have hne : (Fields.ofWord word F).biased ≠ b.topBiased := fun h =>
      htop (Bool.eq_false_iff.2 fun hspecials => hspecial ⟨h, hspecials⟩) h
    exact Or.inl ((stores_decode (denotes_ofWord_binary hlayout hspecial)).represents
      (hasNumber_binary hlayout hgradual (by omega) hfraction))

/-- What a word stands for has an encoding, except that without infinities and
NaNs the largest biased exponent of a binary format is out of its range. -/
theorem hasEncoding_decode (hgradual : F.underflow = .gradual)
    (htop : F.digitWidth = 1 → F.hasSpecials = false →
      (Fields.ofWord word F).biased ≠ 2 ^ F.exponentWidth - 1) :
    F.HasEncoding (F.decode word) := by
  cases hlayout : F.layout with
  | binary b =>
    rw [hasSpecials_binary hlayout, ← topBiased_binary hlayout] at htop
    exact hasEncoding_decode_binary hlayout hgradual (htop (digitWidth_binary hlayout))
  | hexadecimal h =>
    obtain ⟨hbiased, hfraction⟩ := Fields.fits_ofWord word F
    obtain ⟨layout, mode, underflow⟩ := F
    obtain rfl : layout = .hexadecimal h := hlayout
    obtain rfl : underflow = .gradual := hgradual
    exact Or.inl ((stores_decode denotes_ofWord_hexadecimal).represents
      (hasNumber_hexadecimal mode hbiased hfraction))

/-! ## Zeros and denormal numbers -/

theorem read_ne_special_zero (F : Format) (f : Fields) : F.read f ≠ .special .zero := by
  obtain ⟨layout, mode, underflow⟩ := F
  cases layout with
  | binary b =>
    simp only [read, BinaryLayout.read]
    split_ifs <;> simp
  | hexadecimal h => exact Reading.noConfusion

/-- A zero has the sign of its word where there is a negative zero. -/
theorem sign_decode_of_isZero (hzero : (F.decode word).isZero = true) :
    (F.decode word).sign =
      if F.hasNegativeZero then (Fields.ofWord word F).sign else .positive := by
  have hmagnitude := Value.isZero_iff.1 hzero
  cases hread : F.read (Fields.ofWord word F) with
  | number count place =>
    have hstores := stores_decode ⟨Fields.fits_ofWord word F, count, place, hread, rfl⟩
    have hvalue := hstores.toRat_eq (mul_nonneg (Nat.cast_nonneg _) (two_zpow_pos _).le)
    rw [hmagnitude] at hvalue
    exact (hstores.zero hvalue.symm).1
  | special magnitude =>
    rw [decode_of_special hread] at hmagnitude
    obtain rfl : magnitude = .zero := hmagnitude
    exact absurd hread (F.read_ne_special_zero _)

namespace HasEncoding

variable {y : Value}

/-- Denormal values are the nonzero numbers below the normal range. -/
theorem isDenormal_iff (h : F.HasEncoding y) :
    y.isDenormal = true ↔ y.toRat ≠ 0 ∧ |y.toRat| < 2 ^ F.minExponent := by
  rw [← abs_pos, y.abs_toRat]
  rcases h with hnumber | ⟨-, hspecial⟩
  · exact hnumber.isDenormal_iff
  · have hfinite : y.isFinite = false := by
      rcases hspecial with hinfinite | ⟨payload, hnan, -⟩
      · rw [Value.isFinite, hinfinite]
      · rw [Value.isFinite, hnan]
    have hsize : y.magnitude.toRat = 0 := by
      rcases hspecial with hinfinite | ⟨payload, hnan, -⟩
      · rw [hinfinite]
        rfl
      · rw [hnan]
        rfl
    rw [Value.isDenormal_eq_false hfinite, hsize]
    exact iff_of_false Bool.false_ne_true fun hlt => lt_irrefl _ hlt.1

/-! ## The round trip -/

/-- What has an encoding comes back from it without its flags. -/
theorem decode_of_encode {c : Context} (h : c.format.HasEncoding y) :
    c.format.decode (y.encode c) = y.clearFlags := by
  rw [h.encode_eq]
  exact h.decode_toWord.2

end HasEncoding

/-- Every word of a format with gradual underflow is decoded exactly and into the
format's own form, whether or not it is the encoding of anything, and what it
stands for comes back from its own encoding.  A binary format is to have
infinities and NaNs. -/
theorem decode_exact {c : Context} (hgradual : c.format.underflow = .gradual)
    (hlayout : c.format.digitWidth = 4 ∨ c.format.hasSpecials = true) (word : ℕ) :
    let F := c.format
    let x := F.decode word
    F.Decodes (.ofWord word F) x ∧ F.Contains x ∧ x.flags = ∅ ∧
      (x.isDenormal = true ↔ x.toRat ≠ 0 ∧ |x.toRat| < 2 ^ F.minExponent) ∧
      (x.isZero = true →
        x.sign = if F.hasNegativeZero then (Fields.ofWord word F).sign else .positive) ∧
      F.decode (x.encode c) = x := by
  intro F x
  have hencoding : F.HasEncoding x := by
    refine hasEncoding_decode hgradual fun hbinary hnone => ?_
    rcases hlayout with hhexadecimal | hspecials
    · exact absurd (hhexadecimal.symm.trans hbinary) (by decide)
    · exact absurd (hspecials.symm.trans hnone) (by decide)
  have hflags : x.flags = ∅ := F.flags_decode word
  refine ⟨F.decodes_decode word, contains_iff_hasEncoding.2 hencoding, hflags,
    hencoding.isDenormal_iff, sign_decode_of_isZero, ?_⟩
  rw [hencoding.decode_of_encode]
  show Value.mk x.sign ∅ x.magnitude = x
  rw [← hflags]

/-- A half, with the biased exponent of one and a leading bit that is stored but
not set, is encoded with the leading bit. -/
theorem decode_exact_half :
    let c := Format.extended.alone
    let x := c.format.decode 0x3fff4000000000000000
    c.format.underflow = .gradual ∧ c.format.hasSpecials = true ∧ x.toRat = 1 / 2 ∧
      x.encode c = 0x3ffe8000000000000000 ∧ c.format.decode (x.encode c) = x := by
  intro c x
  have hspecials : c.format.hasSpecials = true := rfl
  have hstores : c.format.storesLeadingBit = true := rfl
  have hfields : Fields.ofWord 0x3fff4000000000000000 c.format =
      ⟨.positive, 0x3fff, 0x4000000000000000⟩ := by decide
  have hplace : (((max 0x3fff 1 : ℕ) : ℤ) - c.format.bias - (c.format.precision - 1)) = -63 := rfl
  obtain ⟨hdecodes, -, -, -, -, hback⟩ :=
    decode_exact (c := c) rfl (Or.inr hspecials) 0x3fff4000000000000000
  obtain ⟨-, hvalue⟩ := hdecodes.number rfl (by decide)
  rw [hfields, hplace, if_pos (Or.inl hstores)] at hvalue
  refine ⟨rfl, hspecials, hvalue.trans ?_, by decide, hback⟩
  norm_num [Sign.factor]

end Format
end CrossFloat
