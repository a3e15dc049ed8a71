/-
Encoding and decoding stay in range.

The widths of a layout keep every field in its place: a word has at most 95 bits,
a biased exponent at most 30, and a fraction at most 64.  In a hexadecimal
layout a fraction moves right by the places that its leading digit leaves free,
which are three at most, besides those beyond the precision.
-/
import CrossFloat.Checked.Encoding
import CrossFloat.Proofs.Checked.Rounding
import CrossFloat.Proofs.Encoding
import CrossFloat.Proofs.WellFormed

namespace CrossFloat

open Checked

/-! ## Words -/

namespace Fields

variable {f : Fields} {F : Format}

theorem Fits.toWordChecked_eq (hf : f.Fits F) : f.toWordChecked F = pure (f.toWord F) := by
  have hstorage := F.storageWidth_le
  have hwidth := F.storageWidth_eq
  have hsign : f.sign.isNegative.toNat * 2 ^ (F.storageWidth - 1) < 2 ^ 128 :=
    calc f.sign.isNegative.toNat * 2 ^ (F.storageWidth - 1)
        ≤ 1 * 2 ^ (F.storageWidth - 1) := Nat.mul_le_mul_right _ (Bool.toNat_le _)
      _ < 2 ^ 128 := by
        rw [Nat.one_mul]
        exact Nat.pow_lt_pow_right (by decide) (by omega)
  have hbiased : f.biased * 2 ^ F.fractionWidth < 2 ^ 128 :=
    calc f.biased * 2 ^ F.fractionWidth < 2 ^ F.exponentWidth * 2 ^ F.fractionWidth :=
          Nat.mul_lt_mul_of_pos_right hf.biased_lt (Nat.two_pow_pos _)
      _ ≤ 2 ^ 128 := by
        rw [← Nat.pow_add]
        exact Nat.pow_le_pow_right (by decide) (by omega)
  rw [toWordChecked, wideShiftLeft_eq (by omega) rfl hsign, pure_bind,
    wideShiftLeft_eq (by omega) rfl hbiased, pure_bind]
  rfl

theorem ofWordChecked_eq (word : ℕ) (F : Format) :
    ofWordChecked word F = pure (ofWord word F) := by
  have hstorage := F.storageWidth_le
  have hwidth := F.storageWidth_eq
  have hexponent := F.exponentWidth_le
  have htop : (word >>> (F.storageWidth - 1) &&& 1 != 0) = word.testBit (F.storageWidth - 1) := by
    rw [Nat.testBit, Nat.and_comm]
  rw [ofWordChecked, wideShiftRight_eq word (n := F.storageWidth - 1) (by omega) rfl, pure_bind,
    wideShiftRight_eq word (n := F.fractionWidth) (by omega) rfl, pure_bind,
    mask_eq (by omega), pure_bind, mask_eq (by omega), pure_bind, htop,
    Nat.and_two_pow_sub_one_eq_mod, Nat.and_two_pow_sub_one_eq_mod, ofWord, Nat.one_shiftLeft,
    Nat.one_shiftLeft]

end Fields

/-! ## Writing -/

namespace BinaryLayout

variable (b : BinaryLayout)

theorem storedLeadingBitChecked_eq : b.storedLeadingBitChecked = pure b.storedLeadingBit := by
  have hprecision := b.precision_mem
  rw [storedLeadingBitChecked, storedLeadingBit, wideShiftLeft_one (by omega)]
  split <;> rfl

theorem topBiasedChecked_eq : b.topBiasedChecked = pure (.ofNat b.topBiased) := by
  have hwidth := b.exponentWidth_mem
  have hle := b.two_pow_exponentWidth_le
  have hpos := Nat.two_pow_pos b.exponentWidth
  have hpower : ((1 : UInt64) <<< b.exponentWidth.toUInt64).toNat = 2 ^ b.exponentWidth := by
    rw [Limb.toNat_shiftLeft 1 (by omega), UInt64.toNat_one, Nat.one_mul,
      Nat.mod_eq_of_lt (by omega)]
  have htop : ((2 ^ b.exponentWidth : ℕ) : ℤ) - 1 = (b.topBiased : ℕ) := by
    rw [topBiased, Nat.one_shiftLeft]
    omega
  rw [topBiasedChecked, shiftLeft_eq 1 (n := b.exponentWidth) (by omega) rfl, pure_bind, hpower,
    htop, u64_eq]
  rw [topBiased, Nat.one_shiftLeft]
  omega

theorem toNat_topBiased : (UInt64.ofNat b.topBiased).toNat = b.topBiased := by
  have hle := b.two_pow_exponentWidth_le
  rw [UInt64.toNat_ofNat', topBiased, Nat.one_shiftLeft]
  omega

theorem fractionChecked_eq (count : UInt64) :
    b.fractionChecked count = pure (b.fraction count.toNat) := by
  have hprecision := b.precision_mem
  rw [fractionChecked, fraction, mask_eq (by omega), pure_bind, Nat.and_two_pow_sub_one_eq_mod]
  split <;> rfl

theorem toNat_count (significand : UInt64) :
    (significand >>> (64 - b.precision).toUInt64).toNat =
      significand.toNat >>> (64 - b.precision) := by
  have hprecision := b.precision_mem
  rw [Limb.toNat_shiftRight _ (by omega), Nat.shiftRight_eq_div_pow]

theorem bias_lt : b.bias < 2 ^ 29 := by
  have hcapacity := b.two_pow_exponentWidth
  have hle := b.two_pow_exponentWidth_le
  omega

theorem writeChecked_eq {magnitude : Magnitude} (hm : magnitude.WellFormed) :
    b.writeChecked magnitude = pure (b.write magnitude) := by
  have hprecision := b.precision_mem
  have hbias := b.bias_lt
  rw [writeChecked, topBiasedChecked_eq, pure_bind, storedLeadingBitChecked_eq, pure_bind]
  cases magnitude with
  | zero => rfl
  | infinite =>
    simp only [toNat_topBiased]
    rfl
  | nan payload =>
    simp only [wideShiftLeft_one (n := b.precision - 2) (by omega),
      shiftRight_eq payload (n := 64 - (b.precision - 2)) (by omega) rfl, toNat_topBiased,
      pure_bind]
    rfl
  | finite range exponent significand =>
    have hcount := shiftRight_eq significand (n := 64 - b.precision) (by omega) rfl
    obtain ⟨-, hexponent⟩ := hm
    rw [abs_le] at hexponent
    cases range with
    | normal =>
      simp only [hcount, i32_eq (n := exponent + b.bias) (by omega) (by omega),
        fractionChecked_eq, toNat_count, pure_bind, write, Nat.one_shiftLeft]
      rfl
    | denormal =>
      simp only [hcount, fractionChecked_eq, toNat_count, pure_bind, write, Nat.one_shiftLeft]
      rfl

end BinaryLayout

namespace HexadecimalLayout

variable (h : HexadecimalLayout)

theorem bias_le : h.bias ≤ 2 ^ 23 := by
  have hcapacity := h.two_pow_exponentWidth
  have hle := h.two_pow_exponentWidth_le
  omega

/-- The leading digit has at most three places above the leading bit. -/
theorem writeAtChecked_eq (significand : UInt64) {exp : ℤ} (hlow : -2 ^ 30 ≤ exp)
    (hhigh : exp ≤ 2 ^ 30) :
    h.writeAtChecked significand exp =
      pure ((exp / 4 + 1 + h.bias).toNat, significand.toNat >>>
        ((4 * (exp / 4 + 1) - 1 - exp).toNat + (64 - 4 * h.digits))) := by
  have hdigits := h.digits_mem
  have hbias := h.bias_le
  have hplaces : (4 * (exp / 4 + 1) - 1 - exp).toNat + (64 - 4 * h.digits) < 64 := by omega
  simp only [writeAtChecked, i64_eq (n := exp / 4 + 1) (by omega) (by omega),
    i64_eq (n := 4 * (exp / 4 + 1)) (by omega) (by omega),
    i64_eq (n := 4 * (exp / 4 + 1) - 1) (by omega) (by omega),
    i64_eq (n := 4 * (exp / 4 + 1) - 1 - exp) (by omega) (by omega),
    i64_eq (n := 64 - ((4 * h.digits : ℕ) : ℤ)) (by omega) (by omega), pure_bind]
  rw [i64_eq (by omega) (by omega), pure_bind, shiftRight_eq significand hplaces (by omega),
    pure_bind, i64_eq (by omega) (by omega), pure_bind, Limb.toNat_shiftRight _ hplaces,
    Nat.shiftRight_eq_div_pow]

theorem writeChecked_eq {magnitude : Magnitude} (hm : magnitude.WellFormed) :
    h.writeChecked magnitude = pure (h.write magnitude) := by
  cases magnitude with
  | zero | infinite | nan => rfl
  | finite range exponent significand =>
    obtain ⟨hsignificand, hexponent⟩ := hm
    rw [abs_le] at hexponent
    cases range with
    | normal =>
      have hzeros := leadingZeros_eq_zero hsignificand
      have hexp := leadingExp_eq_self hsignificand exponent
      rw [writeChecked, normalisedChecked_eq hsignificand.ne_zero (by omega) (by omega), pure_bind]
      exact h.writeAtChecked_eq _ (by omega) (by omega)
    | denormal => exact h.writeAtChecked_eq _ (by omega) (by omega)

end HexadecimalLayout

namespace Format

variable (F : Format)

theorem encodableChecked_eq (x : Value) : F.encodableChecked x = pure (F.encodable x) := by
  rw [encodableChecked, encodable]
  split
  · rfl
  · cases x.magnitude <;> simp only [maxFiniteChecked_eq]

theorem fieldsChecked_eq {x : Value} (hx : x.WellFormed) :
    F.fieldsChecked x = pure (F.fields x) := by
  have hm := Value.wellFormed_iff.1 hx
  rw [fieldsChecked, fields]
  cases F.layout with
  | binary b =>
    simp only [b.writeChecked_eq hm, pure_bind]
  | hexadecimal h =>
    simp only [h.writeChecked_eq hm, pure_bind]

end Format

namespace Value

theorem encodeChecked_eq (x : Value) (c : Context) : x.encodeChecked c = pure (x.encode c) := by
  have hencoding := Format.hasEncoding_encodable_convert x c
  have hwell := (Format.contains_iff_hasEncoding.2 hencoding).wellFormed
  rw [encodeChecked, convertChecked_eq, pure_bind, Format.encodableChecked_eq, pure_bind,
    Format.fieldsChecked_eq _ hwell, pure_bind, hencoding.decode_toWord.1.toWordChecked_eq]
  rfl

theorem encodeBytesChecked_eq (x : Value) (c : Context) :
    x.encodeBytesChecked c = pure (x.encodeBytes c) := by
  rw [encodeBytesChecked, encodeChecked_eq]
  rfl

end Value

/-! ## Reading -/

namespace BinaryLayout

variable (b : BinaryLayout) {f : Fields}

theorem countChecked_eq (f : Fields) :
    b.countChecked f = pure (f.fraction |||
      if b.storesLeadingBit || f.biased == 0 then 0 else 1 <<< (b.precision - 1)) := by
  have hprecision := b.precision_mem
  rw [countChecked, wideShiftLeft_one (by omega), pure_bind]
  split
  · rw [Nat.or_zero]
  · rfl

theorem readNumberChecked_eq (hbiased : f.biased < 2 ^ b.exponentWidth)
    (hnumber : ¬ (f.biased = b.topBiased ∧ b.hasSpecials = true)) :
    b.readNumberChecked f = pure (b.read f) := by
  have hprecision := b.precision_mem
  have hbias := b.bias_lt
  have hle := b.two_pow_exponentWidth_le
  have hscale : (if f.biased = 0 then 1 else f.biased) ≤ 2 ^ 30 := by split <;> omega
  rw [readNumberChecked, countChecked_eq, pure_bind, read, if_neg hnumber]
  generalize (if f.biased = 0 then 1 else f.biased) = scale at *
  rw [i64_eq (by omega) (by omega), pure_bind, i64_eq (by omega) (by omega), pure_bind,
    i64_eq (by omega) (by omega), pure_bind]

theorem readSpecialChecked_eq (hspecial : f.biased = b.topBiased ∧ b.hasSpecials = true) :
    b.readSpecialChecked f = pure (b.read f) := by
  have hprecision := b.precision_mem
  rw [readSpecialChecked, read, if_pos hspecial, mask_eq (by omega), pure_bind,
    mask_eq (by omega), pure_bind, Nat.and_two_pow_sub_one_eq_mod, Nat.and_two_pow_sub_one_eq_mod,
    shiftLeft_eq _ (by omega) rfl, pure_bind, Nat.one_shiftLeft, Nat.one_shiftLeft]
  split <;> rfl

theorem readChecked_eq (hbiased : f.biased < 2 ^ b.exponentWidth) :
    b.readChecked f = pure (b.read f) := by
  have hwidth := b.exponentWidth_mem
  have htop : 2 ^ b.exponentWidth - 1 = b.topBiased := by rw [topBiased, Nat.one_shiftLeft]
  rw [readChecked, mask_eq (by omega), pure_bind, htop]
  by_cases hspecial : f.biased = b.topBiased ∧ b.hasSpecials = true
  · rw [if_pos hspecial, b.readSpecialChecked_eq hspecial]
  · rw [if_neg hspecial, b.readNumberChecked_eq hbiased hspecial]

end BinaryLayout

theorem HexadecimalLayout.readChecked_eq (h : HexadecimalLayout) {f : Fields}
    (hbiased : f.biased < 2 ^ h.exponentWidth) : h.readChecked f = pure (h.read f) := by
  have hdigits := h.digits_mem
  have hbias := h.bias_le
  have hle := h.two_pow_exponentWidth_le
  rw [readChecked, i64_eq (by omega) (by omega), pure_bind, i64_eq (by omega) (by omega),
    pure_bind, i64_eq (by omega) (by omega), pure_bind, read]
  rfl

namespace Format

variable (F : Format)

theorem readChecked_eq {f : Fields} (hf : f.Fits F) : F.readChecked f = pure (F.read f) := by
  have hbiased := hf.biased_lt
  obtain ⟨layout, mode, underflow⟩ := F
  cases layout with
  | binary b => exact b.readChecked_eq hbiased
  | hexadecimal h => exact h.readChecked_eq hbiased

theorem decodeChecked_eq (word : ℕ) : F.decodeChecked word = pure (F.decode word) := by
  have hfits := Fields.fits_ofWord word F
  rw [decodeChecked, Fields.ofWordChecked_eq, pure_bind, readChecked_eq F hfits, pure_bind, decode]
  cases hread : F.read (Fields.ofWord word F) with
  | special magnitude => rfl
  | number count place =>
    by_cases hcount : count = 0
    · show F.representChecked _ count place = pure (F.represent _ count place)
      rw [representChecked, represent, if_pos hcount, if_pos hcount]
    · have htop := read_top hfits hread hcount
      have hzeros := (Limb.leadingZeros_spec hcount).1
      rw [leadingExp] at htop
      exact F.representChecked_eq _ count (read_place hread) (by omega)

end Format
end CrossFloat
