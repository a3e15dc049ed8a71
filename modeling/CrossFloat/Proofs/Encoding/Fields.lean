/-
Words and their fields.

Fields that fit in their widths can be read back from the word that they make,
and the word is below the width of an encoding.  Conversely every word reads as
fields that fit, and these make the word again, without the bits above the width.
-/
import CrossFloat.Encoding
import Mathlib.Tactic.Ring

namespace CrossFloat

theorem Sign.ofNegative_isNegative (s : Sign) : ofNegative s.isNegative = s := by
  cases s <;> rfl

theorem Sign.isNegative_ofNegative (b : Bool) : (ofNegative b).isNegative = b := by
  cases b <;> rfl

theorem Format.storageWidth_eq (F : Format) :
    F.storageWidth = F.fractionWidth + F.exponentWidth + 1 := by
  rw [storageWidth]
  omega

namespace Fields

/-- The fields are below their widths. -/
structure Fits (f : Fields) (F : Format) : Prop where
  biased_lt : f.biased < 2 ^ F.exponentWidth
  fraction_lt : f.fraction < 2 ^ F.fractionWidth

variable {f : Fields} {F : Format}

/-- Fields that fit do not overlap. -/
theorem Fits.toWord_eq (h : f.Fits F) :
    f.toWord F =
      (f.sign.isNegative.toNat * 2 ^ F.exponentWidth + f.biased) * 2 ^ F.fractionWidth +
        f.fraction := by
  have hwidth : F.storageWidth - 1 = F.exponentWidth + F.fractionWidth := by
    rw [Format.storageWidth_eq]
    omega
  rw [toWord, hwidth, Nat.shiftLeft_add, ← Nat.shiftLeft_or_distrib,
    ← Nat.shiftLeft_add_eq_or_of_lt h.biased_lt, ← Nat.shiftLeft_add_eq_or_of_lt h.fraction_lt,
    Nat.shiftLeft_eq, Nat.shiftLeft_eq]

theorem Fits.toWord_lt (h : f.Fits F) : f.toWord F < 2 ^ F.storageWidth := by
  have hsign : f.sign.isNegative.toNat ≤ 1 := Bool.toNat_le _
  have hbiased := h.biased_lt
  have hfraction := h.fraction_lt
  have hupper : f.sign.isNegative.toNat * 2 ^ F.exponentWidth + f.biased + 1 ≤
      2 ^ F.exponentWidth * 2 := by
    have hmul := Nat.mul_le_mul_right (2 ^ F.exponentWidth) hsign
    omega
  rw [h.toWord_eq, Format.storageWidth_eq, Nat.pow_succ, Nat.pow_add, Nat.mul_assoc,
    Nat.mul_comm (2 ^ F.fractionWidth)]
  calc _ < (f.sign.isNegative.toNat * 2 ^ F.exponentWidth + f.biased + 1) *
        2 ^ F.fractionWidth := by
        rw [Nat.succ_mul]
        exact Nat.add_lt_add_left hfraction _
    _ ≤ _ := Nat.mul_le_mul_right _ hupper

theorem fits_ofWord (word : ℕ) (F : Format) : (ofWord word F).Fits F where
  biased_lt := by
    show (word >>> F.fractionWidth) % (1 <<< F.exponentWidth) < _
    rw [Nat.one_shiftLeft]
    exact Nat.mod_lt _ (Nat.two_pow_pos _)
  fraction_lt := by
    show word % (1 <<< F.fractionWidth) < _
    rw [Nat.one_shiftLeft]
    exact Nat.mod_lt _ (Nat.two_pow_pos _)

/-- Fields that fit are read back. -/
theorem Fits.ofWord_toWord (h : f.Fits F) : ofWord (f.toWord F) F = f := by
  obtain ⟨sign, biased, fraction⟩ := f
  obtain ⟨hbiased, hfraction⟩ := h
  have hword := Fits.toWord_eq ⟨hbiased, hfraction⟩
  simp only at hbiased hfraction hword
  generalize (Fields.mk sign biased fraction).toWord F = word at hword ⊢
  have hupper : word / 2 ^ F.fractionWidth =
      sign.isNegative.toNat * 2 ^ F.exponentWidth + biased := by
    rw [hword, Nat.add_comm, Nat.add_mul_div_right _ _ (Nat.two_pow_pos _),
      Nat.div_eq_of_lt hfraction, Nat.zero_add]
  have hsign : word.testBit (F.storageWidth - 1) = sign.isNegative := by
    rw [Format.storageWidth_eq, Nat.add_sub_cancel, Nat.testBit_eq_decide_div_mod_eq, Nat.pow_add,
      ← Nat.div_div_eq_div_mul, hupper, Nat.add_comm, Nat.add_mul_div_right _ _ (Nat.two_pow_pos _),
      Nat.div_eq_of_lt hbiased]
    cases sign <;> rfl
  have hlow : word % 2 ^ F.fractionWidth = fraction := by
    rw [hword, Nat.mul_add_mod', Nat.mod_eq_of_lt hfraction]
  have hmiddle : word / 2 ^ F.fractionWidth % 2 ^ F.exponentWidth = biased := by
    rw [hupper, Nat.mul_add_mod', Nat.mod_eq_of_lt hbiased]
  rw [ofWord, hsign, Sign.ofNegative_isNegative, Nat.shiftRight_eq_div_pow, Nat.one_shiftLeft,
    Nat.one_shiftLeft, hmiddle, hlow]

/-- The fields of a word make the word, without the bits above its width. -/
theorem toWord_ofWord (word : ℕ) (F : Format) :
    (ofWord word F).toWord F = word % 2 ^ F.storageWidth := by
  have hsign : (ofWord word F).sign.isNegative.toNat =
      word / 2 ^ F.fractionWidth / 2 ^ F.exponentWidth % 2 := by
    rw [ofWord, Sign.isNegative_ofNegative, Format.storageWidth_eq, Nat.add_sub_cancel,
      Nat.toNat_testBit, Nat.pow_add, Nat.div_div_eq_div_mul]
  rw [(fits_ofWord word F).toWord_eq, hsign, ofWord, Nat.shiftRight_eq_div_pow, Nat.one_shiftLeft,
    Nat.one_shiftLeft, Format.storageWidth_eq, Nat.pow_succ, Nat.pow_add, Nat.mul_assoc,
    Nat.mod_mul, Nat.mod_mul]
  ring

theorem ofWord_mod (word : ℕ) (F : Format) :
    ofWord (word % 2 ^ F.storageWidth) F = ofWord word F := by
  rw [← toWord_ofWord, (fits_ofWord word F).ofWord_toWord]

end Fields
end CrossFloat
