/-
Rounding stays in range.

A rounding brings any exponent back to a bound that is far inside of 64 bits, so
none of its sums overflows.  Its shifts are of two kinds.  A significand moves
left by its leading zeros, which are fewer than its bits.  A denormal number
moves right by the distance of its leading bit from the least exponent, and that
bit is not below the last place, which is at most 63 places down.
-/
import CrossFloat.Checked.Rounding
import CrossFloat.Proofs.Checked.Limb
import CrossFloat.Proofs.Rounding.Settle

namespace CrossFloat

open Checked

theorem normalisedChecked_eq {exponent : ℤ} {significand : UInt64} (hs : significand ≠ 0)
    (hlow : -2 ^ 62 ≤ exponent) (hhigh : exponent ≤ 2 ^ 62) :
    normalisedChecked exponent significand =
      pure (alignLeft significand, leadingExp exponent significand) := by
  have hzeros := (Limb.leadingZeros_spec hs).1
  have hleft := shiftLeft_eq significand (n := Limb.leadingZeros significand) (by omega) rfl
  simp only [normalisedChecked, assert_eq (bne_iff_ne.2 hs), hleft, pure_bind,
    i64_eq (n := exponent - Limb.leadingZeros significand) (by omega) (by omega)]
  rfl

namespace Format

variable (F : Format)

theorem digitWidth_eq : F.digitWidth = 1 ∨ F.digitWidth = 4 := by
  unfold digitWidth
  split
  · exact Or.inl rfl
  · exact Or.inr rfl

theorem lastPlaceChecked_eq {exp : ℤ} (hlow : -2 ^ 50 ≤ exp) (hhigh : exp ≤ 2 ^ 50) :
    F.lastPlaceChecked exp = pure (F.lastPlace exp) := by
  have hprecision := F.precision_le
  rw [lastPlaceChecked, lastPlace]
  rcases F.digitWidth_eq with hwidth | hwidth <;> rw [hwidth] <;>
    rw [i64_eq (by omega) (by omega), pure_bind, i64_eq (by omega) (by omega), pure_bind,
      i64_eq (by omega) (by omega)]

theorem representChecked_eq (sign : Sign) (count : UInt64) {place : ℤ}
    (hlow : F.minExponent - 63 ≤ place) (hhigh : place ≤ 2 ^ 50) :
    F.representChecked sign count place = pure (F.represent sign count place) := by
  obtain ⟨hmin, hmax⟩ := F.exponents_small
  have hrange := F.minExponent_le_maxExponent
  rw [representChecked, represent]
  by_cases hcount : count = 0
  · rw [if_pos hcount, if_pos hcount]
  have hzeros := (Limb.leadingZeros_spec hcount).1
  have hexp : leadingExp (place + 63) count = place + 63 - Limb.leadingZeros count := rfl
  rw [if_neg hcount, if_neg hcount]
  simp only [shiftLeft_eq count (n := Limb.leadingZeros count) (by omega) rfl, ← hexp,
    i64_eq (n := place + 63) (by omega) (by omega),
    i64_eq (n := leadingExp (place + 63) count) (by omega) (by omega), pure_bind]
  -- The leading bit is at or above `place`, so a denormal number moves by at most 63.
  by_cases htiny : leadingExp (place + 63) count < F.minExponent
  · rw [if_pos htiny, if_pos htiny, i64_eq (by omega) (by omega), pure_bind,
      shiftRight_eq _ (n := (F.minExponent - leadingExp (place + 63) count).toNat)
        (by omega) (by omega)]
    rfl
  · rw [if_neg htiny, if_neg htiny]
    rfl

/-! ## Extremes and payloads -/

theorem maxFiniteChecked_eq (sign : Sign) : F.maxFiniteChecked sign = pure (F.maxFinite sign) := by
  have hprecision := F.three_le_precision
  have hprecision' := F.precision_le
  rw [maxFiniteChecked, shiftLeft_eq _ (n := 64 - F.precision) (by omega) (by omega)]
  rfl

theorem minPositiveChecked_eq (sign : Sign) :
    F.minPositiveChecked sign = pure (F.minPositive sign) := by
  obtain ⟨hmin, hmax⟩ := F.exponents_small
  have hrange := F.minExponent_le_maxExponent
  have hplace := F.lastPlace_le F.minExponent
  have hplace' := F.le_lastPlace F.minExponent
  have hprecision := F.precision_le
  rw [minPositiveChecked, minPositive]
  cases F.underflow with
  | sudden => rfl
  | gradual =>
    have hleast : F.lastPlaceChecked F.minExponent = pure (F.lastPlace F.minExponent) :=
      F.lastPlaceChecked_eq (by omega) (by omega)
    simp only [hleast, pure_bind]
    rw [i64_eq (by omega) (by omega), pure_bind, i64_eq (by omega) (by omega), pure_bind,
      shiftLeft_eq 1 (n := (63 - (F.minExponent - F.lastPlace F.minExponent)).toNat)
        (by omega) (by omega)]
    rfl

theorem epsilonChecked_eq : F.epsilonChecked = pure F.epsilon := by
  rw [epsilonChecked, F.lastPlaceChecked_eq (by decide) (by decide)]
  rfl

theorem trimPayloadChecked_eq (payload : UInt64) :
    F.trimPayloadChecked payload = pure (F.trimPayload payload) := by
  have hwidth := F.payloadWidth_pos
  have hprecision := F.precision_le
  have hle : F.payloadWidth ≤ F.precision := Nat.sub_le _ _
  rw [trimPayloadChecked, shiftLeft_eq _ (n := 64 - F.payloadWidth) (by omega) (by omega)]
  rfl

theorem nanChecked_eq (payload : UInt64) : F.nanChecked payload = pure (F.nan payload) := by
  have hwidth := F.payloadWidth_pos
  have hprecision := F.precision_le
  have hle : F.payloadWidth ≤ F.precision := Nat.sub_le _ _
  rw [nanChecked, shiftLeft_eq _ (n := 64 - F.payloadWidth) (by omega) (by omega)]
  rfl

end Format

/-! ## Rounding -/

theorem Split.choose_le_place (s : Split) (up : Bool) : (s.choose up).2 ≤ s.place + 1 := by
  rw [choose]
  split_ifs <;> omega

theorem Split.chooseChecked_eq (s : Split) (up : Bool) (hlow : -2 ^ 60 ≤ s.place)
    (hhigh : s.place ≤ 2 ^ 60) : s.chooseChecked up = pure (s.choose up) := by
  rw [chooseChecked, choose]
  cases up with
  | false => rfl
  | true =>
    rw [if_pos rfl, if_pos rfl]
    by_cases hfull : s.kept = 0xffffffffffffffff
    · rw [if_pos hfull, if_pos hfull, i64_eq (by omega) (by omega)]
      rfl
    · rw [if_neg hfull, if_neg hfull]

namespace Intermediate

variable {u : Intermediate} (c : Context)

theorem splitChecked_eq (F : Format) (hlow : -2 ^ 41 ≤ u.exp) (hhigh : u.exp ≤ 2 ^ 40) :
    u.splitChecked F = pure (u.split F) := by
  obtain ⟨hmin, hmax⟩ := F.exponents_small
  have hrange := F.minExponent_le_maxExponent
  have hprecision := F.precision_le
  rw [splitChecked, split]
  generalize hexp : (if u.isTiny F then F.minExponent else u.exp) = exp
  have hle : -2 ^ 41 ≤ exp ∧ exp ≤ 2 ^ 40 ∧ u.exp ≤ exp := by
    rw [← hexp]
    split
    · next htiny =>
      have := (isTiny_iff F).1 htiny
      omega
    · omega
  have hplace := F.lastPlace_le exp
  have hplace' := F.le_lastPlace exp
  rw [F.lastPlaceChecked_eq (by omega) (by omega), pure_bind, i64_eq (by omega) (by omega),
    pure_bind, i64_eq (by omega) (by omega), pure_bind, Word128.shiftRightJamChecked_eq, pure_bind]
  have hplaces : (if F.lastPlace exp - u.exp + 63 < 255 then F.lastPlace exp - u.exp + 63
      else 255).toNat =
      if (F.lastPlace exp - u.exp + 63).toNat < 255 then (F.lastPlace exp - u.exp + 63).toNat
      else 255 := by
    split <;> split <;> omega
  rw [hplaces]

theorem split_place_bounds (u : Intermediate) (F : Format) (hhigh : u.exp ≤ 2 ^ 40) :
    F.minExponent - 63 ≤ (u.split F).place ∧ (u.split F).place ≤ 2 ^ 40 := by
  obtain ⟨hmin, hmax⟩ := F.exponents_small
  have hrange := F.minExponent_le_maxExponent
  have hprecision := F.precision_le
  show F.minExponent - 63 ≤ F.lastPlace (if u.isTiny F then F.minExponent else u.exp) ∧
    F.lastPlace (if u.isTiny F then F.minExponent else u.exp) ≤ 2 ^ 40
  have hplace := F.lastPlace_le (if u.isTiny F then F.minExponent else u.exp)
  have hplace' := F.le_lastPlace (if u.isTiny F then F.minExponent else u.exp)
  by_cases htiny : u.isTiny F = true
  · rw [if_pos htiny] at *
    omega
  · have hle := (isTiny_iff F).not.1 htiny
    rw [if_neg htiny] at *
    omega

theorem normalised_exp_bounds (u : Intermediate) (hu : u.sig.toNat ≠ 0) :
    -2 ^ 41 ≤ u.normalised.exp ∧ u.normalised.exp ≤ 2 ^ 40 := by
  have hzeros := (Word128.leadingZeros_spec hu).1
  have hbound : expBound = 2 ^ 40 := rfl
  simp only [normalised]
  split_ifs <;> omega

theorem normalisedChecked_eq (u : Intermediate) (hu : u.sig.toNat ≠ 0) :
    u.normalisedChecked = pure u.normalised := by
  obtain ⟨hlow, hhigh⟩ := u.normalised_exp_bounds hu
  have hzeros := (Word128.leadingZeros_spec hu).1
  simp only [normalised] at hlow hhigh
  have hmoved := u.sig.shiftLeftChecked_eq (show u.sig.leadingZeros < 128 by omega)
  simp only [normalisedChecked, hmoved, pure_bind]
  rw [i64_eq (by omega) (by omega)]
  rfl

theorem saturatedChecked_eq (sign : Sign) (flags : Flags) :
    saturatedChecked sign flags c = pure (saturated sign flags c) := by
  rw [saturatedChecked, saturated, c.format.maxFiniteChecked_eq, pure_bind]
  split <;> rfl

theorem settleSplitChecked_eq (hlow : -2 ^ 41 ≤ u.exp) (hhigh : u.exp ≤ 2 ^ 40) :
    u.settleSplitChecked c = pure (u.settleSplit c).1 := by
  obtain ⟨hplace, hplace'⟩ := u.split_place_bounds c.format hhigh
  obtain ⟨hmin, hmax⟩ := c.format.exponents_small
  have hrange := c.format.minExponent_le_maxExponent
  rw [settleSplitChecked, splitChecked_eq c.format hlow hhigh, settleSplit, pure_bind]
  generalize u.split c.format = s at *
  simp only [s.chooseChecked_eq _ (by omega) (by omega), pure_bind]
  generalize c.mode.takesUpper u.sign s.kept s.rest = up
  have hchosen := s.place_le_choose up
  have hchosen' := s.choose_le_place up
  generalize s.choose up = chosen at *
  obtain ⟨count, place⟩ := chosen
  simp only at hchosen hchosen' ⊢
  by_cases hcount : count = 0
  · have hover : ¬ (count ≠ 0 ∧ c.format.maxExponent < leadingExp (place + 63) count) :=
      fun h => h.1 hcount
    rw [if_pos hcount, if_neg hover, Format.represent, if_pos hcount]
  have hzeros := (Limb.leadingZeros_spec hcount).1
  have hexp : leadingExp (place + 63) count = place + 63 - Limb.leadingZeros count := rfl
  rw [if_neg hcount, i64_eq (by omega) (by omega), pure_bind, ← hexp,
    i64_eq (by omega) (by omega), pure_bind]
  by_cases htop : c.format.maxExponent < leadingExp (place + 63) count
  · rw [if_pos htop, if_pos ⟨hcount, htop⟩, saturatedChecked_eq]
  · have hover : ¬ (count ≠ 0 ∧ c.format.maxExponent < leadingExp (place + 63) count) :=
      fun h => htop h.2
    rw [if_neg htop, if_neg hover,
      c.format.representChecked_eq u.sign count (by omega) (by omega)]
    rfl

theorem roundChecked_eq (u : Intermediate) : u.roundChecked c = pure (u.round c) := by
  rw [roundChecked, round, settle]
  by_cases hzero : u.sig.isZero = true
  · rw [if_pos hzero, if_pos hzero]
  have hne : u.sig.toNat ≠ 0 := fun h => hzero (Word128.isZero_iff.2 h)
  obtain ⟨hlow, hhigh⟩ := u.normalised_exp_bounds hne
  rw [if_neg hzero, if_neg hzero, u.normalisedChecked_eq hne, pure_bind]
  split
  · rfl
  · exact settleSplitChecked_eq c hlow hhigh

end Intermediate

theorem Pending.roundChecked_eq (p : Pending) (c : Context) :
    p.roundChecked c = pure (p.round c) := by
  cases p with
  | settled x => rfl
  | number u => exact u.roundChecked_eq c

/-! ## Conversions -/

namespace Value

theorem nanInChecked_eq (F : Format) (sign : Sign) (flags : Flags) (payload : UInt64) :
    nanInChecked F sign flags payload = pure (nanIn F sign flags payload) := by
  rw [nanInChecked, F.trimPayloadChecked_eq, pure_bind]
  rfl

theorem convertChecked_eq (x : Value) (c : Context) :
    x.convertChecked c = pure (x.convert c) := by
  rw [convertChecked, convert]
  split
  · next payload hpayload =>
    rw [nanInChecked_eq, conversion, hpayload]
    rfl
  · rw [Pending.roundChecked_eq]

theorem ofLiteralChecked_eq (kind : Kind) (sign : Sign) (exponent : Int) (significand : UInt64)
    (flags : Flags) (c : Context) :
    ofLiteralChecked kind sign exponent significand flags c =
      pure (ofLiteral kind sign exponent significand flags c) := by
  cases kind with
  | zero | normal | denormal | nan =>
    simp only [ofLiteralChecked, ofLiteral, Pending.roundChecked_eq]
  | nanPayload => exact nanInChecked_eq ..
  | infinite =>
    show (if c.format.hasSpecials then _ else _) = _
    rw [c.format.maxFiniteChecked_eq, pure_bind, ofLiteral, Magnitude.ofParts, literal]
    split <;> rfl

end Value
end CrossFloat
