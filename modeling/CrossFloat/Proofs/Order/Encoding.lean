/-
Encodings are ordered like the values.

The biased exponent stands above the fraction, so the bits below the sign are
ordered by the biased exponent first.  Each biased exponent has a range of numbers
of its own, above those of the smaller ones, as long as the leading digit of a
number is not a zero that a larger biased exponent would take away.  In one range
the fraction counts last places.  Infinity has the largest biased exponent and no
number has that.
-/
import CrossFloat.Proofs.Order

namespace CrossFloat

/-! ## Words as whole numbers -/

/-- The bits of an encoding below the sign bit, as a whole number with that sign. -/
def Format.signedWord (F : Format) (word : ℕ) : ℤ :=
  (Sign.ofNegative (word.testBit (F.storageWidth - 1))).apply
    ((word % 2 ^ (F.storageWidth - 1) : ℕ) : ℤ)

namespace Fields

/-- The bits of an encoding below its sign. -/
def rank (f : Fields) (F : Format) : ℕ :=
  f.biased * 2 ^ F.fractionWidth + f.fraction

variable {f g : Fields} {F : Format}

theorem Fits.rank_lt_two_pow (h : f.Fits F) : f.rank F < 2 ^ (F.storageWidth - 1) := by
  rw [Format.storageWidth_eq, Nat.add_sub_cancel, Nat.pow_add, Nat.mul_comm, rank]
  calc _ < (f.biased + 1) * 2 ^ F.fractionWidth := by
        rw [Nat.succ_mul]
        exact Nat.add_lt_add_left h.fraction_lt _
    _ ≤ _ := Nat.mul_le_mul_right _ h.biased_lt

/-- The word of fields has their sign and their rank. -/
theorem Fits.signedWord_toWord (h : f.Fits F) :
    F.signedWord (f.toWord F) = f.sign.apply (f.rank F : ℤ) := by
  have hsign : Sign.ofNegative ((f.toWord F).testBit (F.storageWidth - 1)) = f.sign :=
    congrArg Fields.sign h.ofWord_toWord
  have hword : f.toWord F =
      f.sign.isNegative.toNat * 2 ^ (F.storageWidth - 1) + f.rank F := by
    rw [h.toWord_eq, Format.storageWidth_eq, Nat.add_sub_cancel, rank, Nat.pow_add]
    ring
  rw [Format.signedWord, hsign, hword, Nat.mul_add_mod', Nat.mod_eq_of_lt h.rank_lt_two_pow]

/-- The biased exponent is compared first and the fraction after it. -/
theorem rank_lt_rank (hf : f.fraction < 2 ^ F.fractionWidth)
    (h : f.biased < g.biased ∨ f.biased = g.biased ∧ f.fraction < g.fraction) :
    f.rank F < g.rank F := by
  rw [rank, rank]
  rcases h with hlt | ⟨heq, hlt⟩
  · calc _ < (f.biased + 1) * 2 ^ F.fractionWidth := by
          rw [Nat.succ_mul]
          exact Nat.add_lt_add_left hf _
      _ ≤ g.biased * 2 ^ F.fractionWidth := Nat.mul_le_mul_right _ hlt
      _ ≤ _ := Nat.le_add_right _ _
  · rw [heq]
    exact Nat.add_lt_add_left hlt _

/-- With one biased exponent the number grows with the fraction. -/
theorem Denotes.le_of_fraction_le {v w : ℚ} (hf : f.Denotes F v) (hg : g.Denotes F w)
    (hbiased : f.biased = g.biased) (hle : f.fraction ≤ g.fraction) : v ≤ w := by
  obtain ⟨layout, mode, underflow⟩ := F
  cases layout with
  | binary b =>
    rw [Format.eq_of_denotes_binary rfl hf, Format.eq_of_denotes_binary rfl hg, hbiased]
    apply mul_le_mul_of_nonneg_right _ (two_zpow_pos _).le
    exact_mod_cast Nat.add_le_add_right hle _
  | hexadecimal h =>
    rw [Format.eq_of_denotes_hexadecimal hf, Format.eq_of_denotes_hexadecimal hg, hbiased]
    apply mul_le_mul_of_nonneg_right _ (two_zpow_pos _).le
    exact_mod_cast hle

end Fields

/-! ## The range of a biased exponent -/

namespace Format

variable {F : Format} {x y : Value}

/-- The exponent at which the numbers with a biased exponent begin. -/
def start (F : Format) (biased : ℕ) : ℤ :=
  match F.layout with
  | .binary b => biased - b.bias
  | .hexadecimal h => 4 * (biased - h.bias) - 4

theorem start_mono (F : Format) {m n : ℕ} (h : m ≤ n) : F.start m ≤ F.start n := by
  rw [start, start]
  split <;> omega

/-- The smallest biased exponents leave room for the denormal numbers. -/
theorem minExponent_le_start_one (F : Format) : F.minExponent ≤ F.start 1 := by
  obtain ⟨layout, mode, underflow⟩ := F
  cases layout <;> simp only [minExponent, start, bias] <;> omega

theorem biased_fields_zero (F : Format) (sign : Sign) (flags : Flags) :
    (F.fields ⟨sign, flags, .zero⟩).biased = 0 := by
  obtain ⟨layout, mode, underflow⟩ := F
  cases layout <;> rfl

theorem biased_fields_denormal (F : Format) (sign : Sign) (flags : Flags) (significand : UInt64) :
    (F.fields ⟨sign, flags, .finite .denormal F.minExponent significand⟩).biased = 0 := by
  obtain ⟨layout, mode, underflow⟩ := F
  cases layout with
  | binary b => rfl
  | hexadecimal h =>
    show ((-4 * (h.bias : ℤ) - 4) / 4 + 1 + h.bias).toNat = 0
    omega

/-- A normal number begins no lower than its biased exponent does, and ends below
the next one. -/
theorem biased_fields_normal {exponent : ℤ} {significand : UInt64}
    (hmin : F.minExponent ≤ exponent) (hbit : 2 ^ 63 ≤ significand.toNat) (sign : Sign)
    (flags : Flags) :
    let biased := (F.fields ⟨sign, flags, .finite .normal exponent significand⟩).biased
    F.start biased ≤ exponent ∧ exponent + 1 ≤ F.start (biased + 1) := by
  intro biased
  obtain ⟨layout, mode, underflow⟩ := F
  cases layout with
  | binary b =>
    have hbiased : biased = (exponent + b.bias).toNat := rfl
    rw [minExponent_binary rfl] at hmin
    simp only [start, hbiased]
    omega
  | hexadecimal h =>
    have hbiased : biased = (leadingExp exponent significand / 4 + 1 + h.bias).toNat := rfl
    rw [leadingExp_eq_self hbit] at hbiased
    simp only [minExponent, bias] at hmin
    simp only [start, hbiased]
    omega

/-- A number lies in the range of its biased exponent.  That of the biased
exponent zero reaches down to zero. -/
theorem Represents.start_bounds (hx : F.Represents x) :
    x.magnitude.toRat < 2 ^ F.start ((F.fields x).biased + 1) ∧
      ((F.fields x).biased ≠ 0 → 2 ^ F.start (F.fields x).biased ≤ x.magnitude.toRat) := by
  obtain ⟨sign, flags, magnitude⟩ := x
  cases magnitude with
  | infinite | nan => exact absurd hx.isFinite Bool.false_ne_true
  | zero =>
    rw [biased_fields_zero]
    exact ⟨two_zpow_pos _, fun hne => absurd rfl hne⟩
  | finite range exponent significand =>
    obtain ⟨hmin, -, -, hcovers⟩ := hx.parts rfl
    have hside := lt_two_zpow_iff_toNat_lt significand exponent
    cases range with
    | normal =>
      obtain ⟨hlower, hupper⟩ := biased_fields_normal hmin hcovers sign flags
      exact ⟨(lt_two_zpow_succ significand exponent).trans_le (two_zpow_le_iff.2 hupper),
        fun _ => (two_zpow_le_iff.2 hlower).trans (not_lt.1 (hside.not.2 (not_lt.2 hcovers)))⟩
    | denormal =>
      obtain ⟨rfl, hbit⟩ := hcovers
      rw [biased_fields_denormal]
      exact ⟨(hside.2 hbit).trans_le (two_zpow_le_iff.2 F.minExponent_le_start_one),
        fun hne => absurd rfl hne⟩

/-- The fields of numbers of the format are ordered as the numbers. -/
theorem Represents.rank_lt_rank (hx : F.Represents x) (hy : F.Represents y)
    (hlt : x.magnitude.toRat < y.magnitude.toRat) : (F.fields x).rank F < (F.fields y).rank F := by
  have hdenotesX := denotes_fields hx
  have hdenotesY := denotes_fields hy
  apply Fields.rank_lt_rank hdenotesX.1.fraction_lt
  rcases lt_trichotomy (F.fields x).biased (F.fields y).biased with hbiased | hbiased | hbiased
  · exact Or.inl hbiased
  · refine Or.inr ⟨hbiased, not_le.1 fun hle => ?_⟩
    exact hlt.not_ge (hdenotesY.le_of_fraction_le hdenotesX hbiased.symm hle)
  · -- The range of `y` would lie below that of `x`.
    have hstart := two_zpow_le_iff.2 (F.start_mono (Nat.succ_le_of_lt hbiased))
    have habove := hx.start_bounds.2 (Nat.ne_zero_of_lt hbiased)
    exact absurd hlt (not_lt.2 ((hy.start_bounds.1.le.trans hstart).trans habove))

/-- Infinity comes after all numbers. -/
theorem Represents.rank_lt_rank_infinite (hx : F.Represents x) (hy : y.magnitude = .infinite)
    (hspecials : F.hasSpecials = true) : (F.fields x).rank F < (F.fields y).rank F := by
  obtain ⟨b, hlayout, -⟩ := exists_binary hspecials
  have hfinite := hx.isFinite
  apply Fields.rank_lt_rank (denotes_fields hx).1.fraction_lt
  rw [fields_binary hlayout, fields_binary hlayout, hy]
  left
  have htop := b.topBiased_eq
  cases hm : x.magnitude with
  | infinite | nan => simp [Value.isFinite, hm] at hfinite
  | zero =>
    show 0 < b.topBiased
    omega
  | finite range exponent significand =>
    obtain ⟨hmin, hmax, ⟨n, hn⟩, hcovers⟩ := hx.parts hm
    rw [lastBit_binary hlayout] at hn
    rw [minExponent_binary hlayout] at hmin hcovers
    rw [maxExponent_binary hlayout] at hmax
    exact (BinaryLayout.biasedExponent_spec hn hmin hmax hcovers).2.2

/-- The rank depends on the magnitude only. -/
theorem rank_fields_congr (F : Format) (h : x.magnitude = y.magnitude) :
    (F.fields x).rank F = (F.fields y).rank F := by
  rw [fields, fields, h]
  rfl

theorem store_magnitude (F : Format) (sign sign' : Sign) (r : ℚ) :
    (F.store sign r).magnitude = (F.store sign' r).magnitude := by
  rw [store, store]
  split_ifs <;> rfl

theorem Represents.magnitude_eq (hx : F.Represents x) (hy : F.Represents y)
    (h : x.magnitude.toRat = y.magnitude.toRat) : x.magnitude = y.magnitude := by
  show x.clearFlags.magnitude = y.clearFlags.magnitude
  rw [hx.eq_store, hy.eq_store, h]
  exact F.store_magnitude x.sign y.sign _

theorem Contains.represents_or_infinite (hx : F.Contains x) (hnan : x.isNan = false) :
    F.Represents x ∨ F.hasSpecials = true ∧ x.magnitude = .infinite := by
  rcases contains_iff_hasEncoding.1 hx with h | ⟨hspecials, h | ⟨payload, h, -⟩⟩
  · exact Or.inl h
  · exact Or.inr ⟨hspecials, h⟩
  · exact absurd h (Value.magnitude_ne_nan hnan payload)

/-- The rank of the fields grows with the magnitude, infinity included. -/
theorem Contains.rank_lt_rank (hx : F.Contains x) (hy : F.Contains y) (hnanX : x.isNan = false)
    (hnanY : y.isNan = false) (h : x.magnitude.toEReal < y.magnitude.toEReal) :
    (F.fields x).rank F < (F.fields y).rank F := by
  rcases hx.represents_or_infinite hnanX with hx' | ⟨-, hinfinite⟩
  · rcases hy.represents_or_infinite hnanY with hy' | ⟨hspecials, hinfinite⟩
    · rw [Value.toEReal_magnitude hx'.isFinite, Value.toEReal_magnitude hy'.isFinite] at h
      exact hx'.rank_lt_rank hy' (Magnitude.ratCast_strictMono.lt_iff_lt.1 h)
    · exact hx'.rank_lt_rank_infinite hinfinite hspecials
  · rw [hinfinite] at h
    exact absurd h not_top_lt

theorem Contains.magnitude_eq (hx : F.Contains x) (hy : F.Contains y) (hnanX : x.isNan = false)
    (hnanY : y.isNan = false) (h : x.magnitude.toEReal = y.magnitude.toEReal) :
    x.magnitude = y.magnitude := by
  have hbelow {z w : Value} (hz : F.Represents z) (hw : w.magnitude = .infinite) :
      z.magnitude.toEReal ≠ w.magnitude.toEReal := by
    rw [Value.toEReal_magnitude hz.isFinite, hw]
    exact EReal.coe_ne_top _
  rcases hx.represents_or_infinite hnanX with hx' | ⟨-, hinfiniteX⟩ <;>
    rcases hy.represents_or_infinite hnanY with hy' | ⟨-, hinfiniteY⟩
  · rw [Value.toEReal_magnitude hx'.isFinite, Value.toEReal_magnitude hy'.isFinite] at h
    exact hx'.magnitude_eq hy' (Magnitude.ratCast_strictMono.injective h)
  · exact absurd h (hbelow hx' hinfiniteY)
  · exact absurd h.symm (hbelow hy' hinfiniteX)
  · rw [hinfiniteX, hinfiniteY]

theorem rank_fields_zero (F : Format) (hx : x.magnitude = .zero) : (F.fields x).rank F = 0 := by
  obtain ⟨sign, flags, magnitude⟩ := x
  obtain rfl : magnitude = .zero := hx
  obtain ⟨layout, mode, underflow⟩ := F
  cases layout <;> exact Nat.zero_mul _

/-- The rank of the fields measures a value. -/
theorem Contains.hasSize_rank (hx : F.Contains x) (hnan : x.isNan = false) :
    x.HasSize ((F.fields x).rank F : ℤ) := by
  refine ⟨Int.natCast_nonneg _, ?_⟩
  rw [Int.natCast_eq_zero, Value.isZero_iff]
  constructor
  · intro hrank
    by_contra hzero
    have hsize := Value.hasSize_toEReal hx.wellFormed hnan
    have hne : x.magnitude.toEReal ≠ 0 := by
      rw [ne_eq, hsize.eq_zero_iff, Value.isZero_iff]
      exact hzero
    have hpositive := Contains.rank_lt_rank (.zero (Or.inr rfl)) hx (x := ⟨.positive, ∅, .zero⟩)
      rfl hnan (Magnitude.toEReal_zero.trans_lt (lt_of_le_of_ne hsize.nonneg hne.symm))
    omega
  · exact F.rank_fields_zero

end Format

namespace Value

/-- The encodings of two values of a format, read as whole numbers with a sign bit,
are ordered as the values are compared. -/
theorem compare_reflects_encode {x y : Value} {c : Context} (hx : c.format.Contains x)
    (hy : c.format.Contains y) (hnanX : ¬ x.isNan) (hnanY : ¬ y.isNan) :
    (x.compare y).Reflects (c.format.signedWord (x.encode c))
      (c.format.signedWord (y.encode c)) := by
  rw [Bool.not_eq_true] at hnanX hnanY
  have hencodingX := Format.contains_iff_hasEncoding.1 hx
  have hencodingY := Format.contains_iff_hasEncoding.1 hy
  rw [hencodingX.encode_eq, hencodingY.encode_eq, hencodingX.decode_toWord.1.signedWord_toWord,
    hencodingY.decode_toWord.1.signedWord_toWord]
  refine compare_reflects_apply (fun a b => Int.neg_lt_neg) hnanX hnanY (hx.hasSize_rank hnanX)
    (hy.hasSize_rank hnanY) ?_
  refine (Magnitude.compare_reflects (wellFormed_iff.1 hx.wellFormed)
    (wellFormed_iff.1 hy.wellFormed) (magnitude_ne_nan hnanX) (magnitude_ne_nan hnanY)).transfer
    (fun hlt => ?_) (fun heq => ?_) (fun hgt => ?_)
  · exact Int.ofNat_lt.2 (hx.rank_lt_rank hy hnanX hnanY hlt)
  · exact congrArg _ (c.format.rank_fields_congr (hx.magnitude_eq hy hnanX hnanY heq))
  · exact Int.ofNat_lt.2 (hy.rank_lt_rank hx hnanY hnanX hgt)

/-- The largest number and the infinity beyond it, where the leading bit is stored. -/
theorem compare_reflects_encode_infinity :
    let c := Format.extended.alone
    let x := c.format.maxFinite .negative
    let y := infinity .negative
    c.format.Contains x ∧ c.format.Contains y ∧ ¬ x.isNan ∧ ¬ y.isNan ∧
      c.format.signedWord (y.encode c) < c.format.signedWord (x.encode c) := by
  intro c x y
  have hx : c.format.Contains x := (c.format.represents_maxFinite .negative).contains
  have hy : c.format.Contains y := .infinite rfl
  have hnanX : ¬ x.isNan := by decide
  have hnanY : ¬ y.isNan := by decide
  exact ⟨hx, hy, hnanX, hnanY,
    (compare_reflects_encode hx hy hnanX hnanY).greater.1 (by decide)⟩

end Value
end CrossFloat
