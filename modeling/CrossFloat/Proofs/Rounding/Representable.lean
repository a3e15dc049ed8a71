/-
The numbers that a format represents.

A format has a magnitude when it is a whole number of last places, in range, and
not flushed to zero.  A value is in the format's own form when it stores such a
magnitude as the format does.

Rounding leads into these values, infinities apart, and leaves them alone, so
they are exactly what a rounding can return.  A flag may be raised all the same,
since a number below the normal range is reported even when it is exact.
-/
import CrossFloat.Proofs.Rounding.Settle
import CrossFloat.Rounding.Pending

namespace CrossFloat

/-! ## Magnitudes and values of a format -/

/-- A normal number has the top bit of its significand set, and a denormal one
has the least exponent instead. -/
def Range.Covers (range : Range) (least exponent : ℤ) (significand : UInt64) : Prop :=
  match range with
  | .normal => 2 ^ 63 ≤ significand.toNat
  | .denormal => exponent = least ∧ significand.toNat < 2 ^ 63

namespace Format

/-- The format has the magnitude `r`. -/
structure HasNumber (F : Format) (r : ℚ) : Prop where
  whole : ∃ count : ℕ, r = count * 2 ^ F.place r
  lt : r < 2 ^ (F.maxExponent + 1)
  kept : r = 0 ∨ ¬ F.Flushes r

/-- The value is a number of the format in the format's own form. -/
structure Represents (F : Format) (x : Value) : Prop where
  number : F.HasNumber x.magnitude.toRat
  stores : F.Stores x.sign x.magnitude.toRat x

variable {F : Format} {sign : Sign} {r : ℚ} {x : Value}

theorem HasNumber.nonneg (h : F.HasNumber r) : 0 ≤ r := by
  obtain ⟨count, hcount⟩ := h.whole
  rw [hcount]
  exact mul_nonneg count.cast_nonneg (two_zpow_pos _).le

theorem hasNumber_zero (F : Format) : F.HasNumber 0 where
  whole := ⟨0, by simp⟩
  lt := two_zpow_pos _
  kept := Or.inl rfl

/-! ## The form of a stored number -/

theorem Stores.toRat_eq (h : F.Stores sign r x) (hr : 0 ≤ r) : x.magnitude.toRat = r := by
  rcases hr.eq_or_lt with rfl | hpos
  · rw [(h.zero rfl).2]
    rfl
  rcases lt_or_ge r (2 ^ F.minExponent) with htiny | hnormal
  · obtain ⟨-, s, hm, hs⟩ := h.denormal hpos htiny
    rw [hm]
    exact hs
  · obtain ⟨-, e, s, hm, -, hs⟩ := h.normal hnormal
    rw [hm]
    exact hs

theorem Stores.toRat_value (h : F.Stores sign r x) (hr : 0 ≤ r) :
    x.toRat = sign.factor * r := by
  rw [Value.toRat, h.toRat_eq hr]
  rcases hr.eq_or_lt with rfl | hpos
  · rw [mul_zero, mul_zero]
  rcases lt_or_ge r (2 ^ F.minExponent) with htiny | hnormal
  · rw [(h.denormal hpos htiny).1]
  · rw [(h.normal hnormal).1]

theorem Stores.own_sign (h : F.Stores sign r x) : F.Stores x.sign r x where
  zero hzero := by
    obtain ⟨hsign, hm⟩ := h.zero hzero
    refine ⟨?_, hm⟩
    rw [hsign]
    split <;> rfl
  denormal hpos htiny := ⟨rfl, (h.denormal hpos htiny).2⟩
  normal hnormal := ⟨rfl, (h.normal hnormal).2⟩

theorem Stores.represents (h : F.Stores sign r x) (hr : F.HasNumber r) : F.Represents x := by
  have hvalue := h.toRat_eq hr.nonneg
  exact ⟨hvalue.symm ▸ hr, hvalue.symm ▸ h.own_sign⟩

theorem store_flags (F : Format) (sign : Sign) (r : ℚ) : (F.store sign r).flags = ∅ := by
  rw [store]
  split_ifs <;> rfl

/-- A number of the format fits in a limb at the exponent it is stored with. -/
theorem HasNumber.stores_store (h : F.HasNumber r) (sign : Sign) :
    F.Stores sign r (F.store sign r) := by
  obtain ⟨count, hcount⟩ := h.whole
  have hplace := F.le_place r
  have hstores := F.stores_store sign (r := r)
    (n := count * 2 ^ (F.place r + (63 - max (Int.log 2 r) F.minExponent)).toNat) (fun _ => by
      generalize max (Int.log 2 r) F.minExponent = e at *
      conv => lhs; rw [hcount]
      rw [mul_assoc, ← two_zpow_add, Nat.cast_mul, ← two_zpow_natCast,
        Int.toNat_of_nonneg (by omega)]) ∅
  rwa [Value.raise_empty] at hstores

theorem Represents.eq_store (h : F.Represents x) :
    x.clearFlags = F.store x.sign x.magnitude.toRat := by
  have heq := h.stores.eq h.number.nonneg
  have hflags := F.store_flags x.sign x.magnitude.toRat
  generalize F.store x.sign x.magnitude.toRat = y at *
  rw [heq]
  show Value.mk y.sign ∅ y.magnitude = y
  rw [← hflags]

theorem represents_store (hr : F.HasNumber r) (sign : Sign) :
    F.Represents (F.store sign r) :=
  (hr.stores_store sign).represents hr

theorem Represents.raise (h : F.Represents x) (flags : Flags) : F.Represents (x.raise flags) :=
  ⟨h.number, ⟨h.stores.zero, h.stores.denormal, h.stores.normal⟩⟩

theorem Represents.isFinite (h : F.Represents x) : x.isFinite = true := by
  have hzero := h.stores.zero
  obtain ⟨sign, flags, magnitude⟩ := x
  cases magnitude with
  | zero | finite => rfl
  | infinite | nan => exact absurd (hzero rfl).2 (by simp)

/-- The bit of a significand that is the last place of the number. -/
def lastBit (F : Format) (exponent : ℤ) : ℕ :=
  (F.lastPlace exponent + 63 - exponent).toNat

theorem lastBit_cast (F : Format) (exponent : ℤ) :
    (F.lastBit exponent : ℤ) = F.lastPlace exponent - (exponent - 63) := by
  have hlow := F.le_lastPlace exponent
  have hprecision := F.precision_le
  rw [lastBit]
  omega

theorem count_mul_zpow (F : Format) (exponent : ℤ) (count : ℕ) :
    (count : ℚ) * 2 ^ F.lastPlace exponent =
      ((count * 2 ^ F.lastBit exponent : ℕ) : ℚ) * 2 ^ (exponent - 63) := by
  rw [Nat.cast_mul, mul_assoc, ← two_zpow_natCast, ← two_zpow_add, lastBit_cast,
    sub_add_cancel]

/-- What the parts of a finite number of the format are. -/
theorem Represents.parts (h : F.Represents x) {range : Range} {exponent : ℤ}
    {significand : UInt64} (hx : x.magnitude = .finite range exponent significand) :
    F.minExponent ≤ exponent ∧ exponent ≤ F.maxExponent ∧
      (∃ count : ℕ, significand.toNat = count * 2 ^ F.lastBit exponent) ∧
      range.Covers F.minExponent exponent significand := by
  have hr : x.magnitude.toRat = significand.toNat * 2 ^ (exponent - 63) := by rw [hx]; rfl
  obtain ⟨⟨⟨count, hcount⟩, hlt, -⟩, hstores⟩ := h
  rw [hx] at hstores
  rw [hr] at hcount hlt
  have hwhole (hplace : F.place (significand.toNat * 2 ^ (exponent - 63)) = F.lastPlace exponent) :
      significand.toNat = count * 2 ^ F.lastBit exponent := by
    rw [hplace, count_mul_zpow, mul_left_inj' (two_zpow_pos _).ne'] at hcount
    exact_mod_cast hcount
  have hpos : 0 < (significand.toNat : ℚ) * 2 ^ (exponent - 63) := by
    rcases (mul_nonneg significand.toNat.cast_nonneg (two_zpow_pos (exponent - 63)).le).eq_or_lt
      with hzero | hpos
    · exact absurd (hx.symm.trans (hstores.zero hzero.symm).2) (by simp)
    · exact hpos
  rw [Magnitude.toRat] at hstores
  generalize hn : (significand.toNat : ℚ) * 2 ^ (exponent - 63) = n at *
  have hrange := F.minExponent_le_maxExponent
  rcases lt_or_ge n (2 ^ F.minExponent) with htiny | hnormal
  · obtain ⟨-, s, hm, -⟩ := hstores.denormal hpos htiny
    rw [hx] at hm
    obtain ⟨rfl, rfl, rfl⟩ := Magnitude.finite.inj hm
    have hlog := (log_lt_iff hpos).2 htiny
    refine ⟨le_refl _, hrange, ⟨count, hwhole (by rw [place, max_eq_right hlog.le])⟩, rfl, ?_⟩
    rw [← hn] at htiny
    exact (lt_two_zpow_iff_toNat_lt _ _).1 htiny
  · obtain ⟨-, e, s, hm, hbit, -⟩ := hstores.normal hnormal
    rw [hx] at hm
    obtain ⟨rfl, rfl, rfl⟩ := Magnitude.finite.inj hm
    have hlog : Int.log 2 n = exponent := by
      rw [← hn]
      exact log_natCast_mul_zpow hbit significand.toNat_lt exponent
    have hmin : F.minExponent ≤ exponent := by
      rw [← hlog]
      exact (le_log_iff hpos).2 hnormal
    have hmax : exponent < F.maxExponent + 1 := by
      rw [← hlog]
      exact (log_lt_iff hpos).2 hlt
    exact ⟨hmin, by omega, ⟨count, hwhole (by rw [place, hlog, max_eq_left hmin])⟩, hbit⟩

/-! ## Values with given parts -/

theorem represents_zero (hsign : F.hasNegativeZero = true ∨ sign = .positive) (flags : Flags) :
    F.Represents ⟨sign, flags, .zero⟩ := by
  refine ⟨F.hasNumber_zero, ⟨fun _ => ⟨?_, rfl⟩, fun h => absurd h (lt_irrefl _),
    fun h => absurd h (not_le.2 (two_zpow_pos _))⟩⟩
  rcases hsign with hsigned | rfl
  · rw [if_pos hsigned]
  · exact (ite_self _).symm

section Parts

variable {exponent : ℤ} {significand : UInt64} {count : ℕ}

theorem represents_normal (hmin : F.minExponent ≤ exponent) (hmax : exponent ≤ F.maxExponent)
    (hbit : 2 ^ 63 ≤ significand.toNat)
    (hcount : significand.toNat = count * 2 ^ F.lastBit exponent) (sign : Sign) (flags : Flags) :
    F.Represents ⟨sign, flags, .finite .normal exponent significand⟩ := by
  have hvalue := F.count_mul_zpow exponent count
  have hlog := log_natCast_mul_zpow hbit significand.toNat_lt exponent
  rw [← hcount] at hvalue
  generalize hr : (significand.toNat : ℚ) * 2 ^ (exponent - (63 : ℕ)) = r at hlog
  have hr' : (significand.toNat : ℚ) * 2 ^ (exponent - 63) = r := hr
  rw [hr'] at hvalue
  have hpos : 0 < r := by
    rw [← hr]
    exact mul_pos (by exact_mod_cast lt_of_lt_of_le (by decide) hbit) (two_zpow_pos _)
  have hnormal : 2 ^ F.minExponent ≤ r := by
    rw [← le_log_iff hpos, hlog]
    exact hmin
  have hstores : F.Stores sign r ⟨sign, flags, .finite .normal exponent significand⟩ :=
    ⟨fun h => absurd h hpos.ne', fun _ h => absurd hnormal (not_le.2 h),
      fun _ => ⟨rfl, _, _, rfl, hbit, hr'⟩⟩
  refine hstores.represents ⟨⟨count, ?_⟩, ?_, Or.inr fun h => absurd hnormal (not_le.2 h.1)⟩
  · rw [place, hlog, max_eq_left hmin, hvalue]
  · rw [← log_lt_iff hpos, hlog]
    omega

theorem represents_denormal (hgradual : F.underflow = .gradual) (hs : significand ≠ 0)
    (hlt : significand.toNat < 2 ^ 63)
    (hcount : significand.toNat = count * 2 ^ F.lastBit F.minExponent) (sign : Sign)
    (flags : Flags) :
    F.Represents ⟨sign, flags, .finite .denormal F.minExponent significand⟩ := by
  have hvalue := F.count_mul_zpow F.minExponent count
  have hrange := F.minExponent_le_maxExponent
  rw [← hcount] at hvalue
  have htiny := (lt_two_zpow_iff_toNat_lt significand F.minExponent).2 hlt
  have hpos : 0 < (significand.toNat : ℚ) * 2 ^ (F.minExponent - 63) :=
    mul_pos (by exact_mod_cast Limb.toNat_pos hs) (two_zpow_pos _)
  generalize hr : (significand.toNat : ℚ) * 2 ^ (F.minExponent - 63) = r at *
  have hlog : Int.log 2 r < F.minExponent := (log_lt_iff hpos).2 htiny
  have hstores : F.Stores sign r ⟨sign, flags, .finite .denormal F.minExponent significand⟩ :=
    ⟨fun h => absurd h hpos.ne', fun _ _ => ⟨rfl, _, rfl, hr⟩,
      fun h => absurd htiny (not_lt.2 h)⟩
  refine hstores.represents ⟨⟨count, ?_⟩, htiny.trans_le (two_zpow_le_iff.2 (by omega)),
    Or.inr fun h => ?_⟩
  · rw [place, max_eq_right hlog.le, hvalue]
  · exact absurd (hgradual.symm.trans h.2) (by decide)

end Parts

theorem lastBit_maxExponent (F : Format) : F.lastBit F.maxExponent = 64 - F.precision := by
  obtain ⟨layout, mode, underflow⟩ := F
  cases layout with
  | binary b =>
    simp only [lastBit, lastPlace, digitWidth, precision, maxExponent]
    omega
  | hexadecimal h =>
    simp only [lastBit, lastPlace, digitWidth, precision, maxExponent]
    omega

theorem toNat_maxFinite (F : Format) :
    ((0xffffffffffffffff : UInt64) <<< (64 - F.precision).toUInt64).toNat =
      (2 ^ F.precision - 1) * 2 ^ (64 - F.precision) := by
  have hprecision := F.precision_le
  have hthree := F.three_le_precision
  have hones : (0xffffffffffffffff : UInt64).toNat = 2 ^ 64 - 1 := rfl
  have hsplit : 2 ^ 64 = 2 ^ F.precision * 2 ^ (64 - F.precision) := by
    rw [← pow_add, Nat.add_sub_cancel' hprecision]
  rw [Limb.toNat_shiftLeft _ (by omega), hones]
  have hunit : 2 ^ (64 - F.precision) ≤ 2 ^ 64 := Nat.pow_le_pow_right (by decide) (by omega)
  have hone : 1 ≤ 2 ^ (64 - F.precision) := Nat.one_le_two_pow
  rw [Nat.sub_mul (2 ^ F.precision), ← hsplit]
  generalize 2 ^ (64 - F.precision) = unit at *
  omega

/-- The smallest number of a format that underflows gradually has one bit, the last one. -/
theorem toNat_minPositive (F : Format) :
    ((1 : UInt64) <<< (63 - (F.minExponent - F.lastPlace F.minExponent)).toNat.toUInt64).toNat =
      1 * 2 ^ F.lastBit F.minExponent := by
  have hplace := F.lastPlace_le F.minExponent
  have hbit : (63 - (F.minExponent - F.lastPlace F.minExponent)).toNat =
      F.lastBit F.minExponent := by
    rw [lastBit]
    congr 1
    omega
  have hlt : F.lastBit F.minExponent < 64 := by
    rw [lastBit]
    omega
  have hpow := Nat.pow_lt_pow_right (a := 2) (by decide) hlt
  rw [hbit, Limb.toNat_shiftLeft 1 hlt, UInt64.toNat_one, Nat.one_mul, Nat.mod_eq_of_lt hpow]

/-- The largest number is one of the format. -/
theorem represents_maxFinite (F : Format) (sign : Sign) : F.Represents (F.maxFinite sign) := by
  have hsig := F.toNat_maxFinite
  have hthree := F.three_le_precision
  have hprecision := F.precision_le
  apply represents_normal F.minExponent_le_maxExponent le_rfl
  · rw [hsig]
    have hhalf : 2 ^ (F.precision - 1) ≤ 2 ^ F.precision - 1 := by
      have hone : 1 ≤ 2 ^ (F.precision - 1) := Nat.one_le_two_pow
      have hdouble : 2 ^ F.precision = 2 ^ (F.precision - 1) * 2 := by
        rw [← pow_succ, Nat.sub_add_cancel (by omega)]
      omega
    calc 2 ^ 63 = 2 ^ (F.precision - 1) * 2 ^ (64 - F.precision) := by
          rw [← pow_add]
          congr 1
          omega
      _ ≤ _ := Nat.mul_le_mul_right _ hhalf
  · rw [hsig, lastBit_maxExponent]

end Format

/-! ## Roundings -/

namespace RoundingMode

theorem roundNat_natCast (mode : RoundingMode) (sign : Sign) (n : ℕ) :
    mode.roundNat sign n = n := by
  rcases mode.roundNat_eq_floor_or_ceil sign n with h | h <;> simp [h]

end RoundingMode

namespace Context

variable (c : Context) (sign : Sign) (flags : Flags) {r v : ℚ}

/-- A whole number of last places is rounded to itself. -/
theorem rounded_of_whole (hr : ∃ count : ℕ, r = count * 2 ^ c.format.place r) :
    c.rounded sign r = r := by
  obtain ⟨count, hcount⟩ := hr
  have hplaces : r / 2 ^ c.format.place r = count := by
    rw [div_eq_iff (two_zpow_pos _).ne']
    exact hcount
  rw [rounded, hplaces, RoundingMode.roundNat_natCast]
  exact hcount.symm

theorem rounded_eq_self (hr : c.format.HasNumber r) : c.rounded sign r = r :=
  c.rounded_of_whole sign hr.whole

/-- A number of the format is stored as it is. -/
theorem clearFlags_roundRat (hr : c.format.HasNumber r) :
    (c.roundRat sign r flags).clearFlags = c.format.store sign r := by
  have hflags := c.format.store_flags sign r
  rw [roundRat, c.rounded_eq_self sign hr, if_neg (not_le.2 hr.lt)]
  by_cases hzero : r = 0
  · rw [if_pos hzero, Format.store, if_pos hzero]
    rfl
  · rw [if_neg hzero, if_neg (hr.kept.resolve_left hzero)]
    generalize c.format.store sign r = y at *
    show Value.mk y.sign ∅ y.magnitude = y
    rw [← hflags]

/-- A rounded number is a whole number of its own last places, also where it is the
power of two above the binade of `v`. -/
theorem rounded_whole (hv : 0 < v) :
    ∃ count : ℕ, c.rounded sign v = count * 2 ^ c.format.place (c.rounded sign v) := by
  rcases (c.rounded_nonneg sign v).eq_or_lt with hzero | hpos
  · exact ⟨0, by rw [← hzero, Nat.cast_zero, zero_mul]⟩
  have hplace := c.format.place_le v
  generalize he : max (Int.log 2 v) c.format.minExponent = e at hplace
  rcases c.rounded_binade sign hv hpos he with hbinade | hpower
  · refine ⟨c.mode.roundNat sign (v / 2 ^ c.format.place v), ?_⟩
    have hsame : c.format.place (c.rounded sign v) = c.format.place v := by
      rw [Format.place, Format.place, hbinade, he]
    rw [hsame]
    rfl
  · have hlog : Int.log 2 (c.rounded sign v) = e + 1 := by
      rw [hpower]
      exact log_eq_of_bounds le_rfl (two_zpow_lt_iff.2 (by omega))
    have hfine := c.format.place_le (c.rounded sign v)
    rw [hlog, max_eq_left (by omega)] at hfine
    exact ⟨_, by conv => lhs; rw [hpower, two_zpow_eq_natCast_mul hfine]⟩

/-- What a number in range is rounded to is a number of the format. -/
theorem hasNumber_rounded (hv : 0 < v) (hflush : ¬ c.format.Flushes v)
    (hlt : c.rounded sign v < 2 ^ (c.format.maxExponent + 1)) :
    c.format.HasNumber (c.rounded sign v) := by
  refine ⟨c.rounded_whole sign hv, hlt, Or.inr ?_⟩
  rintro ⟨htiny, hsudden⟩
  have hnormal : 2 ^ c.format.minExponent ≤ v := not_lt.1 fun h => hflush ⟨h, hsudden⟩
  exact absurd htiny (not_lt.2 (c.rounded_normal sign hnormal))

/-- A rounding returns an infinity, where the format has one, or a number of the
format in its own form. -/
theorem roundRat_represents (hv : 0 ≤ v) :
    (c.format.hasSpecials = true ∧ (c.roundRat sign v flags).magnitude = .infinite) ∨
      c.format.Represents (c.roundRat sign v flags) := by
  have hzero (flags : Flags) : c.format.Represents ((c.format.zero sign).raise flags) := by
    rw [Format.raise_zero]
    refine Format.represents_zero ?_ flags
    by_cases hsigned : c.format.hasNegativeZero = true
    · exact Or.inl hsigned
    · exact Or.inr (if_neg hsigned)
  have hcorrect : CorrectRounding c sign v flags (c.roundRat sign v flags) :=
    correctRounding_roundRat hv
  by_cases hv0 : v = 0
  · rw [roundRat, if_pos hv0]
    exact Or.inr (hzero flags)
  by_cases hflush : c.format.Flushes v
  · rw [roundRat, if_neg hv0, if_pos hflush]
    exact Or.inr (hzero _)
  rcases le_or_gt (2 ^ (c.format.maxExponent + 1)) (c.rounded sign v) with hlarge | hlt
  · by_cases haway : c.format.hasSpecials ∧ c.mode.LeavesRange sign
    · left
      rw [hcorrect.infinite hv0 hflush hlarge haway]
      exact ⟨haway.1, rfl⟩
    · right
      rw [hcorrect.largest hv0 hflush hlarge haway]
      exact (c.format.represents_maxFinite sign).raise _
  · have hnumber := c.hasNumber_rounded sign (lt_of_le_of_ne hv (Ne.symm hv0)) hflush hlt
    exact Or.inr ((hcorrect.stored hv0 hflush hlt).1.represents hnumber)

end Context

/-! ## Conversions -/

namespace Value

variable {x : Value}

/-- The conversion of a number is its rounding. -/
theorem convert_eq_roundRat (hx : x.isFinite = true) (c : Context) :
    x.convert c = c.roundRat x.sign x.magnitude.toRat x.flags := by
  obtain ⟨sign, flags, magnitude⟩ := x
  cases magnitude with
  | zero => exact (if_pos rfl).symm
  | finite range exponent significand =>
    show (Intermediate.mk sign ⟨significand, 0⟩ exponent flags).round c = _
    rw [Intermediate.round_eq_roundRat, Intermediate.size, high_mul_zpow]
    rfl
  | infinite | nan => exact absurd hx Bool.false_ne_true

theorem convert_of_infinite (c : Context) (hx : x.magnitude = .infinite) : x.convert c = x := by
  rw [convert, conversion, hx]
  rfl

theorem magnitude_convert_of_zero (c : Context) (hx : x.magnitude = .zero) :
    (x.convert c).magnitude = .zero := by
  rw [convert, conversion, hx]
  rfl

/-- A number of the format is converted to itself, apart from its flags. -/
theorem clearFlags_convert {c : Context} (h : c.format.Represents x) :
    (x.convert c).clearFlags = x.clearFlags := by
  rw [convert_eq_roundRat h.isFinite, c.clearFlags_roundRat _ _ h.number, h.eq_store]

end Value
end CrossFloat
