/-
Correct rounding of exact numbers.

A rounding is correct when it is the one that the definition of the format asks
for.  The numbers near `v` that a result may have are the multiples of `2^place`,
where the last place belongs to the binade of `v`, or to the smallest normal
binade if `v` lies below it.  The mode picks one of the two multiples around
`v`.  If that is out of range the result is an infinity or the largest finite
number, and otherwise it is stored with its flags.  A tiny number is flushed to
zero before any of this in a format with sudden underflow.

`CorrectRounding` states this case by case, and `roundRat` computes it.  They
agree, so a correct rounding exists and is unique.
-/
import CrossFloat.Proofs.Exact

namespace CrossFloat

/-! ## Modes -/

namespace RoundingMode

/-- The whole number that a mode rounds a nonnegative number to, as the
magnitude of a result with the given sign. -/
def roundNat (mode : RoundingMode) (sign : Sign) (q : ℚ) : ℕ :=
  match mode with
  | .towardZero => ⌊q⌋₊
  | .towardPositive => if sign = .positive then ⌈q⌉₊ else ⌊q⌋₊
  | .towardNegative => if sign = .negative then ⌈q⌉₊ else ⌊q⌋₊
  | .nearestEven =>
    if q - ⌊q⌋₊ < 1 / 2 ∨ (q - ⌊q⌋₊ = 1 / 2 ∧ ⌊q⌋₊ % 2 = 0) then ⌊q⌋₊ else ⌈q⌉₊
  | .nearestAway => if q - ⌊q⌋₊ < 1 / 2 then ⌊q⌋₊ else ⌈q⌉₊

/-- Whether a mode leaves the finite range on overflow: both nearest modes do,
and a directed mode does on its own side. -/
def LeavesRange (mode : RoundingMode) (sign : Sign) : Prop :=
  mode = .nearestEven ∨ mode = .nearestAway ∨
    (mode = .towardPositive ∧ sign = .positive) ∨ (mode = .towardNegative ∧ sign = .negative)

theorem overflowsAway_iff (mode : RoundingMode) (sign : Sign) :
    mode.overflowsAway sign = true ↔ mode.LeavesRange sign := by
  cases mode <;> cases sign <;> simp [overflowsAway, LeavesRange, Sign.isNegative]

theorem roundNat_eq_floor_or_ceil (mode : RoundingMode) (sign : Sign) (q : ℚ) :
    mode.roundNat sign q = ⌊q⌋₊ ∨ mode.roundNat sign q = ⌈q⌉₊ := by
  cases mode with
  | towardZero => exact Or.inl rfl
  | towardPositive | towardNegative | nearestEven | nearestAway =>
    simp only [roundNat]
    split <;> simp

theorem floor_le_roundNat (mode : RoundingMode) (sign : Sign) (q : ℚ) :
    ⌊q⌋₊ ≤ mode.roundNat sign q := by
  have h := Nat.floor_le_ceil q
  rcases mode.roundNat_eq_floor_or_ceil sign q with hr | hr <;> omega

theorem roundNat_le_ceil (mode : RoundingMode) (sign : Sign) (q : ℚ) :
    mode.roundNat sign q ≤ ⌈q⌉₊ := by
  have h := Nat.floor_le_ceil q
  rcases mode.roundNat_eq_floor_or_ceil sign q with hr | hr <;> omega

end RoundingMode

/-! ## Places -/

namespace Format

/-- The exponent of the last place of results near `v`. -/
def place (F : Format) (v : ℚ) : ℤ :=
  F.lastPlace (max (Int.log 2 v) F.minExponent)

/-- Whether a number is flushed to zero. -/
def Flushes (F : Format) (v : ℚ) : Prop :=
  v < 2 ^ F.minExponent ∧ F.underflow = .sudden

instance (F : Format) (v : ℚ) : Decidable (F.Flushes v) :=
  inferInstanceAs (Decidable (_ ∧ _))

/-- The significand of a number whose bit 63 is worth `2^exp`. -/
def significandAt (exp : ℤ) (r : ℚ) : UInt64 :=
  .ofNat ⌊r * 2 ^ (63 - exp)⌋₊

/-- A representable magnitude with a sign, as the format stores it. -/
def store (F : Format) (sign : Sign) (r : ℚ) : Value :=
  if r = 0 then F.zero sign
  else if r < 2 ^ F.minExponent then
    ⟨sign, ∅, .finite .denormal F.minExponent (significandAt F.minExponent r)⟩
  else ⟨sign, ∅, .finite .normal (Int.log 2 r) (significandAt (Int.log 2 r) r)⟩

theorem raise_zero (F : Format) (sign : Sign) (flags : Flags) :
    (F.zero sign).raise flags = ⟨if F.hasNegativeZero then sign else .positive, flags, .zero⟩ := by
  rw [Format.zero, Value.zero, Value.raise, Flags.empty_union]

/-- A value stands for a magnitude with a sign in the format's own form: zero,
a denormal number at the least exponent, or a normal number with its leading bit
in bit 63. -/
structure Stores (F : Format) (sign : Sign) (r : ℚ) (x : Value) : Prop where
  zero : r = 0 → x.sign = (if F.hasNegativeZero then sign else .positive) ∧ x.magnitude = .zero
  denormal : 0 < r → r < 2 ^ F.minExponent → x.sign = sign ∧
    ∃ s : UInt64, x.magnitude = .finite .denormal F.minExponent s ∧
      s.toNat * 2 ^ (F.minExponent - 63) = r
  normal : 2 ^ F.minExponent ≤ r → x.sign = sign ∧
    ∃ (e : ℤ) (s : UInt64), x.magnitude = .finite .normal e s ∧ 2 ^ 63 ≤ s.toNat ∧
      s.toNat * 2 ^ (e - 63) = r

end Format

/-! ## The rounding -/

namespace Context

/-- The multiple of the last place that a magnitude is rounded to. -/
def rounded (c : Context) (sign : Sign) (v : ℚ) : ℚ :=
  c.mode.roundNat sign (v / 2 ^ c.format.place v) * 2 ^ c.format.place v

/-- The flags that a rounding of `v` to a number in range raises. -/
def raised (c : Context) (sign : Sign) (v : ℚ) : Flags :=
  (if v < 2 ^ c.format.minExponent then .onUnderflow else ∅) ∪
    (if c.rounded sign v < v then .onInexactLow
      else if v < c.rounded sign v then .onInexactHigh else ∅)

/-- The magnitude `v` with a sign, rounded correctly. -/
def roundRat (c : Context) (sign : Sign) (v : ℚ) (flags : Flags) : Value :=
  if v = 0 then (c.format.zero sign).raise flags
  else if c.format.Flushes v then
    (c.format.zero sign).raise (flags ∪ .onUnderflow ∪ .onInexactLow)
  else if 2 ^ (c.format.maxExponent + 1) ≤ c.rounded sign v then
    Intermediate.saturated sign flags c
  else (c.format.store sign (c.rounded sign v)).raise (flags ∪ c.raised sign v)

end Context

/-- `x` is the correct rounding of the magnitude `v` with a sign, for operands
with the given flags. -/
structure CorrectRounding (c : Context) (sign : Sign) (v : ℚ) (flags : Flags) (x : Value) :
    Prop where
  zero : v = 0 →
    x = ⟨if c.format.hasNegativeZero then sign else .positive, flags, .zero⟩
  flushed : v ≠ 0 → c.format.Flushes v →
    x = ⟨if c.format.hasNegativeZero then sign else .positive,
      flags ∪ .onUnderflow ∪ .onInexactLow, .zero⟩
  infinite : v ≠ 0 → ¬ c.format.Flushes v → 2 ^ (c.format.maxExponent + 1) ≤ c.rounded sign v →
    c.format.hasSpecials ∧ c.mode.LeavesRange sign →
      x = ⟨sign, flags ∪ .onOverflow ∪ .onInexactHigh, .infinite⟩
  largest : v ≠ 0 → ¬ c.format.Flushes v → 2 ^ (c.format.maxExponent + 1) ≤ c.rounded sign v →
    ¬ (c.format.hasSpecials ∧ c.mode.LeavesRange sign) →
      x = (c.format.maxFinite sign).raise (flags ∪ .onOverflow ∪ .onInexactLow)
  stored : v ≠ 0 → ¬ c.format.Flushes v → c.rounded sign v < 2 ^ (c.format.maxExponent + 1) →
    c.format.Stores sign (c.rounded sign v) x ∧ x.flags = flags ∪ c.raised sign v

/-! ## Bounds on the last place -/

namespace Format

theorem lastPlace_le (F : Format) (exp : ℤ) : F.lastPlace exp ≤ exp := by
  have h3 := F.three_le_precision
  obtain ⟨layout, mode, underflow⟩ := F
  cases layout with
  | binary b =>
    simp only [lastPlace, digitWidth, precision] at h3 ⊢
    omega
  | hexadecimal h =>
    have := h.digits_mem.1
    simp only [lastPlace, digitWidth, precision] at h3 ⊢
    omega

theorem le_lastPlace (F : Format) (exp : ℤ) : exp + 1 - F.precision ≤ F.lastPlace exp := by
  obtain ⟨layout, mode, underflow⟩ := F
  cases layout with
  | binary b =>
    simp only [lastPlace, digitWidth, precision]
    omega
  | hexadecimal h =>
    simp only [lastPlace, digitWidth, precision]
    omega

theorem minExponent_le_maxExponent (F : Format) : F.minExponent ≤ F.maxExponent := by
  obtain ⟨layout, mode, underflow⟩ := F
  cases layout with
  | binary b =>
    have hwidth : 2 ^ 1 ≤ 2 ^ (b.exponentWidth - 1) :=
      Nat.pow_le_pow_right (by decide) (by have := b.exponentWidth_mem.1; omega)
    simp only [minExponent, maxExponent, bias, BinaryLayout.bias, Nat.one_shiftLeft]
    omega
  | hexadecimal h =>
    have hwidth : 2 ^ 1 ≤ 2 ^ (h.exponentWidth - 1) :=
      Nat.pow_le_pow_right (by decide) (by have := h.exponentWidth_mem.1; omega)
    simp only [minExponent, maxExponent, bias, HexadecimalLayout.bias, Nat.one_shiftLeft]
    omega

/-- The exponents of a format take 30 bits with their sign, which is far inside the
bound of the rounding. -/
theorem exponents_small (F : Format) : -2 ^ 29 ≤ F.minExponent ∧ F.maxExponent ≤ 2 ^ 29 := by
  obtain ⟨layout, mode, underflow⟩ := F
  cases layout with
  | binary b =>
    have hwidth : 2 ^ (b.exponentWidth - 1) ≤ 2 ^ 29 :=
      Nat.pow_le_pow_right (by decide) (by have := b.exponentWidth_mem.2; omega)
    simp only [minExponent, maxExponent, bias, BinaryLayout.bias, Nat.one_shiftLeft]
    omega
  | hexadecimal h =>
    have hwidth : 2 ^ (h.exponentWidth - 1) ≤ 2 ^ 23 :=
      Nat.pow_le_pow_right (by decide) (by have := h.exponentWidth_mem.2; omega)
    simp only [minExponent, maxExponent, bias, HexadecimalLayout.bias, Nat.one_shiftLeft]
    omega

theorem place_le (F : Format) (v : ℚ) : F.place v ≤ max (Int.log 2 v) F.minExponent :=
  F.lastPlace_le _

theorem le_place (F : Format) (v : ℚ) :
    max (Int.log 2 v) F.minExponent - 63 ≤ F.place v := by
  have h := F.le_lastPlace (max (Int.log 2 v) F.minExponent)
  have h64 := F.precision_le
  unfold place
  omega

end Format

/-! ## Bounds on the rounded number -/

namespace Context

variable (c : Context) (sign : Sign)

/-- A bound that is a multiple of the last place holds for the rounded number
as well. -/
theorem rounded_le_mul {v : ℚ} {k : ℤ} {n : ℕ} (hk : c.format.place v ≤ k) (hv : v ≤ n * 2 ^ k) :
    c.rounded sign v ≤ n * 2 ^ k := by
  have hpos := two_zpow_pos (c.format.place v)
  rw [two_zpow_eq_natCast_mul hk, ← mul_assoc] at hv ⊢
  apply mul_le_mul_of_nonneg_right _ hpos.le
  rw [← div_le_iff₀ hpos] at hv
  exact_mod_cast (c.mode.roundNat_le_ceil sign _).trans (Nat.ceil_le.2 (by exact_mod_cast hv))

theorem mul_le_rounded {v : ℚ} {k : ℤ} {n : ℕ} (hk : c.format.place v ≤ k) (hv : n * 2 ^ k ≤ v) :
    n * 2 ^ k ≤ c.rounded sign v := by
  have hpos := two_zpow_pos (c.format.place v)
  rw [two_zpow_eq_natCast_mul hk, ← mul_assoc] at hv ⊢
  apply mul_le_mul_of_nonneg_right _ hpos.le
  rw [← le_div_iff₀ hpos] at hv
  exact_mod_cast (Nat.le_floor (by exact_mod_cast hv)).trans (c.mode.floor_le_roundNat sign _)

theorem rounded_le {v : ℚ} {k : ℤ} (hk : c.format.place v ≤ k) (hv : v ≤ 2 ^ k) :
    c.rounded sign v ≤ 2 ^ k := by
  simpa using c.rounded_le_mul sign (n := 1) hk (by simpa using hv)

theorem le_rounded {v : ℚ} {k : ℤ} (hk : c.format.place v ≤ k) (hv : 2 ^ k ≤ v) :
    2 ^ k ≤ c.rounded sign v := by
  simpa using c.mul_le_rounded sign (n := 1) hk (by simpa using hv)

theorem rounded_nonneg (v : ℚ) : 0 ≤ c.rounded sign v :=
  mul_nonneg (Nat.cast_nonneg _) (two_zpow_pos _).le

/-- A number in the normal range is rounded to one in the normal range. -/
theorem rounded_normal {v : ℚ} (hv : 2 ^ c.format.minExponent ≤ v) :
    2 ^ c.format.minExponent ≤ c.rounded sign v := by
  have hpos : 0 < v := (two_zpow_pos _).trans_le hv
  have hlog := (le_log_iff hpos).2 hv
  have hplace := c.format.place_le v
  have hrounded := c.le_rounded sign (k := Int.log 2 v) (by omega) (two_zpow_log_le hpos)
  exact (two_zpow_le_iff.2 hlog).trans hrounded

/-- The rounded number stays in the binade of `v`, or is the power of two above
it. -/
theorem rounded_binade {v : ℚ} (hv : 0 < v) (hr : 0 < c.rounded sign v) {e : ℤ}
    (he : max (Int.log 2 v) c.format.minExponent = e) :
    max (Int.log 2 (c.rounded sign v)) c.format.minExponent = e ∨
      c.rounded sign v = 2 ^ (e + 1) := by
  have hplace := c.format.place_le v
  have habove : c.rounded sign v ≤ 2 ^ (e + 1) := by
    apply c.rounded_le sign (by omega)
    apply (lt_two_zpow_log hv).le.trans
    rw [two_zpow_le_iff]
    omega
  rcases habove.lt_or_eq with hlt | heq
  · left
    have hupper : Int.log 2 (c.rounded sign v) < e + 1 := (log_lt_iff hr).2 hlt
    -- Below the normal range the least exponent decides, and above it `2^e ≤ v`.
    rcases le_or_gt (Int.log 2 v) c.format.minExponent with hle | hgt
    · omega
    · have hlower : e ≤ Int.log 2 (c.rounded sign v) := by
        rw [le_log_iff hr]
        apply c.le_rounded sign (by omega)
        rw [← le_log_iff hv]
        omega
      omega
  · exact Or.inr heq

/-- The rounded number fits in a limb at the exponent it is stored with. -/
theorem exists_rounded_eq_natCast {v : ℚ} (hv : 0 < v) (hr : 0 < c.rounded sign v) :
    ∃ n : ℕ, c.rounded sign v *
      2 ^ (63 - max (Int.log 2 (c.rounded sign v)) c.format.minExponent) = n := by
  have hplace := c.format.le_place v
  generalize he : max (Int.log 2 v) c.format.minExponent = e at hplace
  rcases c.rounded_binade sign hv hr he with hbinade | hpower
  · refine ⟨c.mode.roundNat sign (v / 2 ^ c.format.place v) *
      2 ^ (c.format.place v + 63 - e).toNat, ?_⟩
    rw [hbinade, rounded, mul_assoc, ← two_zpow_add, Nat.cast_mul, ← two_zpow_natCast]
    congr 2
    omega
  · have hlog : Int.log 2 (c.rounded sign v) = e + 1 := by
      rw [hpower]
      exact log_eq_of_bounds le_rfl (two_zpow_lt_iff.2 (by omega))
    refine ⟨2 ^ 63, ?_⟩
    rw [hlog, hpower, max_eq_left (by omega), ← two_zpow_add, ← two_zpow_natCast]
    congr 1
    omega

end Context

/-! ## Storing a rounded number -/

namespace Format

theorem significandAt_mul_zpow {exp : ℤ} {r : ℚ} {n : ℕ} (hn : r * 2 ^ (63 - exp) = n)
    (hlt : r < 2 ^ (exp + 1)) :
    (significandAt exp r).toNat = n ∧ (n : ℚ) * 2 ^ (exp - 63) = r := by
  have hpos := two_zpow_pos (63 - exp)
  have hbound : n < 2 ^ 64 := by
    have : (n : ℚ) < 2 ^ ((64 : ℕ) : ℤ) := by
      rw [← hn]
      calc r * 2 ^ (63 - exp) < 2 ^ (exp + 1) * 2 ^ (63 - exp) := mul_lt_mul_of_pos_right hlt hpos
        _ = 2 ^ ((64 : ℕ) : ℤ) := by
          rw [← two_zpow_add]
          congr 1
          omega
    rw [two_zpow_natCast] at this
    exact_mod_cast this
  constructor
  · rw [significandAt, hn, Nat.floor_natCast, UInt64.toNat_ofNat', Nat.mod_eq_of_lt hbound]
  · rw [← hn, mul_assoc, ← two_zpow_add, show 63 - exp + (exp - 63) = 0 by omega, zpow_zero,
      mul_one]

theorem significandAt_eq {exp : ℤ} {r : ℚ} {s : UInt64} (h : s.toNat * 2 ^ (exp - 63) = r) :
    significandAt exp r = s := by
  rw [significandAt, ← h, mul_assoc, ← two_zpow_add, show exp - 63 + (63 - exp) = 0 by omega,
    zpow_zero, mul_one, Nat.floor_natCast, UInt64.ofNat_toNat]

/-- There is one way to store a number. -/
theorem Stores.eq {F : Format} {sign : Sign} {r : ℚ} {x : Value} (h : F.Stores sign r x)
    (hr : 0 ≤ r) : x = (F.store sign r).raise x.flags := by
  obtain ⟨xsign, xflags, xmagnitude⟩ := x
  rw [store]
  by_cases hzero : r = 0
  · obtain ⟨hsign, hmagnitude⟩ := h.zero hzero
    rw [if_pos hzero, raise_zero]
    simp only at hsign hmagnitude
    rw [hsign, hmagnitude]
  have hpos : 0 < r := lt_of_le_of_ne hr (Ne.symm hzero)
  by_cases htiny : r < 2 ^ F.minExponent
  · obtain ⟨hsign, s, hmagnitude, hs⟩ := h.denormal hpos htiny
    rw [if_neg hzero, if_pos htiny, significandAt_eq hs, Value.raise, Flags.empty_union]
    simp only at hsign hmagnitude
    rw [hsign, hmagnitude]
  · obtain ⟨hsign, e, s, hmagnitude, hbit, hs⟩ := h.normal (not_lt.1 htiny)
    have hlog : Int.log 2 r = e := by
      rw [← hs]
      exact log_natCast_mul_zpow hbit s.toNat_lt e
    rw [if_neg hzero, if_neg htiny, hlog, significandAt_eq hs, Value.raise, Flags.empty_union]
    simp only at hsign hmagnitude
    rw [hsign, hmagnitude]

/-- The stored number is the number. -/
theorem stores_store (F : Format) (sign : Sign) {r : ℚ} {n : ℕ}
    (hn : 0 < r → r * 2 ^ (63 - max (Int.log 2 r) F.minExponent) = n) (flags : Flags) :
    F.Stores sign r ((F.store sign r).raise flags) := by
  refine ⟨fun hzero => ?_, fun hpos htiny => ?_, fun hnormal => ?_⟩
  · rw [store, if_pos hzero]
    exact ⟨rfl, rfl⟩
  · have hlog : Int.log 2 r < F.minExponent := (log_lt_iff hpos).2 htiny
    have hwhole := hn hpos
    rw [max_eq_right hlog.le] at hwhole
    have hbound : r < 2 ^ (F.minExponent + 1) :=
      htiny.trans (two_zpow_lt_iff.2 (by omega))
    obtain ⟨hs, hvalue⟩ := significandAt_mul_zpow hwhole hbound
    rw [store, if_neg hpos.ne', if_pos htiny]
    exact ⟨rfl, _, rfl, by rw [hs, hvalue]⟩
  · have hpos : 0 < r := lt_of_lt_of_le (two_zpow_pos _) hnormal
    have hlog : F.minExponent ≤ Int.log 2 r := (le_log_iff hpos).2 hnormal
    have hwhole := hn hpos
    rw [max_eq_left hlog] at hwhole
    obtain ⟨hs, hvalue⟩ := significandAt_mul_zpow hwhole (lt_two_zpow_log hpos)
    rw [store, if_neg hpos.ne', if_neg (not_lt.2 hnormal)]
    refine ⟨rfl, _, _, rfl, ?_, by rw [hs, hvalue]⟩
    have hbit : (2 : ℚ) ^ ((63 : ℕ) : ℤ) ≤ n := by
      rw [← hwhole]
      calc (2 : ℚ) ^ ((63 : ℕ) : ℤ) = 2 ^ Int.log 2 r * 2 ^ (63 - Int.log 2 r) := by
            rw [← two_zpow_add]
            congr 1
            omega
        _ ≤ _ := mul_le_mul_of_nonneg_right (two_zpow_log_le hpos) (two_zpow_pos _).le
    rw [two_zpow_natCast] at hbit
    rw [hs]
    exact_mod_cast hbit

end Format

/-! ## The specification and its computation -/

section

variable {c : Context} {sign : Sign} {v : ℚ} {flags : Flags} {x : Value}

theorem Intermediate.saturated_of_leavesRange
    (haway : c.format.hasSpecials ∧ c.mode.LeavesRange sign) :
    saturated sign flags c = ⟨sign, flags ∪ .onOverflow ∪ .onInexactHigh, .infinite⟩ := by
  rw [saturated, haway.1, (c.mode.overflowsAway_iff sign).2 haway.2, Bool.and_true, if_pos rfl,
    Value.infinity, Value.raise, Flags.empty_union]

theorem Intermediate.saturated_of_not_leavesRange
    (hstay : ¬ (c.format.hasSpecials ∧ c.mode.LeavesRange sign)) :
    saturated sign flags c =
      (c.format.maxFinite sign).raise (flags ∪ .onOverflow ∪ .onInexactLow) := by
  rw [saturated, if_neg]
  rw [Bool.and_eq_true, c.mode.overflowsAway_iff sign]
  exact fun hboth => hstay hboth.symm

theorem CorrectRounding.eq_roundRat (h : CorrectRounding c sign v flags x) :
    x = c.roundRat sign v flags := by
  rw [Context.roundRat]
  by_cases hzero : v = 0
  · rw [if_pos hzero, h.zero hzero, Format.raise_zero]
  by_cases hflush : c.format.Flushes v
  · rw [if_neg hzero, if_pos hflush, h.flushed hzero hflush, Format.raise_zero]
  by_cases hlarge : 2 ^ (c.format.maxExponent + 1) ≤ c.rounded sign v
  · rw [if_neg hzero, if_neg hflush, if_pos hlarge]
    by_cases haway : c.format.hasSpecials ∧ c.mode.LeavesRange sign
    · rw [h.infinite hzero hflush hlarge haway, Intermediate.saturated_of_leavesRange haway]
    · rw [h.largest hzero hflush hlarge haway, Intermediate.saturated_of_not_leavesRange haway]
  · obtain ⟨hstores, hflags⟩ := h.stored hzero hflush (not_le.1 hlarge)
    rw [if_neg hzero, if_neg hflush, if_neg hlarge, ← hflags]
    exact hstores.eq (c.rounded_nonneg sign v)

theorem correctRounding_roundRat (hv : 0 ≤ v) :
    CorrectRounding c sign v flags (c.roundRat sign v flags) := by
  refine ⟨fun hzero => ?_, fun hzero hflush => ?_, fun hzero hflush hlarge haway => ?_,
    fun hzero hflush hlarge haway => ?_, fun hzero hflush hlt => ?_⟩
  · rw [Context.roundRat, if_pos hzero, Format.raise_zero]
  · rw [Context.roundRat, if_neg hzero, if_pos hflush, Format.raise_zero]
  · rw [Context.roundRat, if_neg hzero, if_neg hflush, if_pos hlarge,
      Intermediate.saturated_of_leavesRange haway]
  · rw [Context.roundRat, if_neg hzero, if_neg hflush, if_pos hlarge,
      Intermediate.saturated_of_not_leavesRange haway]
  · have hpos : 0 < v := lt_of_le_of_ne hv (Ne.symm hzero)
    rw [Context.roundRat, if_neg hzero, if_neg hflush, if_neg (not_le.2 hlt)]
    constructor
    · rcases (c.rounded_nonneg sign v).eq_or_lt with hr | hr
      · exact c.format.stores_store sign (n := 0) (fun h => absurd h (hr ▸ lt_irrefl _)) _
      · obtain ⟨n, hn⟩ := c.exists_rounded_eq_natCast sign hpos hr
        exact c.format.stores_store sign (fun _ => hn) _
    · have hsilent : (c.format.store sign (c.rounded sign v)).flags = ∅ := by
        rw [Format.store]
        split_ifs <;> rfl
      rw [Value.raise, hsilent, Flags.empty_union]

/-- The correct rounding exists, is unique, and is what `roundRat` computes. -/
theorem correctRounding_iff (hv : 0 ≤ v) :
    CorrectRounding c sign v flags x ↔ x = c.roundRat sign v flags := by
  constructor
  · exact CorrectRounding.eq_roundRat
  · rintro rfl
    exact correctRounding_roundRat hv

/-! ## Inexact roundings -/

theorem Flags.inexactLow_union (f g : Flags) :
    (f ∪ g).inexactLow = (f.inexactLow || g.inexactLow) := rfl

theorem Flags.inexactHigh_union (f g : Flags) :
    (f ∪ g).inexactHigh = (f.inexactHigh || g.inexactHigh) := rfl

namespace CorrectRounding

/-- What is not a multiple of the last place is not rounded without raising a
flag. -/
theorem exists_raised (h : CorrectRounding c sign v flags x)
    (hv : ∀ m : ℕ, (m : ℚ) * 2 ^ c.format.place v ≠ v) :
    ∃ raised, x.flags = flags ∪ raised ∧
      (raised.inexactLow = true ∨ raised.inexactHigh = true) := by
  have hzero : v ≠ 0 := by
    rintro rfl
    exact hv 0 (by rw [Nat.cast_zero, zero_mul])
  by_cases hflush : c.format.Flushes v
  · rw [h.flushed hzero hflush, Flags.union_assoc]
    exact ⟨_, rfl, Or.inl rfl⟩
  rcases le_or_gt (2 ^ (c.format.maxExponent + 1)) (c.rounded sign v) with hover | hlt
  · by_cases hleaves : c.format.hasSpecials ∧ c.mode.LeavesRange sign
    · rw [h.infinite hzero hflush hover hleaves, Flags.union_assoc]
      exact ⟨_, rfl, Or.inr rfl⟩
    · rw [h.largest hzero hflush hover hleaves, Flags.union_assoc]
      exact ⟨_, Flags.empty_union _, Or.inl rfl⟩
  · refine ⟨_, (h.stored hzero hflush hlt).2, ?_⟩
    rw [Context.raised, Flags.inexactLow_union, Flags.inexactHigh_union, Bool.or_eq_true,
      Bool.or_eq_true]
    rcases lt_or_gt_of_ne (hv (c.mode.roundNat sign (v / 2 ^ c.format.place v))) with hlow | hhigh
    · rw [if_pos (show c.rounded sign v < v from hlow)]
      exact Or.inl (Or.inr rfl)
    · rw [if_neg (show ¬ c.rounded sign v < v from hhigh.not_gt),
        if_pos (show v < c.rounded sign v from hhigh)]
      exact Or.inr (Or.inr rfl)

theorem inexact (h : CorrectRounding c sign v flags x)
    (hv : ∀ m : ℕ, (m : ℚ) * 2 ^ c.format.place v ≠ v) :
    x.flags.inexactLow = true ∨ x.flags.inexactHigh = true := by
  obtain ⟨raised, hflags, hraised⟩ := h.exists_raised hv
  rw [hflags, Flags.inexactLow_union, Flags.inexactHigh_union, Bool.or_eq_true, Bool.or_eq_true]
  exact hraised.imp Or.inr Or.inr

end CorrectRounding

end

end CrossFloat
