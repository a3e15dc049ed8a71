/-
The rounding of intermediate results is correct.

A normalised number is split at the last place of its result.  The upper limb
then is the floor of the number counted in places, and the lower one compares
with its half as the fraction does with one half, because a rounding to odd keeps
those comparisons.  So the mode picks the neighbour that the definition of
correct rounding asks for, and the outcome is filed as the format stores it.

An exponent beyond the bound of the rounding is brought back to it.  The number
then changes, but it stays below half of the least place or above the finite
range, where all numbers round alike.
-/
import CrossFloat.Proofs.Rounding.Cell

namespace CrossFloat

/-! ## Splits -/

namespace RoundingMode

theorem takesUpper_nearestEven (sign : Sign) (kept rest : UInt64) :
    nearestEven.takesUpper sign kept rest = true ↔
      2 ^ 63 < rest.toNat ∨ (rest.toNat = 2 ^ 63 ∧ kept.toNat % 2 = 1) := by
  have hbit : kept &&& 1 = 1 ↔ kept.toNat % 2 = 1 := by
    rw [← UInt64.toNat_inj, UInt64.toNat_and, UInt64.toNat_one, Nat.and_one_is_mod]
  rw [takesUpper, Bool.or_eq_true, Bool.and_eq_true, decide_eq_true_iff, beq_iff_eq, beq_iff_eq,
    hbit, UInt64.lt_iff_toNat_lt, ← UInt64.toNat_inj]
  rfl

theorem takesUpper_nearestAway (sign : Sign) (kept rest : UInt64) :
    nearestAway.takesUpper sign kept rest = true ↔ 2 ^ 63 ≤ rest.toNat := by
  rw [takesUpper, decide_eq_true_iff, UInt64.le_iff_toNat_le]
  rfl

end RoundingMode

namespace Split

/-- A split holds the number `q` of places: its whole part, and its fraction
rounded to odd in parts of 2^-64. -/
def Holds (s : Split) (q : ℚ) : Prop :=
  s.kept.toNat * 2 ^ 64 + s.rest.toNat = roundOdd (q * 2 ^ 64)

variable {s : Split} {q : ℚ}

-- The parts are a rounding to odd, so an even number of them compares with the
-- rest as it does with the exact number.
theorem Holds.lt_iff (h : s.Holds q) (hq : 0 ≤ q) (parts : ℕ) (hparts : parts % 2 = 0) :
    s.kept.toNat * 2 ^ 64 + s.rest.toNat < parts ↔ q * 2 ^ 64 < parts := by
  rw [h, roundOdd_lt_iff (by positivity) hparts]

theorem Holds.gt_iff (h : s.Holds q) (hq : 0 ≤ q) (parts : ℕ) (hparts : parts % 2 = 0) :
    parts < s.kept.toNat * 2 ^ 64 + s.rest.toNat ↔ parts < q * 2 ^ 64 := by
  rw [h, lt_roundOdd_iff (by positivity) hparts]

theorem Holds.kept_le (h : s.Holds q) (hq : 0 ≤ q) : (s.kept.toNat : ℚ) ≤ q := by
  have hle := (h.lt_iff hq (s.kept.toNat * 2 ^ 64) (by omega)).not.1 (by omega)
  push_cast at hle
  linarith

theorem Holds.lt_kept (h : s.Holds q) (hq : 0 ≤ q) : q < s.kept.toNat + 1 := by
  have hrest := s.rest.toNat_lt
  have hlt := (h.lt_iff hq ((s.kept.toNat + 1) * 2 ^ 64) (by omega)).1 (by omega)
  push_cast at hlt
  linarith

theorem Holds.floor_eq (h : s.Holds q) (hq : 0 ≤ q) : ⌊q⌋₊ = s.kept.toNat := by
  rw [Nat.floor_eq_iff hq]
  exact ⟨h.kept_le hq, h.lt_kept hq⟩

theorem Holds.rest_eq_zero_iff (h : s.Holds q) (hq : 0 ≤ q) :
    s.rest = 0 ↔ q = s.kept.toNat := by
  have hgt := h.gt_iff hq (s.kept.toNat * 2 ^ 64) (by omega)
  have hle := h.kept_le hq
  rw [← UInt64.toNat_inj, UInt64.toNat_zero]
  push_cast at hgt
  constructor
  · intro hzero
    have hnot := hgt.not.1 (by omega)
    linarith
  · intro heq
    have hnot := hgt.not.2 (by rw [heq]; exact lt_irrefl _)
    omega

theorem Holds.rest_lt_half_iff (h : s.Holds q) (hq : 0 ≤ q) :
    s.rest.toNat < 2 ^ 63 ↔ q - s.kept.toNat < 1 / 2 := by
  have hlt := h.lt_iff hq (s.kept.toNat * 2 ^ 64 + 2 ^ 63) (by omega)
  rw [Nat.add_lt_add_iff_left] at hlt
  rw [hlt]
  push_cast
  constructor <;> intro <;> linarith

theorem Holds.half_lt_rest_iff (h : s.Holds q) (hq : 0 ≤ q) :
    2 ^ 63 < s.rest.toNat ↔ 1 / 2 < q - s.kept.toNat := by
  have hgt := h.gt_iff hq (s.kept.toNat * 2 ^ 64 + 2 ^ 63) (by omega)
  rw [Nat.add_lt_add_iff_left] at hgt
  rw [hgt]
  push_cast
  constructor <;> intro <;> linarith

theorem Holds.ceil_eq (h : s.Holds q) (hq : 0 ≤ q) :
    ⌈q⌉₊ = if s.rest = 0 then s.kept.toNat else s.kept.toNat + 1 := by
  have hzero := h.rest_eq_zero_iff hq
  split
  · next hrest =>
    rw [hzero.1 hrest, Nat.ceil_natCast]
  · next hrest =>
    have hle := h.kept_le hq
    have hne : q ≠ s.kept.toNat := fun heq => hrest (hzero.2 heq)
    rw [Nat.ceil_eq_iff (by omega), Nat.add_sub_cancel]
    push_cast
    exact ⟨lt_of_le_of_ne hle hne.symm, (h.lt_kept hq).le⟩

theorem Holds.rest_eq_half_iff (h : s.Holds q) (hq : 0 ≤ q) :
    s.rest.toNat = 2 ^ 63 ↔ q - s.kept.toNat = 1 / 2 := by
  have hbelow := h.rest_lt_half_iff hq
  have habove := h.half_lt_rest_iff hq
  constructor
  · intro heq
    have h₁ := hbelow.not.1 (by omega)
    have h₂ := habove.not.1 (by omega)
    linarith
  · intro heq
    have h₁ := hbelow.not.2 (by rw [heq]; exact lt_irrefl _)
    have h₂ := habove.not.2 (by rw [heq]; exact lt_irrefl _)
    omega

/-- The neighbour that the mode takes is the whole number it rounds to. -/
theorem Holds.roundNat_eq (h : s.Holds q) (hq : 0 ≤ q) (mode : RoundingMode) (sign : Sign) :
    mode.roundNat sign q =
      s.kept.toNat + (mode.takesUpper sign s.kept s.rest).toNat := by
  have hbelow := h.rest_lt_half_iff hq
  have hmiddle := h.rest_eq_half_iff hq
  have hceil := h.ceil_eq hq
  have hfloor := h.floor_eq hq
  have hup : 2 ^ 63 ≤ s.rest.toNat → ⌈q⌉₊ = s.kept.toNat + 1 := by
    intro hle
    rw [hceil, if_neg]
    rintro hzero
    rw [hzero, UInt64.toNat_zero] at hle
    omega
  cases mode with
  | towardZero => exact hfloor
  | towardPositive | towardNegative =>
    rw [RoundingMode.roundNat, hceil, hfloor, RoundingMode.takesUpper]
    by_cases hzero : s.rest = 0
    · rw [if_pos hzero, hzero]
      cases sign <;> rfl
    · rw [if_neg hzero, bne_iff_ne.2 hzero]
      cases sign <;> rfl
  | nearestEven =>
    have htakes := RoundingMode.takesUpper_nearestEven sign s.kept s.rest
    simp only [RoundingMode.roundNat, hfloor, ← hbelow, ← hmiddle]
    by_cases hlow : s.rest.toNat < 2 ^ 63 ∨ s.rest.toNat = 2 ^ 63 ∧ s.kept.toNat % 2 = 0
    · rw [if_pos hlow, Bool.eq_false_iff.2 (htakes.not.2 (by omega))]
      rfl
    · rw [if_neg hlow, htakes.2 (by omega), hup (by omega)]
      rfl
  | nearestAway =>
    have htakes := RoundingMode.takesUpper_nearestAway sign s.kept s.rest
    simp only [RoundingMode.roundNat, hfloor, ← hbelow]
    by_cases hlow : s.rest.toNat < 2 ^ 63
    · rw [if_pos hlow, Bool.eq_false_iff.2 (htakes.not.2 (by omega))]
      rfl
    · rw [if_neg hlow, htakes.2 (by omega), hup (by omega)]
      rfl

theorem Holds.inexact_eq (h : s.Holds q) (hq : 0 ≤ q) (mode : RoundingMode) (sign : Sign) :
    s.inexact (mode.takesUpper sign s.kept s.rest) =
      if (mode.roundNat sign q : ℚ) < q then .onInexactLow
      else if q < mode.roundNat sign q then .onInexactHigh else ∅ := by
  have hround := h.roundNat_eq hq mode sign
  have hzero := h.rest_eq_zero_iff hq
  have hle := h.kept_le hq
  have hlt := h.lt_kept hq
  generalize mode.takesUpper sign s.kept s.rest = up at hround ⊢
  -- A whole number is its own floor and ceiling, whichever the mode takes.
  by_cases hrest : s.rest = 0
  · have hwhole : (mode.roundNat sign q : ℚ) = q := by
      rw [hzero.1 hrest]
      rcases mode.roundNat_eq_floor_or_ceil sign s.kept.toNat with hr | hr <;> rw [hr]
      · rw [Nat.floor_natCast]
      · rw [Nat.ceil_natCast]
    rw [inexact, if_pos hrest, hwhole, if_neg (lt_irrefl q), if_neg (lt_irrefl q)]
  have hne : q ≠ s.kept.toNat := hzero.not.1 hrest
  have hgt : (s.kept.toNat : ℚ) < q := lt_of_le_of_ne hle hne.symm
  rw [inexact, if_neg hrest, hround]
  cases up
  · rw [if_neg Bool.false_ne_true, Bool.toNat_false, Nat.add_zero, if_pos hgt]
  · rw [if_pos rfl, Bool.toNat_true]
    push_cast
    rw [if_neg hlt.not_gt, if_pos hlt]

/-- Halving a count that leaves the limb does not change the number. -/
theorem choose_mul_zpow (s : Split) (up : Bool) :
    ((s.choose up).1.toNat : ℚ) * 2 ^ (s.choose up).2 =
      ((s.kept.toNat + up.toNat : ℕ) : ℚ) * 2 ^ s.place := by
  cases up
  · rfl
  · rw [choose, if_pos rfl, Bool.toNat_true]
    -- Only the largest count carries out of its limb, and what is left is 2^64.
    by_cases hfull : s.kept = 0xffffffffffffffff
    · have hkept : s.kept.toNat + 1 = 2 ^ 63 * 2 := by
        rw [hfull]
        rfl
      have hcount : (0x8000000000000000 : UInt64).toNat = 2 ^ 63 := rfl
      rw [if_pos hfull, hkept, hcount, zpow_add_one₀ (by norm_num)]
      push_cast
      ring
    · have hne : s.kept.toNat ≠ 2 ^ 64 - 1 := by
        intro h
        exact hfull (UInt64.toNat_inj.1 h)
      have hlt := s.kept.toNat_lt
      have hcount : (s.kept + 1).toNat = s.kept.toNat + 1 := by
        rw [UInt64.toNat_add, UInt64.toNat_one]
        omega
      rw [if_neg hfull, hcount]

theorem place_le_choose (s : Split) (up : Bool) : s.place ≤ (s.choose up).2 := by
  rw [choose]
  split_ifs <;> omega

end Split

/-! ## Filing a number -/

namespace Format

theorem leadingExp_eq_log {count : UInt64} (hcount : count ≠ 0) (place : ℤ) :
    leadingExp (place + 63) count = Int.log 2 ((count.toNat : ℚ) * 2 ^ place) := by
  rw [← log_eq_leadingExp hcount, add_sub_cancel_right]

theorem significandAt_of_le (limb : UInt64) {low high : ℤ} (hle : low ≤ high)
    (hnear : high ≤ low + 63) :
    significandAt high (limb.toNat * 2 ^ (low - 63)) = limb >>> (high - low).toNat.toUInt64 := by
  have hquot : (limb.toNat : ℚ) * 2 ^ (low - 63) * 2 ^ (63 - high) =
      limb.toNat / ((2 ^ (high - low).toNat : ℕ) : ℚ) := by
    rw [mul_assoc, ← two_zpow_add, ← two_zpow_natCast, div_eq_mul_inv, ← zpow_neg]
    congr 2
    omega
  have hlt : limb.toNat / 2 ^ (high - low).toNat < 2 ^ 64 :=
    (Nat.div_le_self _ _).trans_lt limb.toNat_lt
  rw [← UInt64.toNat_inj, Limb.toNat_shiftRight _ (by omega), significandAt, hquot,
    Nat.floor_div_eq_div, UInt64.toNat_ofNat', Nat.mod_eq_of_lt hlt]

/-- A count of places is filed as the number that it stands for is stored.  A
denormal number must not lie wholly below its limb. -/
theorem represent_eq_store (F : Format) (sign : Sign) {count : UInt64} {place : ℤ}
    (hplace : F.minExponent - 63 ≤ place) :
    F.represent sign count place = F.store sign (count.toNat * 2 ^ place) := by
  rw [represent, store]
  by_cases hcount : count = 0
  · rw [if_pos hcount, hcount, UInt64.toNat_zero, Nat.cast_zero, zero_mul, if_pos rfl]
  have hone : 1 ≤ count.toNat := Limb.toNat_pos hcount
  have hpos : (0 : ℚ) < count.toNat * 2 ^ place :=
    mul_pos (by exact_mod_cast hone) (two_zpow_pos place)
  have hvalue := alignLeft_mul_zpow hcount (place + 63)
  -- The leading bit is not below the last place, so a denormal number moves right
  -- by fewer than 64 places.
  have hlow : F.minExponent - 63 ≤ Int.log 2 ((count.toNat : ℚ) * 2 ^ place) := by
    apply hplace.trans
    rw [le_log_iff hpos]
    exact le_mul_of_one_le_left (two_zpow_pos place).le (by exact_mod_cast hone)
  rw [add_sub_cancel_right, leadingExp_eq_log hcount] at hvalue
  rw [if_neg hcount, if_neg hpos.ne', leadingExp_eq_log hcount]
  generalize (count.toNat : ℚ) * 2 ^ place = r at *
  have htiny := log_lt_iff hpos (k := F.minExponent)
  by_cases hlog : Int.log 2 r < F.minExponent
  · have hmoved := significandAt_of_le (alignLeft count) hlog.le (by omega)
    rw [hvalue] at hmoved
    rw [if_pos hlog, if_pos (htiny.1 hlog), hmoved]
  · rw [if_neg hlog, if_neg (htiny.not.1 hlog), significandAt_eq hvalue]

end Format

/-! ## Settling a normalised number -/

namespace Intermediate

variable {u : Intermediate} (F : Format)

/-- The number has its leading bit in bit 127. -/
def Normalised (u : Intermediate) : Prop :=
  2 ^ 127 ≤ u.sig.toNat

theorem Normalised.size_pos (h : u.Normalised) : 0 < u.size := by
  have hpos : 0 < u.sig.toNat := lt_of_lt_of_le (by decide) h
  exact mul_pos (by exact_mod_cast hpos) (two_zpow_pos _)

theorem Normalised.log_size (h : u.Normalised) : Int.log 2 u.size = u.exp :=
  log_natCast_mul_zpow h u.sig.toNat_lt u.exp

theorem isTiny_iff : u.isTiny F = true ↔ u.exp < F.minExponent :=
  decide_eq_true_iff

theorem Normalised.isTiny_iff_lt (h : u.Normalised) :
    u.isTiny F = true ↔ u.size < 2 ^ F.minExponent := by
  rw [isTiny_iff, ← log_lt_iff h.size_pos, h.log_size]

theorem Normalised.split_place (h : u.Normalised) : (u.split F).place = F.place u.size := by
  have hmax : (if u.isTiny F then F.minExponent else u.exp) = max u.exp F.minExponent := by
    by_cases hlow : u.isTiny F
    · have hlt := (isTiny_iff F).1 hlow
      rw [if_pos hlow, max_eq_right hlt.le]
    · have hle := (isTiny_iff F).not.1 hlow
      rw [if_neg hlow, max_eq_left (not_lt.1 hle)]
  rw [Format.place, h.log_size, ← hmax]
  rfl

/-- The split counts the number in places of its result. -/
theorem Normalised.split_holds (h : u.Normalised) :
    (u.split F).Holds (u.size / 2 ^ F.place u.size) := by
  have hplace := F.le_place u.size
  rw [h.log_size] at hplace
  have hlt : u.sig.toNat < 2 ^ 255 := u.sig.toNat_lt.trans (by decide)
  have hword : (u.split F).kept.toNat * 2 ^ 64 + (u.split F).rest.toNat =
      jamShift u.sig.toNat ((u.split F).place - u.exp + 63).toNat := by
    rw [← jamShift_saturated hlt, ← Word128.toNat_shiftRightJam]
    rfl
  rw [Split.Holds, hword, h.split_place, ← roundOdd_div_two_pow]
  have hlimb : (2 : ℚ) ^ 64 = 2 ^ (64 : ℤ) := (zpow_ofNat 2 64).symm
  generalize F.place u.size = place at *
  congr 1
  rw [size, div_eq_mul_inv, div_eq_mul_inv, ← zpow_natCast, ← zpow_neg, ← zpow_neg, hlimb,
    mul_assoc, mul_assoc, ← two_zpow_add, ← two_zpow_add]
  congr 2
  omega

theorem Normalised.places_nonneg (h : u.Normalised) : 0 ≤ u.size / 2 ^ F.place u.size :=
  div_nonneg h.size_pos.le (two_zpow_pos _).le

theorem Normalised.choose_mul_zpow (h : u.Normalised) (c : Context) (sign : Sign) {s : Split}
    (hs : u.split c.format = s) :
    ((s.choose (c.mode.takesUpper sign s.kept s.rest)).1.toNat : ℚ) *
        2 ^ (s.choose (c.mode.takesUpper sign s.kept s.rest)).2 =
      c.rounded sign u.size := by
  have hholds := h.split_holds c.format
  have hplace := h.split_place c.format
  rw [hs] at hholds hplace
  rw [Split.choose_mul_zpow, Context.rounded, hplace,
    hholds.roundNat_eq (h.places_nonneg c.format)]

theorem Normalised.flags_eq (h : u.Normalised) (c : Context) (sign : Sign) {s : Split}
    (hs : u.split c.format = s) :
    (if u.isTiny c.format then Flags.onUnderflow else ∅) ∪
        s.inexact (c.mode.takesUpper sign s.kept s.rest) =
      c.raised sign u.size := by
  have hpos := two_zpow_pos (c.format.place u.size)
  have hholds := h.split_holds c.format
  rw [hs] at hholds
  simp only [h.isTiny_iff_lt, hholds.inexact_eq (h.places_nonneg c.format), lt_div_iff₀ hpos,
    div_lt_iff₀ hpos]
  rfl

theorem overflows_iff {count : UInt64} {place : ℤ} {r : ℚ}
    (hr : (count.toNat : ℚ) * 2 ^ place = r) :
    (count ≠ 0 ∧ F.maxExponent < leadingExp (place + 63) count) ↔ 2 ^ (F.maxExponent + 1) ≤ r := by
  by_cases hcount : count = 0
  · rw [hcount, UInt64.toNat_zero, Nat.cast_zero, zero_mul] at hr
    have hpos := two_zpow_pos (F.maxExponent + 1)
    rw [← hr]
    exact iff_of_false (fun h => h.1 hcount) (not_le.2 hpos)
  · have hpos : (0 : ℚ) < r := by
      rw [← hr]
      exact mul_pos (by exact_mod_cast Limb.toNat_pos hcount) (two_zpow_pos place)
    rw [Format.leadingExp_eq_log hcount, hr, ← le_log_iff hpos]
    exact ⟨fun h => h.2, fun h => ⟨hcount, h⟩⟩

/-- A normalised number that is not flushed is rounded correctly. -/
theorem Normalised.settleSplit_eq (h : u.Normalised) (c : Context)
    (hflush : ¬ c.format.Flushes u.size) :
    (u.settleSplit c).1 = c.roundRat u.sign u.size u.flags := by
  generalize hs : u.split c.format = s
  have hnumber := h.choose_mul_zpow c u.sign hs
  have hflags := h.flags_eq c u.sign hs
  have hplace : c.format.minExponent - 63 ≤
      (s.choose (c.mode.takesUpper u.sign s.kept s.rest)).2 := by
    have hfine := h.split_place c.format
    have hleast := c.format.le_place u.size
    have hcoarser := s.place_le_choose (c.mode.takesUpper u.sign s.kept s.rest)
    rw [hs] at hfine
    omega
  simp only [settleSplit, hs]
  generalize c.mode.takesUpper u.sign s.kept s.rest = up at *
  have hover := overflows_iff c.format hnumber
  rw [Context.roundRat, if_neg h.size_pos.ne', if_neg hflush]
  by_cases hlarge : 2 ^ (c.format.maxExponent + 1) ≤ c.rounded u.sign u.size
  · rw [if_pos (hover.2 hlarge), if_pos hlarge]
  · rw [if_neg (hover.not.2 hlarge), if_neg hlarge, ← hflags, Flags.union_assoc,
      c.format.represent_eq_store u.sign hplace, hnumber]

end Intermediate

/-! ## Numbers far out of range -/

namespace Context

variable (c : Context) (sign : Sign) (flags : Flags) {v w : ℚ}

/-- Numbers below half of the least place round alike. -/
theorem roundRat_of_small (hv : 0 < v) (hv' : v < 2 ^ (c.format.minExponent - 64)) (hw : 0 < w)
    (hw' : w < 2 ^ (c.format.minExponent - 64)) :
    c.roundRat sign v flags = c.roundRat sign w flags := by
  have hplace := c.format.le_place v
  have hcell {x : ℚ} (hx : 0 < x) (hx' : x < 2 ^ (c.format.minExponent - 64)) :
      InCell 0 (c.format.minExponent - 64) x := by
    rw [InCell, Nat.cast_zero, zero_mul, zero_add, one_mul]
    exact ⟨hx, hx'⟩
  exact (hcell hv hv').roundRat_eq (hcell hw hw') (by omega) sign flags

theorem roundRat_of_large (hv : 2 ^ (c.format.maxExponent + 1) ≤ v) :
    c.roundRat sign v flags = Intermediate.saturated sign flags c := by
  have hpos : 0 < v := lt_of_lt_of_le (two_zpow_pos _) hv
  have hlog := (le_log_iff hpos).2 hv
  have hrange := c.format.minExponent_le_maxExponent
  have hplace := c.format.place_le v
  have hflush : ¬ c.format.Flushes v := by
    rintro ⟨hlow, -⟩
    rw [← log_lt_iff hpos] at hlow
    omega
  have hrounded := c.le_rounded sign (v := v) (k := Int.log 2 v) (by omega) (two_zpow_log_le hpos)
  rw [roundRat, if_neg hpos.ne', if_neg hflush, if_pos]
  exact (two_zpow_le_iff.2 hlog).trans hrounded

end Context

/-! ## Normalisation -/

namespace Intermediate

variable {u : Intermediate}

theorem size_eq_zero_iff : u.size = 0 ↔ u.sig.toNat = 0 := by
  rw [size, mul_eq_zero, or_iff_left (two_zpow_pos _).ne', Nat.cast_eq_zero]

theorem normalised_of_ne_zero (hu : u.sig.toNat ≠ 0) : u.normalised.Normalised := by
  rw [Normalised, normalised, Word128.toNat_shiftLeft_leadingZeros hu]
  exact (Word128.leadingZeros_spec hu).2.1

/-- Normalisation keeps the number, except that it bounds the exponent. -/
theorem size_normalised (hu : u.sig.toNat ≠ 0) :
    u.normalised.size = u.sig.toNat * 2 ^ (max (-expBound) (min u.exp expBound) - 127) := by
  have hbound : (0 : ℤ) < expBound := by decide
  have hexp : u.normalised.exp =
      max (-expBound) (min u.exp expBound) - u.sig.leadingZeros := by
    simp only [normalised]
    split_ifs <;> omega
  have hsig : u.normalised.sig.toNat = u.sig.toNat * 2 ^ u.sig.leadingZeros :=
    Word128.toNat_shiftLeft_leadingZeros hu
  generalize max (-expBound) (min u.exp expBound) = exp at *
  have hsplit : exp - 127 = u.sig.leadingZeros + (exp - u.sig.leadingZeros - 127) := by omega
  rw [size, hsig, hexp, hsplit, two_zpow_add, zpow_natCast]
  push_cast
  ring

/-- The bound of the exponent is out of the range of every format, so it does
not change a rounding. -/
theorem roundRat_size_normalised (hu : u.sig.toNat ≠ 0) (c : Context) (sign : Sign)
    (flags : Flags) :
    c.roundRat sign u.normalised.size flags = c.roundRat sign u.size flags := by
  have hbound : expBound = 2 ^ 40 := rfl
  obtain ⟨hmin, hmax⟩ := c.format.exponents_small
  have hsig : (0 : ℚ) < u.sig.toNat := by exact_mod_cast Nat.pos_of_ne_zero hu
  have hone : (1 : ℚ) ≤ u.sig.toNat := by exact_mod_cast Nat.one_le_iff_ne_zero.2 hu
  have hlt : (u.sig.toNat : ℚ) < 2 ^ (128 : ℤ) := by exact_mod_cast u.sig.toNat_lt
  have hsmall {exp : ℤ} (hexp : exp ≤ -expBound) :
      (u.sig.toNat : ℚ) * 2 ^ (exp - 127) < 2 ^ (c.format.minExponent - 64) := by
    calc (u.sig.toNat : ℚ) * 2 ^ (exp - 127) < 2 ^ (128 : ℤ) * 2 ^ (exp - 127) :=
          mul_lt_mul_of_pos_right hlt (two_zpow_pos _)
      _ = 2 ^ (128 + (exp - 127)) := (two_zpow_add _ _).symm
      _ ≤ _ := two_zpow_le_iff.2 (by omega)
  have hlarge {exp : ℤ} (hexp : expBound ≤ exp) :
      2 ^ (c.format.maxExponent + 1) ≤ (u.sig.toNat : ℚ) * 2 ^ (exp - 127) := by
    calc (2 : ℚ) ^ (c.format.maxExponent + 1) ≤ 2 ^ (exp - 127) :=
          two_zpow_le_iff.2 (by omega)
      _ ≤ _ := le_mul_of_one_le_left (two_zpow_pos _).le hone
  rw [size_normalised hu, size]
  -- The bound only changes numbers that stay on the same side of the range.
  rcases lt_or_ge u.exp (-expBound) with hlow | hlow
  · exact c.roundRat_of_small sign flags (mul_pos hsig (two_zpow_pos _)) (hsmall (by omega))
      (mul_pos hsig (two_zpow_pos _)) (hsmall hlow.le)
  rcases lt_or_ge expBound u.exp with hhigh | hhigh
  · rw [c.roundRat_of_large sign flags (hlarge (by omega)),
      c.roundRat_of_large sign flags (hlarge hhigh.le)]
  · rw [min_eq_left hhigh, max_eq_right hlow]

/-- The rounding of an intermediate result is the correct one. -/
theorem round_eq_roundRat (u : Intermediate) (c : Context) :
    u.round c = c.roundRat u.sign u.size u.flags := by
  have hisZero := Word128.isZero_iff (x := u.sig)
  rw [round, settle]
  by_cases hu : u.sig.toNat = 0
  · rw [if_pos (hisZero.2 hu), Context.roundRat, if_pos (size_eq_zero_iff.2 hu)]
  have h := normalised_of_ne_zero hu
  rw [if_neg (hisZero.not.2 hu), ← roundRat_size_normalised hu]
  have hflush : (u.normalised.isTiny c.format && c.format.underflow == .sudden) = true ↔
      c.format.Flushes u.normalised.size := by
    rw [Bool.and_eq_true, beq_iff_eq, h.isTiny_iff_lt, Format.Flushes]
  by_cases hflushes : c.format.Flushes u.normalised.size
  · rw [if_pos (hflush.2 hflushes), Context.roundRat, if_neg h.size_pos.ne', if_pos hflushes]
  · rw [if_neg (hflush.not.2 hflushes), h.settleSplit_eq c hflushes]
    rfl

/-- Every number is rounded correctly into every format under every mode, with
no condition on the leading bit of its significand or on its exponent. -/
theorem correctRounding_round (c : Context) (sign : Sign) (sig : Word128) (exp : ℤ)
    (flags : Flags) :
    CorrectRounding c sign (sig.toNat * 2 ^ (exp - 127)) flags
      ((Intermediate.mk sign sig exp flags).round c) := by
  have hnonneg : (0 : ℚ) ≤ sig.toNat * 2 ^ (exp - 127) :=
    mul_nonneg sig.toNat.cast_nonneg (two_zpow_pos _).le
  rw [correctRounding_iff hnonneg]
  exact round_eq_roundRat ⟨sign, sig, exp, flags⟩ c

/-- A denormal number may be rounded up into the normal range. -/
example : (Intermediate.mk .positive ⟨0xffffffffffffffff, 0⟩ (-1023) ∅).round
    Format.double.alone =
      ⟨.positive, .onUnderflow ∪ .onInexactHigh, .finite .normal (-1022) 0x8000000000000000⟩ := by
  decide

end Intermediate
end CrossFloat
