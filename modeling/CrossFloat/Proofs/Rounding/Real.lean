/-
A jammed bit is enough for a real number.

Operations such as a quotient or a long sum have exact results with more bits than
a word holds, and a square root has one that is not even rational.  What is left
of such a result is a word whose lowest bit is set in place of everything below
it.  Here is what that bit is worth: the word is rounded as every real number
around it is, up to the even words on both sides.

The specification is that of a correct rounding again, with a real number in the
place of the rational one.  It does nothing but compare that number with multiples
of half its last place.  So it cannot tell two numbers apart that compare alike
with all of these, one of which may be rational and the other not.
-/
import CrossFloat.Proofs.Rounding.Settle
import Mathlib.Analysis.Real.Sqrt

namespace CrossFloat

/-! ## Correct rounding of real numbers -/

section Specification

/-- The whole number that a mode rounds a nonnegative real number to, as the
magnitude of a result with the given sign. -/
noncomputable def RoundingMode.roundReal (mode : RoundingMode) (sign : Sign) (q : ℝ) : ℕ :=
  match mode with
  | .towardZero => ⌊q⌋₊
  | .towardPositive => if sign = .positive then ⌈q⌉₊ else ⌊q⌋₊
  | .towardNegative => if sign = .negative then ⌈q⌉₊ else ⌊q⌋₊
  | .nearestEven =>
    if q - ⌊q⌋₊ < 1 / 2 ∨ (q - ⌊q⌋₊ = 1 / 2 ∧ ⌊q⌋₊ % 2 = 0) then ⌊q⌋₊ else ⌈q⌉₊
  | .nearestAway => if q - ⌊q⌋₊ < 1 / 2 then ⌊q⌋₊ else ⌈q⌉₊

/-- The exponent of the last place of results near `v`. -/
noncomputable def Format.placeReal (F : Format) (v : ℝ) : ℤ :=
  F.lastPlace (max (Int.log 2 v) F.minExponent)

/-- Whether a number is flushed to zero. -/
def Format.FlushesReal (F : Format) (v : ℝ) : Prop :=
  v < 2 ^ F.minExponent ∧ F.underflow = .sudden

variable (c : Context) (sign : Sign) (v : ℝ)

/-- The multiple of the last place that a magnitude is rounded to, which is a
rational number. -/
noncomputable def Context.roundedReal : ℚ :=
  c.mode.roundReal sign (v / 2 ^ c.format.placeReal v) * 2 ^ c.format.placeReal v

/-- The flags that a rounding of `v` to a number in range raises. -/
noncomputable def Context.raisedReal : Flags :=
  (if v < 2 ^ c.format.minExponent then .onUnderflow else ∅) ∪
    (if (c.roundedReal sign v : ℝ) < v then .onInexactLow
      else if v < c.roundedReal sign v then .onInexactHigh else ∅)

/-- `x` is the correct rounding of the real magnitude `v` with a sign, for operands
with the given flags. -/
structure CorrectRoundingReal (flags : Flags) (x : Value) : Prop where
  zero : v = 0 →
    x = ⟨if c.format.hasNegativeZero then sign else .positive, flags, .zero⟩
  flushed : v ≠ 0 → c.format.FlushesReal v →
    x = ⟨if c.format.hasNegativeZero then sign else .positive,
      flags ∪ .onUnderflow ∪ .onInexactLow, .zero⟩
  infinite : v ≠ 0 → ¬ c.format.FlushesReal v →
    2 ^ (c.format.maxExponent + 1) ≤ c.roundedReal sign v →
    c.format.hasSpecials ∧ c.mode.LeavesRange sign →
      x = ⟨sign, flags ∪ .onOverflow ∪ .onInexactHigh, .infinite⟩
  largest : v ≠ 0 → ¬ c.format.FlushesReal v →
    2 ^ (c.format.maxExponent + 1) ≤ c.roundedReal sign v →
    ¬ (c.format.hasSpecials ∧ c.mode.LeavesRange sign) →
      x = (c.format.maxFinite sign).raise (flags ∪ .onOverflow ∪ .onInexactLow)
  stored : v ≠ 0 → ¬ c.format.FlushesReal v →
    c.roundedReal sign v < 2 ^ (c.format.maxExponent + 1) →
    c.format.Stores sign (c.roundedReal sign v) x ∧ x.flags = flags ∪ c.raisedReal sign v

end Specification

/-! ## Numbers that compare alike -/

/-- `v` and `w` compare alike with every multiple of `2^k`. -/
structure ComparesAlike (k : ℤ) (v : ℝ) (w : ℚ) : Prop where
  lt_iff (n : ℕ) : ((n * 2 ^ k : ℚ) : ℝ) < v ↔ (n : ℚ) * 2 ^ k < w
  gt_iff (n : ℕ) : v < ((n * 2 ^ k : ℚ) : ℝ) ↔ w < (n : ℚ) * 2 ^ k

theorem cast_two_zpow (k : ℤ) : (((2 : ℚ) ^ k : ℚ) : ℝ) = 2 ^ k := by
  push_cast
  rfl

theorem real_two_zpow_pos (k : ℤ) : (0 : ℝ) < 2 ^ k := zpow_pos (by norm_num) k

/-- A rational number compares as it does among the real ones. -/
theorem comparesAlike_ratCast (k : ℤ) (w : ℚ) : ComparesAlike k (w : ℝ) w :=
  ⟨fun _ => Rat.cast_lt, fun _ => Rat.cast_lt⟩

namespace ComparesAlike

variable {k j : ℤ} {v : ℝ} {w : ℚ}

theorem coarsen (h : ComparesAlike k v w) (hj : k ≤ j) : ComparesAlike j v w := by
  have hmultiple (n : ℕ) : (n : ℚ) * 2 ^ j = ((n * 2 ^ (j - k).toNat : ℕ) : ℚ) * 2 ^ k := by
    rw [two_zpow_eq_natCast_mul hj, Nat.cast_mul, mul_assoc]
  exact ⟨fun n => by rw [hmultiple, h.lt_iff], fun n => by rw [hmultiple, h.gt_iff]⟩

theorem div_two_zpow (h : ComparesAlike k v w) (j : ℤ) :
    ComparesAlike (k - j) (v / 2 ^ j) (w / 2 ^ j) := by
  have hpos := two_zpow_pos j
  have hpos' := real_two_zpow_pos j
  have hmultiple (n : ℕ) : (n : ℚ) * 2 ^ (k - j) * 2 ^ j = n * 2 ^ k := by
    rw [mul_assoc, ← two_zpow_add, sub_add_cancel]
  constructor <;> intro n
  · rw [lt_div_iff₀ hpos, lt_div_iff₀ hpos', ← cast_two_zpow, ← Rat.cast_mul, hmultiple, h.lt_iff]
  · rw [div_lt_iff₀ hpos, div_lt_iff₀ hpos', ← cast_two_zpow, ← Rat.cast_mul, hmultiple, h.gt_iff]

theorem lt_two_zpow_iff (h : ComparesAlike k v w) (hj : k ≤ j) : v < 2 ^ j ↔ w < 2 ^ j := by
  have h := (h.coarsen hj).gt_iff 1
  rwa [Nat.cast_one, one_mul, cast_two_zpow] at h

theorem lt_natCast_iff (h : ComparesAlike k v w) (hk : k ≤ 0) (n : ℕ) :
    v < n ↔ w < n := by
  have h := (h.coarsen hk).gt_iff n
  rwa [zpow_zero, mul_one, Rat.cast_natCast] at h

theorem natCast_lt_iff (h : ComparesAlike k v w) (hk : k ≤ 0) (n : ℕ) :
    n < v ↔ n < w := by
  have h := (h.coarsen hk).lt_iff n
  rwa [zpow_zero, mul_one, Rat.cast_natCast] at h

/-- Numbers that compare alike with all halves are rounded to the same whole
number. -/
theorem roundReal_eq (h : ComparesAlike (-1) v w) (hv : 0 ≤ v) (hw : 0 ≤ w)
    (mode : RoundingMode) (sign : Sign) : mode.roundReal sign v = mode.roundNat sign w := by
  have hfloor : ⌊v⌋₊ = ⌊w⌋₊ :=
    eq_of_forall_le_iff fun n => by
      rw [Nat.le_floor_iff hv, Nat.le_floor_iff hw, ← not_lt, ← not_lt,
        h.lt_natCast_iff (by decide)]
  have hceil : ⌈v⌉₊ = ⌈w⌉₊ :=
    eq_of_forall_ge_iff fun n => by
      rw [Nat.ceil_le, Nat.ceil_le, ← not_lt, ← not_lt, h.natCast_lt_iff (by decide)]
  -- The point halfway above the floor is an odd number of halves.
  have hmiddle : (((2 * ⌊w⌋₊ + 1 : ℕ) : ℚ) * 2 ^ (-1 : ℤ)) = ⌊w⌋₊ + 1 / 2 := by
    rw [zpow_neg_one]
    push_cast
    ring
  have hmiddle' : ((⌊w⌋₊ + 1 / 2 : ℚ) : ℝ) = ⌊w⌋₊ + 1 / 2 := by
    push_cast
    rfl
  have hbelow : v - ⌊w⌋₊ < 1 / 2 ↔ w - ⌊w⌋₊ < 1 / 2 := by
    have h := h.gt_iff (2 * ⌊w⌋₊ + 1)
    rwa [hmiddle, hmiddle', ← sub_lt_iff_lt_add', ← sub_lt_iff_lt_add'] at h
  have habove : 1 / 2 < v - ⌊w⌋₊ ↔ 1 / 2 < w - ⌊w⌋₊ := by
    have h := h.lt_iff (2 * ⌊w⌋₊ + 1)
    rwa [hmiddle, hmiddle', ← lt_sub_iff_add_lt', ← lt_sub_iff_add_lt'] at h
  have hhalf : v - ⌊w⌋₊ = 1 / 2 ↔ w - ⌊w⌋₊ = 1 / 2 := by
    rw [le_antisymm_iff, le_antisymm_iff, ← not_lt, ← not_lt, ← not_lt, ← not_lt, hbelow, habove]
  cases mode <;>
    simp only [RoundingMode.roundReal, RoundingMode.roundNat, hfloor, hceil, hbelow, hhalf]

/-! ## Roundings -/

variable {c : Context} {sign : Sign}

theorem log_lt_iff_log_lt (h : ComparesAlike k v w) (hv : 0 < v) (hw : 0 < w) (hj : k ≤ j) :
    Int.log 2 v < j ↔ Int.log 2 w < j := by
  rw [log_lt_iff hw, ← h.lt_two_zpow_iff hj, ← Int.lt_zpow_iff_log_lt (by decide) hv]
  rfl

/-- Comparisons with multiples of half a last place show the binade. -/
theorem placeReal_eq {F : Format} (h : ComparesAlike (F.place w - 1) v w) (hv : 0 < v)
    (hw : 0 < w) : F.placeReal v = F.place w := by
  have hplace := F.place_le w
  have hbinade : max (Int.log 2 v) F.minExponent = max (Int.log 2 w) F.minExponent := by
    rcases le_or_gt F.minExponent (Int.log 2 w) with hle | hgt
    · have h₁ := h.log_lt_iff_log_lt hv hw (j := Int.log 2 w) (by omega)
      have h₂ := h.log_lt_iff_log_lt hv hw (j := Int.log 2 w + 1) (by omega)
      omega
    · have h := h.log_lt_iff_log_lt hv hw (j := F.minExponent) (by omega)
      omega
  rw [Format.placeReal, Format.place, hbinade]

theorem tiny_iff {F : Format} (h : ComparesAlike (F.place w - 1) v w) (hw : 0 < w) :
    v < 2 ^ F.minExponent ↔ w < 2 ^ F.minExponent := by
  have hplace := F.place_le w
  rcases le_or_gt F.minExponent (Int.log 2 w) with hle | hgt
  · -- The binade of `w` begins in the normal range, and `v` is not below it.
    have hstart := h.lt_two_zpow_iff (j := Int.log 2 w) (by omega)
    have hnormal := (le_log_iff hw).1 hle
    have hw' := two_zpow_log_le hw
    have hv' := not_lt.1 (hstart.not.2 (not_lt.2 hw'))
    have hle' : (2 : ℝ) ^ F.minExponent ≤ 2 ^ Int.log 2 w :=
      zpow_le_zpow_right₀ (by norm_num) hle
    exact iff_of_false (not_lt.2 (hle'.trans hv')) (not_lt.2 hnormal)
  · exact h.lt_two_zpow_iff (by omega)

/-- Numbers that compare alike with all multiples of half a last place have the same
correct roundings. -/
theorem correctRounding_iff (h : ComparesAlike (c.format.place w - 1) v w) (hv : 0 < v)
    (hw : 0 < w) (flags : Flags) (x : Value) :
    CorrectRoundingReal c sign v flags x ↔ CorrectRounding c sign w flags x := by
  have hplace := h.placeReal_eq hv hw
  have htiny := h.tiny_iff hw
  have hflush : c.format.FlushesReal v ↔ c.format.Flushes w := and_congr_left fun _ => htiny
  have hrounded : c.roundedReal sign v = c.rounded sign w := by
    have hhalves := h.div_two_zpow (c.format.place w)
    rw [show c.format.place w - 1 - c.format.place w = -1 by omega] at hhalves
    rw [Context.roundedReal, Context.rounded, hplace,
      hhalves.roundReal_eq (div_nonneg hv.le (real_two_zpow_pos _).le)
        (div_nonneg hw.le (two_zpow_pos _).le)]
  have hraised : c.raisedReal sign v = c.raised sign w := by
    have hcandidate := h.coarsen (j := c.format.place w) (by omega)
    have hlow := hcandidate.lt_iff (c.mode.roundNat sign (w / 2 ^ c.format.place w))
    have hhigh := hcandidate.gt_iff (c.mode.roundNat sign (w / 2 ^ c.format.place w))
    rw [← Context.rounded] at hlow hhigh
    simp only [Context.raisedReal, Context.raised, hrounded, htiny, hlow, hhigh]
  constructor
  · rintro ⟨-, hflushed, hinfinite, hlargest, hstored⟩
    rw [hflush] at hflushed
    rw [hflush, hrounded] at hinfinite hlargest hstored
    rw [hraised] at hstored
    exact ⟨fun h0 => absurd h0 hw.ne', fun _ => hflushed hv.ne', fun _ => hinfinite hv.ne',
      fun _ => hlargest hv.ne', fun _ => hstored hv.ne'⟩
  · rintro ⟨-, hflushed, hinfinite, hlargest, hstored⟩
    rw [← hflush] at hflushed
    rw [← hflush, ← hrounded] at hinfinite hlargest hstored
    rw [← hraised] at hstored
    exact ⟨fun h0 => absurd h0 hv.ne', fun _ => hflushed hw.ne', fun _ => hinfinite hw.ne',
      fun _ => hlargest hw.ne', fun _ => hstored hw.ne'⟩

end ComparesAlike

/-- For a rational number both specifications of a correct rounding are one. -/
theorem correctRoundingReal_ratCast {c : Context} {sign : Sign} {w : ℚ} (hw : 0 < w)
    (flags : Flags) (x : Value) :
    CorrectRoundingReal c sign w flags x ↔ CorrectRounding c sign w flags x :=
  (comparesAlike_ratCast _ w).correctRounding_iff (by exact_mod_cast hw) hw flags x

/-! ## Jammed bits -/

/-- Two numbers in one cell compare alike with every multiple of its width. -/
theorem InCell.comparesAlike {m : ℕ} {k : ℤ} {v : ℝ} {w : ℚ} (hw : InCell m k w)
    (hlow : (m : ℝ) * 2 ^ k < v) (hhigh : v < (m + 1) * 2 ^ k) : ComparesAlike k v w := by
  have hpos := two_zpow_pos k
  have hlow' : ((m * 2 ^ k : ℚ) : ℝ) < v := by
    push_cast
    exact hlow
  have hhigh' : v < (((m + 1) * 2 ^ k : ℚ) : ℝ) := by
    push_cast
    exact hhigh
  -- A multiple of the width is not above the lower end of the cell or not below the upper.
  have hside (n : ℕ) : (n : ℚ) * 2 ^ k ≤ m * 2 ^ k ∨ (m + 1) * 2 ^ k ≤ (n : ℚ) * 2 ^ k := by
    rcases Nat.lt_or_ge m n with hlt | hle
    · have hlt' : (m : ℚ) + 1 ≤ n := by exact_mod_cast hlt
      exact Or.inr (mul_le_mul_of_nonneg_right hlt' hpos.le)
    · have hle' : (n : ℚ) ≤ m := by exact_mod_cast hle
      exact Or.inl (mul_le_mul_of_nonneg_right hle' hpos.le)
  constructor <;> intro n
  · rcases hside n with hle | hge
    · exact iff_of_true ((Rat.cast_le.2 hle).trans_lt hlow') (hle.trans_lt hw.1)
    · exact iff_of_false (hhigh'.trans_le (Rat.cast_le.2 hge)).not_gt (hw.2.trans_le hge).not_gt
  · rcases hside n with hle | hge
    · exact iff_of_false ((Rat.cast_le.2 hle).trans_lt hlow').not_gt (hle.trans_lt hw.1).not_gt
    · exact iff_of_true (hhigh'.trans_le (Rat.cast_le.2 hge)) (hw.2.trans_le hge)

/-- The real numbers around an odd word, up to the even ones on both sides, have one
correct rounding, which is the rounding of the word.  It raises a flag of its own,
since none of them is a multiple of the last place.  The word is to have two bits
more than the precision of the format. -/
theorem correctRoundingReal_round_jammed (c : Context) (sign : Sign) {sig : Word128} (exp : ℤ)
    (flags : Flags) (hodd : sig.toNat % 2 = 1)
    (hbits : 2 ^ (c.format.precision + 1) ≤ sig.toNat) :
    let x := (Intermediate.mk sign sig exp flags).round c
    (∀ t : ℝ, (sig.toNat : ℝ) - 1 < t → t < sig.toNat + 1 → ∀ y,
        CorrectRoundingReal c sign (t * 2 ^ (exp - 127)) flags y ↔ y = x) ∧
      ∃ raised, x.flags = flags ∪ raised ∧
        (raised.inexactLow = true ∨ raised.inexactHigh = true) := by
  intro x
  obtain ⟨s, hs⟩ : ∃ s, sig.toNat = 2 * s + 1 := ⟨sig.toNat / 2, by omega⟩
  have hx : x = c.roundRat sign ((2 * s + 1) * 2 ^ (exp - 127)) flags := by
    show (Intermediate.mk sign sig exp flags).round c = _
    rw [Intermediate.round_eq_roundRat, Intermediate.size, hs]
    push_cast
    rfl
  have hcell := inCell_mul_two_zpow (s := s) (t := 2 * s + 1) (by linarith) (by linarith)
    (exp - 127)
  have hplace : exp - 127 + 1 < c.format.place ((2 * s + 1) * 2 ^ (exp - 127)) := by
    apply hcell.lt_place
    rw [hs, Nat.pow_succ] at hbits
    omega
  refine ⟨fun t hlow hhigh y => ?_, ?_⟩
  · rw [hs] at hlow hhigh
    push_cast at hlow hhigh
    have hpos := real_two_zpow_pos (exp - 127)
    have hdouble : (2 : ℝ) ^ (exp - 127 + 1) = 2 * 2 ^ (exp - 127) := by
      rw [zpow_add_one₀ (by norm_num), mul_comm]
    have hlow' : (s : ℝ) * 2 ^ (exp - 127 + 1) < t * 2 ^ (exp - 127) := by
      rw [hdouble, ← mul_assoc]
      exact mul_lt_mul_of_pos_right (by linarith) hpos
    have hhigh' : t * 2 ^ (exp - 127) < ((s : ℝ) + 1) * 2 ^ (exp - 127 + 1) := by
      rw [hdouble, ← mul_assoc]
      exact mul_lt_mul_of_pos_right (by linarith) hpos
    have halike := (hcell.comparesAlike hlow' hhigh').coarsen (Int.le_sub_one_of_lt hplace)
    have htpos : 0 < t * 2 ^ (exp - 127) :=
      lt_of_le_of_lt (mul_nonneg s.cast_nonneg (real_two_zpow_pos _).le) hlow'
    rw [halike.correctRounding_iff htpos hcell.pos, correctRounding_iff hcell.pos.le, hx]
  · rw [hx]
    exact (correctRounding_roundRat hcell.pos.le).exists_raised fun m => hcell.ne_mul hplace.le m

/-- The number `1 + 2^-53 + √2 * 2^-127` lies just above the midpoint of two numbers
that are neighbours in the 64-bit format. -/
theorem correctRoundingReal_round_jammed_sqrt_two :
    let sig : Word128 := ⟨0x8000000000000400, 1⟩
    let t : ℝ := sig.toNat - 1 + √2
    sig.toNat % 2 = 1 ∧ 2 ^ (Format.double.precision + 1) ≤ sig.toNat ∧
      CorrectRoundingReal Format.double.alone .positive (t * 2 ^ (0 - 127 : ℤ)) ∅
        ⟨.positive, .onInexactHigh, .finite .normal 0 0x8000000000000800⟩ := by
  intro sig t
  have hodd : sig.toNat % 2 = 1 := by decide
  have hbits : 2 ^ (Format.double.precision + 1) ≤ sig.toNat := by decide
  have hroot : 0 < √2 := Real.sqrt_pos.2 (by norm_num)
  have hroot' : √2 < 2 := by
    rw [Real.sqrt_lt' (by norm_num)]
    norm_num
  have hrounding := (correctRoundingReal_round_jammed Format.double.alone .positive 0 ∅ hodd hbits).1
    t (lt_add_of_pos_right _ hroot) (by linarith)
  exact ⟨hodd, hbits, (hrounding _).2 (by decide)⟩

end CrossFloat
