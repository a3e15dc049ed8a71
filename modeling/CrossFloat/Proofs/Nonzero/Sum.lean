/-
A sum of numbers at working precision is held by what the operation returns.

The sum has 64 bits of room below the larger operand.  Aligning the smaller one
rounds it to odd at the end of that room, and adding to an even number or taking
from one can be done before or after such a rounding.  The final jamming then is
one rounding to odd of the exact sum.

For a difference this takes that no bit of the room moves up past the 128 bits
once something has been jammed away.  That is so because up to 64 places apart
nothing is, and operands farther apart cancel one place at most.
-/
import CrossFloat.Proofs.Nonzero

namespace CrossFloat

/-! ## Words with a jammed bit -/

namespace Word192

theorem toNat_or_top {x : UInt64} (hx : x.toNat < 2 ^ 63) :
    (x ||| 0x8000000000000000).toNat = x.toNat + 2 ^ 63 := by
  have htop : (0x8000000000000000 : UInt64).toNat = 2 ^ 63 * 1 := rfl
  rw [UInt64.toNat_or, htop, Nat.or_comm, ← Nat.two_pow_add_eq_or_of_lt hx, Nat.mul_one,
    Nat.add_comm]

/-- A carry out of the topmost limb comes back in when the sum is halved. -/
theorem toNat_restored (x : Word192) :
    (mk ((x.shiftRightJam 1).hi ||| 0x8000000000000000) (x.shiftRightJam 1).mid
        (x.shiftRightJam 1).lo).toNat = jamShift (x.toNat + 2 ^ 192) 1 := by
  have hx := x.toNat_lt
  have hhalf := x.toNat_shiftRightJam 1
  generalize x.shiftRightJam 1 = y at hhalf ⊢
  have hy : y.toNat < 2 ^ 191 := by
    rw [hhalf, jamShift_eq]
    split <;> omega
  have htop : y.hi.toNat < 2 ^ 63 := by
    rw [toNat_eq] at hy
    omega
  have hrestored : jamShift (x.toNat + 2 ^ 192) 1 = jamShift x.toNat 1 + 2 ^ 191 := by
    rw [jamShift_eq, jamShift_eq]
    split <;> split <;> omega
  show ((y.hi ||| 0x8000000000000000).toNat * 2 ^ 64 + y.mid.toNat) * 2 ^ 64 + y.lo.toNat = _
  rw [hrestored, ← hhalf, toNat_or_top htop, toNat_eq]
  omega

theorem toNat_jamLow_of_roundOdd {x : Word192} {total : ℚ} (htotal : 0 ≤ total)
    (hx : x.toNat = roundOdd total) : x.jamLow.toNat = roundOdd (total / 2 ^ 64) := by
  rw [toNat_jamLow, ← roundOdd_div_two_pow, hx, roundOdd_roundOdd_div htotal]

/-- A difference from an even number can be taken before the rounding to odd. -/
theorem toNat_subBorrow_of_roundOdd {n : ℕ} {t : ℚ} {x y : Word192} (ht : 0 ≤ t)
    (heven : n % 2 = 0) (hle : t ≤ n) (hx : x.toNat = n) (hy : y.toNat = roundOdd t) :
    (x.subBorrow y).1.toNat = roundOdd (n - t) := by
  obtain ⟨hround, hbelow⟩ := roundOdd_sub ht heven hle
  have hlt := (x.subBorrow y).1.toNat_lt
  have hsub := x.toNat_subBorrow y
  rw [hx, hy] at hsub
  rw [hround]
  cases hborrow : (x.subBorrow y).2 <;> rw [hborrow] at hsub
  · rw [Bool.toNat_false] at hsub
    omega
  · rw [Bool.toNat_true] at hsub
    omega

end Word192

namespace Nonzero

variable {big small : Nonzero}

/-! ## The room below the larger operand -/

/-- The exponent of the last place of the room. -/
def room (big : Nonzero) : ℤ :=
  big.exp - 191

/-- The magnitude of a number in places of the room below `big`. -/
def inRoom (t big : Nonzero) : ℚ :=
  t.size / 2 ^ big.room

theorem inRoom_nonneg (t big : Nonzero) : 0 ≤ t.inRoom big :=
  div_nonneg (mul_nonneg (Nat.cast_nonneg _) (two_zpow_pos _).le) (two_zpow_pos _).le

theorem inRoom_mul (t big : Nonzero) : t.inRoom big * 2 ^ big.room = t.size :=
  div_mul_cancel₀ _ (two_zpow_pos _).ne'

/-- Up to 64 places apart, a number is a whole number of places of the room. -/
theorem inRoom_eq_natCast (t : Nonzero) {big : Nonzero} {gap : ℕ} (hgap : big.exp = t.exp + gap)
    (hle : gap ≤ 64) : t.inRoom big = ((t.mag.toNat * 2 ^ (64 - gap) : ℕ) : ℚ) := by
  rw [inRoom, size, room, mul_div_assoc, div_eq_mul_inv, ← zpow_neg, ← two_zpow_add,
    Nat.cast_mul, ← two_zpow_natCast]
  congr 2
  omega

theorem inRoom_self (big : Nonzero) :
    big.inRoom big = ((big.mag.toNat * 2 ^ 64 : ℕ) : ℚ) :=
  inRoom_eq_natCast big (Int.add_zero _).symm (Nat.zero_le 64)

/-- A number of places of the room, at 64 places above the room and some more. -/
theorem mul_room_div (big : Nonzero) (places : ℚ) (more : ℕ) :
    places * 2 ^ big.room / 2 ^ (big.exp + more - 127) = places / 2 ^ (64 + more) := by
  rw [room, mul_div_assoc, div_eq_mul_inv, div_eq_mul_inv, ← zpow_neg, ← two_zpow_add,
    ← zpow_natCast, ← zpow_neg]
  congr 2
  push_cast
  omega

/-- The same at fewer than 64 places above the room. -/
theorem mul_room_div_sub (big : Nonzero) (places : ℚ) (fewer : ℕ) :
    places * 2 ^ big.room / 2 ^ (big.exp - fewer - 127) = places * 2 ^ fewer / 2 ^ 64 := by
  rw [room, mul_div_assoc, mul_div_assoc, div_eq_mul_inv, div_eq_mul_inv, ← zpow_neg,
    ← two_zpow_add, ← zpow_natCast, ← zpow_ofNat (2 : ℚ) 64, ← zpow_neg, ← two_zpow_add]
  congr 2
  show big.exp - 191 + -(big.exp - fewer - 127) = fewer + -64
  omega

theorem toRat_add_same (hsign : big.sign = small.sign) :
    big.toRat + small.toRat =
      big.sign.factor * ((big.inRoom big + small.inRoom big) * 2 ^ big.room) := by
  rw [add_mul, inRoom_mul, inRoom_mul, toRat, toRat, ← hsign, mul_add]

theorem toRat_add_opposite (hsign : big.sign ≠ small.sign) :
    big.toRat + small.toRat =
      big.sign.factor * ((big.inRoom big - small.inRoom big) * 2 ^ big.room) := by
  rw [sub_mul, inRoom_mul, inRoom_mul, toRat, toRat, Sign.factor_of_ne hsign, neg_mul, mul_sub,
    sub_eq_add_neg]

theorem Normalised.le_inRoom_self (hbig : big.Normalised) : 2 ^ 191 ≤ big.inRoom big := by
  have hmag : 2 ^ 191 ≤ big.mag.toNat * 2 ^ 64 := by
    rw [Normalised] at hbig
    omega
  rw [inRoom_self]
  exact_mod_cast hmag

/-- 128 bits of a number with that many places are normalised. -/
theorem le_roundOdd_div {places : ℚ} {count : ℕ} (h : 2 ^ (127 + count) ≤ places) :
    2 ^ 127 ≤ roundOdd (places / 2 ^ count) := by
  have hpos : (0 : ℚ) < 2 ^ count := by positivity
  have hnonneg : 0 ≤ places := le_trans (by positivity) h
  rw [le_roundOdd_iff (div_nonneg hnonneg hpos.le) (by decide), Nat.cast_pow, Nat.cast_ofNat,
    le_div_iff₀ hpos, ← pow_add]
  exact h

/-! ## The alignment -/

theorem toNat_ofHigh (x : Word128) : (Word192.ofHigh x).toNat = x.toNat * 2 ^ 64 :=
  Word192.toNat_ofHigh x

/-- The smaller operand is rounded to odd at the end of the room. -/
theorem toNat_aligned (hexp : small.exp ≤ big.exp) {gap : ℕ}
    (hgap : gap = (big.exp - small.exp).toNat) :
    ((Word192.ofHigh small.mag).shiftRightJam (if gap < 255 then gap else 255)).toNat =
      roundOdd (small.inRoom big) := by
  have hlt : (Word192.ofHigh small.mag).toNat < 2 ^ 255 :=
    (Word192.toNat_lt _).trans (by decide)
  have hroom : small.room - big.room = -gap := by
    rw [room, room, hgap]
    omega
  rw [Word192.toNat_shiftRightJam, jamShift_saturated hlt, toNat_ofHigh,
    ← roundOdd_div_two_pow, ← inRoom_self, inRoom, inRoom, div_div, ← zpow_natCast, ← two_zpow_add]
  congr 3
  omega

/-- From two places apart on, the difference keeps all but one of the leading
places. -/
theorem le_inRoom_sub (hbig : big.Normalised) (hsmall : small.Normalised)
    (hfar : small.exp + 1 < big.exp) : 2 ^ 190 ≤ big.inRoom big - small.inRoom big := by
  have hpart : small.inRoom big < 2 ^ (190 : ℤ) := by
    rw [inRoom, div_lt_iff₀ (two_zpow_pos _), ← two_zpow_add, ← log_lt_iff hsmall.size_pos,
      hsmall.log_size, room]
    omega
  have hsplit : (2 : ℚ) ^ 190 + 2 ^ (190 : ℤ) ≤ 2 ^ 191 := by norm_num
  calc (2 : ℚ) ^ 190 ≤ 2 ^ 191 - 2 ^ (190 : ℤ) := le_sub_iff_add_le.2 hsplit
    _ ≤ _ := sub_le_sub hbig.le_inRoom_self hpart.le

/-! ## The order of the operands -/

theorem dominates_iff (x y : Nonzero) :
    x.dominates y = true ↔
      y.exp < x.exp ∨ (x.exp = y.exp ∧ y.mag.toNat ≤ x.mag.toNat) := by
  rw [dominates, Bool.or_eq_true, Bool.and_eq_true, decide_eq_true_iff, beq_iff_eq,
    Word128.compare_eq]
  split_ifs <;> simp [Ordering.isGE] <;> omega

theorem dominates_total {x y : Nonzero} (h : ¬ x.dominates y = true) : y.dominates x = true := by
  rw [dominates_iff] at h ⊢
  omega

theorem exp_le_of_dominates (hdom : big.dominates small = true) : small.exp ≤ big.exp := by
  rcases (dominates_iff big small).1 hdom with hlt | ⟨heq, -⟩ <;> omega

theorem size_le_of_dominates (hbig : big.Normalised) (hsmall : small.Normalised)
    (hdom : big.dominates small = true) : small.size ≤ big.size := by
  rcases (dominates_iff big small).1 hdom with hlt | ⟨heq, hle⟩
  · have hlog : Int.log 2 small.size < big.exp := by rw [hsmall.log_size]; exact hlt
    have hlow := two_zpow_log_le hbig.size_pos
    rw [log_lt_iff hsmall.size_pos] at hlog
    rw [hbig.log_size] at hlow
    exact hlog.le.trans hlow
  · rw [size, size, heq]
    exact mul_le_mul_of_nonneg_right (by exact_mod_cast hle) (two_zpow_pos _).le

/-! ## The sum -/

/-- Operands of one sign have a sum, and it is held. -/
theorem addSmaller_same (hbig : big.Normalised) (hexp : small.exp ≤ big.exp)
    (hsign : big.sign = small.sign) :
    ∃ t, addSmaller big small = some t ∧ t.Holds (big.toRat + small.toRat) := by
  have haligned := toNat_aligned hexp rfl
  simp only [addSmaller, if_pos hsign]
  generalize (Word192.ofHigh small.mag).shiftRightJam _ = smallMag at haligned ⊢
  have hadd := Word192.toNat_addCarry (Word192.ofHigh big.mag) smallMag
  rw [haligned, toNat_ofHigh, ← roundOdd_add (small.inRoom_nonneg big) (by omega),
    ← inRoom_self] at hadd
  have hlarge : 2 ^ 191 ≤ big.inRoom big + small.inRoom big :=
    hbig.le_inRoom_self.trans (le_add_of_nonneg_right (small.inRoom_nonneg big))
  rw [toRat_add_same hsign]
  -- From here on `places` is the exact sum, counted in places of the room.
  generalize big.inRoom big + small.inRoom big = places at *
  have hnonneg : 0 ≤ places := le_trans (by norm_num) hlarge
  have hsize : 0 ≤ places * 2 ^ big.room := mul_nonneg hnonneg (two_zpow_pos _).le
  generalize (Word192.ofHigh big.mag).addCarry smallMag = result at hadd ⊢
  obtain ⟨sum, carry⟩ := result
  cases carry with
  | false =>
    rw [Bool.toNat_false, Nat.zero_mul, Nat.add_zero] at hadd
    have hjam := Word192.toNat_jamLow_of_roundOdd hnonneg hadd
    have hplaces := mul_room_div big places 0
    rw [Nat.cast_zero, add_zero, Nat.add_zero] at hplaces
    refine ⟨_, rfl, Holds.of_size hsize ?_ (by rw [hplaces, ← hjam])⟩
    rw [Normalised, hjam]
    exact le_roundOdd_div hlarge
  | true =>
    -- The carry is bit 192 of the sum, which halving brings to the top of the word.
    rw [Bool.toNat_true, Nat.one_mul] at hadd
    have hsum : sum.toNat + 2 ^ 192 = roundOdd places := hadd
    have hcarried : ((2 ^ 192 : ℕ) : ℚ) ≤ places :=
      (le_roundOdd_iff hnonneg (by decide)).1 (by omega)
    have hrestored := Word192.toNat_restored sum
    rw [hsum, ← roundOdd_div_two_pow, roundOdd_roundOdd_div hnonneg] at hrestored
    have hjam := Word192.toNat_jamLow_of_roundOdd (by positivity) hrestored
    rw [div_div, ← pow_add] at hjam
    have hplaces := mul_room_div big places 1
    rw [Nat.cast_one, Nat.add_comm] at hplaces
    refine ⟨_, rfl, Holds.of_size hsize ?_ (by rw [hplaces, ← hjam])⟩
    rw [Normalised, hjam]
    exact le_roundOdd_div (by exact_mod_cast hcarried)

/-! ## The difference -/

theorem inRoom_le_of_dominates (hbig : big.Normalised) (hsmall : small.Normalised)
    (hdom : big.dominates small = true) : small.inRoom big ≤ big.inRoom big :=
  div_le_div_of_nonneg_right (size_le_of_dominates hbig hsmall hdom) (two_zpow_pos _).le

/-- The difference of two aligned magnitudes, before it is normalised. -/
def difference (big small : Nonzero) : Word192 :=
  let gap := (big.exp - small.exp).toNat
  ((Word192.ofHigh big.mag).subBorrow
    ((Word192.ofHigh small.mag).shiftRightJam (if gap < 255 then gap else 255))).1

theorem addSmaller_of_ne (hsign : big.sign ≠ small.sign) :
    addSmaller big small =
      if (big.difference small).isZero then none
      else some ⟨big.sign,
        ((big.difference small).shiftLeft (big.difference small).leadingZeros).jamLow,
        big.exp - (big.difference small).leadingZeros⟩ :=
  if_neg hsign

/-- The difference is the exact one, rounded to odd at the end of the room. -/
theorem toNat_difference (hbig : big.Normalised) (hsmall : small.Normalised)
    (hdom : big.dominates small = true) :
    (big.difference small).toNat = roundOdd (big.inRoom big - small.inRoom big) := by
  have hle := inRoom_le_of_dominates hbig hsmall hdom
  rw [inRoom_self] at hle ⊢
  exact Word192.toNat_subBorrow_of_roundOdd (small.inRoom_nonneg big) (by omega) hle
    (toNat_ofHigh big.mag) (toNat_aligned (exp_le_of_dominates hdom) rfl)

/-- What is lost below the room does not come back when a difference is
normalised. -/
theorem difference_fine (hbig : big.Normalised) (hsmall : small.Normalised)
    (hexp : small.exp ≤ big.exp) (hle : small.inRoom big ≤ big.inRoom big)
    {difference : Word192}
    (hword : difference.toNat = roundOdd (big.inRoom big - small.inRoom big)) :
    (roundOdd (big.inRoom big - small.inRoom big) : ℚ) = big.inRoom big - small.inRoom big ∨
      difference.leadingZeros ≤ 64 := by
  rcases le_or_gt big.exp (small.exp + 64) with hnear | hfar
  · obtain ⟨gap, hgap⟩ := Int.eq_ofNat_of_zero_le (sub_nonneg.2 hexp)
    rw [inRoom_eq_natCast small (sub_eq_iff_eq_add'.1 hgap) (by omega), inRoom_self] at hle ⊢
    rw [← Nat.cast_sub (by exact_mod_cast hle), roundOdd_natCast]
    exact Or.inl rfl
  · have hlarge := le_inRoom_sub hbig hsmall (by omega)
    have hbits : 2 ^ 190 ≤ difference.toNat := by
      rw [hword, le_roundOdd_iff (sub_nonneg.2 hle) (by decide)]
      exact_mod_cast hlarge
    have hone := Word192.leadingZeros_le_one hbits
    exact Or.inr (by omega)

/-- Operands of opposite signs have no sum when they cancel, and otherwise one
that is held. -/
theorem addSmaller_opposite (hbig : big.Normalised) (hsmall : small.Normalised)
    (hdom : big.dominates small = true) (hsign : big.sign ≠ small.sign) :
    match addSmaller big small with
    | none => big.toRat + small.toRat = 0
    | some t => t.Holds (big.toRat + small.toRat) := by
  have hexp := exp_le_of_dominates hdom
  have hle := inRoom_le_of_dominates hbig hsmall hdom
  have hword := toNat_difference hbig hsmall hdom
  rw [addSmaller_of_ne hsign]
  generalize big.difference small = difference at hword ⊢
  have hfine := difference_fine hbig hsmall hexp hle hword
  have hnonneg : 0 ≤ big.inRoom big - small.inRoom big := sub_nonneg.2 hle
  rw [toRat_add_opposite hsign]
  generalize big.inRoom big - small.inRoom big = places at *
  by_cases hzero : difference.isZero = true
  · rw [if_pos hzero]
    rw [Word192.isZero_iff, hword, roundOdd_eq_zero_iff hnonneg] at hzero
    show big.sign.factor * (places * 2 ^ big.room) = 0
    rw [hzero, zero_mul, mul_zero]
  · rw [if_neg hzero]
    rw [Word192.isZero_iff] at hzero
    have hbits : 2 ^ 191 ≤ difference.toNat * 2 ^ difference.leadingZeros :=
      (Word192.leadingZeros_spec hzero).2.1
    have hjam : (difference.shiftLeft difference.leadingZeros).jamLow.toNat =
        roundOdd (((difference.toNat * 2 ^ difference.leadingZeros : ℕ) : ℚ) / 2 ^ 64) := by
      rw [Word192.toNat_jamLow, Word192.toNat_shiftLeft_leadingZeros hzero,
        ← roundOdd_div_two_pow]
    refine Holds.of_size (mul_nonneg hnonneg (two_zpow_pos _).le) ?_ ?_
    · rw [Normalised, hjam]
      exact le_roundOdd_div (by exact_mod_cast hbits)
    · rw [mul_room_div_sub, hjam, ← roundOdd_roundOdd_mul_div hnonneg hfine, ← hword]
      push_cast
      rfl

theorem addSmaller_spec (hbig : big.Normalised) (hsmall : small.Normalised)
    (hdom : big.dominates small = true) :
    match addSmaller big small with
    | none => big.toRat + small.toRat = 0
    | some t => t.Holds (big.toRat + small.toRat) := by
  by_cases hsign : big.sign = small.sign
  · obtain ⟨t, ht, hholds⟩ := addSmaller_same hbig (exp_le_of_dominates hdom) hsign
    rw [ht]
    exact hholds
  · exact addSmaller_opposite hbig hsmall hdom hsign

/-- The sum of two numbers is held, and there is none when it is zero. -/
theorem add_spec {x y : Nonzero} (hx : x.Normalised) (hy : y.Normalised) :
    match add x y with
    | none => x.toRat + y.toRat = 0
    | some t => t.Holds (x.toRat + y.toRat) := by
  rw [add]
  by_cases hdom : x.dominates y = true
  · rw [if_pos hdom]
    exact addSmaller_spec hx hy hdom
  · rw [if_neg hdom, add_comm]
    exact addSmaller_spec hy hx (dominates_total hdom)

end Nonzero
end CrossFloat
