/-
The long division is exact: its quotient is the floor of the quotient of the
numbers, and it reports whether a remainder is left.

The loop keeps the trial difference, which is negative when the divisor does not
fit.  After `k` bits with quotient `q`, the trial difference is
`n * 2^k - (2q + 1) * d` and lies in `[-d, d)`.  A step doubles it and subtracts
or adds `d`, which keeps both facts.  The last quotient bit is taken without
another step, and the difference then is the remainder up to the divisor that a
trial which did not fit has taken too much.
-/
import CrossFloat.Proofs.Limb.Word
import CrossFloat.Limb.LongDivision

namespace CrossFloat

/-! ## Two's complement -/

namespace Word192

/-- The three limbs read as a signed number. -/
def toInt (x : Word192) : Int :=
  if x.isNegative then x.toNat - 2 ^ 192 else x.toNat

theorem isNegative_iff (x : Word192) : x.isNegative = true ↔ 2 ^ 191 ≤ x.toNat := by
  have hhi := x.hi.toNat_lt
  have hmid := x.mid.toNat_lt
  have hlo := x.lo.toNat_lt
  have hshift : (x.hi >>> 63).toNat = x.hi.toNat / 2 ^ 63 :=
    Limb.toNat_shiftRight x.hi (by decide)
  rw [isNegative, bne_iff_ne, ne_eq, ← UInt64.toNat_inj, hshift, UInt64.toNat_zero, toNat_eq]
  omega

/-- A signed number that fits is known by its limbs modulo the width. -/
theorem toInt_eq_of_emod {x : Word192} {r : Int} (h : (x.toNat : Int) = r % 2 ^ 192)
    (hmin : -2 ^ 191 ≤ r) (hmax : r < 2 ^ 191) : x.toInt = r := by
  have hneg := x.isNegative_iff
  rw [toInt]
  by_cases hx : x.isNegative = true
  · rw [if_pos hx]
    have := hneg.1 hx
    omega
  · rw [if_neg hx]
    have : ¬ 2 ^ 191 ≤ x.toNat := fun hle => hx (hneg.2 hle)
    omega

theorem toNat_eq_toInt_emod (x : Word192) : (x.toNat : Int) = x.toInt % 2 ^ 192 := by
  have hlt : x.toNat < 2 ^ 192 := x.toNat_lt
  rw [toInt]
  split <;> omega

theorem isNegative_iff_toInt (x : Word192) : x.isNegative = true ↔ x.toInt < 0 := by
  have hlt : x.toNat < 2 ^ 192 := x.toNat_lt
  rw [toInt]
  split
  · next h => simp only [h, true_iff]; omega
  · next h => simp only [h, Bool.false_eq_true, false_iff]; omega

theorem toInt_ofLow (x : Word128) : (ofLow x).toInt = x.toNat := by
  have hlt : x.toNat < 2 ^ 128 := x.toNat_lt
  exact toInt_eq_of_emod (by rw [toNat_ofLow]; omega) (by omega) (by omega)

theorem toInt_subBorrow {x y : Word192} (hmin : -2 ^ 191 ≤ x.toInt - y.toNat)
    (hmax : x.toInt - y.toNat < 2 ^ 191) : (x.subBorrow y).1.toInt = x.toInt - y.toNat := by
  have hsub := toNat_subBorrow x y
  have hx := x.toNat_eq_toInt_emod
  have hlt : (x.subBorrow y).1.toNat < 2 ^ 192 := toNat_lt _
  apply toInt_eq_of_emod _ hmin hmax
  cases hb : (x.subBorrow y).2 <;> simp only [hb, Bool.toNat_false, Bool.toNat_true] at hsub <;>
    omega

theorem toInt_addCarry {x y : Word192} (hmin : -2 ^ 191 ≤ x.toInt + y.toNat)
    (hmax : x.toInt + y.toNat < 2 ^ 191) : (x.addCarry y).1.toInt = x.toInt + y.toNat := by
  have hadd := toNat_addCarry x y
  have hx := x.toNat_eq_toInt_emod
  have hlt : (x.addCarry y).1.toNat < 2 ^ 192 := toNat_lt _
  apply toInt_eq_of_emod _ hmin hmax
  cases hb : (x.addCarry y).2 <;> simp only [hb, Bool.toNat_false, Bool.toNat_true] at hadd <;>
    omega

theorem toInt_shiftLeft_one {x : Word192} (hmin : -2 ^ 191 ≤ 2 * x.toInt)
    (hmax : 2 * x.toInt < 2 ^ 191) : (x.shiftLeft 1).toInt = 2 * x.toInt := by
  have hshift := toNat_shiftLeft x 1
  have hx := x.toNat_eq_toInt_emod
  apply toInt_eq_of_emod _ hmin hmax
  omega

end Word192

/-! ## The loop -/

namespace Trial

/-- What holds after `k` quotient bits of the division of `n` by `d`. -/
structure Invariant (n d k : Nat) (t : Trial) : Prop where
  quotient_lt : t.quotient.toNat < 2 ^ k
  difference_eq : t.difference.toInt = n * 2 ^ k - (2 * t.quotient.toNat + 1) * d
  neg_le : -d ≤ t.difference.toInt
  lt : t.difference.toInt < d

theorem fits_iff (t : Trial) : t.fits = true ↔ 0 ≤ t.difference.toInt := by
  have := t.difference.isNegative_iff_toInt
  rw [fits, Bool.not_eq_true', ← Bool.not_eq_true, this]
  omega

theorem toNat_extended {t : Trial} (h : t.quotient.toNat < 2 ^ 127) :
    t.extended.toNat = 2 * t.quotient.toNat + t.fits.toNat := by
  have hdouble : (t.quotient.shiftLeft 1).toNat = 2 * t.quotient.toNat := by
    rw [Word128.toNat_shiftLeft]
    omega
  have hsplit := Word128.toNat_eq (t.quotient.shiftLeft 1)
  have hjoin := Word128.toNat_eq t.extended
  have hhi : t.extended.hi = (t.quotient.shiftLeft 1).hi := rfl
  have hlo : t.extended.lo.toNat =
      (Limb.jam (t.quotient.shiftLeft 1).lo t.fits).toNat := rfl
  rw [Limb.toNat_jam] at hlo
  rw [hhi] at hjoin
  cases hf : t.fits
  · have hbit : false.toNat = 0 := rfl
    rw [hf, if_neg Bool.false_ne_true] at hlo
    omega
  · have hbit : true.toNat = 1 := rfl
    rw [hf, if_pos rfl] at hlo
    omega

/-- The trial before the first bit. -/
def start (n d : Word128) : Trial :=
  ⟨.zero, ((Word192.ofLow n).subBorrow (.ofLow d)).1⟩

variable {n : Nat} {d : Word128}

theorem Invariant.next {k : Nat} {t : Trial} (h : t.Invariant n d.toNat k) (hk : k ≤ 127) :
    (t.next (.ofLow d)).Invariant n d.toNat (k + 1) := by
  obtain ⟨hlt, hdiff, hmin, hmax⟩ := h
  have hd : d.toNat < 2 ^ 128 := d.toNat_lt
  have hpow : 2 ^ k ≤ 2 ^ 127 := Nat.pow_le_pow_right (by decide) hk
  have hq : t.quotient.toNat < 2 ^ 127 := Nat.lt_of_lt_of_le hlt hpow
  have hdouble : (t.difference.shiftLeft 1).toInt = 2 * t.difference.toInt :=
    Word192.toInt_shiftLeft_one (by omega) (by omega)
  have hscale : (n : Int) * 2 ^ (k + 1) = 2 * (n * 2 ^ k) := by ring
  have hfits := t.fits_iff
  by_cases hf : t.fits = true
  · have hnonneg := hfits.1 hf
    have hnext : (t.next (.ofLow d)).difference.toInt = 2 * t.difference.toInt - d.toNat := by
      rw [Trial.next, if_pos hf, Word192.toInt_subBorrow] <;>
        rw [hdouble, Word192.toNat_ofLow] <;> omega
    have hext : (t.next (.ofLow d)).quotient.toNat = 2 * t.quotient.toNat + 1 := by
      rw [Trial.next, toNat_extended hq, hf, Bool.toNat_true]
    refine ⟨by rw [hext, Nat.pow_succ]; omega, ?_, by omega, by omega⟩
    rw [hnext, hext, hdiff, hscale]
    push_cast
    ring
  · have hneg : t.difference.toInt < 0 := by
      have : ¬ 0 ≤ t.difference.toInt := fun hle => hf (hfits.2 hle)
      omega
    have hnext : (t.next (.ofLow d)).difference.toInt = 2 * t.difference.toInt + d.toNat := by
      rw [Trial.next, if_neg hf, Word192.toInt_addCarry] <;>
        rw [hdouble, Word192.toNat_ofLow] <;> omega
    have hext : (t.next (.ofLow d)).quotient.toNat = 2 * t.quotient.toNat := by
      rw [Trial.next, toNat_extended hq, Bool.eq_false_iff.2 hf, Bool.toNat_false, Nat.add_zero]
    refine ⟨by rw [hext, Nat.pow_succ]; omega, ?_, by omega, by omega⟩
    rw [hnext, hext, hdiff, hscale]
    push_cast
    ring

theorem Invariant.advance {k : Nat} (count : Nat) {t : Trial} (h : t.Invariant n d.toNat k)
    (hk : k + count ≤ 128) : (t.advance (.ofLow d) count).Invariant n d.toNat (k + count) := by
  induction count generalizing k t with
  | zero => exact h
  | succ count ih =>
    rw [Trial.advance, ← Nat.add_assoc, Nat.add_right_comm]
    exact ih (h.next (by omega)) (by omega)

theorem start_invariant {n d : Word128} (hd : 2 ^ 127 ≤ d.toNat) :
    (start n d).Invariant n.toNat d.toNat 0 := by
  have hn : n.toNat < 2 ^ 128 := n.toNat_lt
  have hd' : d.toNat < 2 ^ 128 := d.toNat_lt
  have hdiff : (start n d).difference.toInt = n.toNat - d.toNat := by
    rw [start, Word192.toInt_subBorrow] <;> rw [Word192.toInt_ofLow, Word192.toNat_ofLow] <;>
      omega
  have hzero : (start n d).quotient.toNat = 0 := by
    rw [start, ← Word128.isZero_iff]
    rfl
  refine ⟨by rw [hzero]; exact Nat.one_pos, ?_, by omega, by omega⟩
  rw [hdiff, hzero]
  push_cast
  ring

/-- The remainder is what the quotient with its last bit leaves of `n`. -/
theorem Invariant.remainder {t : Trial} (h : t.Invariant n d.toNat 127) :
    n * 2 ^ 127 = t.extended.toNat * d.toNat + (t.remainder (.ofLow d)).toNat ∧
      (t.remainder (.ofLow d)).toNat < d.toNat := by
  obtain ⟨hlt, hdiff, hmin, hmax⟩ := h
  have hd : d.toNat < 2 ^ 128 := d.toNat_lt
  have hext := toNat_extended hlt
  have hfits := t.fits_iff
  have hrest : ((t.remainder (.ofLow d)).toNat : Int) =
      if t.fits then t.difference.toInt else t.difference.toInt + d.toNat := by
    by_cases hf : t.fits = true
    · have hnonneg := hfits.1 hf
      rw [Trial.remainder, if_pos hf, if_pos hf, Word192.toNat_eq_toInt_emod]
      omega
    · have hneg : t.difference.toInt < 0 := by
        have : ¬ 0 ≤ t.difference.toInt := fun hle => hf (hfits.2 hle)
        omega
      rw [Trial.remainder, if_neg hf, if_neg hf, Word192.toNat_eq_toInt_emod,
        Word192.toInt_addCarry] <;> rw [Word192.toNat_ofLow] <;> omega
  have hsum : (n : Int) * 2 ^ 127 =
      t.extended.toNat * d.toNat + (t.remainder (.ofLow d)).toNat := by
    rw [hrest, hext]
    cases hf : t.fits
    · rw [if_neg Bool.false_ne_true, Bool.toNat_false, hdiff]
      push_cast
      ring
    · rw [if_pos rfl, Bool.toNat_true, hdiff]
      push_cast
      ring
  refine ⟨by exact_mod_cast hsum, ?_⟩
  split at hrest
  · omega
  · next hf =>
    have : ¬ 0 ≤ t.difference.toInt := fun hle => hf (hfits.2 hle)
    omega

end Trial

namespace Word128

/-- The quotient bits are the floor of the quotient, and the rest is reported
exactly when the division leaves a remainder. -/
theorem divide_eq {n d : Word128} (hd : 2 ^ 127 ≤ d.toNat) :
    (n.divide d).1.toNat = n.toNat * 2 ^ 127 / d.toNat ∧
      ((n.divide d).2 = true ↔ n.toNat * 2 ^ 127 % d.toNat ≠ 0) := by
  let last := (Trial.start n d).advance (.ofLow d) 127
  have hlast : last.Invariant n.toNat d.toNat 127 :=
    (Trial.start_invariant hd).advance 127 (by decide)
  obtain ⟨hsum, hlt⟩ := hlast.remainder
  have hquot : n.divide d = (last.extended, !(last.remainder (.ofLow d)).isZero) := rfl
  have hzero := (last.remainder (.ofLow d)).isZero_iff
  rw [hquot, hsum, Nat.mul_add_mod_self_right, Nat.mod_eq_of_lt hlt, Nat.add_comm,
    Nat.add_mul_div_right _ _ (by omega), Nat.div_eq_of_lt hlt, Nat.zero_add]
  refine ⟨rfl, ?_⟩
  rw [Bool.not_eq_true', ← Bool.not_eq_true, hzero]

/-- Normalised numbers have a quotient between one half and two.  Its leading bit is the
topmost one if the divisor fits at once, and the one below that otherwise. -/
theorem log2_mul_div {n d : ℕ} (hn : 2 ^ 127 ≤ n) (hn' : n < 2 ^ 128) (hd : 2 ^ 127 ≤ d)
    (hd' : d < 2 ^ 128) : (n * 2 ^ 127 / d).log2 = if d ≤ n then 127 else 126 := by
  have hpos : 0 < d := by omega
  have hlow : 2 ^ 126 ≤ n * 2 ^ 127 / d := by
    rw [Nat.le_div_iff_mul_le hpos]
    omega
  rw [Nat.log2_eq_iff (by omega)]
  split
  · next hfits =>
    rw [Nat.le_div_iff_mul_le hpos, Nat.div_lt_iff_lt_mul hpos]
    omega
  · next hover =>
    refine ⟨hlow, ?_⟩
    rw [Nat.div_lt_iff_lt_mul hpos]
    omega

/-- The long division is exact.  Its quotient is the floor of the exact one and fits in
128 bits, with the leading bit in one of the two topmost places.  A rest is reported
exactly when that floor is not the exact quotient. -/
theorem divide_exact {n d : Word128} (hn : 2 ^ 127 ≤ n.toNat) (hd : 2 ^ 127 ≤ d.toNat) :
    (n.divide d).1.toNat = n.toNat * 2 ^ 127 / d.toNat ∧
      n.toNat * 2 ^ 127 / d.toNat < 2 ^ 128 ∧
      (n.divide d).1.toNat.log2 = (if d.toNat ≤ n.toNat then 127 else 126) ∧
      ((n.divide d).2 = true ↔ ¬ d.toNat ∣ n.toNat * 2 ^ 127) := by
  obtain ⟨hquot, hrest⟩ := divide_eq (n := n) hd
  have hlog := log2_mul_div hn n.toNat_lt hd d.toNat_lt
  refine ⟨hquot, ?_, ?_, ?_⟩
  · rw [← hquot]
    exact toNat_lt _
  · rw [hquot, hlog]
  · rw [hrest, Nat.dvd_iff_mod_eq_zero]

/-- The least dividend by the largest divisor, which is the smallest quotient and not an
exact one. -/
theorem divide_exact_least :
    let n : Word128 := ⟨0x8000000000000000, 0⟩
    let d : Word128 := ⟨0xffffffffffffffff, 0xffffffffffffffff⟩
    2 ^ 127 ≤ n.toNat ∧ 2 ^ 127 ≤ d.toNat ∧ (n.divide d).1.toNat = 2 ^ 126 ∧
      (n.divide d).2 = true := by
  intro n d
  have hn : 2 ^ 127 ≤ n.toNat := by decide
  have hd : 2 ^ 127 ≤ d.toNat := by decide
  obtain ⟨hquot, -, -, hrest⟩ := divide_exact hn hd
  exact ⟨hn, hd, hquot.trans (by decide), hrest.2 (by decide)⟩

end Word128
end CrossFloat
