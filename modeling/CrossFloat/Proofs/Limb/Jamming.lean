/-
Jamming moves round to odd, and two in a row are one.

A word moves right by whole limbs first and then by the places that are left, and by more
places than it has only its lost bits remain.  On numbers all of these are one function,
`jamShift`, for two limbs as for three.  So the laws of the moves are laws of `jamShift`, and
a word in the two lower ones of three limbs moves as it does alone.
-/
import CrossFloat.Proofs.Checked.Limb

namespace CrossFloat

/-! ## Numbers -/

theorem jamShift_eq_ite_dvd (n count : ℕ) :
    jamShift n count = if 2 ^ count ∣ n then n / 2 ^ count else n / 2 ^ count ||| 1 :=
  if_congr Nat.dvd_iff_mod_eq_zero.symm rfl rfl

/-- The bit that the smaller number gains is gained by the larger one too, unless that one
has a larger quotient. -/
theorem jamShift_mono {n m : ℕ} (h : n ≤ m) (count : ℕ) : jamShift n count ≤ jamShift m count := by
  have hquot : n / 2 ^ count ≤ m / 2 ^ count := Nat.div_le_div_right h
  rw [jamShift_eq, jamShift_eq]
  by_cases hn : n % 2 ^ count = 0
  · rw [if_pos hn]
    split <;> omega
  by_cases hm : m % 2 ^ count = 0
  · have hne : n / 2 ^ count ≠ m / 2 ^ count := by
      intro heq
      have hsplitN := Nat.div_add_mod n (2 ^ count)
      have hsplitM := Nat.div_add_mod m (2 ^ count)
      rw [heq] at hsplitN
      omega
    rw [if_neg hn, if_pos hm]
    omega
  · rw [if_neg hn, if_neg hm]
    omega

/-! ## Words -/

/-- The moves right of words that stand for numbers below `2 ^ width` round to odd.  The
checked move finds all of its shift counts in range. -/
structure RoundsToOdd {α : Type} (width : ℕ) (toNat : α → ℕ) (move : α → ℕ → α)
    (moveChecked : α → ℕ → Checked α) : Prop where
  /-- The floor of the quotient, with its lowest bit set unless the division is exact. -/
  quotient (x : α) (count : ℕ) : toNat (move x count) =
    if 2 ^ count ∣ toNat x then toNat x / 2 ^ count else toNat x / 2 ^ count ||| 1
  emptied (x : α) {count : ℕ} (h : width ≤ count) :
    toNat (move x count) = if toNat x = 0 then 0 else 1
  move_move (x : α) (a b : ℕ) : move (move x a) b = move x (a + b)
  mono {x y : α} (h : toNat x ≤ toNat y) (count : ℕ) : toNat (move x count) ≤ toNat (move y count)
  checked (x : α) (count : ℕ) : moveChecked x count = pure (move x count)

/-- Words that stand for one number each take the laws over from `jamShift`. -/
theorem RoundsToOdd.of_jamShift {α : Type} {width : ℕ} {toNat : α → ℕ} {move : α → ℕ → α}
    {moveChecked : α → ℕ → Checked α} (hinjective : Function.Injective toNat)
    (hlt : ∀ x, toNat x < 2 ^ width)
    (hmove : ∀ x count, toNat (move x count) = jamShift (toNat x) count)
    (hchecked : ∀ x count, moveChecked x count = pure (move x count)) :
    RoundsToOdd width toNat move moveChecked where
  quotient x count := by rw [hmove, jamShift_eq_ite_dvd]
  emptied x count h := by
    have hle : 2 ^ width ≤ 2 ^ count := Nat.pow_le_pow_right (by decide) h
    rw [hmove, jamShift_of_lt ((hlt x).trans_le hle)]
  move_move x a b := by
    apply hinjective
    rw [hmove, hmove, hmove, jamShift_jamShift]
  mono h count := by
    rw [hmove, hmove]
    exact jamShift_mono h count
  checked := hchecked

/-- A quantity keeps its place in the two lower limbs, however far it moves. -/
theorem Word192.shiftRightJam_ofLow (x : Word128) (count : ℕ) :
    (ofLow x).shiftRightJam count = ofLow (x.shiftRightJam count) := by
  rw [← toNat_inj, toNat_shiftRightJam, toNat_ofLow, toNat_ofLow, Word128.toNat_shiftRightJam]

/-- The words of two and of three limbs round to odd when they move right by any number of
places, and agree on what the smaller of them can hold. -/
theorem words_round_to_odd :
    RoundsToOdd 128 Word128.toNat Word128.shiftRightJam Word128.shiftRightJamChecked ∧
      RoundsToOdd 192 Word192.toNat Word192.shiftRightJam Word192.shiftRightJamChecked ∧
      ∀ (x : Word128) (count : ℕ),
        (Word192.ofLow x).shiftRightJam count = .ofLow (x.shiftRightJam count) :=
  ⟨.of_jamShift (fun _ _ => Word128.toNat_inj.1) Word128.toNat_lt Word128.toNat_shiftRightJam
      Word128.shiftRightJamChecked_eq,
    .of_jamShift (fun _ _ => Word192.toNat_inj.1) Word192.toNat_lt Word192.toNat_shiftRightJam
      Word192.shiftRightJamChecked_eq,
    Word192.shiftRightJam_ofLow⟩

/-- The lowest of all bits is lost, and remembered. -/
example : (Word192.mk 0b1000 0 1).shiftRightJam 130 = ⟨0, 0, 0b11⟩ := by decide

end CrossFloat
