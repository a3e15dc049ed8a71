/-
Sixty-four-bit limbs and what passes between neighbouring limbs.

Every quantity wider than 64 bits is a row of limbs.  A sum carries from one
limb into the next, a difference borrows, and a shift moves bits across the
boundary.  Each of these is named once here, so that the two-limb and the
three-limb arithmetic are written from the same pieces.

A shift of a limb takes its amount modulo 64.  The functions below are used
with amounts below 64, and a shift by zero places is a case of its own wherever
its complement, a shift by 64, would otherwise appear.
-/

namespace CrossFloat
namespace Limb

/-- The number of zero bits above the leading one, which is 64 for zero. -/
def leadingZeros (x : UInt64) : Nat :=
  if x = 0 then 64 else 63 - x.toNat.log2

/-- The sum of two limbs and an incoming carry, with the carry it sends on. -/
def addCarry (a b : UInt64) (carry : Bool) : UInt64 × Bool :=
  let limbs := a + b
  let sum := limbs + carry.toUInt64
  (sum, decide (limbs < a) || decide (sum < limbs))

/-- The difference of two limbs less an incoming borrow, with the borrow it
asks of the next limb. -/
def subBorrow (a b : UInt64) (borrow : Bool) : UInt64 × Bool :=
  let limbs := a - b
  (limbs - borrow.toUInt64, decide (a < b) || decide (limbs < borrow.toUInt64))

/-- The lower limb of the pair `hi`, `lo` after a move right by `count` places,
for a count below 64. -/
def shiftRightInto (hi lo : UInt64) (count : Nat) : UInt64 :=
  if count = 0 then lo
  else (lo >>> count.toUInt64) ||| (hi <<< (64 - count).toUInt64)

/-- The upper limb of the pair `hi`, `lo` after a move left by `count` places,
for a count below 64. -/
def shiftLeftInto (hi lo : UInt64) (count : Nat) : UInt64 :=
  if count = 0 then hi
  else (hi <<< count.toUInt64) ||| (lo >>> (64 - count).toUInt64)

/-- Whether any of the `count` lowest bits is set, for a count below 64.  These
are the bits that a move right by `count` places loses. -/
def hasLowBits (x : UInt64) (count : Nat) : Bool :=
  x &&& ((1 <<< count.toUInt64) - 1) != 0

/-- A limb with its lowest bit set when something nonzero was lost below it. -/
def jam (x : UInt64) (lost : Bool) : UInt64 :=
  x ||| lost.toUInt64

/-! ## Carries and borrows as numbers

A limb weighs 2^64 times the one below it, and so does the carry or the borrow
that passes between them. -/

theorem toNat_addCarry (a b : UInt64) (carry : Bool) :
    (addCarry a b carry).1.toNat + (addCarry a b carry).2.toNat * 0x10000000000000000 =
      a.toNat + b.toNat + carry.toNat := by
  have ha := a.toNat_lt
  have hb := b.toNat_lt
  have hcarry : carry.toUInt64.toNat = carry.toNat := by cases carry <;> rfl
  have hle : carry.toNat ≤ 1 := by cases carry <;> decide
  simp only [addCarry, UInt64.lt_iff_toNat_lt, UInt64.toNat_add, hcarry]
  by_cases h₁ : (a.toNat + b.toNat) % 2 ^ 64 < a.toNat <;>
  by_cases h₂ : ((a.toNat + b.toNat) % 2 ^ 64 + carry.toNat) % 2 ^ 64 <
      (a.toNat + b.toNat) % 2 ^ 64 <;>
    simp only [h₁, h₂, decide_true, decide_false, Bool.or_self, Bool.or_true, Bool.or_false,
      Bool.toNat_true, Bool.toNat_false] <;> omega

/-- The difference and what is subtracted together are the number subtracted
from, with its borrow. -/
theorem toNat_subBorrow (a b : UInt64) (borrow : Bool) :
    (subBorrow a b borrow).1.toNat + b.toNat + borrow.toNat =
      a.toNat + (subBorrow a b borrow).2.toNat * 0x10000000000000000 := by
  have ha := a.toNat_lt
  have hb := b.toNat_lt
  have hborrow : borrow.toUInt64.toNat = borrow.toNat := by cases borrow <;> rfl
  have hle : borrow.toNat ≤ 1 := by cases borrow <;> decide
  simp only [subBorrow, UInt64.lt_iff_toNat_lt, UInt64.toNat_sub, hborrow]
  by_cases h₁ : a.toNat < b.toNat <;>
  by_cases h₂ : (2 ^ 64 - b.toNat + a.toNat) % 2 ^ 64 < borrow.toNat <;>
    simp only [h₁, h₂, decide_true, decide_false, Bool.or_self, Bool.or_true, Bool.or_false,
      Bool.toNat_true, Bool.toNat_false] <;> omega

end Limb
end CrossFloat
