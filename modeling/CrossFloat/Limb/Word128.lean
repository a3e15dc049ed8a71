/-
Unsigned 128-bit quantities in two limbs.

This is the working precision of the arithmetic.  A significand of up to 64 bits
stands in the upper limb, and the lower limb holds the bits of an unrounded
result below it: the low half of a product, the tail of a quotient, the bits
moved out when an addend is aligned.

A jamming move to the right remembers in the lowest bit of its result whether
anything fell off the end.  That one bit lets a rounding tell "exactly half" from
"a little more than half" afterwards.
-/
import CrossFloat.Limb.Basic

namespace CrossFloat

/-- A number below 2^128, as its upper and lower 64 bits. -/
structure Word128 where
  hi : UInt64
  lo : UInt64
  deriving DecidableEq, Inhabited

namespace Word128

/-- The number that the two limbs stand for. -/
def toNat (x : Word128) : Nat :=
  x.hi.toNat * 0x10000000000000000 + x.lo.toNat

/-- The number `n` modulo 2^128. -/
def ofNat (n : Nat) : Word128 :=
  ⟨UInt64.ofNat (n / 0x10000000000000000), UInt64.ofNat n⟩

def zero : Word128 := ⟨0, 0⟩

def isZero (x : Word128) : Bool :=
  x.hi == 0 && x.lo == 0

/-- The number of zero bits above the leading one, which is 128 for zero. -/
def leadingZeros (x : Word128) : Nat :=
  if x.hi = 0 then 64 + Limb.leadingZeros x.lo else Limb.leadingZeros x.hi

/-- The order of the numbers: the upper limb decides, and the lower limb breaks
a tie. -/
def compare (x y : Word128) : Ordering :=
  if x.hi < y.hi then .lt
  else if y.hi < x.hi then .gt
  else if x.lo < y.lo then .lt
  else if y.lo < x.lo then .gt
  else .eq

/-! ## The view as a number -/

theorem toNat_lt (x : Word128) : x.toNat < 0x100000000000000000000000000000000 := by
  have := x.hi.toNat_lt
  have := x.lo.toNat_lt
  unfold toNat
  omega

@[simp] theorem toNat_ofNat (n : Nat) :
    (ofNat n).toNat = n % 0x100000000000000000000000000000000 := by
  simp only [toNat, ofNat, UInt64.toNat_ofNat']
  omega

theorem toNat_inj {x y : Word128} : x.toNat = y.toNat ↔ x = y := by
  constructor
  · intro h
    have hx := x.lo.toNat_lt
    have hy := y.lo.toNat_lt
    obtain ⟨xhi, xlo⟩ := x
    obtain ⟨yhi, ylo⟩ := y
    simp only [toNat] at h hx hy
    have hhi : xhi = yhi := UInt64.toNat_inj.1 (by omega)
    have hlo : xlo = ylo := UInt64.toNat_inj.1 (by omega)
    rw [hhi, hlo]
  · rintro rfl
    rfl

theorem isZero_iff {x : Word128} : x.isZero = true ↔ x.toNat = 0 := by
  simp only [isZero, Bool.and_eq_true, beq_iff_eq, ← UInt64.toNat_inj, UInt64.toNat_zero, toNat]
  omega

theorem compare_eq (x y : Word128) :
    x.compare y =
      if x.toNat < y.toNat then .lt else if y.toNat < x.toNat then .gt else .eq := by
  have hx := x.lo.toNat_lt
  have hy := y.lo.toNat_lt
  have hX : x.toNat = x.hi.toNat * 0x10000000000000000 + x.lo.toNat := rfl
  have hY : y.toNat = y.hi.toNat * 0x10000000000000000 + y.lo.toNat := rfl
  simp only [compare, UInt64.lt_iff_toNat_lt]
  by_cases hi₁ : x.hi.toNat < y.hi.toNat
  · rw [if_pos hi₁, if_pos (by omega)]
  by_cases hi₂ : y.hi.toNat < x.hi.toNat
  · rw [if_neg hi₁, if_pos hi₂, if_neg (by omega), if_pos (by omega)]
  by_cases lo₁ : x.lo.toNat < y.lo.toNat
  · rw [if_neg hi₁, if_neg hi₂, if_pos lo₁, if_pos (by omega)]
  by_cases lo₂ : y.lo.toNat < x.lo.toNat
  · rw [if_neg hi₁, if_neg hi₂, if_neg lo₁, if_pos lo₂, if_neg (by omega),
      if_pos (by omega)]
  · rw [if_neg hi₁, if_neg hi₂, if_neg lo₁, if_neg lo₂, if_neg (by omega),
      if_neg (by omega)]

/-! ## Shifts -/

/-- The upper limb moved into the place of the lower one, which is jammed into
it. -/
def dropLimb (x : Word128) : Word128 :=
  ⟨0, Limb.jam x.hi (x.lo != 0)⟩

def shiftRightBits (x : Word128) (count : Nat) : Word128 :=
  ⟨x.hi >>> count.toUInt64,
    Limb.jam (Limb.shiftRightInto x.hi x.lo count) (Limb.hasLowBits x.lo count)⟩

/-- A jamming move right by any number of places: whole limbs first, then the
places that are left. -/
def shiftRightJam (x : Word128) (count : Nat) : Word128 :=
  if count < 64 then x.shiftRightBits count
  else if count < 128 then x.dropLimb.shiftRightBits (count - 64)
  else x.dropLimb.dropLimb

def shiftLeftBits (x : Word128) (count : Nat) : Word128 :=
  ⟨Limb.shiftLeftInto x.hi x.lo count, x.lo <<< count.toUInt64⟩

/-- A move left by any number of places.  Bits that leave the upper limb are
discarded. -/
def shiftLeft (x : Word128) (count : Nat) : Word128 :=
  if count < 64 then x.shiftLeftBits count
  else if count < 128 then shiftLeftBits ⟨x.lo, 0⟩ (count - 64)
  else zero

/-! ## Sums and products -/

/-- The sum modulo 2^128, and whether it carried out of the upper limb. -/
def addCarry (x y : Word128) : Word128 × Bool :=
  let (lo, carry) := Limb.addCarry x.lo y.lo false
  let (hi, out) := Limb.addCarry x.hi y.hi carry
  (⟨hi, lo⟩, out)

/-- The difference modulo 2^128, and whether it borrowed from above the upper
limb. -/
def subBorrow (x y : Word128) : Word128 × Bool :=
  let (lo, borrow) := Limb.subBorrow x.lo y.lo false
  let (hi, out) := Limb.subBorrow x.hi y.hi borrow
  (⟨hi, lo⟩, out)

theorem toNat_addCarry (x y : Word128) :
    (x.addCarry y).1.toNat + (x.addCarry y).2.toNat * 0x100000000000000000000000000000000 =
      x.toNat + y.toNat := by
  have hlo := Limb.toNat_addCarry x.lo y.lo false
  have hhi := Limb.toNat_addCarry x.hi y.hi (Limb.addCarry x.lo y.lo false).2
  simp only [addCarry, toNat, Bool.toNat_false] at *
  omega

/-- The difference and the subtrahend together are the minuend with its
borrow. -/
theorem toNat_subBorrow (x y : Word128) :
    (x.subBorrow y).1.toNat + y.toNat =
      x.toNat + (x.subBorrow y).2.toNat * 0x100000000000000000000000000000000 := by
  have hlo := Limb.toNat_subBorrow x.lo y.lo false
  have hhi := Limb.toNat_subBorrow x.hi y.hi (Limb.subBorrow x.lo y.lo false).2
  simp only [subBorrow, toNat, Bool.toNat_false] at *
  omega

/-- The exact product of two limbs.

Each factor is split into 32-bit halves, so that the four partial products fit
in a limb each.  The middle column adds up three quantities below 2^32 and
cannot overflow either. -/
def ofProduct (a b : UInt64) : Word128 :=
  let half : UInt64 := 0xffffffff
  let low := (a &&& half) * (b &&& half)
  let cross₁ := (a &&& half) * (b >>> 32)
  let cross₂ := (a >>> 32) * (b &&& half)
  let high := (a >>> 32) * (b >>> 32)
  let middle := (low >>> 32) + (cross₁ &&& half) + (cross₂ &&& half)
  ⟨high + (cross₁ >>> 32) + (cross₂ >>> 32) + (middle >>> 32),
    (low &&& half) ||| (middle <<< 32)⟩

end Word128
end CrossFloat
