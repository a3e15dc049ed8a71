/-
Quantities of 192 bits in three limbs.

Two computations need more room than 128 bits.  The sum of two aligned 128-bit
magnitudes keeps a third limb below them, so that an alignment by up to 64
places loses nothing and a cancellation can bring the low bits into view.  The
remainder of a long division is a signed quantity of 130 bits, for which the
limbs are read as two's complement.
-/
import CrossFloat.Limb.Word128

namespace CrossFloat

/-- A number below 2^192, as three limbs from the most significant down. -/
structure Word192 where
  hi : UInt64
  mid : UInt64
  lo : UInt64
  deriving DecidableEq, Inhabited

namespace Word192

/-- The number that the three limbs stand for, read as unsigned. -/
def toNat (x : Word192) : Nat :=
  (x.hi.toNat * 0x10000000000000000 + x.mid.toNat) * 0x10000000000000000 + x.lo.toNat

/-- A 128-bit quantity in the two upper limbs, which is the quantity times 2^64. -/
def ofHigh (x : Word128) : Word192 := ⟨x.hi, x.lo, 0⟩

/-- A 128-bit quantity in the two lower limbs, which is the quantity itself. -/
def ofLow (x : Word128) : Word192 := ⟨0, x.hi, x.lo⟩

def isZero (x : Word192) : Bool :=
  x.hi == 0 && x.mid == 0 && x.lo == 0

/-- Whether the topmost bit is set, which is the sign in two's complement. -/
def isNegative (x : Word192) : Bool :=
  x.hi >>> 63 != 0

/-- The number of zero bits above the leading one, which is 192 for zero. -/
def leadingZeros (x : Word192) : Nat :=
  if x.hi = 0 then 64 + (Word128.mk x.mid x.lo).leadingZeros else Limb.leadingZeros x.hi

/-- The two upper limbs, with the lowest one jammed into them. -/
def jamLow (x : Word192) : Word128 :=
  ⟨x.hi, Limb.jam x.mid (x.lo != 0)⟩

/-! ## The view as a number -/

theorem toNat_lt (x : Word192) :
    x.toNat < 0x1000000000000000000000000000000000000000000000000 := by
  have := x.hi.toNat_lt
  have := x.mid.toNat_lt
  have := x.lo.toNat_lt
  unfold toNat
  omega

@[simp] theorem toNat_ofHigh (x : Word128) :
    (ofHigh x).toNat = x.toNat * 0x10000000000000000 :=
  Nat.add_zero _

@[simp] theorem toNat_ofLow (x : Word128) : (ofLow x).toNat = x.toNat := by
  simp only [ofLow, toNat, Word128.toNat, UInt64.toNat_zero, Nat.zero_mul, Nat.zero_add]

theorem toNat_inj {x y : Word192} : x.toNat = y.toNat ↔ x = y := by
  constructor
  · intro h
    have hmidX := x.mid.toNat_lt
    have hmidY := y.mid.toNat_lt
    have hloX := x.lo.toNat_lt
    have hloY := y.lo.toNat_lt
    obtain ⟨xhi, xmid, xlo⟩ := x
    obtain ⟨yhi, ymid, ylo⟩ := y
    simp only [toNat] at h hmidX hmidY hloX hloY
    have hhi : xhi = yhi := UInt64.toNat_inj.1 (by omega)
    have hmid : xmid = ymid := UInt64.toNat_inj.1 (by omega)
    have hlo : xlo = ylo := UInt64.toNat_inj.1 (by omega)
    rw [hhi, hmid, hlo]
  · rintro rfl
    rfl

theorem isZero_iff {x : Word192} : x.isZero = true ↔ x.toNat = 0 := by
  simp only [isZero, Bool.and_eq_true, beq_iff_eq, ← UInt64.toNat_inj, UInt64.toNat_zero, toNat]
  omega

/-! ## Shifts -/

/-- Each limb moved down by one, with the lowest one jammed into its neighbour. -/
def dropLimb (x : Word192) : Word192 :=
  ⟨0, x.hi, Limb.jam x.mid (x.lo != 0)⟩

def shiftRightBits (x : Word192) (count : Nat) : Word192 :=
  ⟨x.hi >>> count.toUInt64, Limb.shiftRightInto x.hi x.mid count,
    Limb.jam (Limb.shiftRightInto x.mid x.lo count) (Limb.hasLowBits x.lo count)⟩

/-- A jamming move right by any number of places: whole limbs first, then the
places that are left. -/
def shiftRightJam (x : Word192) (count : Nat) : Word192 :=
  if count < 64 then x.shiftRightBits count
  else if count < 128 then x.dropLimb.shiftRightBits (count - 64)
  else if count < 192 then x.dropLimb.dropLimb.shiftRightBits (count - 128)
  else x.dropLimb.dropLimb.dropLimb

def shiftLeftBits (x : Word192) (count : Nat) : Word192 :=
  ⟨Limb.shiftLeftInto x.hi x.mid count, Limb.shiftLeftInto x.mid x.lo count,
    x.lo <<< count.toUInt64⟩

/-- A move left by any number of places.  Bits that leave the topmost limb are
discarded. -/
def shiftLeft (x : Word192) (count : Nat) : Word192 :=
  if count < 64 then x.shiftLeftBits count
  else if count < 128 then shiftLeftBits ⟨x.mid, x.lo, 0⟩ (count - 64)
  else if count < 192 then shiftLeftBits ⟨x.lo, 0, 0⟩ (count - 128)
  else ⟨0, 0, 0⟩

/-! ## Sums -/

/-- The sum modulo 2^192, and whether it carried out of the topmost limb. -/
def addCarry (x y : Word192) : Word192 × Bool :=
  let (lo, carry) := Limb.addCarry x.lo y.lo false
  let (mid, carry) := Limb.addCarry x.mid y.mid carry
  let (hi, out) := Limb.addCarry x.hi y.hi carry
  (⟨hi, mid, lo⟩, out)

/-- The difference modulo 2^192, and whether it borrowed from above the topmost
limb. -/
def subBorrow (x y : Word192) : Word192 × Bool :=
  let (lo, borrow) := Limb.subBorrow x.lo y.lo false
  let (mid, borrow) := Limb.subBorrow x.mid y.mid borrow
  let (hi, out) := Limb.subBorrow x.hi y.hi borrow
  (⟨hi, mid, lo⟩, out)

theorem toNat_addCarry (x y : Word192) :
    (x.addCarry y).1.toNat
        + (x.addCarry y).2.toNat * 0x1000000000000000000000000000000000000000000000000 =
      x.toNat + y.toNat := by
  have hlo := Limb.toNat_addCarry x.lo y.lo false
  have hmid := Limb.toNat_addCarry x.mid y.mid (Limb.addCarry x.lo y.lo false).2
  have hhi := Limb.toNat_addCarry x.hi y.hi
    (Limb.addCarry x.mid y.mid (Limb.addCarry x.lo y.lo false).2).2
  simp only [addCarry, toNat, Bool.toNat_false] at *
  omega

/-- The difference and the subtrahend together are the minuend with its
borrow. -/
theorem toNat_subBorrow (x y : Word192) :
    (x.subBorrow y).1.toNat + y.toNat =
      x.toNat
        + (x.subBorrow y).2.toNat * 0x1000000000000000000000000000000000000000000000000 := by
  have hlo := Limb.toNat_subBorrow x.lo y.lo false
  have hmid := Limb.toNat_subBorrow x.mid y.mid (Limb.subBorrow x.lo y.lo false).2
  have hhi := Limb.toNat_subBorrow x.hi y.hi
    (Limb.subBorrow x.mid y.mid (Limb.subBorrow x.lo y.lo false).2).2
  simp only [subBorrow, toNat, Bool.toNat_false] at *
  omega

end Word192
end CrossFloat
