/-
Nonzero numbers at working precision, and their exact arithmetic.

Such a number has a sign, a normalised 128-bit magnitude and an exponent, and
stands for `mag / 2^127 * 2^exp`.  An operand has its significand in the upper
limb and zeros below.  The product of two operands fills both limbs and is
exact.  A sum or a quotient may have more bits than that.  What lies below the
last bit is then jammed into it.

Sums and quotients are shared between real arithmetic, which combines operands,
and complex arithmetic, which combines products.
-/
import CrossFloat.Rounding.Intermediate
import CrossFloat.Limb.LongDivision

namespace CrossFloat

/-- A nonzero number with bit 127 of its magnitude set. -/
structure Nonzero where
  sign : Sign
  mag : Word128
  exp : Int
  deriving DecidableEq

namespace Nonzero

/-- The operand `significand / 2^63 * 2^exponent`, for a nonzero significand. -/
def ofFinite (sign : Sign) (exponent : Int) (significand : UInt64) : Nonzero :=
  ⟨sign, ⟨alignLeft significand, 0⟩, leadingExp exponent significand⟩

/-- The exact product of two operands, given by their signs, exponents and
nonzero significands.

Two normalised significands have a product of 127 or 128 bits, so at most one
place is missing.  The exponents count from bit 63 of each factor and from bit
127 of the product, which accounts for the one added to their sum. -/
def ofProduct (sign₁ : Sign) (exponent₁ : Int) (significand₁ : UInt64)
    (sign₂ : Sign) (exponent₂ : Int) (significand₂ : UInt64) : Nonzero :=
  let product := Word128.ofProduct (alignLeft significand₁) (alignLeft significand₂)
  let places := product.leadingZeros
  ⟨sign₁.times sign₂, product.shiftLeft places,
    leadingExp exponent₁ significand₁ + leadingExp exponent₂ significand₂ + 1 - places⟩

def ofValue? (x : Value) : Option Nonzero :=
  match x.magnitude with
  | .finite _ exponent significand => some (ofFinite x.sign exponent significand)
  | _ => none

def neg (t : Nonzero) : Nonzero :=
  { t with sign := t.sign.flip }

def intermediate (t : Nonzero) (flags : Flags) : Intermediate :=
  ⟨t.sign, t.mag, t.exp, flags⟩

/-! ## Sums -/

/-- Whether the magnitude of `x` is at least that of `y`. -/
def dominates (x y : Nonzero) : Bool :=
  y.exp < x.exp || (x.exp == y.exp && (x.mag.compare y.mag).isGE)

/-- The sum of two numbers of which the first has the larger magnitude.

The smaller one is moved right by the difference of the exponents, with 64 bits
of room below both, and the magnitudes are added or subtracted.  Up to 64 places
nothing is lost.  Beyond that a difference keeps all but one of the leading
places of the larger number, so the jammed bit stays below whatever a rounding
looks at. -/
def addSmaller (big small : Nonzero) : Option Nonzero :=
  let gap := (big.exp - small.exp).toNat
  let bigMag := Word192.ofHigh big.mag
  let smallMag := (Word192.ofHigh small.mag).shiftRightJam (if gap < 255 then gap else 255)
  if big.sign = small.sign then
    let (sum, carry) := bigMag.addCarry smallMag
    if carry then
      let halved := sum.shiftRightJam 1
      let restored : Word192 := { halved with hi := halved.hi ||| 0x8000000000000000 }
      some ⟨big.sign, restored.jamLow, big.exp + 1⟩
    else some ⟨big.sign, sum.jamLow, big.exp⟩
  else
    let difference := (bigMag.subBorrow smallMag).1
    if difference.isZero then none
    else
      let places := difference.leadingZeros
      some ⟨big.sign, (difference.shiftLeft places).jamLow, big.exp - places⟩

/-- The sum of two numbers, or `none` when it is exactly zero.  What lies below
its 128 bits is jammed into them. -/
def add (x y : Nonzero) : Option Nonzero :=
  if x.dominates y then addSmaller x y else addSmaller y x

/-! ## Quotients -/

/-- The quotient of two numbers with the flags of the operands.  What lies below
its 128 bits is jammed into them. -/
def quotient (n d : Nonzero) (flags : Flags) : Intermediate :=
  let (bits, rest) := n.mag.divide d.mag
  ⟨n.sign.times d.sign, ⟨bits.hi, Limb.jam bits.lo rest⟩, n.exp - d.exp, flags⟩

end Nonzero
end CrossFloat
