/-
Checked arithmetic.

Only the rows of an operation in which two numbers meet, or a payload is cut,
calculate anything.  The others are those of the library.  A product asserts that
it is at most one place short of its word, and a quotient that its operands are
normalised.
-/
import CrossFloat.Checked.Rounding
import CrossFloat.Complex

namespace CrossFloat

namespace Nonzero

def ofFiniteChecked (sign : Sign) (exponent : Int) (significand : UInt64) : Checked Nonzero := do
  let (aligned, exp) ← normalisedChecked exponent significand
  pure ⟨sign, ⟨aligned, 0⟩, exp⟩

def ofProductChecked (sign₁ : Sign) (exponent₁ : Int) (significand₁ : UInt64)
    (sign₂ : Sign) (exponent₂ : Int) (significand₂ : UInt64) : Checked Nonzero := do
  let (aligned₁, exp₁) ← normalisedChecked exponent₁ significand₁
  let (aligned₂, exp₂) ← normalisedChecked exponent₂ significand₂
  let product ← Word128.ofProductChecked aligned₁ aligned₂
  let places := product.leadingZeros
  Checked.assert (places ≤ 1)
  let mag ← product.shiftLeftChecked places
  let sum ← Checked.i64 (exp₁ + exp₂)
  let above ← Checked.i64 (sum + 1)
  let exp ← Checked.i64 (above - places)
  pure ⟨sign₁.times sign₂, mag, exp⟩

def addSmallerChecked (big small : Nonzero) : Checked (Option Nonzero) := do
  let gap ← Checked.i64 (big.exp - small.exp)
  let bigMag := Word192.ofHigh big.mag
  let smallMag ← (Word192.ofHigh small.mag).shiftRightJamChecked
    (if gap < 255 then gap else 255).toNat
  if big.sign = small.sign then
    let (sum, carry) := bigMag.addCarry smallMag
    if carry then do
      let halved ← sum.shiftRightJamChecked 1
      let restored : Word192 := { halved with hi := halved.hi ||| 0x8000000000000000 }
      let exp ← Checked.i64 (big.exp + 1)
      pure (some ⟨big.sign, restored.jamLow, exp⟩)
    else pure (some ⟨big.sign, sum.jamLow, big.exp⟩)
  else
    let difference := (bigMag.subBorrow smallMag).1
    if difference.isZero then pure none
    else do
      let places := difference.leadingZeros
      let mag ← difference.shiftLeftChecked places
      let exp ← Checked.i64 (big.exp - places)
      pure (some ⟨big.sign, mag.jamLow, exp⟩)

def addChecked (x y : Nonzero) : Checked (Option Nonzero) :=
  if x.dominates y then addSmallerChecked x y else addSmallerChecked y x

def quotientChecked (n d : Nonzero) (flags : Flags) : Checked Intermediate := do
  let (bits, rest) ← n.mag.divideChecked d.mag
  let exp ← Checked.i64 (n.exp - d.exp)
  pure ⟨n.sign.times d.sign, ⟨bits.hi, Limb.jam bits.lo rest⟩, exp, flags⟩

end Nonzero

/-! ## Values -/

namespace Value

def sumWithSignChecked (x y : Value) (signY : Sign) (c : Context) : Checked Pending :=
  let flags := x.flags ∪ y.flags
  match x.magnitude, y.magnitude with
  | .nan payload, _ => .settled <$> nanInChecked c.format x.sign flags payload
  | _, .nan payload => .settled <$> nanInChecked c.format y.sign flags payload
  | .finite _ exponentX significandX, .finite _ exponentY significandY => do
    let left ← Nonzero.ofFiniteChecked x.sign exponentX significandX
    let right ← Nonzero.ofFiniteChecked signY exponentY significandY
    match ← left.addChecked right with
    | some sum => pure (.number (sum.intermediate flags))
    | none => pure (.settled ((c.format.zero c.zeroSumSign).raise flags))
  | _, _ => pure (x.sumWithSign y signY c)

def productChecked (x y : Value) (c : Context) : Checked Pending :=
  let flags := x.flags ∪ y.flags
  match x.magnitude, y.magnitude with
  | .nan payload, _ => .settled <$> nanInChecked c.format x.sign flags payload
  | _, .nan payload => .settled <$> nanInChecked c.format y.sign flags payload
  | .finite _ exponentX significandX, .finite _ exponentY significandY => do
    let product ← Nonzero.ofProductChecked x.sign exponentX significandX
      y.sign exponentY significandY
    pure (.number (product.intermediate flags))
  | _, _ => pure (x.product y c)

def quotientChecked (x y : Value) (c : Context) : Checked Pending :=
  let flags := x.flags ∪ y.flags
  match x.magnitude, y.magnitude with
  | .nan payload, _ => .settled <$> nanInChecked c.format x.sign flags payload
  | _, .nan payload => .settled <$> nanInChecked c.format y.sign flags payload
  | .finite _ exponentX significandX, .finite _ exponentY significandY => do
    let left ← Nonzero.ofFiniteChecked x.sign exponentX significandX
    let right ← Nonzero.ofFiniteChecked y.sign exponentY significandY
    .number <$> left.quotientChecked right flags
  | _, _ => pure (x.quotient y c)

def addChecked (x y : Value) (c : Context) : Checked Value := do
  let sum ← x.sumWithSignChecked y y.sign c
  sum.roundChecked c

def subChecked (x y : Value) (c : Context) : Checked Value := do
  let difference ← x.sumWithSignChecked y y.sign.flip c
  difference.roundChecked c

def mulChecked (x y : Value) (c : Context) : Checked Value := do
  let product ← x.productChecked y c
  product.roundChecked c

def divChecked (x y : Value) (c : Context) : Checked Value := do
  let quotient ← x.quotientChecked y c
  quotient.roundChecked c

end Value

/-! ## Complex numbers -/

namespace Quantity

def ofProductChecked (x y : Value) : Checked Quantity :=
  match x.magnitude, y.magnitude with
  | .finite _ exponentX significandX, .finite _ exponentY significandY =>
    nonzero <$> Nonzero.ofProductChecked x.sign exponentX significandX
      y.sign exponentY significandY
  | _, _ => pure (zero (x.sign.times y.sign))

def addChecked (x y : Quantity) (c : Context) : Checked Quantity :=
  match x, y with
  | nonzero s, nonzero t => do
    match ← s.addChecked t with
    | some sum => pure (nonzero sum)
    | none => pure (zero c.zeroSumSign)
  | x, y => pure (x.add y c)

def quotientChecked (x : Quantity) (denominator : Nonzero) (flags : Flags) (c : Context) :
    Checked Pending :=
  match x with
  | zero sign => pure (.settled ((c.format.zero sign).raise flags))
  | nonzero number => .number <$> number.quotientChecked denominator flags

/-- The sum of the products of two pairs of values, the second product with its
sign changed on demand. -/
def ofProductsChecked (x y z w : Value) (negated : Bool) (c : Context) : Checked Quantity := do
  let left ← ofProductChecked x y
  let right ← ofProductChecked z w
  left.addChecked (if negated then right.neg else right) c

end Quantity

namespace Complex

def textbookProductChecked (x y : Complex) (c : Context) : Checked Complex := do
  let left ← x.re.mulChecked y.re c
  let right ← x.im.mulChecked y.im c
  let re ← left.subChecked right c
  let left ← x.re.mulChecked y.im c
  let right ← x.im.mulChecked y.re c
  let im ← left.addChecked right c
  pure ⟨re, im⟩

def textbookQuotientChecked (x y : Complex) (c : Context) : Checked Complex := do
  let left ← y.re.mulChecked y.re c
  let right ← y.im.mulChecked y.im c
  let denominator ← left.addChecked right c
  let left ← x.re.mulChecked y.re c
  let right ← x.im.mulChecked y.im c
  let reNumerator ← left.addChecked right c
  let left ← x.im.mulChecked y.re c
  let right ← x.re.mulChecked y.im c
  let imNumerator ← left.subChecked right c
  let re ← reNumerator.divChecked denominator c
  let im ← imNumerator.divChecked denominator c
  pure ⟨re, im⟩

def fusedProductChecked (x y : Complex) (c : Context) : Checked Complex := do
  let flags := x.flags ∪ y.flags
  let re ← Quantity.ofProductsChecked x.re y.re x.im y.im true c
  let im ← Quantity.ofProductsChecked x.re y.im x.im y.re false c
  let re ← (re.pending flags c).roundChecked c
  let im ← (im.pending flags c).roundChecked c
  pure ⟨re, im⟩

def fusedQuotientChecked (x y : Complex) (denominator : Nonzero) (c : Context) :
    Checked Complex := do
  let flags := x.flags ∪ y.flags
  let re ← Quantity.ofProductsChecked x.re y.re x.im y.im false c
  let im ← Quantity.ofProductsChecked x.im y.re x.re y.im true c
  let re ← re.quotientChecked denominator flags c
  let re ← re.roundChecked c
  let im ← im.quotientChecked denominator flags c
  let im ← im.roundChecked c
  pure ⟨re, im⟩

def mulChecked (x y : Complex) (c : Context) : Checked Complex :=
  if x.isFinite && y.isFinite then x.fusedProductChecked y c else x.textbookProductChecked y c

def divChecked (x y : Complex) (c : Context) : Checked Complex :=
  if x.isFinite && y.isFinite then do
    match ← Quantity.ofProductsChecked y.re y.re y.im y.im false c with
    | .nonzero denominator => x.fusedQuotientChecked y denominator c
    | .zero _ => x.textbookQuotientChecked y c
  else x.textbookQuotientChecked y c

end Complex
end CrossFloat
