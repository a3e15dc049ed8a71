/-
Checked observations of a value: its order among others, its whole part, its
text.

Each of them normalises the numbers that it looks at.  The text leaves out the
zeros at the end of the fraction by counting them beforehand.
-/
import CrossFloat.Checked.Rounding
import CrossFloat.Integer
import CrossFloat.Order
import CrossFloat.Text.Hexadecimal
import Mathlib.NumberTheory.Padics.PadicVal.Defs

namespace CrossFloat

/-- The number of zero bits below the lowest one that is set, which is 64 for
zero. -/
def Limb.trailingZeros (x : UInt64) : Nat :=
  if x = 0 then 64 else padicValNat 2 x.toNat

/-! ## Order -/

namespace Magnitude

def compareFiniteChecked (exponentX : Int) (significandX : UInt64)
    (exponentY : Int) (significandY : UInt64) : Checked Comparison := do
  let (alignedX, expX) ← normalisedChecked exponentX significandX
  let (alignedY, expY) ← normalisedChecked exponentY significandY
  pure (if expX < expY then .less
    else if expY < expX then .greater
    else if alignedX < alignedY then .less
    else if alignedY < alignedX then .greater
    else .equal)

def compareChecked : Magnitude → Magnitude → Checked Comparison
  | finite _ exponentX significandX, finite _ exponentY significandY =>
    compareFiniteChecked exponentX significandX exponentY significandY
  | x, y => pure (x.compare y)

end Magnitude

def Value.compareChecked (x y : Value) : Checked Comparison :=
  if x.isNan || y.isNan then pure .unordered
  else
    match x.isBelowZero, y.isBelowZero with
    | true, false => pure .less
    | false, true => pure .greater
    | false, false => x.magnitude.compareChecked y.magnitude
    | true, true => Comparison.swap <$> x.magnitude.compareChecked y.magnitude

/-! ## Integers -/

namespace Value

def wholePartChecked (exponent : Int) (significand : UInt64) : Checked Nat :=
  if exponent < 0 then pure 0
  else if exponent ≤ 63 then do
    let places ← Checked.i64 (63 - exponent)
    let whole ← Checked.shiftRight significand places
    pure whole.toNat
  else if exponent ≤ 127 then do
    let places ← Checked.i64 (exponent - 63)
    Checked.wideShiftLeft significand.toNat places
  else pure 0xffffffffffffffffffffffffffffffff

def truncateChecked (x : Value) : Checked (Except ConversionError Int) :=
  match x.magnitude with
  | .finite _ exponent significand => do
    let (aligned, exp) ← normalisedChecked exponent significand
    let whole ← wholePartChecked exp aligned
    pure (.ok (if x.sign.isNegative then -(whole : Int) else whole))
  | _ => pure x.truncate

def toIntegerReportingChecked (x : Value) (t : IntegerType) :
    Checked (Int × List ConversionError) := do
  match ← x.truncateChecked with
  | .error e => pure (0, [e])
  | .ok n => pure (if t.holds n then (n, []) else (0, [.outOfRange t]))

end Value

/-! ## Text -/

namespace Magnitude

def finiteTextChecked (exp : Int) (significand : UInt64) : Checked (List Char) := do
  let fraction ← Checked.shiftLeft significand 1
  if fraction = 0 then pure (['0', 'x', '1'] ++ 'p' :: Digits.signed exp)
  else
    let trailing := Limb.trailingZeros fraction / 4
    let kept ← Checked.shiftRight fraction (4 * trailing : Nat)
    pure (['0', 'x', '1'] ++ '.' :: Digits.fixed 16 (16 - trailing) kept.toNat ++
      'p' :: Digits.signed exp)

def textChecked : Magnitude → Checked (List Char)
  | finite _ exponent significand => do
    let (aligned, exp) ← normalisedChecked exponent significand
    finiteTextChecked exp aligned
  | x => pure x.text

end Magnitude

def Value.textChecked (x : Value) : Checked String := do
  let text ← x.magnitude.textChecked
  pure (.ofList ((if x.sign.isNegative then ['-'] else []) ++ text))

end CrossFloat
