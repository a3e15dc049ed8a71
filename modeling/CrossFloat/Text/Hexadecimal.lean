/-
Values as hexadecimal floating constants.

A finite nonzero value is written as `0x1.hhhp+d`: a leading one, the digits of
the fraction without trailing zeros, and the exponent of the leading one in
decimal.  The point is left out where the fraction is zero.  The text is exact,
and it depends on the sign and the number alone, not on how it is stored.
-/
import CrossFloat.Text.Digits
import CrossFloat.Value

namespace CrossFloat
namespace Magnitude

/-- A finite magnitude with its leading one at `exp`.  The bits of `significand`
below bit 63 are the fraction. -/
def finiteText (exp : Int) (significand : UInt64) : List Char :=
  let digits := Digits.dropTrailingZeros (Digits.fixed 16 16 (significand <<< 1).toNat)
  let fraction := if digits.isEmpty then [] else '.' :: digits
  ['0', 'x', '1'] ++ fraction ++ 'p' :: Digits.signed exp

def text : Magnitude → List Char
  | zero => "0x0p+0".toList
  | finite _ exponent significand =>
    finiteText (leadingExp exponent significand) (alignLeft significand)
  | infinite => "inf".toList
  | nan payload =>
    if payload = 0 then "nan".toList
    else "nan(0x".toList ++ Digits.free 16 payload.toNat ++ [')']

end Magnitude

/-- A value as a hexadecimal constant, behind a minus sign if it is negative. -/
def Value.text (x : Value) : String :=
  String.ofList ((if x.sign.isNegative then ['-'] else []) ++ x.magnitude.text)

end CrossFloat
