/-
The numerical comparison of values.

Zeros are equal whatever their signs, a NaN is unordered with everything, and
flags play no part.  Finite numbers are compared by the exponent of the leading
bit and then by the significand aligned to it, so that a denormal number equals
the same number stored with another exponent.
-/
import CrossFloat.Value

namespace CrossFloat

inductive Comparison where
  | less
  | equal
  | greater
  /-- One of the two values is a NaN. -/
  | unordered
  deriving DecidableEq, Inhabited

inductive OrderRelation where
  | eq
  | ne
  | lt
  | le
  | gt
  | ge
  deriving DecidableEq, Inhabited

namespace Comparison

/-- The outcome for the operands in the other order. -/
def swap : Comparison → Comparison
  | less => greater
  | greater => less
  | other => other

end Comparison

/-- Whether two values that compare like this stand in the relation.  Unordered
values stand in the relation `ne` and in no other. -/
def OrderRelation.admits (r : OrderRelation) (outcome : Comparison) : Bool :=
  match r with
  | .eq => outcome == .equal
  | .ne => outcome != .equal
  | .lt => outcome == .less
  | .le => outcome == .less || outcome == .equal
  | .gt => outcome == .greater
  | .ge => outcome == .greater || outcome == .equal

namespace Magnitude

def compareFinite (exponentX : Int) (significandX : UInt64)
    (exponentY : Int) (significandY : UInt64) : Comparison :=
  let expX := leadingExp exponentX significandX
  let expY := leadingExp exponentY significandY
  if expX < expY then .less
  else if expY < expX then .greater
  else if alignLeft significandX < alignLeft significandY then .less
  else if alignLeft significandY < alignLeft significandX then .greater
  else .equal

def compare : Magnitude → Magnitude → Comparison
  | nan _, _ | _, nan _ => .unordered
  | zero, zero | infinite, infinite => .equal
  | zero, _ | _, infinite => .less
  | _, zero | infinite, _ => .greater
  | finite _ exponentX significandX, finite _ exponentY significandY =>
    compareFinite exponentX significandX exponentY significandY

end Magnitude

namespace Value

/-- Whether the value is less than zero, for one that is not a NaN. -/
def isBelowZero (x : Value) : Bool :=
  x.sign.isNegative && !x.isZero

def compare (x y : Value) : Comparison :=
  if x.isNan || y.isNan then .unordered
  else
    match x.isBelowZero, y.isBelowZero with
    | true, false => .less
    | false, true => .greater
    | false, false => x.magnitude.compare y.magnitude
    | true, true => (x.magnitude.compare y.magnitude).swap

def related (r : OrderRelation) (x y : Value) : Bool :=
  r.admits (x.compare y)

/-- Whether one of the two values is a NaN. -/
def isUnordered (x y : Value) : Bool :=
  x.compare y == .unordered

end Value
end CrossFloat
