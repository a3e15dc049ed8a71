/-
Addition, subtraction, multiplication and division.

Each operation is a table over the magnitudes of its operands.  A NaN operand
comes first: the result is that NaN, the left one if both are, cut to the width
of the format.  Infinities and zeros follow the rules for the limits they stand
for, and what has no limit is an invalid operation.  Two nonzero numbers are
combined exactly and rounded once.

The flags of both operands are part of every result.
-/
import CrossFloat.Rounding.Pending
import CrossFloat.Nonzero

namespace CrossFloat
namespace Value

/-- The result of an operation without a meaningful one. -/
def invalidResult (flags : Flags) : Value :=
  ⟨.positive, flags ∪ .onInvalid, .nan 0⟩

/-- The sum of `x` and `y`, where `y` is taken to have the sign `signY` unless it
is a NaN. -/
def sumWithSign (x y : Value) (signY : Sign) (c : Context) : Pending :=
  let flags := x.flags ∪ y.flags
  match x.magnitude, y.magnitude with
  | .nan payload, _ => .settled (nanIn c.format x.sign flags payload)
  | _, .nan payload => .settled (nanIn c.format y.sign flags payload)
  | .infinite, .infinite =>
    if x.sign = signY then .settled ⟨x.sign, flags, .infinite⟩
    else .settled (invalidResult flags)
  | .infinite, _ => .settled ⟨x.sign, flags, .infinite⟩
  | _, .infinite => .settled ⟨signY, flags, .infinite⟩
  | .zero, .zero =>
    let sign := if x.sign = signY then signY else c.zeroSumSign
    .settled ((c.format.zero sign).raise flags)
  | .zero, .finite _ exponent significand =>
    .number ⟨signY, ⟨significand, 0⟩, exponent, flags⟩
  | .finite _ exponent significand, .zero =>
    .number ⟨x.sign, ⟨significand, 0⟩, exponent, flags⟩
  | .finite _ exponentX significandX, .finite _ exponentY significandY =>
    match (Nonzero.ofFinite x.sign exponentX significandX).add
        (Nonzero.ofFinite signY exponentY significandY) with
    | some sum => .number (sum.intermediate flags)
    | none => .settled ((c.format.zero c.zeroSumSign).raise flags)

def sum (x y : Value) (c : Context) : Pending :=
  x.sumWithSign y y.sign c

def difference (x y : Value) (c : Context) : Pending :=
  x.sumWithSign y y.sign.flip c

def product (x y : Value) (c : Context) : Pending :=
  let flags := x.flags ∪ y.flags
  let sign := x.sign.times y.sign
  match x.magnitude, y.magnitude with
  | .nan payload, _ => .settled (nanIn c.format x.sign flags payload)
  | _, .nan payload => .settled (nanIn c.format y.sign flags payload)
  | .zero, .infinite | .infinite, .zero => .settled (invalidResult flags)
  | .infinite, _ | _, .infinite => .settled ⟨sign, flags, .infinite⟩
  | .zero, _ | _, .zero => .settled ((c.format.zero sign).raise flags)
  | .finite _ exponentX significandX, .finite _ exponentY significandY =>
    .number ((Nonzero.ofProduct x.sign exponentX significandX
      y.sign exponentY significandY).intermediate flags)

def quotient (x y : Value) (c : Context) : Pending :=
  let flags := x.flags ∪ y.flags
  let sign := x.sign.times y.sign
  match x.magnitude, y.magnitude with
  | .nan payload, _ => .settled (nanIn c.format x.sign flags payload)
  | _, .nan payload => .settled (nanIn c.format y.sign flags payload)
  | .zero, .zero | .infinite, .infinite => .settled (invalidResult flags)
  | .infinite, _ => .settled ⟨sign, flags, .infinite⟩
  | _, .infinite => .settled ((c.format.zero sign).raise flags)
  | .finite .., .zero => .settled ⟨sign, flags ∪ .onDivByZero, .infinite⟩
  | .zero, .finite .. => .settled ((c.format.zero sign).raise flags)
  | .finite _ exponentX significandX, .finite _ exponentY significandY =>
    .number ((Nonzero.ofFinite x.sign exponentX significandX).quotient
      (Nonzero.ofFinite y.sign exponentY significandY) flags)

/-! ## Rounded results -/

def add (x y : Value) (c : Context) : Value := (x.sum y c).round c

def sub (x y : Value) (c : Context) : Value := (x.difference y c).round c

def mul (x y : Value) (c : Context) : Value := (x.product y c).round c

def div (x y : Value) (c : Context) : Value := (x.quotient y c).round c

end Value
end CrossFloat
