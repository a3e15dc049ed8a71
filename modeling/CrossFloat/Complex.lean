/-
Multiplication and division of complex numbers.

With finite components the operations are fused.  The two products of a
component are exact, their sum is kept at working precision, and the component
is rounded once.  In a quotient the numerators and the denominator are kept at
working precision as well, so nothing overflows or underflows on the way.

With an infinite or NaN component, and in a division by zero, the textbook
formulas apply instead, with a rounding after every operation.
-/
import CrossFloat.Arithmetic

namespace CrossFloat

structure Complex where
  re : Value
  im : Value
  deriving DecidableEq

/-- A part of a fused operation: a zero, which has a sign, or a nonzero number at
working precision. -/
inductive Quantity where
  | zero (sign : Sign)
  | nonzero (number : Nonzero)

namespace Quantity

def ofProduct (x y : Value) : Quantity :=
  match x.magnitude, y.magnitude with
  | .finite _ exponentX significandX, .finite _ exponentY significandY =>
    nonzero (Nonzero.ofProduct x.sign exponentX significandX y.sign exponentY significandY)
  | _, _ => zero (x.sign.times y.sign)

def neg : Quantity → Quantity
  | zero sign => zero sign.flip
  | nonzero number => nonzero number.neg

/-- The sum of two quantities.  Its zeros are signed as in the addition of
values. -/
def add (x y : Quantity) (c : Context) : Quantity :=
  match x, y with
  | zero s, zero t => zero (if s = t then s else c.zeroSumSign)
  | zero _, y => y
  | x, zero _ => x
  | nonzero s, nonzero t =>
    match s.add t with
    | some sum => nonzero sum
    | none => zero c.zeroSumSign

def pending (x : Quantity) (flags : Flags) (c : Context) : Pending :=
  match x with
  | zero sign => .settled ((c.format.zero sign).raise flags)
  | nonzero number => .number (number.intermediate flags)

/-- The quotient of the quantity by a positive number, as a result to be
rounded. -/
def quotient (x : Quantity) (denominator : Nonzero) (flags : Flags) (c : Context) : Pending :=
  match x with
  | zero sign => .settled ((c.format.zero sign).raise flags)
  | nonzero number => .number (number.quotient denominator flags)

end Quantity

namespace Complex

def isFinite (z : Complex) : Bool :=
  z.re.isFinite && z.im.isFinite

def flags (z : Complex) : Flags :=
  z.re.flags ∪ z.im.flags

/-- The complex number of two results, the real part being rounded first. -/
def ofPending (re im : Pending) (c : Context) : Traced Complex := do
  let re ← re.trace c
  let im ← im.trace c
  pure ⟨re, im⟩

/-! ## Textbook formulas -/

/-- The product `(ac - bd) + i(ad + bc)`, rounded after every operation. -/
def textbookProduct (x y : Complex) (c : Context) : Traced Complex := do
  let left ← (x.re.product y.re c).trace c
  let right ← (x.im.product y.im c).trace c
  let re ← (left.difference right c).trace c
  let left ← (x.re.product y.im c).trace c
  let right ← (x.im.product y.re c).trace c
  let im ← (left.sum right c).trace c
  pure ⟨re, im⟩

/-- The quotient `((ac + bd) + i(bc - ad)) / (cc + dd)`, rounded after every
operation. -/
def textbookQuotient (x y : Complex) (c : Context) : Traced Complex := do
  let left ← (y.re.product y.re c).trace c
  let right ← (y.im.product y.im c).trace c
  let denominator ← (left.sum right c).trace c
  let left ← (x.re.product y.re c).trace c
  let right ← (x.im.product y.im c).trace c
  let re ← (left.sum right c).trace c
  let left ← (x.im.product y.re c).trace c
  let right ← (x.re.product y.im c).trace c
  let im ← (left.difference right c).trace c
  ofPending (re.quotient denominator c) (im.quotient denominator c) c

/-! ## Fused operations -/

/-- The product of two complex numbers with finite components, each component
rounded once. -/
def fusedProduct (x y : Complex) (c : Context) : Traced Complex :=
  let flags := x.flags ∪ y.flags
  let re := (Quantity.ofProduct x.re y.re).add (Quantity.ofProduct x.im y.im).neg c
  let im := (Quantity.ofProduct x.re y.im).add (Quantity.ofProduct x.im y.re) c
  ofPending (re.pending flags c) (im.pending flags c) c

def squaredMagnitude (z : Complex) (c : Context) : Quantity :=
  (Quantity.ofProduct z.re z.re).add (Quantity.ofProduct z.im z.im) c

/-- The quotient of complex numbers with finite components, where `denominator`
is the squared magnitude of the divisor. -/
def fusedQuotient (x y : Complex) (denominator : Nonzero) (c : Context) : Traced Complex :=
  let flags := x.flags ∪ y.flags
  let re := (Quantity.ofProduct x.re y.re).add (Quantity.ofProduct x.im y.im) c
  let im := (Quantity.ofProduct x.im y.re).add (Quantity.ofProduct x.re y.im).neg c
  ofPending (re.quotient denominator flags c) (im.quotient denominator flags c) c

/-! ## The operations -/

def product (x y : Complex) (c : Context) : Traced Complex :=
  if x.isFinite && y.isFinite then x.fusedProduct y c else x.textbookProduct y c

def quotient (x y : Complex) (c : Context) : Traced Complex :=
  if x.isFinite && y.isFinite then
    match y.squaredMagnitude c with
    | .nonzero denominator => x.fusedQuotient y denominator c
    | .zero _ => x.textbookQuotient y c
  else x.textbookQuotient y c

def mul (x y : Complex) (c : Context) : Complex := (x.product y c).value

def div (x y : Complex) (c : Context) : Complex := (x.quotient y c).value

/-! ## The textbook formulas in terms of the rounded operations -/

theorem value_textbookProduct (x y : Complex) (c : Context) :
    (x.textbookProduct y c).value =
      ⟨(x.re.mul y.re c).sub (x.im.mul y.im c) c,
        (x.re.mul y.im c).add (x.im.mul y.re c) c⟩ := rfl

theorem value_textbookQuotient (x y : Complex) (c : Context) :
    (x.textbookQuotient y c).value =
      let denominator := (y.re.mul y.re c).add (y.im.mul y.im c) c
      ⟨((x.re.mul y.re c).add (x.im.mul y.im c) c).div denominator c,
        ((x.im.mul y.re c).sub (x.re.mul y.im c) c).div denominator c⟩ := rfl

theorem value_ofPending (re im : Pending) (c : Context) :
    (ofPending re im c).value = ⟨re.round c, im.round c⟩ := rfl

end Complex
end CrossFloat
