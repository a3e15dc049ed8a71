/-
Results that await their rounding, and the conversion between formats.

The outcome of an operation is either settled without rounding (a zero, an
infinity, a NaN) or a number with more digits than any format keeps.  Either way
it is rounded at most once, at the end.
-/
import CrossFloat.Rounding.Intermediate

namespace CrossFloat

/-- The result of an operation before its rounding. -/
inductive Pending where
  | settled (value : Value)
  | number (intermediate : Intermediate)

namespace Pending

def round (p : Pending) (c : Context) : Value :=
  match p with
  | settled value => value
  | number intermediate => intermediate.round c

def event? (p : Pending) (c : Context) : Option Event :=
  match p with
  | settled _ => none
  | number intermediate => intermediate.event? c

@[simp] theorem round_settled (x : Value) (c : Context) : (settled x).round c = x := rfl

@[simp] theorem round_number (u : Intermediate) (c : Context) :
    (number u).round c = u.round c := rfl

def trace (p : Pending) (c : Context) : Traced Value :=
  ⟨p.round c, (p.event? c).toList⟩

end Pending

namespace Value

/-- A NaN with its payload cut to the width of a format. -/
def nanIn (F : Format) (sign : Sign) (flags : Flags) (payload : UInt64) : Value :=
  ⟨sign, flags, .nan (F.trimPayload payload)⟩

/-- A value on its way into another format.  Numbers are rounded, payloads are
cut, and infinities carry over, whether or not the format has them. -/
def conversion (x : Value) (c : Context) : Pending :=
  match x.magnitude with
  | .zero => .settled ((c.format.zero x.sign).raise x.flags)
  | .finite _ exponent significand => .number ⟨x.sign, ⟨significand, 0⟩, exponent, x.flags⟩
  | .infinite => .settled x
  | .nan payload => .settled (nanIn c.format x.sign x.flags payload)

def convert (x : Value) (c : Context) : Value :=
  (x.conversion c).round c

/-- A literal on its way into a format.  Its significand need not have its leading bit
set, and an infinity overflows where the format has none. -/
def literal (sign : Sign) (magnitude : Magnitude) (flags : Flags) (c : Context) : Pending :=
  match magnitude with
  | .zero => .settled ((c.format.zero sign).raise flags)
  | .finite _ exponent significand => .number ⟨sign, ⟨significand, 0⟩, exponent, flags⟩
  | .infinite =>
    if c.format.hasSpecials then .settled ((infinity sign).raise flags)
    else .settled ((c.format.maxFinite sign).raise (flags ∪ .onOverflow ∪ .onInexactLow))
  | .nan payload => .settled (nanIn c.format sign flags payload)

/-- The value of a literal, given by its kind, exponent and significand. -/
def ofLiteral (kind : Kind) (sign : Sign) (exponent : Int) (significand : UInt64) (flags : Flags)
    (c : Context) : Value :=
  (literal sign (.ofParts kind exponent significand) flags c).round c

end Value
end CrossFloat
