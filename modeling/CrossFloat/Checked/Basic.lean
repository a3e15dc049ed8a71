/-
Arithmetic that notices when it goes out of range.

The definitions of the library calculate with unbounded exponents, and with
shifts that take their count modulo the width.  On a machine the exponents are
64-bit integers, a sum outside of the range of its type is an error, and so is
a shift by the width or more.

A checked computation ends with a fault in these cases, and with another one
where a callee is given what it asserts not to be given.  The modules beside this
one hold the checked form of each function of the library that adds, multiplies
or shifts.
-/
import CrossFloat.Limb.Basic

namespace CrossFloat

/-- What goes wrong in a computation. -/
inductive Fault where
  /-- A sum, a difference or a product is not in the range of its type. -/
  | overflow
  /-- A shift count is negative, or not below the width of what is shifted. -/
  | shift
  /-- An argument is not what the callee asserts it to be. -/
  | assertion
  deriving DecidableEq

/-- A computation that may end with a fault. -/
abbrev Checked (α : Type) := Except Fault α

namespace Checked

def assert (condition : Bool) : Checked Unit :=
  if condition then pure () else throw .assertion

/-- The exact result `n` of an operation on 32-bit signed integers. -/
def i32 (n : Int) : Checked Int :=
  if -0x80000000 ≤ n ∧ n < 0x80000000 then pure n else throw .overflow

/-- The exact result `n` of an operation on 64-bit signed integers. -/
def i64 (n : Int) : Checked Int :=
  if -0x8000000000000000 ≤ n ∧ n < 0x8000000000000000 then pure n else throw .overflow

/-- The exact result `n` of an operation on 64-bit unsigned integers. -/
def u64 (n : Int) : Checked UInt64 :=
  if 0 ≤ n ∧ n < 0x10000000000000000 then pure (.ofNat n.toNat) else throw .overflow

def add (x y : UInt64) : Checked UInt64 := u64 (x.toNat + y.toNat)

def mul (x y : UInt64) : Checked UInt64 := u64 (x.toNat * y.toNat)

def shiftLeft (x : UInt64) (count : Int) : Checked UInt64 :=
  if 0 ≤ count ∧ count < 64 then pure (x <<< count.toNat.toUInt64) else throw .shift

def shiftRight (x : UInt64) (count : Int) : Checked UInt64 :=
  if 0 ≤ count ∧ count < 64 then pure (x >>> count.toNat.toUInt64) else throw .shift

/-- A move left of an unsigned integer of 128 bits. -/
def wideShiftLeft (n : Nat) (count : Int) : Checked Nat :=
  if 0 ≤ count ∧ count < 128 then
    pure ((n <<< count.toNat) % 0x100000000000000000000000000000000)
  else throw .shift

/-- A move right of an unsigned integer of 128 bits. -/
def wideShiftRight (n : Nat) (count : Int) : Checked Nat :=
  if 0 ≤ count ∧ count < 128 then pure (n >>> count.toNat) else throw .shift

/-- The `width` lowest of 128 bits. -/
def mask (width : Nat) : Checked Nat :=
  if width = 0 then pure 0
  else wideShiftRight 0xffffffffffffffffffffffffffffffff (128 - width)

end Checked
end CrossFloat
