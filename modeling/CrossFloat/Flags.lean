/-
The exception conditions that a computation has met.

Flags accumulate: the result of an operation carries what the operation raised
together with the flags of its operands.  They are a set, with union as the one
way to combine them.
-/

namespace CrossFloat

structure Flags where
  /-- The result was rounded to something smaller in magnitude. -/
  inexactLow : Bool
  /-- The result was rounded to something larger in magnitude. -/
  inexactHigh : Bool
  /-- The exact result was below the normal range. -/
  underflow : Bool
  /-- The exact result was above the finite range. -/
  overflow : Bool
  /-- A finite nonzero number was divided by zero. -/
  divByZero : Bool
  /-- The operation has no meaningful result. -/
  invalid : Bool
  deriving DecidableEq, Inhabited

namespace Flags

def none : Flags := ⟨false, false, false, false, false, false⟩

instance : EmptyCollection Flags := ⟨none⟩

def union (f g : Flags) : Flags :=
  ⟨f.inexactLow || g.inexactLow, f.inexactHigh || g.inexactHigh,
    f.underflow || g.underflow, f.overflow || g.overflow,
    f.divByZero || g.divByZero, f.invalid || g.invalid⟩

instance : Union Flags := ⟨union⟩

/-! ## Single conditions -/

def onInexactLow : Flags := { none with inexactLow := true }
def onInexactHigh : Flags := { none with inexactHigh := true }
def onUnderflow : Flags := { none with underflow := true }
def onOverflow : Flags := { none with overflow := true }
def onDivByZero : Flags := { none with divByZero := true }
def onInvalid : Flags := { none with invalid := true }

/-! ## Numbering

The six conditions stand for the bits of a number below 64, in the order of the
fields. -/

def toNat (f : Flags) : Nat :=
  f.inexactLow.toNat + 2 * f.inexactHigh.toNat + 4 * f.underflow.toNat
    + 8 * f.overflow.toNat + 16 * f.divByZero.toNat + 32 * f.invalid.toNat

/-- The set that the six lowest bits of a number stand for. -/
def ofNat (n : Nat) : Flags :=
  ⟨n.testBit 0, n.testBit 1, n.testBit 2, n.testBit 3, n.testBit 4, n.testBit 5⟩

/-! ## Laws of the union -/

theorem union_eq (f g : Flags) : f ∪ g = union f g := rfl

theorem empty_eq : (∅ : Flags) = none := rfl

@[simp] theorem union_empty (f : Flags) : f ∪ ∅ = f := by
  simp [union_eq, empty_eq, union, none]

@[simp] theorem empty_union (f : Flags) : ∅ ∪ f = f := by
  simp [union_eq, empty_eq, union, none]

@[simp] theorem union_self (f : Flags) : f ∪ f = f := by
  simp [union_eq, union]

theorem union_comm (f g : Flags) : f ∪ g = g ∪ f := by
  simp [union_eq, union, Bool.or_comm]

theorem union_assoc (f g h : Flags) : f ∪ g ∪ h = f ∪ (g ∪ h) := by
  simp [union_eq, union, Bool.or_assoc]

instance : Std.Associative (α := Flags) (· ∪ ·) := ⟨union_assoc⟩

instance : Std.Commutative (α := Flags) (· ∪ ·) := ⟨union_comm⟩

instance : Std.IdempotentOp (α := Flags) (· ∪ ·) := ⟨union_self⟩

@[simp] theorem ofNat_toNat (f : Flags) : ofNat f.toNat = f := by
  obtain ⟨a, b, c, d, e, f⟩ := f
  cases a <;> cases b <;> cases c <;> cases d <;> cases e <;> cases f <;> rfl

end Flags
end CrossFloat
