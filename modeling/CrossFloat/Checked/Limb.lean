/-
Checked arithmetic of limbs and words.

Sums and differences of words wrap and report their carries, so nothing in them
can go out of range.  What is checked here are the counts of the shifts, the sums
and products of half limbs, and that a division is given normalised operands.
-/
import CrossFloat.Checked.Basic
import CrossFloat.Limb.LongDivision

namespace CrossFloat

namespace Limb

def shiftRightIntoChecked (hi lo : UInt64) (count : Nat) : Checked UInt64 :=
  if count = 0 then pure lo
  else do
    let lower ← Checked.shiftRight lo count
    let upper ← Checked.shiftLeft hi (64 - count)
    pure (lower ||| upper)

def shiftLeftIntoChecked (hi lo : UInt64) (count : Nat) : Checked UInt64 :=
  if count = 0 then pure hi
  else do
    let upper ← Checked.shiftLeft hi count
    let lower ← Checked.shiftRight lo (64 - count)
    pure (upper ||| lower)

/-- Whether any of the `count` lowest bits is set: these are the ones that stay
when the limb is moved left by the complement of the count. -/
def hasLowBitsChecked (x : UInt64) (count : Nat) : Checked Bool :=
  if count = 0 then pure false
  else do
    let lost ← Checked.shiftLeft x (64 - count)
    pure (lost != 0)

end Limb

namespace Word128

def shiftRightBitsChecked (x : Word128) (count : Nat) : Checked Word128 := do
  let hi ← Checked.shiftRight x.hi count
  let lo ← Limb.shiftRightIntoChecked x.hi x.lo count
  let lost ← Limb.hasLowBitsChecked x.lo count
  pure ⟨hi, Limb.jam lo lost⟩

def shiftRightJamChecked (x : Word128) (count : Nat) : Checked Word128 :=
  if count < 64 then x.shiftRightBitsChecked count
  else if count < 128 then x.dropLimb.shiftRightBitsChecked (count - 64)
  else pure x.dropLimb.dropLimb

def shiftLeftBitsChecked (x : Word128) (count : Nat) : Checked Word128 := do
  let hi ← Limb.shiftLeftIntoChecked x.hi x.lo count
  let lo ← Checked.shiftLeft x.lo count
  pure ⟨hi, lo⟩

def shiftLeftChecked (x : Word128) (count : Nat) : Checked Word128 := do
  Checked.assert (count < 128)
  if count < 64 then x.shiftLeftBitsChecked count
  else shiftLeftBitsChecked ⟨x.lo, 0⟩ (count - 64)

/-- The four products of half limbs, added up column by column. -/
def columnsChecked (low cross₁ cross₂ high : UInt64) : Checked Word128 := do
  let half : UInt64 := 0xffffffff
  let middle ← Checked.add (low >>> 32) (cross₁ &&& half)
  let middle ← Checked.add middle (cross₂ &&& half)
  let hi ← Checked.add high (cross₁ >>> 32)
  let hi ← Checked.add hi (cross₂ >>> 32)
  let hi ← Checked.add hi (middle >>> 32)
  pure ⟨hi, (low &&& half) ||| (middle <<< 32)⟩

def ofProductChecked (a b : UInt64) : Checked Word128 := do
  let half : UInt64 := 0xffffffff
  let low ← Checked.mul (a &&& half) (b &&& half)
  let cross₁ ← Checked.mul (a &&& half) (b >>> 32)
  let cross₂ ← Checked.mul (a >>> 32) (b &&& half)
  let high ← Checked.mul (a >>> 32) (b >>> 32)
  columnsChecked low cross₁ cross₂ high

end Word128

namespace Word192

def shiftRightBitsChecked (x : Word192) (count : Nat) : Checked Word192 := do
  let hi ← Checked.shiftRight x.hi count
  let mid ← Limb.shiftRightIntoChecked x.hi x.mid count
  let lo ← Limb.shiftRightIntoChecked x.mid x.lo count
  let lost ← Limb.hasLowBitsChecked x.lo count
  pure ⟨hi, mid, Limb.jam lo lost⟩

def shiftRightJamChecked (x : Word192) (count : Nat) : Checked Word192 :=
  if count < 64 then x.shiftRightBitsChecked count
  else if count < 128 then x.dropLimb.shiftRightBitsChecked (count - 64)
  else if count < 192 then x.dropLimb.dropLimb.shiftRightBitsChecked (count - 128)
  else pure x.dropLimb.dropLimb.dropLimb

def shiftLeftBitsChecked (x : Word192) (count : Nat) : Checked Word192 := do
  let hi ← Limb.shiftLeftIntoChecked x.hi x.mid count
  let mid ← Limb.shiftLeftIntoChecked x.mid x.lo count
  let lo ← Checked.shiftLeft x.lo count
  pure ⟨hi, mid, lo⟩

def shiftLeftChecked (x : Word192) (count : Nat) : Checked Word192 := do
  Checked.assert (count < 192)
  if count < 64 then x.shiftLeftBitsChecked count
  else if count < 128 then shiftLeftBitsChecked ⟨x.mid, x.lo, 0⟩ (count - 64)
  else shiftLeftBitsChecked ⟨x.lo, 0, 0⟩ (count - 128)

end Word192

namespace Trial

def extendedChecked (t : Trial) : Checked Word128 := do
  let doubled ← t.quotient.shiftLeftChecked 1
  pure ⟨doubled.hi, doubled.lo ||| t.fits.toUInt64⟩

def nextChecked (d : Word192) (t : Trial) : Checked Trial := do
  let quotient ← t.extendedChecked
  let doubled ← t.difference.shiftLeftChecked 1
  pure ⟨quotient, if t.fits then (doubled.subBorrow d).1 else (doubled.addCarry d).1⟩

def advanceChecked (d : Word192) : Nat → Trial → Checked Trial
  | 0, t => pure t
  | count + 1, t => do
    let t ← t.nextChecked d
    advanceChecked d count t

end Trial

/-- The division of words, which must have their topmost bits set. -/
def Word128.divideChecked (n d : Word128) : Checked (Word128 × Bool) := do
  Checked.assert (n.hi >>> 63 != 0 && d.hi >>> 63 != 0)
  let divisor := Word192.ofLow d
  let last ← Trial.advanceChecked divisor 127 ⟨.zero, ((Word192.ofLow n).subBorrow divisor).1⟩
  let quotient ← last.extendedChecked
  pure (quotient, !(last.remainder divisor).isZero)

end CrossFloat
