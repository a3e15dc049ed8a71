/-
Checked encoding and decoding.

Words and fractions have 128 bits, and biased exponents 64.  The biased exponent
of a normal number in a binary layout is the one sum of 32-bit integers in the
library.
-/
import CrossFloat.Checked.Rounding
import CrossFloat.Encoding

namespace CrossFloat

namespace Fields

def toWordChecked (f : Fields) (F : Format) : Checked Nat := do
  let sign ← Checked.wideShiftLeft f.sign.isNegative.toNat (F.storageWidth - 1 : Nat)
  let biased ← Checked.wideShiftLeft f.biased F.fractionWidth
  pure (sign ||| biased ||| f.fraction)

def ofWordChecked (word : Nat) (F : Format) : Checked Fields := do
  let top ← Checked.wideShiftRight word (F.storageWidth - 1 : Nat)
  let upper ← Checked.wideShiftRight word F.fractionWidth
  let exponentMask ← Checked.mask F.exponentWidth
  let fractionMask ← Checked.mask F.fractionWidth
  pure ⟨.ofNegative (top &&& 1 != 0), upper &&& exponentMask, word &&& fractionMask⟩

end Fields

/-! ## Writing -/

namespace BinaryLayout

def storedLeadingBitChecked (b : BinaryLayout) : Checked Nat :=
  if b.storesLeadingBit then Checked.wideShiftLeft 1 (b.precision - 1 : Nat) else pure 0

def topBiasedChecked (b : BinaryLayout) : Checked UInt64 := do
  let power ← Checked.shiftLeft 1 b.exponentWidth
  Checked.u64 (power.toNat - 1)

def fractionChecked (b : BinaryLayout) (count : UInt64) : Checked Nat :=
  if b.storesLeadingBit then pure count.toNat
  else do
    let mask ← Checked.mask (b.precision - 1)
    pure (count.toNat &&& mask)

def writeChecked (b : BinaryLayout) (magnitude : Magnitude) : Checked (Nat × Nat) := do
  let top ← b.topBiasedChecked
  let leading ← b.storedLeadingBitChecked
  match magnitude with
  | .zero => pure (0, 0)
  | .infinite => pure (top.toNat, leading)
  | .nan payload => do
    let quiet ← Checked.wideShiftLeft 1 (b.precision - 2 : Nat)
    let payload ← Checked.shiftRight payload (64 - (b.precision - 2) : Nat)
    pure (top.toNat, leading ||| quiet ||| payload.toNat)
  | .finite .normal exponent significand => do
    let count ← Checked.shiftRight significand (64 - b.precision : Nat)
    let biased ← Checked.i32 (exponent + b.bias)
    let fraction ← b.fractionChecked count
    pure (biased.toNat, fraction)
  | .finite .denormal _ significand => do
    let count ← Checked.shiftRight significand (64 - b.precision : Nat)
    let fraction ← b.fractionChecked count
    pure (0, fraction)

end BinaryLayout

namespace HexadecimalLayout

/-- The biased exponent and the fraction of a number that has the given exponent
in bit 63 of its significand. -/
def writeAtChecked (h : HexadecimalLayout) (significand : UInt64) (exp : Int) :
    Checked (Nat × Nat) := do
  let e ← Checked.i64 (exp / 4 + 1)
  let digitTop ← Checked.i64 (4 * e)
  let digitTop ← Checked.i64 (digitTop - 1)
  let distance ← Checked.i64 (digitTop - exp)
  let unused ← Checked.i64 (64 - (4 * h.digits : Nat))
  let places ← Checked.i64 (distance + unused)
  let fraction ← Checked.shiftRight significand places
  let biased ← Checked.i64 (e + h.bias)
  pure (biased.toNat, fraction.toNat)

def writeChecked (h : HexadecimalLayout) : Magnitude → Checked (Nat × Nat)
  | .finite .normal exponent significand => do
    let (aligned, exp) ← normalisedChecked exponent significand
    h.writeAtChecked aligned exp
  | .finite .denormal exponent significand => h.writeAtChecked significand exponent
  | _ => pure (0, 0)

end HexadecimalLayout

namespace Format

def encodableChecked (F : Format) (x : Value) : Checked Value :=
  if F.hasSpecials then pure x
  else
    match x.magnitude with
    | .infinite => F.maxFiniteChecked x.sign
    | .nan _ => F.maxFiniteChecked .positive
    | _ => pure x

def fieldsChecked (F : Format) (x : Value) : Checked Fields := do
  let (biased, fraction) ← match F.layout with
    | .binary b => b.writeChecked x.magnitude
    | .hexadecimal h => h.writeChecked x.magnitude
  pure ⟨x.sign, biased, fraction⟩

end Format

namespace Value

def encodeChecked (x : Value) (c : Context) : Checked Nat := do
  let rounded ← x.convertChecked c
  let y ← c.format.encodableChecked rounded
  let fields ← c.format.fieldsChecked y
  fields.toWordChecked c.format

def encodeBytesChecked (x : Value) (c : Context) : Checked (List UInt8) := do
  let word ← x.encodeChecked c
  pure ((List.range 16).map fun i => UInt8.ofNat (word >>> (8 * i)))

end Value

/-! ## Reading -/

namespace BinaryLayout

def countChecked (b : BinaryLayout) (f : Fields) : Checked Nat :=
  if b.storesLeadingBit || f.biased == 0 then pure f.fraction
  else do
    let implied ← Checked.wideShiftLeft 1 (b.precision - 1 : Nat)
    pure (f.fraction ||| implied)

def readNumberChecked (b : BinaryLayout) (f : Fields) : Checked Reading := do
  let count ← b.countChecked f
  let unbiased ← Checked.i64 ((if f.biased = 0 then 1 else f.biased : Nat) - b.bias)
  let width ← Checked.i64 (b.precision - 1)
  let place ← Checked.i64 (unbiased - width)
  pure (.number (.ofNat count) place)

def readSpecialChecked (b : BinaryLayout) (f : Fields) : Checked Reading := do
  let mask ← Checked.mask (b.precision - 1)
  if f.fraction &&& mask = 0 then pure (.special .infinite)
  else
    let mask ← Checked.mask (b.precision - 2)
    let payload ← Checked.shiftLeft (.ofNat (f.fraction &&& mask)) (64 - (b.precision - 2) : Nat)
    pure (.special (.nan payload))

def readChecked (b : BinaryLayout) (f : Fields) : Checked Reading := do
  let top ← Checked.mask b.exponentWidth
  if f.biased = top ∧ b.hasSpecials then b.readSpecialChecked f else b.readNumberChecked f

end BinaryLayout

def HexadecimalLayout.readChecked (h : HexadecimalLayout) (f : Fields) : Checked Reading := do
  let power ← Checked.i64 (f.biased - h.bias)
  let top ← Checked.i64 (4 * power)
  let place ← Checked.i64 (top - (4 * h.digits : Nat))
  pure (.number (.ofNat f.fraction) place)

namespace Format

def readChecked (F : Format) (f : Fields) : Checked Reading :=
  match F.layout with
  | .binary b => b.readChecked f
  | .hexadecimal h => h.readChecked f

def decodeChecked (F : Format) (word : Nat) : Checked Value := do
  let f ← Fields.ofWordChecked word F
  match ← F.readChecked f with
  | .number count place => F.representChecked f.sign count place
  | .special magnitude => pure ⟨f.sign, ∅, magnitude⟩

end Format
end CrossFloat
