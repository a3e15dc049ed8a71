/-
Encodings: the bit patterns of a format.

An encoding has three fields, from the most significant bit down: the sign, the
biased exponent and the fraction.

In a binary format the fraction is the significand without its leading bit, or
with it where the format stores it.  A biased exponent of zero belongs to zero
and the denormal numbers, which share the last place of the smallest normal
ones.  The largest biased exponent belongs to infinities and NaNs, if the format
has them.

In a hexadecimal format the fraction is a base-16 fraction `0.hh...`, and the
exponent counts powers of 16.
-/
import CrossFloat.Rounding.Pending

namespace CrossFloat

/-- The fields of an encoding. -/
structure Fields where
  sign : Sign
  biased : Nat
  fraction : Nat
  deriving DecidableEq

namespace Fields

def toWord (f : Fields) (F : Format) : Nat :=
  (f.sign.isNegative.toNat <<< (F.storageWidth - 1))
    ||| (f.biased <<< F.fractionWidth) ||| f.fraction

/-- The fields of a word.  Bits above the width of an encoding are ignored. -/
def ofWord (word : Nat) (F : Format) : Fields where
  sign := .ofNegative (word.testBit (F.storageWidth - 1))
  biased := (word >>> F.fractionWidth) % (1 <<< F.exponentWidth)
  fraction := word % (1 <<< F.fractionWidth)

end Fields

/-! ## Writing -/

namespace BinaryLayout

/-- The biased exponent that infinities and NaNs have: all ones. -/
def topBiased (b : BinaryLayout) : Nat :=
  (1 <<< b.exponentWidth) - 1

/-- The leading bit in the fraction of an infinity or a NaN, where it is
stored. -/
def storedLeadingBit (b : BinaryLayout) : Nat :=
  if b.storesLeadingBit then 1 <<< (b.precision - 1) else 0

def quietBit (b : BinaryLayout) : Nat :=
  1 <<< (b.precision - 2)

/-- The biased exponent and the fraction of a magnitude.  A normal number has its
leading bit at the top of its precision; a denormal one has it lower. -/
def write (b : BinaryLayout) : Magnitude → Nat × Nat
  | .zero => (0, 0)
  | .infinite => (b.topBiased, b.storedLeadingBit)
  | .nan payload =>
    let places := 64 - (b.precision - 2)
    (b.topBiased, b.storedLeadingBit ||| b.quietBit ||| (payload >>> places.toUInt64).toNat)
  | .finite range exponent significand =>
    let biased := match range with
      | .normal => (exponent + b.bias).toNat
      | .denormal => 0
    let count := significand.toNat >>> (64 - b.precision)
    (biased, if b.storesLeadingBit then count else count % (1 <<< (b.precision - 1)))

end BinaryLayout

namespace HexadecimalLayout

/-- The biased exponent and the fraction of a magnitude.  The leading digit of
`0.hh... * 16^e` covers the exponents from `4e - 4` to `4e - 1`, and the fraction
ends `4 * digits` places below `4e`.  A denormal number keeps its leading zeros
at the least exponent.  Infinities and NaNs have no encoding. -/
def write (h : HexadecimalLayout) : Magnitude → Nat × Nat
  | .finite range exponent significand =>
    let (exp, sig) := match range with
      | .normal => (leadingExp exponent significand, alignLeft significand)
      | .denormal => (exponent, significand)
    let e := exp / 4 + 1
    let places := (4 * e - 1 - exp).toNat + (64 - 4 * h.digits)
    ((e + h.bias).toNat, sig.toNat >>> places)
  | _ => (0, 0)

end HexadecimalLayout

namespace Format

/-- What is encoded in the place of a value.  Without infinities and NaNs, an
infinity is encoded as the largest number of its sign and a NaN as the largest
positive number. -/
def encodable (F : Format) (x : Value) : Value :=
  if F.hasSpecials then x
  else
    match x.magnitude with
    | .infinite => F.maxFinite x.sign
    | .nan _ => F.maxFinite .positive
    | _ => x

def fields (F : Format) (x : Value) : Fields :=
  let (biased, fraction) := match F.layout with
    | .binary b => b.write x.magnitude
    | .hexadecimal h => h.write x.magnitude
  ⟨x.sign, biased, fraction⟩

/-- The encoding of a value that is already rounded into the format. -/
def encodeRounded (F : Format) (x : Value) : Nat :=
  let y := F.encodable x
  (F.fields y).toWord F

end Format

/-- The encoding of a value, which is rounded into the format first. -/
def Value.encode (x : Value) (c : Context) : Nat :=
  c.format.encodeRounded (x.convert c)

/-- The sixteen bytes of an encoding, the least significant first.  Those beyond
the width of the format are zero. -/
def Value.encodeBytes (x : Value) (c : Context) : List UInt8 :=
  let word := x.encode c
  (List.range 16).map fun i => UInt8.ofNat (word >>> (8 * i))

/-! ## Reading -/

/-- What the biased exponent and the fraction of an encoding stand for: the
number `count * 2^place`, or something that is not a number. -/
inductive Reading where
  | number (count : UInt64) (place : Int)
  | special (magnitude : Magnitude)

namespace BinaryLayout

/-- The reading of the fields of a binary encoding.  The leading bit of a number
is implied by a nonzero biased exponent unless it is stored.  A NaN is read as a
quiet one, and the leading bit, where stored, does not tell it from an
infinity. -/
def read (b : BinaryLayout) (f : Fields) : Reading :=
  if f.biased = b.topBiased ∧ b.hasSpecials then
    if f.fraction % (1 <<< (b.precision - 1)) = 0 then .special .infinite
    else
      let payload := UInt64.ofNat (f.fraction % (1 <<< (b.precision - 2)))
      .special (.nan (payload <<< (64 - (b.precision - 2)).toUInt64))
  else
    let implied := if b.storesLeadingBit || f.biased == 0 then 0 else 1 <<< (b.precision - 1)
    let scale : Nat := if f.biased = 0 then 1 else f.biased
    .number (UInt64.ofNat (f.fraction ||| implied)) (scale - b.bias - (b.precision - 1))

end BinaryLayout

def HexadecimalLayout.read (h : HexadecimalLayout) (f : Fields) : Reading :=
  .number (UInt64.ofNat f.fraction) (4 * (f.biased - h.bias) - 4 * h.digits)

namespace Format

def read (F : Format) (f : Fields) : Reading :=
  match F.layout with
  | .binary b => b.read f
  | .hexadecimal h => h.read f

/-- The value of a bit pattern.  Every pattern has one, and it is exact: an
encoding with superfluous leading zeros stands for the number it denotes. -/
def decode (F : Format) (word : Nat) : Value :=
  let f := Fields.ofWord word F
  match F.read f with
  | .number count place => F.represent f.sign count place
  | .special magnitude => ⟨f.sign, ∅, magnitude⟩

end Format
end CrossFloat
