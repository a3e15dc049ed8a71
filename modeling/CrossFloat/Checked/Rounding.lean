/-
Checked rounding, and the values of a format.

An exponent is a 64-bit integer throughout.  The last place is computed from it
by a division that rounds down, and the count of a move right is the distance
between two exponents.
-/
import CrossFloat.Checked.Limb
import CrossFloat.Rounding.Pending

namespace CrossFloat

/-- The significand with its leading bit in bit 63, and the exponent of that bit.
The significand must not be zero. -/
def normalisedChecked (exponent : Int) (significand : UInt64) : Checked (UInt64 × Int) := do
  Checked.assert (significand != 0)
  let zeros := Limb.leadingZeros significand
  let aligned ← Checked.shiftLeft significand zeros
  let exp ← Checked.i64 (exponent - zeros)
  pure (aligned, exp)

namespace Format

def lastPlaceChecked (F : Format) (exp : Int) : Checked Int := do
  let digits ← Checked.i64 (exp / F.digitWidth + 1)
  let top ← Checked.i64 (F.digitWidth * digits)
  Checked.i64 (top - F.precision)

def representChecked (F : Format) (sign : Sign) (count : UInt64) (place : Int) : Checked Value :=
  if count = 0 then pure (F.zero sign)
  else do
    let zeros := Limb.leadingZeros count
    let aligned ← Checked.shiftLeft count zeros
    let top ← Checked.i64 (place + 63)
    let exp ← Checked.i64 (top - zeros)
    if exp < F.minExponent then
      let places ← Checked.i64 (F.minExponent - exp)
      let significand ← Checked.shiftRight aligned places
      pure ⟨sign, ∅, .finite .denormal F.minExponent significand⟩
    else pure ⟨sign, ∅, .finite .normal exp aligned⟩

/-! ## Extremes and payloads -/

def maxFiniteChecked (F : Format) (sign : Sign) : Checked Value := do
  let significand ← Checked.shiftLeft 0xffffffffffffffff (64 - F.precision)
  pure ⟨sign, ∅, .finite .normal F.maxExponent significand⟩

def minPositiveChecked (F : Format) (sign : Sign) : Checked Value :=
  match F.underflow with
  | .sudden => pure (F.minNormal sign)
  | .gradual => do
    let place ← F.lastPlaceChecked F.minExponent
    let distance ← Checked.i64 (F.minExponent - place)
    let places ← Checked.i64 (63 - distance)
    let significand ← Checked.shiftLeft 1 places
    pure ⟨sign, ∅, .finite .denormal F.minExponent significand⟩

def epsilonChecked (F : Format) : Checked Value := do
  let exponent ← F.lastPlaceChecked 0
  pure ⟨.positive, ∅, .finite .normal exponent 0x8000000000000000⟩

def trimPayloadChecked (F : Format) (payload : UInt64) : Checked UInt64 := do
  let places ← Checked.shiftLeft 0xffffffffffffffff (64 - F.payloadWidth)
  pure (payload &&& places)

def nanChecked (F : Format) (payload : UInt64) : Checked Value := do
  let aligned ← Checked.shiftLeft payload (64 - F.payloadWidth)
  pure ⟨.positive, ∅, .nan aligned⟩

end Format

/-! ## Rounding -/

def Split.chooseChecked (s : Split) (up : Bool) : Checked (UInt64 × Int) :=
  if up then
    if s.kept = 0xffffffffffffffff then do
      let place ← Checked.i64 (s.place + 1)
      pure (0x8000000000000000, place)
    else pure (s.kept + 1, s.place)
  else pure (s.kept, s.place)

namespace Intermediate

def normalisedChecked (u : Intermediate) : Checked Intermediate := do
  let places := u.sig.leadingZeros
  let sig ← u.sig.shiftLeftChecked places
  let exp := if u.exp < -expBound then -expBound
    else if expBound < u.exp then expBound
    else u.exp
  let exp ← Checked.i64 (exp - places)
  pure { u with sig, exp }

def splitChecked (u : Intermediate) (F : Format) : Checked Split := do
  let place ← F.lastPlaceChecked (if u.isTiny F then F.minExponent else u.exp)
  let distance ← Checked.i64 (place - u.exp)
  let places ← Checked.i64 (distance + 63)
  let moved ← u.sig.shiftRightJamChecked (if places < 255 then places else 255).toNat
  pure ⟨moved.hi, moved.lo, place⟩

def saturatedChecked (sign : Sign) (flags : Flags) (c : Context) : Checked Value :=
  if c.mode.overflowsAway sign && c.format.hasSpecials then
    pure ((Value.infinity sign).raise (flags ∪ .onOverflow ∪ .onInexactHigh))
  else do
    let largest ← c.format.maxFiniteChecked sign
    pure (largest.raise (flags ∪ .onOverflow ∪ .onInexactLow))

/-- The rounding of a normalised nonzero number that is not flushed to zero. -/
def settleSplitChecked (u : Intermediate) (c : Context) : Checked Value := do
  let s ← u.splitChecked c.format
  let up := c.mode.takesUpper u.sign s.kept s.rest
  let flags := u.flags ∪ (if u.isTiny c.format then .onUnderflow else ∅) ∪ s.inexact up
  let (count, place) ← s.chooseChecked up
  if count = 0 then pure ((c.format.zero u.sign).raise flags)
  else
    let top ← Checked.i64 (place + 63)
    let exp ← Checked.i64 (top - Limb.leadingZeros count)
    if c.format.maxExponent < exp then saturatedChecked u.sign u.flags c
    else
      let x ← c.format.representChecked u.sign count place
      pure (x.raise flags)

def roundChecked (u : Intermediate) (c : Context) : Checked Value :=
  if u.sig.isZero then pure ((c.format.zero u.sign).raise u.flags)
  else do
    let n ← u.normalisedChecked
    if n.isTiny c.format && c.format.underflow == .sudden then
      pure ((c.format.zero u.sign).raise (u.flags ∪ .onUnderflow ∪ .onInexactLow))
    else n.settleSplitChecked c

end Intermediate

def Pending.roundChecked (p : Pending) (c : Context) : Checked Value :=
  match p with
  | settled x => pure x
  | number u => u.roundChecked c

/-! ## Conversions -/

namespace Value

def nanInChecked (F : Format) (sign : Sign) (flags : Flags) (payload : UInt64) :
    Checked Value := do
  let payload ← F.trimPayloadChecked payload
  pure ⟨sign, flags, .nan payload⟩

def convertChecked (x : Value) (c : Context) : Checked Value :=
  match x.magnitude with
  | .nan payload => nanInChecked c.format x.sign x.flags payload
  | _ => (x.conversion c).roundChecked c

def ofLiteralChecked (kind : Kind) (sign : Sign) (exponent : Int) (significand : UInt64)
    (flags : Flags) (c : Context) : Checked Value :=
  match kind with
  | .infinite =>
    if c.format.hasSpecials then pure ((infinity sign).raise flags)
    else do
      let largest ← c.format.maxFiniteChecked sign
      pure (largest.raise (flags ∪ .onOverflow ∪ .onInexactLow))
  | .nanPayload => nanInChecked c.format sign flags significand
  | _ => (literal sign (.ofParts kind exponent significand) flags c).roundChecked c

end Value
end CrossFloat
