/-
Values that belong to a format: how it stores a number, and its extremes.
-/
import CrossFloat.Format
import CrossFloat.Value

namespace CrossFloat
namespace Format

/-- Zero with the given sign, or positive zero where there is no negative one. -/
def zero (F : Format) (sign : Sign) : Value :=
  .zero (if F.hasNegativeZero then sign else .positive)

/-- The number `count * 2^place` as the format stores it: with its leading bit in
bit 63, or at the least exponent with leading zeros when it lies below the
normal range.  The number must be one that the format can represent. -/
def represent (F : Format) (sign : Sign) (count : UInt64) (place : Int) : Value :=
  let exp := leadingExp (place + 63) count
  if count = 0 then F.zero sign
  else if exp < F.minExponent then
    let places := (F.minExponent - exp).toNat
    ⟨sign, ∅, .finite .denormal F.minExponent (alignLeft count >>> places.toUInt64)⟩
  else ⟨sign, ∅, .finite .normal exp (alignLeft count)⟩

/-! ## Extremes -/

/-- The finite number of largest magnitude: all places are ones. -/
def maxFinite (F : Format) (sign : Sign) : Value :=
  let ones : UInt64 := 0xffffffffffffffff
  ⟨sign, ∅, .finite .normal F.maxExponent (ones <<< (64 - F.precision).toUInt64)⟩

def minNormal (F : Format) (sign : Sign) : Value :=
  ⟨sign, ∅, .finite .normal F.minExponent 0x8000000000000000⟩

/-- The last place of the smallest normal number, or that number itself where
nothing below it is kept. -/
def minPositive (F : Format) (sign : Sign) : Value :=
  match F.underflow with
  | .sudden => F.minNormal sign
  | .gradual =>
    let places := (63 - (F.minExponent - F.lastPlace F.minExponent)).toNat
    ⟨sign, ∅, .finite .denormal F.minExponent (1 <<< places.toUInt64)⟩

/-- The last place of one. -/
def epsilon (F : Format) : Value :=
  ⟨.positive, ∅, .finite .normal (F.lastPlace 0) 0x8000000000000000⟩

/-! ## NaN payloads

A payload is kept to the left of its limb, so that the payloads of two formats
agree in the places that both have. -/

/-- The places of a payload that the format has room for. -/
def trimPayload (F : Format) (payload : UInt64) : UInt64 :=
  let ones : UInt64 := 0xffffffffffffffff
  payload &&& (ones <<< (64 - F.payloadWidth).toUInt64)

/-- The quiet NaN with as many low bits of `payload` as the format has room
for. -/
def nan (F : Format) (payload : UInt64) : Value :=
  ⟨.positive, ∅, .nan (payload <<< (64 - F.payloadWidth).toUInt64)⟩

end Format

/-- The payload of a NaN as a number in the width of the format, for a NaN that
has one. -/
def Value.payload? (x : Value) (F : Format) : Option UInt64 :=
  match x.magnitude with
  | .nan payload =>
    if payload = 0 then none else some (payload >>> (64 - F.payloadWidth).toUInt64)
  | _ => none

end CrossFloat
