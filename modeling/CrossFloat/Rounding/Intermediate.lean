/-
Intermediate results and their rounding.

An operation computes its result with 128 bits and rounds it once.  The
intermediate result before that step is

  `sig / 2^127 * 2^exp`

with a sign, where `sig` may have leading zeros, and its lowest bit may stand for
something nonzero below it.  The rounding moves the number right until the last
place of the result is the lowest bit of a limb.  From the limb below it and the
mode it decides whether to go one place up in magnitude.  Then it files the
outcome: a normal number, a denormal one with the last place of the smallest
normal number, zero, or something beyond the finite range.

There is one move right, also for a denormal result, so nothing is rounded
twice.  Whether a number is tiny is decided before the rounding.
-/
import CrossFloat.Rounding.Context
import CrossFloat.Rounding.Trace
import CrossFloat.Value.Notable
import CrossFloat.Limb.Word128

namespace CrossFloat

/-- A finite number before its rounding, with the flags raised so far. -/
structure Intermediate where
  sign : Sign
  sig : Word128
  exp : Int
  flags : Flags
  deriving DecidableEq

/-- A number split at the last place of the result: `kept` counts whole places,
each worth `2^place`, and `rest` counts parts of 2^-64 of a place. -/
structure Split where
  kept : UInt64
  rest : UInt64
  place : Int
  deriving DecidableEq

/-! ## The choice between two neighbours -/

/-- Whether a mode takes the neighbour of larger magnitude, for a number that
lies `rest` parts above the neighbour `kept`. -/
def RoundingMode.takesUpper (mode : RoundingMode) (sign : Sign) (kept rest : UInt64) : Bool :=
  let half : UInt64 := 0x8000000000000000
  match mode with
  | .towardZero => false
  | .nearestEven => half < rest || (rest == half && kept &&& 1 == 1)
  | .towardPositive => rest != 0 && !sign.isNegative
  | .towardNegative => rest != 0 && sign.isNegative
  | .nearestAway => half ≤ rest

/-- Whether a mode sends a number too large for the format away from zero. -/
def RoundingMode.overflowsAway (mode : RoundingMode) (sign : Sign) : Bool :=
  match mode with
  | .towardZero => false
  | .nearestEven | .nearestAway => true
  | .towardPositive => !sign.isNegative
  | .towardNegative => sign.isNegative

namespace Split

/-- The direction in which the choice of neighbour is inexact. -/
def inexact (s : Split) (up : Bool) : Flags :=
  if s.rest = 0 then ∅ else if up then .onInexactHigh else .onInexactLow

/-- The chosen neighbour, as a count of places and the exponent of a place.  A
count that leaves the limb is halved, which doubles the place. -/
def choose (s : Split) (up : Bool) : UInt64 × Int :=
  if up then
    if s.kept = 0xffffffffffffffff then (0x8000000000000000, s.place + 1)
    else (s.kept + 1, s.place)
  else (s.kept, s.place)

end Split

namespace Intermediate

/-- Exponents beyond this bound are out of the range of every format, and are
brought back to it. -/
def expBound : Int := 0x10000000000

/-- The same number with bit 127 set, unless it is zero. -/
def normalised (u : Intermediate) : Intermediate :=
  let places := u.sig.leadingZeros
  let exp := if u.exp < -expBound then -expBound
    else if expBound < u.exp then expBound
    else u.exp
  { u with sig := u.sig.shiftLeft places, exp := exp - places }

def isTiny (u : Intermediate) (F : Format) : Bool :=
  u.exp < F.minExponent

/-- A normalised number split at the last place that its result has.  A tiny
number has the last place of the smallest normal one.  A move by 255 places
leaves only the jammed bit, as any longer one would. -/
def split (u : Intermediate) (F : Format) : Split :=
  let place := F.lastPlace (if u.isTiny F then F.minExponent else u.exp)
  let places := (place - u.exp + 63).toNat
  let moved := u.sig.shiftRightJam (if places < 255 then places else 255)
  ⟨moved.hi, moved.lo, place⟩

/-! ## The outcomes -/

/-- The result of a number too large for the format: infinity if there is one
and the mode goes away from zero, and the largest finite number otherwise. -/
def saturated (sign : Sign) (flags : Flags) (c : Context) : Value :=
  if c.mode.overflowsAway sign && c.format.hasSpecials then
    (Value.infinity sign).raise (flags ∪ .onOverflow ∪ .onInexactHigh)
  else (c.format.maxFinite sign).raise (flags ∪ .onOverflow ∪ .onInexactLow)

/-- The rounding of a normalised nonzero number that is not flushed to zero. -/
def settleSplit (u : Intermediate) (c : Context) : Value × Option Event :=
  let s := u.split c.format
  let up := c.mode.takesUpper u.sign s.kept s.rest
  let (count, place) := s.choose up
  if count ≠ 0 ∧ c.format.maxExponent < leadingExp (place + 63) count then
    (saturated u.sign u.flags c, some (.overflowed c.format c.mode))
  else
    let tiny := if u.isTiny c.format then Flags.onUnderflow else ∅
    ((c.format.represent u.sign count place).raise (u.flags ∪ tiny ∪ s.inexact up), none)

def settle (u : Intermediate) (c : Context) : Value × Option Event :=
  let n := u.normalised
  if u.sig.isZero then ((c.format.zero u.sign).raise u.flags, none)
  else if n.isTiny c.format && c.format.underflow == .sudden then
    ((c.format.zero u.sign).raise (u.flags ∪ .onUnderflow ∪ .onInexactLow),
      some (.flushed n.exp c.format))
  else n.settleSplit c

def round (u : Intermediate) (c : Context) : Value :=
  (u.settle c).1

def event? (u : Intermediate) (c : Context) : Option Event :=
  (u.settle c).2

end Intermediate
end CrossFloat
