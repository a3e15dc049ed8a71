/-
Conversions from and to integers.

An integer becomes a value by one rounding.  A value becomes an integer by
dropping its fraction.  A NaN, an infinity and a number out of the range of the
integer type have no such integer, and the conversion then gives the reason.
-/
import CrossFloat.Rounding.Pending

namespace CrossFloat

structure IntegerType where
  bits : Nat
  signed : Bool
  deriving DecidableEq, Inhabited

namespace IntegerType

def least (t : IntegerType) : Int :=
  if t.signed then -((1 <<< (t.bits - 1) : Nat) : Int) else 0

def greatest (t : IntegerType) : Int :=
  if t.signed then ((1 <<< (t.bits - 1) : Nat) : Int) - 1 else ((1 <<< t.bits : Nat) : Int) - 1

def holds (t : IntegerType) (n : Int) : Bool :=
  t.least ≤ n && n ≤ t.greatest

/-- The types that values convert to: signed and unsigned, of 8 to 64 bits. -/
def all : List IntegerType :=
  [⟨8, true⟩, ⟨16, true⟩, ⟨32, true⟩, ⟨64, true⟩,
    ⟨8, false⟩, ⟨16, false⟩, ⟨32, false⟩, ⟨64, false⟩]

end IntegerType

inductive ConversionError where
  /-- The value is not a finite number, but of the given kind. -/
  | notFinite (kind : Kind)
  /-- The truncated number is not in the range of the type. -/
  | outOfRange (type : IntegerType)
  deriving DecidableEq

namespace Value

/-! ## From integers -/

/-- An integer below 2^128 with a sign, on its way into a format.  Zero becomes
positive zero in any format. -/
def integer (sign : Sign) (magnitude : Nat) : Pending :=
  if magnitude = 0 then .settled (zero .positive)
  else .number ⟨sign, .ofNat magnitude, 127, ∅⟩

def ofNat (n : Nat) (c : Context) : Value :=
  (integer .positive n).round c

def ofInt (n : Int) (c : Context) : Value :=
  (integer (.ofNegative (n < 0)) n.natAbs).round c

/-! ## To integers -/

/-- The whole part of `significand / 2^63 * 2^exponent`, for a significand with
bit 63 set.  From 2^128 on, which is out of the range of every type, it stays at
2^128 - 1. -/
def wholePart (exponent : Int) (significand : UInt64) : Nat :=
  if exponent < 0 then 0
  else if exponent ≤ 63 then significand.toNat >>> (63 - exponent).toNat
  else if exponent ≤ 127 then significand.toNat <<< (exponent - 63).toNat
  else 0xffffffffffffffffffffffffffffffff

/-- The value with its fraction dropped, if it is a number. -/
def truncate (x : Value) : Except ConversionError Int :=
  match x.magnitude with
  | .zero => .ok 0
  | .finite _ exponent significand =>
    let whole : Int := wholePart (leadingExp exponent significand) (alignLeft significand)
    .ok (if x.sign.isNegative then -whole else whole)
  | .infinite | .nan _ => .error (.notFinite x.kind)

def toInteger (x : Value) (t : IntegerType) : Except ConversionError Int :=
  match x.truncate with
  | .error e => .error e
  | .ok n => if t.holds n then .ok n else .error (.outOfRange t)

/-- The value as an integer of a type, or zero and the reason why there is
none. -/
def toIntegerReporting (x : Value) (t : IntegerType) : Int × List ConversionError :=
  match x.toInteger t with
  | .ok n => (n, [])
  | .error e => (0, [e])

/-- The value as an integer of a type, or zero.  The reason why there is none is given
to `report`, which acts on a state of the caller's. -/
def toIntegerInto {σ : Type} (x : Value) (t : IntegerType) (report : σ → ConversionError → σ)
    (state : σ) : Int × σ :=
  match x.toInteger t with
  | .ok n => (n, state)
  | .error e => (0, report state e)

end Value
end CrossFloat
