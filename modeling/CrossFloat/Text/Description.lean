/-
Descriptions of formats and values, field by field, and the messages about them.

A description names its type and lists the fields in braces.  The names of modes,
signs and kinds are the ones that stand in descriptions.
-/
import CrossFloat.Format
import CrossFloat.Integer
import CrossFloat.Order
import CrossFloat.Rounding.Trace
import CrossFloat.Text.Digits
import CrossFloat.Value
import CrossFloat.Limb.Word128

namespace CrossFloat

/-! ## Names -/

namespace RoundingMode

def all : List RoundingMode :=
  [towardZero, nearestEven, towardPositive, towardNegative, nearestAway]

def name : RoundingMode → String
  | towardZero => "TowardZero"
  | nearestEven => "NearestEven"
  | towardPositive => "TowardPositive"
  | towardNegative => "TowardNegative"
  | nearestAway => "NearestAway"

end RoundingMode

def Sign.name : Sign → String
  | positive => "Positive"
  | negative => "Negative"

namespace Kind

def all : List Kind := [zero, normal, denormal, infinite, nan, nanPayload]

def name : Kind → String
  | zero => "Zero"
  | normal => "Normal"
  | denormal => "Denormal"
  | infinite => "Infinite"
  | nan => "Nan"
  | nanPayload => "NanPayload"

end Kind

namespace Comparison

def name : Comparison → String
  | less => "Less"
  | equal => "Equal"
  | greater => "Greater"
  | unordered => "Unordered"

end Comparison

def IntegerType.name (t : IntegerType) : String :=
  (if t.signed then "i" else "u") ++ String.ofList (Digits.free 10 t.bits)

/-! ## Descriptions -/

/-- A type's name and its fields, each with its value. -/
def describeFields (typeName : String) (fields : List (String × String)) : String :=
  let written := fields.map fun (field, value) => field ++ ": " ++ value
  typeName ++ " \x7b " ++ String.intercalate ", " written ++ " \x7d"

def describeBool (b : Bool) : String :=
  if b then "true" else "false"

def describeNat (n : Nat) : String :=
  String.ofList (Digits.free 10 n)

def describeInt (n : Int) : String :=
  String.ofList (Digits.integer n)

def Format.describe (F : Format) : String :=
  describeFields "Format" [
    ("significand_bits", describeNat F.precision),
    ("exp_min", describeInt F.minExponent),
    ("exp_max", describeInt F.maxExponent),
    ("rounding", F.rounding.name),
    ("sudden_underflow", describeBool (F.underflow == .sudden)),
    ("has_inf_nan", describeBool F.hasSpecials),
    ("has_neg_zero", describeBool F.hasNegativeZero),
    ("radix_log2", describeNat F.digitWidth),
    ("explicit_leading_bit", describeBool F.storesLeadingBit),
    ("storage_bits", describeNat F.storageWidth),
    ("exponent_bits", describeNat F.exponentWidth),
    ("exponent_bias", describeNat F.bias)]

/-- The parts of a value, with the significand in hexadecimal and the flags in
binary. -/
def Value.describe (x : Value) : String :=
  describeFields "SoftFloat" [
    ("kind", x.kind.name),
    ("sign", x.sign.name),
    ("significand", String.ofList ("0x".toList ++ Digits.fixed 16 16 x.significand.toNat)),
    ("exponent", String.ofList (Digits.signed x.exponent)),
    ("flags", String.ofList ("0b".toList ++ Digits.fixed 2 6 x.flags.toNat))]

/-- The two limbs of a 128-bit quantity in hexadecimal. -/
def Word128.text (x : Word128) : String :=
  String.ofList ("0x".toList ++ Digits.fixed 16 16 x.hi.toNat
    ++ '_' :: Digits.fixed 16 16 x.lo.toNat)

/-! ## Messages -/

def FormatError.message : FormatError → String
  | exponentWidth => "Bad exponent width"
  | significandWidth => "Bad significand width"

def Event.message : Event → String
  | flushed exp format =>
    "flush to zero: 2^" ++ describeInt exp ++ " below 2^" ++ describeInt format.minExponent
      ++ " in " ++ format.describe
  | overflowed format mode =>
    "overflow in " ++ format.describe ++ ", rounding " ++ mode.name

namespace ConversionError

def message : ConversionError → String
  | notFinite .infinite => "conversion of infinity to integer is undefined"
  | notFinite _ => "conversion of NaN to integer is undefined"
  | outOfRange type => "floating value out of range of " ++ type.name

def describe : ConversionError → String
  | notFinite kind => describeFields "InvalidConversion" [("kind", kind.name)]
  | outOfRange type =>
    describeFields "OutOfRange" [
      ("bits", describeNat type.bits), ("signed", describeBool type.signed)]

end ConversionError

/-! ## Log records -/

/-- A record of the log: a trace of a rounding, or a warning about a
conversion. -/
inductive LogRecord where
  | trace (event : Event)
  | warning (error : ConversionError)
  deriving DecidableEq

namespace LogRecord

def level : LogRecord → String
  | trace _ => "TRACE"
  | warning _ => "WARN"

def message : LogRecord → String
  | trace event => event.message
  | warning error => error.message

end LogRecord
end CrossFloat
