/-
Requests, answered by checked computations.
-/
import CrossFloat.Checked.Arithmetic
import CrossFloat.Checked.Encoding
import CrossFloat.Checked.Observation
import CrossFloat.Request

namespace CrossFloat

def RoundedRequest.evaluate (r : RoundedRequest) (c : Context) : Checked Answer :=
  match r with
  | raw number => .value <$> number.roundChecked c
  | literal kind sign exponent significand flags =>
    .value <$> Value.ofLiteralChecked kind sign exponent significand flags c
  | integer n => .value <$> (Value.integer (.ofNegative (n < 0)) n.natAbs).roundChecked c
  | natural n => .value <$> (Value.integer .positive n).roundChecked c
  | convert x => .value <$> x.convertChecked c
  | add x y => .value <$> x.addChecked y c
  | sub x y => .value <$> x.subChecked y c
  | mul x y => .value <$> x.mulChecked y c
  | div x y => .value <$> x.divChecked y c
  | complexMul x y => .complex <$> x.mulChecked y c
  | complexDiv x y => .complex <$> x.divChecked y c
  | encode x => .word <$> x.encodeChecked c
  | encodeBytes x => .bytes <$> x.encodeBytesChecked c

/-- The requests that are not named here copy what they are given, and cannot go
wrong. -/
def PlainRequest.evaluate (r : PlainRequest) : Checked Answer :=
  match r with
  | nanIn F payload => .value <$> F.nanChecked payload
  | maxFinite F sign => .value <$> F.maxFiniteChecked sign
  | minPositive F sign => .value <$> F.minPositiveChecked sign
  | epsilon F => .value <$> F.epsilonChecked
  | decode F word => .value <$> F.decodeChecked word
  | compare x y => .comparison <$> x.compareChecked y
  | toInteger x type => do
    let (n, errors) ← x.toIntegerReportingChecked type
    pure (.integer n errors)
  | text x => .text <$> x.textChecked
  | _ => pure r.answer

/-- The answer to a request, or the fault on the way to it. -/
def Request.evaluate (override : Option RoundingMode) : Request → Checked Answer
  | rounded F request => request.evaluate ⟨F, override⟩
  | plain request => request.evaluate

end CrossFloat
