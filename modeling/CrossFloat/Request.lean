/-
The operations of the library as data, and sessions made of them.

A request names an operation and holds its arguments.  There are two sorts.  A
rounded request has a result that is rounded into a format, so its answer
depends on a context.  A plain request copies, compares, reads or describes what
it is given, and no rounding takes part in it.

A session is a list of steps: requests, with changes of the rounding override in
between.  Each step has one reply.
-/
import CrossFloat.Complex
import CrossFloat.Encoding
import CrossFloat.Integer
import CrossFloat.Order
import CrossFloat.Text.Hexadecimal

namespace CrossFloat

/-- An operation whose result is rounded into a format. -/
inductive RoundedRequest where
  | raw (number : Intermediate)
  | literal (kind : Kind) (sign : Sign) (exponent : Int) (significand : UInt64) (flags : Flags)
  | integer (n : Int)
  | natural (n : Nat)
  | convert (x : Value)
  | add (x y : Value)
  | sub (x y : Value)
  | mul (x y : Value)
  | div (x y : Value)
  | complexMul (x y : Complex)
  | complexDiv (x y : Complex)
  | encode (x : Value)
  | encodeBytes (x : Value)

/-- An operation in which nothing is rounded. -/
inductive PlainRequest where
  | zero (sign : Sign)
  | infinity (sign : Sign)
  | nan
  | nanIn (F : Format) (payload : UInt64)
  | formatZero (F : Format) (sign : Sign)
  | maxFinite (F : Format) (sign : Sign)
  | minNormal (F : Format) (sign : Sign)
  | minPositive (F : Format) (sign : Sign)
  | epsilon (F : Format)
  | decode (F : Format) (word : Nat)
  | neg (x : Value)
  | abs (x : Value)
  | raise (x : Value) (flags : Flags)
  | clearFlags (x : Value)
  | compare (x y : Value)
  | toInteger (x : Value) (type : IntegerType)
  | text (x : Value)

/-- A request of either sort. -/
inductive Request where
  | rounded (F : Format) (request : RoundedRequest)
  | plain (request : PlainRequest)

/-- The answer to a request. -/
inductive Answer where
  | value (x : Value)
  | complex (z : Complex)
  | word (n : Nat)
  | bytes (bytes : List UInt8)
  | comparison (outcome : Comparison)
  | integer (n : Int) (errors : List ConversionError)
  | text (s : String)
  deriving DecidableEq

/-! ## Answers -/

def RoundedRequest.answer (r : RoundedRequest) (c : Context) : Answer :=
  match r with
  | raw number => .value (number.round c)
  | literal kind sign exponent significand flags =>
    .value (.ofLiteral kind sign exponent significand flags c)
  | integer n => .value (.ofInt n c)
  | natural n => .value (.ofNat n c)
  | convert x => .value (x.convert c)
  | add x y => .value (x.add y c)
  | sub x y => .value (x.sub y c)
  | mul x y => .value (x.mul y c)
  | div x y => .value (x.div y c)
  | complexMul x y => .complex (x.mul y c)
  | complexDiv x y => .complex (x.div y c)
  | encode x => .word (x.encode c)
  | encodeBytes x => .bytes (x.encodeBytes c)

def PlainRequest.answer : PlainRequest → Answer
  | zero sign => .value (.zero sign)
  | infinity sign => .value (.infinity sign)
  | nan => .value .nan
  | nanIn F payload => .value (F.nan payload)
  | formatZero F sign => .value (F.zero sign)
  | maxFinite F sign => .value (F.maxFinite sign)
  | minNormal F sign => .value (F.minNormal sign)
  | minPositive F sign => .value (F.minPositive sign)
  | epsilon F => .value F.epsilon
  | decode F word => .value (F.decode word)
  | neg x => .value x.neg
  | abs x => .value x.abs
  | raise x flags => .value (x.raise flags)
  | clearFlags x => .value x.clearFlags
  | compare x y => .comparison (x.compare y)
  | toInteger x type =>
    let (n, errors) := x.toIntegerReporting type
    .integer n errors
  | text x => .text x.text

/-- The answer to a request while an override is in force, or none. -/
def Request.answer (override : Option RoundingMode) : Request → Answer
  | rounded F request => request.answer ⟨F, override⟩
  | plain request => request.answer

/-! ## Values that pass between requests -/

def RoundedRequest.operands : RoundedRequest → List Value
  | raw _ | literal .. | integer _ | natural _ => []
  | convert x | encode x | encodeBytes x => [x]
  | add x y | sub x y | mul x y | div x y => [x, y]
  | complexMul x y | complexDiv x y => [x.re, x.im, y.re, y.im]

def PlainRequest.operands : PlainRequest → List Value
  | neg x | abs x | raise x _ | clearFlags x | toInteger x _ | text x => [x]
  | compare x y => [x, y]
  | _ => []

/-- The values that a request is given. -/
def Request.operands : Request → List Value
  | rounded _ request => request.operands
  | plain request => request.operands

/-- The values that an answer holds. -/
def Answer.values : Answer → List Value
  | value x => [x]
  | complex z => [z.re, z.im]
  | _ => []

/-- The value comes out of a sequence of requests, under any overrides, in which
every operand is a value that came out before. -/
inductive Reachable : Value → Prop
  | answer {request : Request} {override : Option RoundingMode} {x : Value}
    (hoperands : ∀ y ∈ request.operands, Reachable y)
    (hx : x ∈ (request.answer override).values) : Reachable x

/-! ## Sessions -/

/-- A step of a session. -/
inductive Step where
  | setOverride (override : Option RoundingMode)
  | ask (request : Request)

/-- The reply to a step: the override that was replaced, or an answer. -/
inductive Reply where
  | replaced (previous : Option RoundingMode)
  | answered (answer : Answer)
  deriving DecidableEq

def Step.perform : Step → Session Reply
  | setOverride override => do
    let previous ← Session.setOverride override
    pure (.replaced previous)
  | ask request => do
    let answer ← Session.underOverride fun override => request.answer override
    pure (.answered answer)

/-- The replies to a list of steps, one for each, in a session that starts
without an override. -/
def replies (steps : List Step) : List Reply :=
  Session.runFresh (steps.mapM Step.perform)

end CrossFloat
