/-
Floating point values, independent of any one format.

A value has a sign, a magnitude and the flags raised on the way to it.  A finite
nonzero magnitude is a 64-bit significand and an exponent, and stands for

  `significand / 2^63 * 2^exponent`,

so that the exponent is that of the leading bit whenever bit 63 is set.  A
number below the normal range of the format it was rounded into is stored at
that format's least exponent with leading zeros, and is marked as denormal.

Equality of values is equality of representations, flags included.  The
numerical comparison is in `CrossFloat.Order`.
-/
import CrossFloat.Flags
import CrossFloat.Limb.Basic

namespace CrossFloat

/-- A sign, which zeros and NaNs have as well. -/
inductive Sign where
  | positive
  | negative
  deriving DecidableEq, Inhabited

namespace Sign

def isNegative : Sign → Bool
  | positive => false
  | negative => true

/-- The sign that is negative exactly when the condition holds. -/
def ofNegative (isNegative : Bool) : Sign :=
  if isNegative then negative else positive

def flip : Sign → Sign
  | positive => negative
  | negative => positive

/-- The sign of a product or a quotient. -/
def times : Sign → Sign → Sign
  | positive, s => s
  | negative, s => s.flip

@[simp] theorem flip_flip (s : Sign) : s.flip.flip = s := by cases s <;> rfl

theorem times_comm (s t : Sign) : s.times t = t.times s := by cases s <;> cases t <;> rfl

@[simp] theorem times_self (s : Sign) : s.times s = positive := by cases s <;> rfl

@[simp] theorem flip_times (s t : Sign) : s.flip.times t = (s.times t).flip := by
  cases s <;> cases t <;> rfl

end Sign

/-- Where a finite nonzero number lies in the format it was rounded into. -/
inductive Range where
  | normal
  | denormal
  deriving DecidableEq, Inhabited

/-- What a value is apart from its sign. -/
inductive Magnitude where
  | zero
  /-- The number `significand / 2^63 * 2^exponent`. -/
  | finite (range : Range) (exponent : Int) (significand : UInt64)
  | infinite
  /-- A quiet NaN.  Its payload is aligned to the left, and zero when it has
  none. -/
  | nan (payload : UInt64)
  deriving DecidableEq, Inhabited

structure Value where
  sign : Sign
  flags : Flags
  magnitude : Magnitude
  deriving DecidableEq, Inhabited

/-- The kinds of value, among which a NaN with a payload is told from one
without. -/
inductive Kind where
  | zero
  | normal
  | denormal
  | infinite
  | nan
  | nanPayload
  deriving DecidableEq, Inhabited

namespace Magnitude

def kind : Magnitude → Kind
  | zero => .zero
  | finite .normal _ _ => .normal
  | finite .denormal _ _ => .denormal
  | infinite => .infinite
  | nan payload => if payload = 0 then .nan else .nanPayload

/-- The significand, or the payload of a NaN, and zero where there is neither. -/
def significand : Magnitude → UInt64
  | finite _ _ significand => significand
  | nan payload => payload
  | _ => 0

/-- The exponent, and zero where there is none. -/
def exponent : Magnitude → Int
  | finite _ exponent _ => exponent
  | _ => 0

/-- The magnitude of the given kind with the given parts.  What the kind has no use for is
ignored. -/
def ofParts (kind : Kind) (exponent : Int) (significand : UInt64) : Magnitude :=
  match kind with
  | .zero => zero
  | .normal => finite .normal exponent significand
  | .denormal => finite .denormal exponent significand
  | .infinite => infinite
  | .nan => nan 0
  | .nanPayload => nan significand

/-- A magnitude is made again from its kind and its parts. -/
@[simp] theorem ofParts_parts (m : Magnitude) : ofParts m.kind m.exponent m.significand = m := by
  cases m with
  | zero | infinite => rfl
  | finite range exponent significand => cases range <;> rfl
  | nan payload =>
    show ofParts (if payload = 0 then .nan else .nanPayload) 0 payload = nan payload
    split
    · next hpayload => rw [hpayload]; rfl
    · rfl

end Magnitude

namespace Value

/-! ## Values of no particular format -/

def zero (sign : Sign) : Value := ⟨sign, ∅, .zero⟩

def infinity (sign : Sign) : Value := ⟨sign, ∅, .infinite⟩

/-- The positive NaN without a payload. -/
def nan : Value := ⟨.positive, ∅, .nan 0⟩

/-! ## Parts -/

def kind (x : Value) : Kind := x.magnitude.kind

def significand (x : Value) : UInt64 := x.magnitude.significand

def exponent (x : Value) : Int := x.magnitude.exponent

/-! ## Changing sign and flags -/

/-- The same value with `flags` among its flags. -/
def raise (x : Value) (flags : Flags) : Value :=
  { x with flags := x.flags ∪ flags }

def clearFlags (x : Value) : Value :=
  { x with flags := ∅ }

/-- The same value with the other sign.  Nothing is rounded or raised, also when
the value is a NaN. -/
def neg (x : Value) : Value :=
  { x with sign := x.sign.flip }

instance : Neg Value := ⟨neg⟩

def abs (x : Value) : Value :=
  { x with sign := .positive }

@[simp] theorem raise_raise (x : Value) (f g : Flags) :
    (x.raise f).raise g = x.raise (f ∪ g) := by
  simp [raise, Flags.union_assoc]

@[simp] theorem raise_empty (x : Value) : x.raise ∅ = x := by
  simp [raise]

@[simp] theorem neg_neg (x : Value) : - -x = x := by
  simp [Neg.neg, neg]

/-! ## Classification -/

def isZero (x : Value) : Bool := x.kind == .zero

def isNormal (x : Value) : Bool := x.kind == .normal

def isDenormal (x : Value) : Bool := x.kind == .denormal

def isInfinite (x : Value) : Bool := x.magnitude == .infinite

def isNan (x : Value) : Bool :=
  match x.magnitude with
  | .nan _ => true
  | _ => false

/-- Whether the value is a number, zero included. -/
def isFinite (x : Value) : Bool :=
  match x.magnitude with
  | .zero | .finite .. => true
  | .infinite | .nan _ => false

theorem isNan_eq_false_of_isFinite {x : Value} (h : x.isFinite = true) : x.isNan = false := by
  obtain ⟨sign, flags, magnitude⟩ := x
  cases magnitude with
  | zero | finite | infinite => rfl
  | nan => exact absurd h Bool.false_ne_true

end Value

/-! ## Normalisation -/

/-- The significand moved left until its leading bit is bit 63. -/
def alignLeft (significand : UInt64) : UInt64 :=
  significand <<< (Limb.leadingZeros significand).toUInt64

/-- The exponent of the leading bit of a significand whose bit 63 is worth
`2^exponent`. -/
def leadingExp (exponent : Int) (significand : UInt64) : Int :=
  exponent - Limb.leadingZeros significand

end CrossFloat
