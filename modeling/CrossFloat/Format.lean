/-
Floating point formats of target machines.

A format is a layout of bits, the rounding mode that belongs to it, and what it
does with results too small to be normal.  A layout is binary or hexadecimal.
The widths that a layout accepts are part of its type, so every `Format` is one
that a machine could have, and everything else (the exponent range, the bias,
the widths of the fields) is computed from the widths.

Exponents are powers of two throughout, also in a hexadecimal format, and the
exponent of a number is that of its leading bit.
-/

namespace CrossFloat

/-- The direction in which a result that is not representable is rounded. -/
inductive RoundingMode where
  /-- To the candidate that is smaller in magnitude. -/
  | towardZero
  /-- To the nearer candidate, and to the one with an even last place from
  halfway. -/
  | nearestEven
  /-- To the candidate that is greater. -/
  | towardPositive
  /-- To the candidate that is less. -/
  | towardNegative
  /-- To the nearer candidate, and to the one larger in magnitude from
  halfway. -/
  | nearestAway
  deriving DecidableEq, Inhabited

/-- What becomes of a result below the normal range. -/
inductive Underflow where
  /-- It keeps the last place of the smallest normal number, and so loses
  precision by degrees. -/
  | gradual
  /-- It is flushed to zero. -/
  | sudden
  deriving DecidableEq, Inhabited

structure BinaryLayout where
  /-- The width of the biased exponent. -/
  exponentWidth : Nat
  /-- The precision, leading bit included. -/
  precision : Nat
  /-- Whether the leading bit of the significand is stored. -/
  storesLeadingBit : Bool
  /-- Whether the largest biased exponent is kept for infinities and NaNs. -/
  hasSpecials : Bool
  /-- Whether zero has a negative form. -/
  hasNegativeZero : Bool
  exponentWidth_mem : 2 ≤ exponentWidth ∧ exponentWidth ≤ 30
  precision_mem : 3 ≤ precision ∧ precision ≤ 64
  deriving DecidableEq

/-- What a binary layout adds to an exponent to store it. -/
def BinaryLayout.bias (b : BinaryLayout) : Nat :=
  (1 <<< (b.exponentWidth - 1)) - 1

/-- A base-16 layout: a sign, an excess exponent that counts powers of 16, and a
fraction of whole hexadecimal digits with none of them hidden.  It has neither
infinities, NaNs nor a negative zero. -/
structure HexadecimalLayout where
  /-- The width of the biased exponent. -/
  exponentWidth : Nat
  /-- The number of fraction digits. -/
  digits : Nat
  exponentWidth_mem : 2 ≤ exponentWidth ∧ exponentWidth ≤ 24
  digits_mem : 1 ≤ digits ∧ digits ≤ 16
  deriving DecidableEq

/-- What a hexadecimal layout adds to a power of 16 to store it. -/
def HexadecimalLayout.bias (h : HexadecimalLayout) : Nat :=
  1 <<< (h.exponentWidth - 1)

inductive Layout where
  | binary (layout : BinaryLayout)
  | hexadecimal (layout : HexadecimalLayout)
  deriving DecidableEq

structure Format where
  layout : Layout
  rounding : RoundingMode
  underflow : Underflow
  deriving DecidableEq

/-- The reasons for which a format is refused. -/
inductive FormatError where
  | exponentWidth
  | significandWidth
  deriving DecidableEq

namespace Format

/-! ## Making formats -/

/-- The binary interchange format with `exponentWidth` bits of exponent and a
precision of `precision`.  It rounds to nearest even, underflows
gradually, hides the leading bit, and has infinities, NaNs and signed zeros. -/
def ieee (exponentWidth precision : Nat) : Except FormatError Format :=
  if he : 2 ≤ exponentWidth ∧ exponentWidth ≤ 30 then
    if hs : 3 ≤ precision ∧ precision ≤ 64 then
      .ok ⟨.binary ⟨exponentWidth, precision, false, true, true, he, hs⟩,
        .nearestEven, .gradual⟩
    else .error .significandWidth
  else .error .exponentWidth

/-- The base-16 format with `exponentWidth` bits of exponent and `digits`
fraction digits.  It rounds toward zero and flushes underflows to zero. -/
def hexadecimal (exponentWidth digits : Nat) : Except FormatError Format :=
  if he : 2 ≤ exponentWidth ∧ exponentWidth ≤ 24 then
    if hd : 1 ≤ digits ∧ digits ≤ 16 then
      .ok ⟨.hexadecimal ⟨exponentWidth, digits, he, hd⟩, .towardZero, .sudden⟩
    else .error .significandWidth
  else .error .exponentWidth

def single : Format :=
  ⟨.binary ⟨8, 24, false, true, true, by decide, by decide⟩, .nearestEven, .gradual⟩

def double : Format :=
  ⟨.binary ⟨11, 53, false, true, true, by decide, by decide⟩, .nearestEven, .gradual⟩

/-- The 80-bit binary format, which stores its leading bit. -/
def extended : Format :=
  ⟨.binary ⟨15, 64, true, true, true, by decide, by decide⟩, .nearestEven, .gradual⟩

def withRounding (F : Format) (mode : RoundingMode) : Format :=
  { F with rounding := mode }

def withUnderflow (F : Format) (underflow : Underflow) : Format :=
  { F with underflow := underflow }

/-- The same format without infinities and NaNs. -/
def withoutSpecials (F : Format) : Format :=
  match F.layout with
  | .binary b => { F with layout := .binary { b with hasSpecials := false } }
  | .hexadecimal _ => F

def withoutNegativeZero (F : Format) : Format :=
  match F.layout with
  | .binary b => { F with layout := .binary { b with hasNegativeZero := false } }
  | .hexadecimal _ => F

/-- The same format with the leading bit of the significand stored. -/
def storingLeadingBit (F : Format) : Format :=
  match F.layout with
  | .binary b => { F with layout := .binary { b with storesLeadingBit := true } }
  | .hexadecimal _ => F

/-! ## Parameters -/

/-- The base-two logarithm of the radix. -/
def digitWidth (F : Format) : Nat :=
  match F.layout with
  | .binary _ => 1
  | .hexadecimal _ => 4

/-- The precision in bits, leading bit included. -/
def precision (F : Format) : Nat :=
  match F.layout with
  | .binary b => b.precision
  | .hexadecimal h => 4 * h.digits

def exponentWidth (F : Format) : Nat :=
  match F.layout with
  | .binary b => b.exponentWidth
  | .hexadecimal h => h.exponentWidth

/-- Whether the format has infinities and NaNs. -/
def hasSpecials (F : Format) : Bool :=
  match F.layout with
  | .binary b => b.hasSpecials
  | .hexadecimal _ => false

def hasNegativeZero (F : Format) : Bool :=
  match F.layout with
  | .binary b => b.hasNegativeZero
  | .hexadecimal _ => false

/-- Whether the leading bit, or the leading digit, of the significand is stored. -/
def storesLeadingBit (F : Format) : Bool :=
  match F.layout with
  | .binary b => b.storesLeadingBit
  | .hexadecimal _ => true

/-- What is added to an exponent to store it.  It counts powers of the radix. -/
def bias (F : Format) : Nat :=
  match F.layout with
  | .binary b => b.bias
  | .hexadecimal h => h.bias

/-- The exponent of the smallest normal number.  The smallest hexadecimal
fraction with a nonzero leading digit is `0.1`, whose leading bit lies four
places below the point. -/
def minExponent (F : Format) : Int :=
  match F.layout with
  | .binary _ => 1 - F.bias
  | .hexadecimal _ => -4 * F.bias - 4

def maxExponent (F : Format) : Int :=
  match F.layout with
  | .binary _ => F.bias
  | .hexadecimal _ => 4 * (F.bias - 1) - 1

/-- The width of the field that stores the significand. -/
def fractionWidth (F : Format) : Nat :=
  if F.storesLeadingBit then F.precision else F.precision - 1

/-- The width of an encoding: the sign, the biased exponent and the fraction. -/
def storageWidth (F : Format) : Nat :=
  1 + F.exponentWidth + F.fractionWidth

/-- The width of an encoding in whole bytes. -/
def storageBytes (F : Format) : Nat :=
  (F.storageWidth + 7) / 8

/-- The width of a NaN payload: the significand less its leading bit and the bit
that tells a quiet NaN. -/
def payloadWidth (F : Format) : Nat :=
  F.precision - 2

/-- The exponent of the last place of a number whose leading bit is at `exp`.
The leading digit that holds this bit ends at the next multiple of the digit's
width, and the last place lies the whole precision below that. -/
def lastPlace (F : Format) (exp : Int) : Int :=
  F.digitWidth * (exp / F.digitWidth + 1) - F.precision

/-! ## Bounds on the widths -/

theorem precision_le (F : Format) : F.precision ≤ 64 := by
  unfold precision
  split
  · next b _ => exact b.precision_mem.2
  · next h _ => have := h.digits_mem.2; omega

/-- A precision leaves room for the leading bit, the quiet bit and a payload. -/
theorem three_le_precision (F : Format) : 3 ≤ F.precision := by
  unfold precision
  split
  · next b _ => exact b.precision_mem.1
  · next h _ => have := h.digits_mem.1; omega

theorem payloadWidth_pos (F : Format) : 0 < F.payloadWidth := by
  have := F.three_le_precision
  unfold payloadWidth
  omega

theorem exponentWidth_le (F : Format) : F.exponentWidth ≤ 30 := by
  unfold exponentWidth
  split
  · next b _ => exact b.exponentWidth_mem.2
  · next h _ => have := h.exponentWidth_mem.2; omega

/-- An encoding fits in 128 bits. -/
theorem storageWidth_le (F : Format) : F.storageWidth ≤ 95 := by
  have := F.exponentWidth_le
  have := F.precision_le
  unfold storageWidth fractionWidth
  split <;> omega

end Format
end CrossFloat
