/-
Long division of one normalised 128-bit quantity by another.

Both operands have their topmost bit set, so their quotient lies between one
half and two.  The first quotient bit is worth one, and 128 bits of quotient
reach down to 2^-127.

The division is non-restoring.  The textbook keeps a partial remainder `p`,
compares it with the divisor `d`, subtracts `d` where it fits, and doubles.  Here
the trial difference `r = p - d` is kept instead, and it may be negative.  The
quotient bit is one when `r` is not negative.  The next trial difference follows
without putting `d` back: it is `2r - d` after a one, and `2(r + d) - d = 2r + d`
after a zero.  Throughout, `r` lies between `-d` and `d`, so `2r` needs 130 bits
with its sign, and the difference is kept in three limbs of two's complement.
-/
import CrossFloat.Limb.Word192

namespace CrossFloat

/-- A long division under way: the quotient bits found so far, and the trial
difference that decides the next one. -/
structure Trial where
  quotient : Word128
  difference : Word192

namespace Trial

/-- The next quotient bit: the divisor fits when the trial difference is not
negative. -/
def fits (t : Trial) : Bool :=
  !t.difference.isNegative

def extended (t : Trial) : Word128 :=
  let doubled := t.quotient.shiftLeft 1
  ⟨doubled.hi, doubled.lo ||| t.fits.toUInt64⟩

/-- One bit further: the bit goes to the quotient, and the next trial difference
is the doubled one less the divisor or plus the divisor. -/
def next (d : Word192) (t : Trial) : Trial :=
  let doubled := t.difference.shiftLeft 1
  ⟨t.extended, if t.fits then (doubled.subBorrow d).1 else (doubled.addCarry d).1⟩

def advance (d : Word192) : Nat → Trial → Trial
  | 0, t => t
  | count + 1, t => advance d count (t.next d)

/-- The partial remainder behind the trial difference: a trial that did not fit
is taken back. -/
def remainder (d : Word192) (t : Trial) : Word192 :=
  if t.fits then t.difference else (t.difference.addCarry d).1

end Trial

/-- The first 128 bits of the quotient `n / d`, with the topmost bit worth one,
and whether anything remains after them.  Both operands must have their topmost
bit set. -/
def Word128.divide (n d : Word128) : Word128 × Bool :=
  let divisor := Word192.ofLow d
  let start : Trial := ⟨.zero, ((Word192.ofLow n).subBorrow divisor).1⟩
  let last := start.advance divisor 127
  (last.extended, !(last.remainder divisor).isZero)

end CrossFloat
