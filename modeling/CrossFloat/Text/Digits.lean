/-
Numbers as digits.
-/

namespace CrossFloat
namespace Digits

/-- The `width` lowest digits of a number in a base of at most 16, the most
significant first. -/
def fixed (base : Nat) : Nat → Nat → List Char
  | 0, _ => []
  | width + 1, n => fixed base width (n / base) ++ [Nat.digitChar (n % base)]

/-- The digits of a number in a base of at most 16, without leading zeros. -/
def free (base n : Nat) : List Char :=
  Nat.toDigits base n

def dropTrailingZeros (digits : List Char) : List Char :=
  (digits.reverse.dropWhile (· == '0')).reverse

/-- An integer in decimal, with a minus sign if it is negative. -/
def integer (n : Int) : List Char :=
  if n < 0 then '-' :: free 10 n.natAbs else free 10 n.natAbs

/-- An integer in decimal, with a sign in any case. -/
def signed (n : Int) : List Char :=
  (if n < 0 then '-' else '+') :: free 10 n.natAbs

theorem length_fixed (base width n : Nat) : (fixed base width n).length = width := by
  induction width generalizing n with
  | zero => rfl
  | succ width ih => simp [fixed, ih]

end Digits
end CrossFloat
