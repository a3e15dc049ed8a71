/-
The product of two limbs from the products of their halves.

With `B = 2^32`, the factors `a₁B + a₀` and `b₁B + b₀` have the product
`a₁b₁B² + (a₀b₁ + a₁b₀)B + a₀b₀`.  The middle column collects what falls on `B`
from the three lower products.  Each of its summands is below `B`, so the
column and its carry stay within a limb.
-/
import CrossFloat.Proofs.Limb.Shift
import Mathlib.Tactic.Ring

namespace CrossFloat
namespace Limb

theorem toNat_lowHalf (x : UInt64) : (x &&& 0xffffffff).toNat = x.toNat % 2 ^ 32 := by
  rw [UInt64.toNat_and]
  exact Nat.and_two_pow_sub_one_eq_mod x.toNat 32

theorem toNat_highHalf (x : UInt64) : (x >>> 32).toNat = x.toNat / 2 ^ 32 :=
  toNat_shiftRight x (by decide)

theorem half_mul_half {a b : Nat} (ha : a < 2 ^ 32) (hb : b < 2 ^ 32) :
    a * b ≤ (2 ^ 32 - 1) * (2 ^ 32 - 1) :=
  Nat.mul_le_mul (by omega) (by omega)

theorem toNat_mul_halves {a b : UInt64} (ha : a.toNat < 2 ^ 32) (hb : b.toNat < 2 ^ 32) :
    (a * b).toNat = a.toNat * b.toNat := by
  have h := half_mul_half ha hb
  rw [UInt64.toNat_mul, Nat.mod_eq_of_lt (by omega)]

theorem toNat_join (low middle : UInt64) :
    ((low &&& (0xffffffff : UInt64)) ||| (middle <<< (32 : UInt64))).toNat =
      middle.toNat % 2 ^ 32 * 2 ^ 32 + low.toNat % 2 ^ 32 := by
  have hlt : low.toNat % 2 ^ 32 < 2 ^ 32 := Nat.mod_lt _ (by decide)
  have hmoved : (middle <<< 32).toNat = 2 ^ 32 * (middle.toNat % 2 ^ 32) := by
    rw [show middle <<< 32 = middle <<< (32 : Nat).toUInt64 from rfl,
      toNat_shiftLeft middle (by decide)]
    omega
  rw [UInt64.toNat_or, toNat_lowHalf, hmoved, Nat.or_comm, ← Nat.two_pow_add_eq_or_of_lt hlt,
    Nat.mul_comm]

/-- The four products of halves, added up column by column.  No column and no
carry leaves its limb. -/
theorem toNat_columns {low cross₁ cross₂ high : UInt64}
    (hlow : low.toNat ≤ (2 ^ 32 - 1) * (2 ^ 32 - 1))
    (hcross₁ : cross₁.toNat ≤ (2 ^ 32 - 1) * (2 ^ 32 - 1))
    (hcross₂ : cross₂.toNat ≤ (2 ^ 32 - 1) * (2 ^ 32 - 1))
    (hhigh : high.toNat ≤ (2 ^ 32 - 1) * (2 ^ 32 - 1)) :
    let middle := (low >>> 32) + (cross₁ &&& 0xffffffff) + (cross₂ &&& 0xffffffff)
    (Word128.mk (high + (cross₁ >>> 32) + (cross₂ >>> 32) + (middle >>> 32))
        ((low &&& (0xffffffff : UInt64)) ||| (middle <<< (32 : UInt64)))).toNat =
      high.toNat * 2 ^ 64 + (cross₁.toNat + cross₂.toNat) * 2 ^ 32 + low.toNat := by
  intro middle
  have hmiddle : middle.toNat =
      low.toNat / 2 ^ 32 + cross₁.toNat % 2 ^ 32 + cross₂.toNat % 2 ^ 32 := by
    rw [UInt64.toNat_add, UInt64.toNat_add, toNat_highHalf, toNat_lowHalf, toNat_lowHalf]
    omega
  rw [Word128.toNat, toNat_join, UInt64.toNat_add, UInt64.toNat_add, UInt64.toNat_add,
    toNat_highHalf, toNat_highHalf, toNat_highHalf, hmiddle]
  omega

end Limb

namespace Word128

theorem toNat_ofProduct (a b : UInt64) : (ofProduct a b).toNat = a.toNat * b.toNat := by
  have hlower (x : UInt64) : (x &&& 0xffffffff).toNat < 2 ^ 32 := by
    rw [Limb.toNat_lowHalf]
    exact Nat.mod_lt _ (by decide)
  have hupper (x : UInt64) : (x >>> 32).toNat < 2 ^ 32 := by
    rw [Limb.toNat_highHalf]
    have := x.toNat_lt
    omega
  have hbound {x y : UInt64} (hx : x.toNat < 2 ^ 32) (hy : y.toNat < 2 ^ 32) :
      (x * y).toNat ≤ (2 ^ 32 - 1) * (2 ^ 32 - 1) := by
    rw [Limb.toNat_mul_halves hx hy]
    exact Limb.half_mul_half hx hy
  have hcolumns := Limb.toNat_columns (hbound (hlower a) (hlower b)) (hbound (hlower a) (hupper b))
    (hbound (hupper a) (hlower b)) (hbound (hupper a) (hupper b))
  rw [ofProduct, hcolumns, Limb.toNat_mul_halves (hlower a) (hlower b),
    Limb.toNat_mul_halves (hlower a) (hupper b), Limb.toNat_mul_halves (hupper a) (hlower b),
    Limb.toNat_mul_halves (hupper a) (hupper b)]
  have ha : a.toNat = (a >>> 32).toNat * 2 ^ 32 + (a &&& 0xffffffff).toNat := by
    rw [Limb.toNat_highHalf, Limb.toNat_lowHalf, Nat.div_add_mod']
  have hb : b.toNat = (b >>> 32).toNat * 2 ^ 32 + (b &&& 0xffffffff).toNat := by
    rw [Limb.toNat_highHalf, Limb.toNat_lowHalf, Nat.div_add_mod']
  rw [ha, hb]
  ring

end Word128
end CrossFloat
