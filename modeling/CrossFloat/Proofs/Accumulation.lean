/-
Flags accumulate and have no influence.

A flag on an operand is a flag on the result, and nothing else about the result
depends on it.  So every operation commutes with the raising of flags: those of the
operands are united and raised on the result.

Nothing is decided by a flag, so the proof follows each computation from the
rounding outwards.  A chain of operations meets the flags of one operand several
times, which makes no difference because a union is idempotent.  What is read off a
value without rounding (its order, its number, its text) does not see the flags.
-/
import CrossFloat.Complex
import CrossFloat.Integer
import CrossFloat.Order
import CrossFloat.Proofs.Encoding
import CrossFloat.Text.Hexadecimal

namespace CrossFloat

/-! ## Roundings -/

namespace Context

variable (c : Context) (sign : Sign) (v : ℚ) (flags raised : Flags)

theorem saturated_raise :
    Intermediate.saturated sign (flags ∪ raised) c =
      (Intermediate.saturated sign flags c).raise raised := by
  rw [Intermediate.saturated, Intermediate.saturated]
  split <;> rw [Value.raise_raise] <;> congr 1 <;> ac_rfl

/-- The flags that a number comes with are raised on its rounding. -/
theorem roundRat_raise :
    c.roundRat sign v (flags ∪ raised) = (c.roundRat sign v flags).raise raised := by
  rw [roundRat, roundRat]
  split_ifs
  · exact (Value.raise_raise ..).symm
  · rw [Value.raise_raise]
    congr 1
    ac_rfl
  · exact saturated_raise ..
  · rw [Value.raise_raise]
    congr 1
    ac_rfl

end Context

/-- The same number with `flags` among its flags. -/
def Intermediate.raise (u : Intermediate) (flags : Flags) : Intermediate :=
  { u with flags := u.flags ∪ flags }

theorem Intermediate.round_raise (u : Intermediate) (flags : Flags) (c : Context) :
    (u.raise flags).round c = (u.round c).raise flags := by
  rw [round_eq_roundRat, round_eq_roundRat, ← Context.roundRat_raise]
  rfl

namespace Pending

/-- The same result with `flags` among its flags. -/
def raise : Pending → Flags → Pending
  | settled value, flags => settled (value.raise flags)
  | number intermediate, flags => number (intermediate.raise flags)

theorem round_raise (p : Pending) (flags : Flags) (c : Context) :
    (p.raise flags).round c = (p.round c).raise flags := by
  cases p with
  | settled value => rfl
  | number intermediate => exact intermediate.round_raise flags c

end Pending

/-! ## Operations on values -/

namespace Value

variable (x y : Value) (f g : Flags) (c : Context)

theorem invalidResult_raise : invalidResult (f ∪ g) = (invalidResult f).raise g := by
  have hflags : f ∪ g ∪ .onInvalid = f ∪ .onInvalid ∪ g := by ac_rfl
  rw [invalidResult, hflags]
  rfl

theorem sumWithSign_raise (signY : Sign) :
    (x.raise f).sumWithSign (y.raise g) signY c =
      (x.sumWithSign y signY c).raise (f ∪ g) := by
  obtain ⟨signX, flagsX, magnitudeX⟩ := x
  obtain ⟨signY', flagsY, magnitudeY⟩ := y
  have hflags : flagsX ∪ f ∪ (flagsY ∪ g) = flagsX ∪ flagsY ∪ (f ∪ g) := by ac_rfl
  dsimp only [raise, sumWithSign]
  rw [hflags]
  cases magnitudeX with
  | nan payload => rfl
  | infinite =>
    cases magnitudeY with
    | zero | finite | nan => rfl
    | infinite =>
      dsimp only
      split
      · rfl
      · exact congrArg Pending.settled (invalidResult_raise ..)
  | zero => cases magnitudeY <;> rfl
  | finite =>
    cases magnitudeY with
    | zero | infinite | nan => rfl
    | finite =>
      dsimp only
      split <;> rfl

theorem product_raise :
    (x.raise f).product (y.raise g) c = (x.product y c).raise (f ∪ g) := by
  obtain ⟨signX, flagsX, magnitudeX⟩ := x
  obtain ⟨signY, flagsY, magnitudeY⟩ := y
  have hflags : flagsX ∪ f ∪ (flagsY ∪ g) = flagsX ∪ flagsY ∪ (f ∪ g) := by ac_rfl
  dsimp only [raise, product]
  rw [hflags]
  cases magnitudeX with
  | nan payload => rfl
  | infinite =>
    cases magnitudeY with
    | zero => exact congrArg Pending.settled (invalidResult_raise ..)
    | finite | infinite | nan => rfl
  | zero =>
    cases magnitudeY with
    | infinite => exact congrArg Pending.settled (invalidResult_raise ..)
    | zero | finite | nan => rfl
  | finite => cases magnitudeY <;> rfl

theorem quotient_raise :
    (x.raise f).quotient (y.raise g) c = (x.quotient y c).raise (f ∪ g) := by
  obtain ⟨signX, flagsX, magnitudeX⟩ := x
  obtain ⟨signY, flagsY, magnitudeY⟩ := y
  have hflags : flagsX ∪ f ∪ (flagsY ∪ g) = flagsX ∪ flagsY ∪ (f ∪ g) := by ac_rfl
  dsimp only [raise, quotient]
  rw [hflags]
  cases magnitudeX with
  | nan payload => rfl
  | infinite =>
    cases magnitudeY with
    | infinite => exact congrArg Pending.settled (invalidResult_raise ..)
    | zero | finite | nan => rfl
  | zero =>
    cases magnitudeY with
    | zero => exact congrArg Pending.settled (invalidResult_raise ..)
    | finite | infinite | nan => rfl
  | finite =>
    cases magnitudeY with
    | finite | infinite | nan => rfl
    | zero =>
      have hraised : flagsX ∪ flagsY ∪ (f ∪ g) ∪ .onDivByZero =
          flagsX ∪ flagsY ∪ .onDivByZero ∪ (f ∪ g) := by ac_rfl
      dsimp only
      rw [hraised]
      rfl

theorem conversion_raise : (x.raise f).conversion c = (x.conversion c).raise f := by
  obtain ⟨sign, flags, magnitude⟩ := x
  cases magnitude <;> rfl

theorem convert_raise : (x.raise f).convert c = (x.convert c).raise f := by
  rw [convert, conversion_raise, Pending.round_raise]
  rfl

theorem add_raise : (x.raise f).add (y.raise g) c = (x.add y c).raise (f ∪ g) := by
  rw [add, sum, sumWithSign_raise, Pending.round_raise]
  rfl

theorem sub_raise : (x.raise f).sub (y.raise g) c = (x.sub y c).raise (f ∪ g) := by
  rw [sub, difference, sumWithSign_raise, Pending.round_raise]
  rfl

theorem mul_raise : (x.raise f).mul (y.raise g) c = (x.mul y c).raise (f ∪ g) := by
  rw [mul, product_raise, Pending.round_raise]
  rfl

theorem div_raise : (x.raise f).div (y.raise g) c = (x.div y c).raise (f ∪ g) := by
  rw [div, quotient_raise, Pending.round_raise]
  rfl

end Value

/-! ## Operations on complex numbers -/

namespace Quantity

variable (q : Quantity) (flags raised : Flags) (c : Context)

theorem pending_raise : q.pending (flags ∪ raised) c = (q.pending flags c).raise raised := by
  cases q <;> rfl

theorem quotient_raise (denominator : Nonzero) :
    q.quotient denominator (flags ∪ raised) c =
      (q.quotient denominator flags c).raise raised := by
  cases q <;> rfl

end Quantity

namespace Complex

/-- The same number with `f` among the flags of its real part and `g` among those
of its imaginary part. -/
def raise (z : Complex) (f g : Flags) : Complex :=
  ⟨z.re.raise f, z.im.raise g⟩

variable (x y : Complex) (f f' g g' : Flags) (c : Context)

theorem flags_raise :
    (x.raise f f').flags ∪ (y.raise g g').flags =
      x.flags ∪ y.flags ∪ (f ∪ f' ∪ (g ∪ g')) := by
  show x.re.flags ∪ f ∪ (x.im.flags ∪ f') ∪ (y.re.flags ∪ g ∪ (y.im.flags ∪ g')) =
    x.re.flags ∪ x.im.flags ∪ (y.re.flags ∪ y.im.flags) ∪ (f ∪ f' ∪ (g ∪ g'))
  ac_rfl

theorem value_ofPending_raise (re im : Pending) (flags : Flags) :
    (ofPending (re.raise flags) (im.raise flags) c).value =
      (ofPending re im c).value.raise flags flags := by
  rw [value_ofPending, Pending.round_raise, Pending.round_raise]
  rfl

theorem value_fusedProduct_raise :
    ((x.raise f f').fusedProduct (y.raise g g') c).value =
      (x.fusedProduct y c).value.raise (f ∪ f' ∪ (g ∪ g')) (f ∪ f' ∪ (g ∪ g')) := by
  rw [fusedProduct, flags_raise, Quantity.pending_raise _ (x.flags ∪ y.flags),
    Quantity.pending_raise _ (x.flags ∪ y.flags), value_ofPending_raise]
  rfl

theorem value_fusedQuotient_raise (denominator : Nonzero) :
    ((x.raise f f').fusedQuotient (y.raise g g') denominator c).value =
      (x.fusedQuotient y denominator c).value.raise (f ∪ f' ∪ (g ∪ g'))
        (f ∪ f' ∪ (g ∪ g')) := by
  rw [fusedQuotient, flags_raise, Quantity.quotient_raise _ (x.flags ∪ y.flags),
    Quantity.quotient_raise _ (x.flags ∪ y.flags), value_ofPending_raise]
  rfl

theorem value_textbookProduct_raise :
    ((x.raise f f').textbookProduct (y.raise g g') c).value =
      (x.textbookProduct y c).value.raise (f ∪ f' ∪ (g ∪ g')) (f ∪ f' ∪ (g ∪ g')) := by
  simp only [value_textbookProduct, raise, Value.mul_raise, Value.sub_raise, Value.add_raise]
  congr 2 <;> ac_rfl

/-- The divisor takes part in the numerators and in the denominator. -/
theorem value_textbookQuotient_raise :
    ((x.raise f f').textbookQuotient (y.raise g g') c).value =
      (x.textbookQuotient y c).value.raise (f ∪ f' ∪ (g ∪ g')) (f ∪ f' ∪ (g ∪ g')) := by
  simp only [value_textbookQuotient, raise, Value.mul_raise, Value.sub_raise, Value.add_raise,
    Value.div_raise]
  congr 2 <;> ac_rfl

theorem mul_raise :
    (x.raise f f').mul (y.raise g g') c =
      (x.mul y c).raise (f ∪ f' ∪ (g ∪ g')) (f ∪ f' ∪ (g ∪ g')) := by
  have hfinite : ((x.raise f f').isFinite && (y.raise g g').isFinite) =
      (x.isFinite && y.isFinite) := rfl
  rw [mul, mul, product, product, hfinite]
  split
  · exact value_fusedProduct_raise ..
  · exact value_textbookProduct_raise ..

theorem div_raise :
    (x.raise f f').div (y.raise g g') c =
      (x.div y c).raise (f ∪ f' ∪ (g ∪ g')) (f ∪ f' ∪ (g ∪ g')) := by
  have hfinite : ((x.raise f f').isFinite && (y.raise g g').isFinite) =
      (x.isFinite && y.isFinite) := rfl
  have hmagnitude : (y.raise g g').squaredMagnitude c = y.squaredMagnitude c := rfl
  rw [div, div, quotient, quotient, hfinite, hmagnitude]
  split
  · split
    · exact value_fusedQuotient_raise ..
    · exact value_textbookQuotient_raise ..
  · exact value_textbookQuotient_raise ..

end Complex

/-! ## Encodings -/

namespace Value

variable (x : Value) (f : Flags) (c : Context)

/-- The fields of an encoding hold a sign and a magnitude. -/
theorem encode_raise : (x.raise f).encode c = x.encode c := by
  have hfields := c.format.fields_encodable_congr
    (show ((x.convert c).raise f).clearFlags = (x.convert c).clearFlags from rfl)
  rw [encode, convert_raise, Format.encodeRounded, hfields]
  rfl

theorem encodeBytes_raise : (x.raise f).encodeBytes c = x.encodeBytes c := by
  rw [encodeBytes, encode_raise]
  rfl

end Value

/-- Flags of operands are flags of the result, in arithmetic, in conversions and in
both components of complex results, and make no other difference.  They make none
to encodings, to comparisons, to conversions to integers and to texts. -/
theorem flags_accumulate :
    (∀ (x y : Value) (f g : Flags) (c : Context),
      (x.raise f).add (y.raise g) c = (x.add y c).raise (f ∪ g) ∧
        (x.raise f).sub (y.raise g) c = (x.sub y c).raise (f ∪ g) ∧
        (x.raise f).mul (y.raise g) c = (x.mul y c).raise (f ∪ g) ∧
        (x.raise f).div (y.raise g) c = (x.div y c).raise (f ∪ g) ∧
        (x.raise f).convert c = (x.convert c).raise f) ∧
    (∀ (x y : Complex) (f f' g g' : Flags) (c : Context),
      let all := f ∪ f' ∪ (g ∪ g')
      (x.raise f f').mul (y.raise g g') c = (x.mul y c).raise all all ∧
        (x.raise f f').div (y.raise g g') c = (x.div y c).raise all all) ∧
    ∀ (x y : Value) (f g : Flags),
      (∀ c : Context, (x.raise f).encode c = x.encode c ∧
        (x.raise f).encodeBytes c = x.encodeBytes c) ∧
      (x.raise f).compare (y.raise g) = x.compare y ∧
      (∀ r : OrderRelation, Value.related r (x.raise f) (y.raise g) = Value.related r x y) ∧
      (∀ t : IntegerType, (x.raise f).toIntegerReporting t = x.toIntegerReporting t) ∧
      (x.raise f).text = x.text := by
  refine ⟨fun x y f g c => ?_, fun x y f f' g g' c => ?_, fun x y f g => ?_⟩
  · exact ⟨Value.add_raise .., Value.sub_raise .., Value.mul_raise .., Value.div_raise ..,
      Value.convert_raise ..⟩
  · exact ⟨Complex.mul_raise .., Complex.div_raise ..⟩
  · exact ⟨fun c => ⟨Value.encode_raise .., Value.encodeBytes_raise ..⟩, rfl, fun _ => rfl,
      fun _ => rfl, rfl⟩

end CrossFloat
