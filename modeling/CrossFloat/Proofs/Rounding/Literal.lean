/-
Literals.

A literal is a kind, an exponent and a significand, as a reader of digits found them, and
its kind decides which of the other two count.  They make a magnitude, and a literal is the
conversion of the value with that magnitude.  So a number is rounded correctly, wherever its
leading bit stands and however large its exponent is, and the payload of a NaN is cut.

An infinity is the exception.  Where the format has none, a conversion hands it on, but a
literal becomes the largest number, as does every number beyond the range.
-/
import CrossFloat.Proofs.Rounding.Idempotent

namespace CrossFloat

/-! ## Parts -/

/-- Whether the exponent counts in a literal of the kind. -/
def Kind.hasExponent : Kind → Bool
  | normal | denormal => true
  | zero | infinite | nan | nanPayload => false

/-- Whether the significand counts in a literal of the kind. -/
def Kind.hasSignificand : Kind → Bool
  | normal | denormal | nanPayload => true
  | zero | infinite | nan => false

namespace Magnitude

variable {kind : Kind} {exponent exponent' : ℤ} {significand significand' : UInt64}

/-- The parts that count for the kind make a difference, and no others do. -/
theorem ofParts_eq_ofParts_iff :
    ofParts kind exponent significand = ofParts kind exponent' significand' ↔
      (kind.hasExponent = true → exponent = exponent') ∧
        (kind.hasSignificand = true → significand = significand') := by
  cases kind <;> simp [ofParts, Kind.hasExponent, Kind.hasSignificand]

theorem isFinite_ofParts (h : kind.hasExponent = true) (sign : Sign) (flags : Flags) :
    (Value.mk sign flags (ofParts kind exponent significand)).isFinite = true := by
  cases kind with
  | normal | denormal => rfl
  | zero | infinite | nan | nanPayload => exact absurd h Bool.false_ne_true

theorem toRat_ofParts (h : kind.hasExponent = true) :
    (ofParts kind exponent significand).toRat = significand.toNat * 2 ^ (exponent - 63) := by
  cases kind with
  | normal | denormal => rfl
  | zero | infinite | nan | nanPayload => exact absurd h Bool.false_ne_true

end Magnitude

/-! ## Values -/

namespace Value

variable {kind : Kind} {exponent exponent' : ℤ} {significand significand' : UInt64} {x : Value}
  {c : Context} (sign : Sign) (flags : Flags)

/-- Parts that do not count for the kind are ignored. -/
theorem ofLiteral_congr (hexponent : kind.hasExponent = true → exponent = exponent')
    (hsignificand : kind.hasSignificand = true → significand = significand') :
    ofLiteral kind sign exponent significand flags c =
      ofLiteral kind sign exponent' significand' flags c := by
  rw [ofLiteral, Magnitude.ofParts_eq_ofParts_iff.2 ⟨hexponent, hsignificand⟩, ofLiteral]

/-- Whether a number is denormal is for the format to say, and not for its literal. -/
theorem ofLiteral_denormal :
    ofLiteral .denormal sign exponent significand flags c =
      ofLiteral .normal sign exponent significand flags c := rfl

theorem ofLiteral_eq_convert (h : kind = .infinite → c.format.hasSpecials = true) :
    ofLiteral kind sign exponent significand flags c =
      convert ⟨sign, flags, .ofParts kind exponent significand⟩ c := by
  cases kind with
  | zero | normal | denormal | nan | nanPayload => rfl
  | infinite =>
    rw [convert_of_infinite c rfl, ofLiteral, Magnitude.ofParts, literal, if_pos (h rfl)]
    show (infinity sign).raise flags = _
    rw [infinity, raise, Flags.empty_union]

/-- A literal with an exponent is rounded correctly. -/
theorem correctRounding_ofLiteral (h : kind.hasExponent = true) :
    CorrectRounding c sign (significand.toNat * 2 ^ (exponent - 63)) flags
      (ofLiteral kind sign exponent significand flags c) := by
  have hinfinite : kind = .infinite → c.format.hasSpecials = true := by
    rintro rfl
    exact absurd h Bool.false_ne_true
  rw [ofLiteral_eq_convert sign flags hinfinite,
    convert_eq_roundRat (Magnitude.isFinite_ofParts h sign flags), ← Magnitude.toRat_ofParts h]
  exact correctRounding_roundRat (Magnitude.toRat_nonneg _)

/-- Three halves, with a leading zero in the significand. -/
example : ofLiteral .normal .positive 1 0x6000000000000000 ∅ Format.double.alone =
    ⟨.positive, ∅, .finite .normal 0 0xc000000000000000⟩ := by decide

/-- Without infinities an infinite literal is saturated as a number beyond the range is. -/
theorem ofLiteral_infinite (h : c.format.hasSpecials = false) {v : ℚ}
    (hv : 2 ^ (c.format.maxExponent + 1) ≤ v) :
    ofLiteral .infinite sign exponent significand flags c = c.roundRat sign v flags := by
  have hspecials : ¬ c.format.hasSpecials = true := by
    rw [h]
    exact Bool.false_ne_true
  have hstay : ¬ (c.format.hasSpecials ∧ c.mode.LeavesRange sign) :=
    fun haway => hspecials haway.1
  rw [c.roundRat_of_large sign flags hv, Intermediate.saturated_of_not_leavesRange hstay,
    ofLiteral, Magnitude.ofParts, literal, if_neg hspecials]
  rfl

theorem magnitude_eq_infinite (h : x.kind = .infinite) : x.magnitude = .infinite := by
  rw [← x.magnitude.ofParts_parts]
  show Magnitude.ofParts x.kind _ _ = _
  rw [h]
  rfl

/-- A value of the format comes back from its own parts, and is reported if it is
denormal. -/
theorem ofLiteral_parts (hx : c.format.Contains x) :
    ofLiteral x.kind x.sign x.exponent x.significand x.flags c =
      if x.isDenormal then x.raise .onUnderflow else x := by
  have hspecials (hkind : x.kind = .infinite) : c.format.hasSpecials = true := by
    apply hx.hasSpecials
    rw [isFinite, magnitude_eq_infinite hkind]
  rw [ofLiteral_eq_convert x.sign x.flags hspecials, exponent, significand, kind,
    Magnitude.ofParts_parts]
  exact convert_of_keeps hx.keeps

end Value
end CrossFloat
