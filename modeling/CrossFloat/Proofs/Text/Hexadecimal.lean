/-
Texts are exact and unambiguous.

`Constant.read` reads a hexadecimal floating constant of C99 behind an optional minus
sign.  The text of a finite value is such a constant and is read as the number that the
value stands for; `inf` and `nan` are not constants.  A text therefore determines the sign
and the number.  Conversely both determine it, because the exponent of the leading one and
the fraction behind it are those of the number, wherever the significand is stored.

The digits of the fraction are followed through the steps that write them: sixteen of
them with leading zeros have the fraction as their number, and the zeros that are dropped
at the end divide out.
-/
import CrossFloat.Proofs.Arithmetic
import CrossFloat.Proofs.WellFormed
import CrossFloat.Text.Hexadecimal
import Mathlib.Data.List.DropRight

namespace CrossFloat

/-! ## Constants -/

namespace Constant

/-- The hexadecimal digits in lower case, in the order of the numbers they stand for. -/
def lowerDigits : List Char := "0123456789abcdef".toList

/-- The number that a digit of either case stands for, and 16 for any other character. -/
def digitValue (c : Char) : ℕ := lowerDigits.idxOf c.toLower

def isHexDigit (c : Char) : Bool := digitValue c < 16

/-- The number that hexadecimal digits stand for. -/
def whole (digits : List Char) : ℕ :=
  digits.foldl (fun n c => 16 * n + digitValue c) 0

/-- The number that hexadecimal digits stand for behind a point. -/
def fraction (digits : List Char) : ℚ :=
  whole digits / 16 ^ digits.length

/-- The digits behind a point, none if there is no point, and the text behind them. -/
def spanFraction : List Char → List Char × List Char
  | '.' :: text => text.span isHexDigit
  | text => ([], text)

/-- A number in decimal digits, of which there is one at least. -/
def decimal (digits : List Char) : Option ℤ :=
  if digits ≠ [] ∧ digits.all Char.isDigit then some (Nat.ofDigitChars 10 digits 0) else none

/-- An integer in decimal digits, with or without a sign. -/
def exponent : List Char → Option ℤ
  | '-' :: digits => (decimal digits).map (- ·)
  | '+' :: digits => decimal digits
  | digits => decimal digits

/-- A constant without a suffix: `0x`, digits that may have a point before, among or behind
them, `p` and the power of two that the digits are scaled by.  Both letters may be capital,
and some digit has to be there. -/
def unsigned : List Char → Option ℚ
  | '0' :: x :: text =>
    let (before, text) := text.span isHexDigit
    let (behind, text) := spanFraction text
    match text with
    | p :: text =>
      if x.toLower = 'x' ∧ before ++ behind ≠ [] ∧ p.toLower = 'p' then
        (exponent text).map fun e => (whole before + fraction behind) * 2 ^ e
      else none
    | [] => none
  | _ => none

/-- The number that a text denotes if it is a constant, with a minus sign or without. -/
def read (text : String) : Option ℚ :=
  match text.toList with
  | '-' :: text => (unsigned text).map fun v => -v
  | text => unsigned text

example : read "-0X.8P1" = some (-1) := by decide +kernel

example : read "0x.p0" = none := by decide +kernel

/-! ## Texts with a leading one -/

/-- Between 1 and 16 digits in lower case, the last of which is not a zero. -/
structure IsTrimmed (digits : List Char) : Prop where
  ne_nil : digits ≠ []
  length_le : digits.length ≤ 16
  lower : ∀ c ∈ digits, c ∈ lowerDigits
  getLast_ne : digits.getLast ne_nil ≠ '0'

/-- Nothing, or a point and digits behind it. -/
def IsFraction (text : List Char) : Prop :=
  text = [] ∨ ∃ digits, text = '.' :: digits ∧ IsTrimmed digits

/-- An integer in decimal digits, with a sign. -/
def IsSignedDecimal (text : List Char) : Prop :=
  ∃ sign digits, text = sign :: digits ∧ (sign = '+' ∨ sign = '-') ∧
    digits ≠ [] ∧ ∀ c ∈ digits, c.isDigit

/-- An optional minus sign, `0x1`, the fraction, `p` and the exponent. -/
def IsNormalised (text : String) : Prop :=
  ∃ sign fraction exponent,
    text.toList = sign ++ (['0', 'x', '1'] ++ fraction ++ 'p' :: exponent) ∧
      (sign = [] ∨ sign = ['-']) ∧ IsFraction fraction ∧ IsSignedDecimal exponent

/-! ## Reading digits -/

theorem isHexDigit_of_mem {c : Char} (h : c ∈ lowerDigits) : isHexDigit c = true := by
  have hall : lowerDigits.all isHexDigit = true := by decide
  exact List.all_eq_true.1 hall c h

theorem digitChar_mem {d : ℕ} (hd : d < 16) : Nat.digitChar d ∈ lowerDigits := by
  have hall : ∀ d < 16, Nat.digitChar d ∈ lowerDigits := by decide
  exact hall d hd

theorem digitValue_digitChar {d : ℕ} (hd : d < 16) : digitValue (Nat.digitChar d) = d := by
  have hall : ∀ d < 16, digitValue (Nat.digitChar d) = d := by decide
  exact hall d hd

theorem whole_concat (digits : List Char) (c : Char) :
    whole (digits ++ [c]) = 16 * whole digits + digitValue c := by
  rw [whole, List.foldl_append]
  rfl

theorem fraction_concat_zero (digits : List Char) :
    fraction (digits ++ ['0']) = fraction digits := by
  have hzero : digitValue '0' = 0 := by decide
  rw [fraction, whole_concat, hzero, List.length_append, List.length_singleton, fraction, add_zero,
    pow_succ', Nat.cast_mul]
  exact mul_div_mul_left _ _ (by norm_num)

theorem mem_fixed {width n : ℕ} {c : Char} (h : c ∈ Digits.fixed 16 width n) :
    c ∈ lowerDigits := by
  induction width generalizing n with
  | zero => exact absurd h List.not_mem_nil
  | succ width ih =>
    rw [Digits.fixed, List.mem_append, List.mem_singleton] at h
    rcases h with h | rfl
    · exact ih h
    · exact digitChar_mem (Nat.mod_lt n (by decide))

theorem whole_fixed (width n : ℕ) : whole (Digits.fixed 16 width n) = n % 16 ^ width := by
  induction width generalizing n with
  | zero => exact (Nat.mod_one n).symm
  | succ width ih =>
    rw [Digits.fixed, whole_concat, ih, digitValue_digitChar (Nat.mod_lt n (by decide)), pow_succ',
      Nat.mod_mul, add_comm]

/-- Zeros at the end of a fraction do not count. -/
theorem fraction_dropTrailingZeros (digits : List Char) :
    fraction (Digits.dropTrailingZeros digits) = fraction digits := by
  induction digits using List.reverseRecOn with
  | nil => rfl
  | append_singleton digits c ih =>
    show fraction (List.rdropWhile (· == '0') (digits ++ [c])) = _
    rw [List.rdropWhile_concat]
    split
    · next hc =>
      rw [beq_iff_eq.1 hc, fraction_concat_zero]
      exact ih
    · rfl

theorem isPrefix_dropTrailingZeros (digits : List Char) :
    Digits.dropTrailingZeros digits <+: digits :=
  List.rdropWhile_prefix _ _

theorem isHexDigit_of_mem_written {n : ℕ} {c : Char}
    (h : c ∈ Digits.dropTrailingZeros (Digits.fixed 16 16 n)) : isHexDigit c = true :=
  isHexDigit_of_mem (mem_fixed ((isPrefix_dropTrailingZeros _).subset h))

/-- What is written behind the leading one, the point included. -/
theorem isFraction_written (n : ℕ) :
    IsFraction (if (Digits.dropTrailingZeros (Digits.fixed 16 16 n)).isEmpty then []
      else '.' :: Digits.dropTrailingZeros (Digits.fixed 16 16 n)) := by
  have hinitial := isPrefix_dropTrailingZeros (Digits.fixed 16 16 n)
  by_cases hnil : Digits.dropTrailingZeros (Digits.fixed 16 16 n) = []
  · exact .inl (if_pos (List.isEmpty_iff.2 hnil))
  · have hlast : ¬ (_ == '0') = true := List.rdropWhile_last_not (· == '0') _ hnil
    refine .inr ⟨_, if_neg (mt List.isEmpty_iff.1 hnil), ?_⟩
    exact ⟨hnil, hinitial.length_le.trans_eq (Digits.length_fixed 16 16 n),
      fun c hc => mem_fixed (hinitial.subset hc), fun heq => hlast (beq_iff_eq.2 heq)⟩

/-! ## Reading a text with a leading one -/

theorem decimal_free (n : ℕ) : decimal (Digits.free 10 n) = some (n : ℤ) := by
  have hdigits : (Digits.free 10 n).all Char.isDigit = true :=
    List.all_eq_true.2 fun c hc => Nat.isDigit_of_mem_toDigits (by decide) le_rfl hc
  rw [decimal, if_pos ⟨Nat.toDigits_ne_nil, hdigits⟩]
  exact congrArg (fun m : ℕ => some (m : ℤ)) Nat.ofDigitChars_ten_toDigits

theorem exponent_signed (e : ℤ) : exponent (Digits.signed e) = some e := by
  rw [Digits.signed]
  split
  · have habs : -(e.natAbs : ℤ) = e := by omega
    rw [exponent, decimal_free, Option.map_some, habs]
  · have habs : (e.natAbs : ℤ) = e := by omega
    rw [exponent, decimal_free, habs]

theorem isSignedDecimal_signed (e : ℤ) : IsSignedDecimal (Digits.signed e) := by
  refine ⟨_, _, rfl, ?_, Nat.toDigits_ne_nil, fun c hc =>
    Nat.isDigit_of_mem_toDigits (by decide) le_rfl hc⟩
  split
  · exact .inr rfl
  · exact .inl rfl

/-- Digits end where another character stands. -/
theorem span_isHexDigit {digits text : List Char} {c : Char}
    (hdigits : ∀ c ∈ digits, isHexDigit c = true) (hc : isHexDigit c = false) :
    (digits ++ c :: text).span isHexDigit = (digits, c :: text) := by
  rw [List.span_eq_takeWhile_dropWhile, List.takeWhile_append_of_pos hdigits,
    List.dropWhile_append_of_pos hdigits, List.takeWhile_cons, List.dropWhile_cons, hc]
  simp

/-- A constant is read part by part. -/
theorem unsigned_eq {before behind text rest power : List Char} {e : ℤ}
    (hbefore : text.span isHexDigit = (before, rest))
    (hbehind : spanFraction rest = (behind, 'p' :: power)) (hsome : before ++ behind ≠ [])
    (hpower : exponent power = some e) :
    unsigned ('0' :: 'x' :: text) = some ((whole before + fraction behind) * 2 ^ e) := by
  rw [unsigned, hbefore]
  dsimp only
  rw [hbehind]
  dsimp only
  rw [if_pos ⟨by decide, hsome, by decide⟩, hpower, Option.map_some]

theorem spanFraction_point {digits : List Char} (hdigits : ∀ c ∈ digits, isHexDigit c = true)
    (text : List Char) :
    spanFraction ((if digits.isEmpty then [] else '.' :: digits) ++ 'p' :: text) =
      (digits, 'p' :: text) := by
  cases digits with
  | nil => rfl
  | cons d digits => exact span_isHexDigit hdigits (by decide)

theorem unsigned_leadingOne {digits : List Char} (hdigits : ∀ c ∈ digits, isHexDigit c = true)
    (e : ℤ) :
    unsigned (['0', 'x', '1'] ++ (if digits.isEmpty then [] else '.' :: digits) ++
      'p' :: Digits.signed e) = some ((1 + fraction digits) * 2 ^ e) := by
  have hone : ∀ c ∈ ['1'], isHexDigit c = true := List.forall_mem_singleton.2 (by decide)
  have hbefore : (whole ['1'] : ℚ) = 1 := Nat.cast_one
  rw [← hbefore]
  refine unsigned_eq ?_ (spanFraction_point hdigits _) (List.cons_ne_nil _ _) (exponent_signed e)
  cases digits with
  | nil => exact span_isHexDigit hone (by decide)
  | cons d digits => exact span_isHexDigit hone (by decide)

/-- A minus sign is read as one, and nothing else is. -/
theorem read_ofList (sign : Sign) {text : List Char} (h : text.head? ≠ some '-') :
    read (.ofList ((if sign.isNegative then ['-'] else []) ++ text)) =
      (unsigned text).map (sign.factor * ·) := by
  rw [read, String.toList_ofList]
  cases sign with
  | negative =>
    show (unsigned text).map (- ·) = _
    simp only [Sign.factor, neg_one_mul]
  | positive =>
    show (match text with
      | '-' :: text => (unsigned text).map (- ·)
      | text => unsigned text) = _
    split
    · exact absurd rfl h
    · simp only [Sign.factor, one_mul, Option.map_id']

end Constant

/-! ## Texts of magnitudes -/

namespace Magnitude

theorem text_finite (range : Range) (exponent : ℤ) (significand : UInt64) :
    (finite range exponent significand).text =
      finiteText (leadingExp exponent significand) (alignLeft significand) := rfl

theorem text_nan (payload : UInt64) :
    (nan payload).text = if payload = 0 then "nan".toList
      else "nan(0x".toList ++ Digits.free 16 payload.toNat ++ [')'] := rfl

/-- The fraction behind the leading one of an aligned significand. -/
theorem one_add_fraction {significand : UInt64} (hbit : 2 ^ 63 ≤ significand.toNat) :
    ((1 : ℚ) + Constant.fraction (Digits.fixed 16 16 (significand <<< 1).toNat)) * 2 ^ 63 =
      significand.toNat := by
  have hlt := significand.toNat_lt
  have hshift : (significand <<< 1).toNat = significand.toNat * 2 ^ 1 % 2 ^ 64 :=
    Limb.toNat_shiftLeft significand (show 1 < 64 by decide)
  generalize (significand <<< 1).toNat = bits at *
  have hsplit : 2 ^ 64 + bits = 2 * significand.toNat := by omega
  have hcast : (2 : ℚ) ^ 64 + bits = 2 * significand.toNat := by exact_mod_cast hsplit
  have hmod : bits % 16 ^ 16 = bits := Nat.mod_eq_of_lt (by omega)
  rw [Constant.fraction, Constant.whole_fixed, hmod, Digits.length_fixed]
  linarith

theorem unsigned_finiteText (exp : ℤ) {significand : UInt64}
    (hbit : 2 ^ 63 ≤ significand.toNat) :
    Constant.unsigned (finiteText exp significand) =
      some ((significand.toNat : ℚ) * 2 ^ (exp - 63)) := by
  have hread := Constant.unsigned_leadingOne
    (fun _ => Constant.isHexDigit_of_mem_written (n := (significand <<< 1).toNat)) exp
  have hscale : (2 : ℚ) ^ exp = 2 ^ 63 * 2 ^ (exp - 63) := by
    rw [← zpow_natCast (2 : ℚ) 63, ← two_zpow_add, Nat.cast_ofNat, add_sub_cancel]
  rw [Constant.fraction_dropTrailingZeros, hscale, ← mul_assoc, one_add_fraction hbit] at hread
  exact hread

/-- A number is read as itself. -/
theorem unsigned_text {m : Magnitude} (hm : m.IsNumber) :
    Constant.unsigned m.text = some m.toRat := by
  cases m with
  | zero =>
    have hdigits : ['0', 'p', '+', '0'].span Constant.isHexDigit = (['0'], ['p', '+', '0']) := by
      decide
    have hread : Constant.unsigned zero.text = some ((0 + 0 / 1) * 2 ^ (0 : ℤ)) :=
      Constant.unsigned_eq hdigits rfl (List.cons_ne_nil _ _) rfl
    rw [hread, zero_div, add_zero, zero_mul]
    rfl
  | finite range exponent significand =>
    rw [text_finite, unsigned_finiteText _ (le_toNat_alignLeft hm), alignLeft_mul_zpow hm]
    rfl
  | infinite | nan => exact absurd hm id

theorem unsigned_text_nan (payload : UInt64) : Constant.unsigned (nan payload).text = none := by
  rw [text_nan]
  split <;> rfl

/-- The text of a magnitude has no sign. -/
theorem head?_text_ne_minus (m : Magnitude) : m.text.head? ≠ some '-' := by
  cases m with
  | zero | infinite => decide
  | finite range exponent significand =>
    have hhead : (finite range exponent significand).text.head? = some '0' := rfl
    rw [hhead]
    decide
  | nan payload =>
    have hhead : (nan payload).text.head? = some 'n' := by
      rw [text_nan]
      split <;> rfl
    rw [hhead]
    decide

/-- Numbers that are equal have the same leading bit and the same bits behind it. -/
theorem text_eq_of_toRat_eq {m n : Magnitude} (hm : m.IsNumber) (hn : n.IsNumber)
    (h : m.toRat = n.toRat) : m.text = n.text := by
  cases m with
  | infinite | nan => exact absurd hm id
  | zero =>
    cases n with
    | infinite | nan => exact absurd hn id
    | zero => rfl
    | finite range exponent significand => exact absurd h (Value.magnitude_pos range exponent hn).ne
  | finite range exponent significand =>
    cases n with
    | infinite | nan => exact absurd hn id
    | zero => exact absurd h (Value.magnitude_pos range exponent hm).ne'
    | finite range' exponent' significand' =>
      have hexp : leadingExp exponent significand = leadingExp exponent' significand' := by
        rw [← log_eq_leadingExp hm, ← log_eq_leadingExp hn]
        exact congrArg (Int.log 2) h
      have hvalue : ((alignLeft significand).toNat : ℚ) = (alignLeft significand').toNat := by
        refine mul_right_cancel₀ (two_zpow_pos (leadingExp exponent significand - 63)).ne' ?_
        rw [alignLeft_mul_zpow hm, hexp, alignLeft_mul_zpow hn]
        exact h
      have haligned : alignLeft significand = alignLeft significand' :=
        UInt64.toNat_inj.1 (Nat.cast_injective hvalue)
      rw [text_finite, text_finite, hexp, haligned]

end Magnitude

/-! ## Texts of values -/

namespace Value

variable {x y : Value}

/-- A number is read from its text, and nothing is read from that of any other value. -/
theorem read_text (hx : x.WellFormed) :
    Constant.read x.text = if x.isFinite then some x.toRat else none := by
  rw [text, Constant.read_ofList x.sign x.magnitude.head?_text_ne_minus]
  by_cases hfinite : x.isFinite = true
  · rw [if_pos hfinite, Magnitude.unsigned_text (hx.isNumber hfinite)]
    rfl
  · have hnone : Constant.unsigned x.magnitude.text = none := by
      rw [isFinite] at hfinite
      cases hm : x.magnitude with
      | zero | finite =>
        rw [hm] at hfinite
        exact absurd rfl hfinite
      | infinite => rfl
      | nan payload => exact Magnitude.unsigned_text_nan payload
    rw [if_neg hfinite, hnone]
    rfl

/-- The sign is read off the first character. -/
theorem sign_eq_of_text_eq (h : x.text = y.text) : x.sign = y.sign := by
  have hlists := congrArg String.toList h
  rw [text, text, String.toList_ofList, String.toList_ofList] at hlists
  have hx := x.magnitude.head?_text_ne_minus
  have hy := y.magnitude.head?_text_ne_minus
  cases hsignX : x.sign with
  | positive =>
    cases hsignY : y.sign with
    | positive => rfl
    | negative =>
      rw [hsignX, hsignY] at hlists
      exact absurd (congrArg List.head? hlists) hx
  | negative =>
    cases hsignY : y.sign with
    | negative => rfl
    | positive =>
      rw [hsignX, hsignY] at hlists
      exact absurd (congrArg List.head? hlists).symm hy

theorem text_eq_iff (hx : x.WellFormed) (hy : y.WellFormed) (hfiniteX : x.isFinite = true)
    (hfiniteY : y.isFinite = true) :
    x.text = y.text ↔ x.sign = y.sign ∧ x.toRat = y.toRat := by
  constructor
  · intro h
    have hread := congrArg Constant.read h
    rw [read_text hx, read_text hy, if_pos hfiniteX, if_pos hfiniteY, Option.some_inj] at hread
    exact ⟨sign_eq_of_text_eq h, hread⟩
  · rintro ⟨hsign, hvalue⟩
    have hmagnitude : x.magnitude.toRat = y.magnitude.toRat := by
      rw [← abs_toRat, hvalue, abs_toRat]
    rw [text, text, hsign,
      Magnitude.text_eq_of_toRat_eq (hx.isNumber hfiniteX) (hy.isNumber hfiniteY) hmagnitude]

theorem text_ne_of_not_finite (hx : x.WellFormed) (hy : y.WellFormed) (hfiniteX : x.isFinite = true)
    (hfiniteY : y.isFinite = false) : x.text ≠ y.text := by
  intro h
  have hread := congrArg Constant.read h
  rw [read_text hx, read_text hy, if_pos hfiniteX, hfiniteY] at hread
  exact absurd hread (Option.some_ne_none _)

theorem isNormalised_text (hfinite : x.isFinite = true) (hzero : x.isZero = false) :
    Constant.IsNormalised x.text := by
  obtain ⟨sign, flags, magnitude⟩ := x
  cases magnitude with
  | zero => exact absurd hzero.symm Bool.false_ne_true
  | infinite | nan => exact absurd hfinite Bool.false_ne_true
  | finite range exponent significand =>
    refine ⟨_, _, _, String.toList_ofList, ?_, Constant.isFraction_written _,
      Constant.isSignedDecimal_signed (leadingExp exponent significand)⟩
    cases sign with
    | positive => exact .inl rfl
    | negative => exact .inr rfl

/-- The text of a finite value that is not zero has a leading one and denotes the value.
Two finite values have the same text exactly when they have the same sign and the same
number, and no finite value has the text of an infinity or a NaN. -/
theorem text_exact_unambiguous (hx : x.WellFormed) (hy : y.WellFormed)
    (hfinite : x.isFinite = true) :
    (x.isZero = false → Constant.IsNormalised x.text ∧ Constant.read x.text = some x.toRat) ∧
      (y.isFinite = true → (x.text = y.text ↔ x.sign = y.sign ∧ x.toRat = y.toRat)) ∧
      (y.isFinite = false → x.text ≠ y.text) := by
  refine ⟨fun hzero => ⟨isNormalised_text hfinite hzero, ?_⟩, fun hfiniteY => ?_, fun h => ?_⟩
  · rw [read_text hx, if_pos hfinite]
  · exact text_eq_iff hx hy hfinite hfiniteY
  · exact text_ne_of_not_finite hx hy hfinite h

/-- The least number of the 64-bit format, and the same number as a wider format stores it. -/
theorem text_exact_unambiguous_minPositive :
    let x := Format.double.minPositive .negative
    let y : Value := ⟨.negative, .onInexactLow, .finite .normal (-1074) 0x8000000000000000⟩
    x.WellFormed ∧ y.WellFormed ∧ x.isFinite = true ∧ y.isFinite = true ∧ x.isZero = false ∧
      x.magnitude ≠ y.magnitude ∧ x.text = y.text ∧ x.text = "-0x1p-1074" ∧
      Constant.IsNormalised x.text ∧ Constant.read x.text = some x.toRat := by
  intro x y
  have hx : x.WellFormed := Format.double.wellFormed_minPositive .negative
  have hy : y.WellFormed := wellFormed_iff.2 ⟨Range.admits_topBit, by decide⟩
  have hvalue : x.toRat = y.toRat := by decide +kernel
  obtain ⟨hexact, hsame, -⟩ := text_exact_unambiguous hx hy rfl
  exact ⟨hx, hy, rfl, rfl, rfl, by decide, (hsame rfl).2 ⟨rfl, hvalue⟩, by decide +kernel,
    hexact rfl⟩

end Value

end CrossFloat
