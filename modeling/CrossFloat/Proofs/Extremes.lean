/-
The extremes of a format.

The largest number, the smallest normal one, the smallest one above zero and the last place
of one are written down as bits and not computed by a rounding.  Their numbers are the
extremes of the format, for every layout.

The first two are also in the form in which the format stores them.  The others are given
one form for all layouts, and it is not always their own.  A format of a single digit keeps
no number below the normal range, so that its smallest one is normal, and is called
denormal all the same.  And where the exponents are few and the precision is high, the last
place of one lies below the normal range, and is called normal.
-/
import CrossFloat.Proofs.Rounding.Grid
import CrossFloat.Proofs.Rounding.Widening

namespace CrossFloat

namespace Format

variable {F : Format} {s : Sign} {x : Value}

/-! ## Values in their own form -/

/-- The value has the sign `s` and is in the form in which the format stores it: a rounding
returns it as it is, and no more than reports that it is denormal. -/
structure Canonical (F : Format) (s : Sign) (x : Value) : Prop where
  contains : F.Contains x
  sign : x.sign = s
  denormal : x.isDenormal = true → x.significand.toNat < 2 ^ 63
  convert : ∀ override, x.convert ⟨F, override⟩ = if x.isDenormal then x.raise .onUnderflow else x

theorem Contains.canonical (h : F.Contains x) : F.Canonical x.sign x where
  contains := h
  sign := rfl
  denormal hdenormal := by
    cases h with
    | denormal _ _ hbit => exact hbit
    | zero | normal | infinite => exact absurd hdenormal Bool.false_ne_true
    | nan =>
      rw [Value.isDenormal_eq_false rfl] at hdenormal
      exact absurd hdenormal Bool.false_ne_true
  convert override := Value.convert_of_keeps (c := ⟨F, override⟩) h.keeps

/-! ## The numbers of the extremes -/

theorem toRat_minNormal (F : Format) (s : Sign) :
    (F.minNormal s).magnitude.toRat = 2 ^ F.minExponent :=
  Magnitude.toRat_topBit ..

theorem toRat_epsilon (F : Format) : F.epsilon.toRat = 2 ^ F.lastPlace 0 :=
  (one_mul _).trans (Magnitude.toRat_topBit ..)

theorem toRat_minPositive_gradual (hgradual : F.underflow = .gradual) (s : Sign) :
    (F.minPositive s).magnitude.toRat = 2 ^ F.lastPlace F.minExponent := by
  rw [minPositive, hgradual]
  refine ((F.toRat_eq_count_iff _ _ _ 1).2 F.toNat_minPositive).trans ?_
  rw [Nat.cast_one, one_mul]

theorem minPositive_sudden (hsudden : F.underflow = .sudden) (s : Sign) :
    F.minPositive s = F.minNormal s := by
  rw [minPositive, hsudden]

/-! ## Numbers at the least exponent and at one -/

theorem two_le_shiftLeft {width : ℕ} (h : 2 ≤ width) : 2 ≤ 1 <<< (width - 1) := by
  rw [Nat.one_shiftLeft]
  have hpow : 2 ^ 1 ≤ 2 ^ (width - 1) := Nat.pow_le_pow_right (by decide) (by omega)
  omega

/-- The number one is in the normal range, and so is two. -/
theorem one_in_range (F : Format) : F.minExponent ≤ 0 ∧ 1 ≤ F.maxExponent := by
  obtain ⟨layout, mode, underflow⟩ := F
  cases layout with
  | binary b =>
    have hwidth := two_le_shiftLeft b.exponentWidth_mem.1
    simp only [minExponent, maxExponent, bias, BinaryLayout.bias]
    omega
  | hexadecimal h =>
    have hwidth := two_le_shiftLeft h.exponentWidth_mem.1
    simp only [minExponent, maxExponent, bias, HexadecimalLayout.bias]
    omega

/-- The leading digit of the smallest normal number has no bits above the leading one. -/
theorem lastPlace_minExponent (F : Format) :
    F.lastPlace F.minExponent = F.minExponent + F.digitWidth - F.precision := by
  obtain ⟨layout, mode, underflow⟩ := F
  cases layout <;> simp only [lastPlace, minExponent, digitWidth, precision] <;> omega

/-! ## The smallest normal number -/

theorem contains_minNormal (F : Format) (s : Sign) : F.Contains (F.minNormal s) := by
  have hcount := two_zpow_eq_natCast_mul (F.lastPlace_le F.minExponent)
  rw [← Magnitude.toRat_topBit .normal] at hcount
  exact .normal (le_refl (2 ^ 63)) le_rfl F.minExponent_le_maxExponent hcount

theorem Contains.minNormal_le (h : F.Contains x) (hnormal : x.isNormal = true) :
    2 ^ F.minExponent ≤ x.magnitude.toRat := by
  cases h with
  | @normal sign flags exponent significand count hbit hmin =>
    have hlow := not_lt.1 ((lt_two_zpow_iff_toNat_lt significand exponent).not.2 hbit.not_gt)
    exact (two_zpow_le_iff.2 hmin).trans hlow
  | zero | denormal | infinite => exact absurd hnormal Bool.false_ne_true
  | @nan sign flags payload =>
    by_cases hpayload : payload = 0 <;>
      simp [Value.isNormal, Value.kind, Magnitude.kind, hpayload] at hnormal

/-! ## The smallest number -/

theorem HasNumber.minPositive_le {r : ℚ} (h : F.HasNumber r) (hpos : 0 < r) (s : Sign) :
    (F.minPositive s).magnitude.toRat ≤ r := by
  cases hunderflow : F.underflow with
  | gradual =>
    have hgrid := grid_anti (F.lastPlace_minExponent_le_place r) h.mem_grid
    rw [toRat_minPositive_gradual hunderflow, ← abs_of_pos hpos]
    exact le_abs_of_mem_grid hgrid hpos.ne'
  | sudden =>
    rw [minPositive_sudden hunderflow, toRat_minNormal]
    exact not_lt.1 fun hlt => h.kept.resolve_left hpos.ne' ⟨hlt, hunderflow⟩

/-- The smallest number is in its own form, unless the format underflows gradually and has
a single digit. -/
theorem contains_minPositive_iff (F : Format) (s : Sign) :
    F.Contains (F.minPositive s) ↔ (F.underflow = .gradual → F.digitWidth < F.precision) := by
  cases hunderflow : F.underflow with
  | sudden =>
    rw [minPositive_sudden hunderflow]
    exact iff_of_true (F.contains_minNormal s) fun h => absurd h (by decide)
  | gradual =>
    have hbits := F.toNat_minPositive
    have hlast := F.lastBit_cast F.minExponent
    have hplace := F.lastPlace_minExponent
    rw [Nat.one_mul] at hbits
    rw [minPositive, hunderflow]
    constructor
    · intro h _
      cases h with
      | denormal _ _ hbit =>
        rw [hbits, Nat.pow_lt_pow_iff_right (by decide)] at hbit
        omega
    · intro hdigits
      have hlt : F.lastBit F.minExponent < 63 := by
        have := hdigits rfl
        omega
      refine .denormal hunderflow ?_ ?_ ((F.toRat_eq_count_iff _ _ _ 1).2 F.toNat_minPositive)
      · rw [hbits]
        exact Nat.two_pow_pos _
      · rw [hbits]
        exact Nat.pow_lt_pow_right (by decide) hlt

theorem sign_minPositive (F : Format) (s : Sign) : (F.minPositive s).sign = s := by
  rw [minPositive]
  split <;> rfl

/-! ## Numbers and the values that have them -/

/-- A nonzero number of the format has a value of either sign in its own form. -/
theorem HasNumber.exists_canonical {r : ℚ} (h : F.HasNumber r) (hpos : 0 < r) (s : Sign) :
    ∃ x, F.Canonical s x ∧ x.isFinite = true ∧ x.isZero = false ∧ x.toRat = s.factor * r := by
  have hrepresents := represents_store h s
  have hcanonical := hrepresents.contains.canonical
  have hstores := h.stores_store s
  rw [sign_store fun hzero => absurd hzero hpos.ne'] at hcanonical
  refine ⟨_, hcanonical, hrepresents.isFinite, Bool.eq_false_iff.2 fun hzero => ?_,
    hstores.toRat_value h.nonneg⟩
  have hvalue := hstores.toRat_eq h.nonneg
  rw [Value.isZero_iff.1 hzero] at hvalue
  exact hpos.ne hvalue

/-- With gradual underflow the powers of two from the least place up are numbers. -/
theorem hasNumber_two_zpow (hgradual : F.underflow = .gradual) {e : ℤ}
    (hmin : F.lastPlace F.minExponent ≤ e) (hmax : e ≤ F.maxExponent) : F.HasNumber (2 ^ e) := by
  have hlog : Int.log 2 ((2 : ℚ) ^ e) = e :=
    log_eq_of_bounds le_rfl (two_zpow_lt_iff.2 (by omega))
  refine hasNumber_of_mem_grid hgradual (two_zpow_mem_grid e) (two_zpow_pos e).le (fun _ => ?_)
    (two_zpow_lt_iff.2 (by omega))
  rw [place, hlog]
  rcases le_total F.minExponent e with hnormal | htiny
  · rw [max_eq_left hnormal]
    exact F.lastPlace_le e
  · rwa [max_eq_right htiny]

theorem hasNumber_minPositive (F : Format) (s : Sign) :
    F.HasNumber (F.minPositive s).magnitude.toRat := by
  have hplace := F.lastPlace_le F.minExponent
  have hrange := F.minExponent_le_maxExponent
  cases hunderflow : F.underflow with
  | gradual =>
    rw [toRat_minPositive_gradual hunderflow]
    exact hasNumber_two_zpow hunderflow le_rfl (by omega)
  | sudden =>
    rw [minPositive_sudden hunderflow]
    exact ((F.contains_minNormal s).represents rfl).number

theorem minPositive_pos (F : Format) (s : Sign) : 0 < (F.minPositive s).magnitude.toRat := by
  cases hunderflow : F.underflow with
  | gradual =>
    rw [toRat_minPositive_gradual hunderflow]
    exact two_zpow_pos _
  | sudden =>
    rw [minPositive_sudden hunderflow, toRat_minNormal]
    exact two_zpow_pos _

/-! ## The last place of one -/

theorem one_mem_grid (F : Format) : (1 : ℚ) ∈ grid (F.lastPlace 0) := by
  have h := two_zpow_mem_grid 0
  rw [zpow_zero] at h
  exact grid_anti (F.lastPlace_le 0) h

/-- One and its last place make a number of the format. -/
theorem hasNumber_one_add (F : Format) : F.HasNumber (1 + 2 ^ F.lastPlace 0) := by
  have hplace := F.lastPlace_le 0
  have hpos := two_zpow_pos (F.lastPlace 0)
  have hone : (2 : ℚ) ^ F.lastPlace 0 ≤ 1 := by
    rw [← zpow_zero 2]
    exact two_zpow_le_iff.2 hplace
  obtain ⟨hmin, hmax⟩ := F.one_in_range
  refine ⟨?_, ?_, Or.inr ?_⟩
  · rcases hone.eq_or_lt with heq | hlt
    · -- The last place of one is one itself, and the next number is two.
      have htwo : 1 + (2 : ℚ) ^ F.lastPlace 0 = 2 ^ (1 : ℤ) := by
        rw [heq]
        norm_num
      have hlog : Int.log 2 ((2 : ℚ) ^ (1 : ℤ)) = 1 :=
        log_eq_of_bounds le_rfl (two_zpow_lt_iff.2 (by decide))
      rw [htwo]
      refine whole_of_mem_grid (two_zpow_mem_grid 1) (two_zpow_pos 1).le ?_
      rw [place, hlog, max_eq_left (by omega)]
      exact F.lastPlace_le 1
    · have hlog : Int.log 2 (1 + (2 : ℚ) ^ F.lastPlace 0) = 0 :=
        log_eq_of_bounds (by rw [zpow_zero]; linarith) (by norm_num; linarith)
      refine whole_of_mem_grid (add_mem F.one_mem_grid (two_zpow_mem_grid _)) (by linarith) ?_
      rw [place, hlog, max_eq_left hmin]
  · have hlarge : (2 : ℚ) ^ (2 : ℤ) ≤ 2 ^ (F.maxExponent + 1) := two_zpow_le_iff.2 (by omega)
    norm_num at hlarge
    linarith
  · rintro ⟨htiny, -⟩
    have hsmall : (2 : ℚ) ^ F.minExponent ≤ 2 ^ (0 : ℤ) := two_zpow_le_iff.2 hmin
    rw [zpow_zero] at hsmall
    linarith

/-- Every number above one is a count of the last place of one. -/
theorem HasNumber.one_add_le {r : ℚ} (h : F.HasNumber r) (hr : 1 < r) :
    1 + 2 ^ F.lastPlace 0 ≤ r := by
  have hlog : Int.log 2 (1 : ℚ) = 0 := log_eq_of_bounds (by norm_num) (by norm_num)
  have hplace : F.lastPlace 0 ≤ F.place r := by
    have hmono := F.place_mono one_pos hr.le
    rwa [place, hlog, max_eq_left F.one_in_range.1] at hmono
  have hdifference := sub_mem (grid_anti hplace h.mem_grid) F.one_mem_grid
  have hle := le_abs_of_mem_grid hdifference (sub_ne_zero.2 hr.ne')
  rw [abs_of_pos (sub_pos.2 hr)] at hle
  linarith

theorem isLeast_above_one (F : Format) :
    IsLeast {v : ℚ | 1 < v ∧ ∃ x, F.Canonical .positive x ∧ x.isFinite = true ∧ x.toRat = v}
      (1 + F.epsilon.toRat) := by
  have hpos := two_zpow_pos (F.lastPlace 0)
  rw [toRat_epsilon]
  constructor
  · have hsum : 0 < 1 + (2 : ℚ) ^ F.lastPlace 0 := by linarith
    obtain ⟨x, hx, hfinite, -, hvalue⟩ := F.hasNumber_one_add.exists_canonical hsum .positive
    rw [Sign.factor, one_mul] at hvalue
    exact ⟨by linarith, x, hx, hfinite, hvalue⟩
  · rintro v ⟨hv, x, hx, hfinite, rfl⟩
    have hnumber := (hx.contains.represents hfinite).hasNumber_abs
    rw [abs_of_pos (one_pos.trans hv)] at hnumber
    exact hnumber.one_add_le hv

/-- The last place of one is in its own form, unless it is below the normal range. -/
theorem contains_epsilon_iff (F : Format) :
    F.Contains F.epsilon ↔ F.minExponent ≤ F.lastPlace 0 := by
  constructor
  · intro h
    cases h with
    | normal _ hmin => exact hmin
  · intro hmin
    have hrange : F.lastPlace 0 ≤ F.maxExponent := by
      have hplace := F.lastPlace_le 0
      have hmax := F.one_in_range.2
      omega
    have hcount := two_zpow_eq_natCast_mul (F.lastPlace_le (F.lastPlace 0))
    rw [← Magnitude.toRat_topBit .normal] at hcount
    exact .normal (le_refl (2 ^ 63)) hmin hrange hcount

/-! ## All extremes -/

/-- The extremes of a format with a sign.  Their numbers are the largest one, the smallest
normal one, the smallest one above zero, and the distance from one to the next number.  The
last two are in their own form under a condition, and otherwise another value of the format
has the number. -/
structure Extremes (F : Format) (s : Sign) : Prop where
  maxFinite : F.Canonical s (F.maxFinite s) ∧ (F.maxFinite s).isFinite = true
  le_maxFinite : ∀ x, F.Contains x → x.isFinite = true → |x.toRat| ≤ |(F.maxFinite s).toRat|
  minNormal : F.Canonical s (F.minNormal s) ∧ (F.minNormal s).isNormal = true
  minNormal_le : ∀ x, F.Contains x → x.isNormal = true → |(F.minNormal s).toRat| ≤ |x.toRat|
  minPositive_iff : F.Canonical s (F.minPositive s) ↔
    (F.underflow = .gradual → F.digitWidth < F.precision)
  minPositive : ∃ x, F.Canonical s x ∧ x.isFinite = true ∧ x.isZero = false ∧
    x.toRat = (F.minPositive s).toRat
  minPositive_le : ∀ x, F.Contains x → x.isFinite = true → x.isZero = false →
    |(F.minPositive s).toRat| ≤ |x.toRat|
  epsilon_iff : F.Canonical .positive F.epsilon ↔ F.minExponent ≤ F.lastPlace 0
  epsilon : F.underflow = .gradual →
    ∃ x, F.Canonical .positive x ∧ x.isFinite = true ∧ x.toRat = F.epsilon.toRat
  one_add_epsilon :
    IsLeast {v : ℚ | 1 < v ∧ ∃ x, F.Canonical .positive x ∧ x.isFinite = true ∧ x.toRat = v}
      (1 + F.epsilon.toRat)

/-- The notable values of a format are its extremes.  The smallest number of a format that
underflows gradually with a single digit, and a last place of one that is below the normal
range, are not in the form that the format gives them. -/
theorem extremes (F : Format) (s : Sign) : F.Extremes s where
  maxFinite := ⟨(F.represents_maxFinite s).contains.canonical, rfl⟩
  le_maxFinite x hx hfinite := by
    rw [Value.abs_toRat, Value.abs_toRat]
    exact (hx.represents hfinite).number.le_maxFinite s
  minNormal := ⟨(F.contains_minNormal s).canonical, rfl⟩
  minNormal_le x hx hnormal := by
    rw [Value.abs_toRat, Value.abs_toRat, toRat_minNormal]
    exact hx.minNormal_le hnormal
  minPositive_iff := by
    rw [← F.contains_minPositive_iff s]
    have hcanonical := Contains.canonical (F := F) (x := F.minPositive s)
    rw [F.sign_minPositive s] at hcanonical
    exact ⟨Canonical.contains, hcanonical⟩
  minPositive := by
    have hvalue : (F.minPositive s).toRat = s.factor * (F.minPositive s).magnitude.toRat := by
      rw [Value.toRat, F.sign_minPositive s]
    rw [hvalue]
    exact (F.hasNumber_minPositive s).exists_canonical (F.minPositive_pos s) s
  minPositive_le x hx hfinite hzero := by
    have hnumber := (hx.represents hfinite).number
    have hne : x.magnitude.toRat ≠ 0 := by
      intro h0
      rw [Value.isZero_iff.2 ((hx.represents hfinite).stores.zero h0).2] at hzero
      exact absurd hzero.symm Bool.false_ne_true
    rw [Value.abs_toRat, Value.abs_toRat]
    exact hnumber.minPositive_le (lt_of_le_of_ne hnumber.nonneg hne.symm) s
  epsilon_iff := by
    rw [← F.contains_epsilon_iff]
    exact ⟨Canonical.contains, Contains.canonical⟩
  epsilon hgradual := by
    have hplace := F.lastPlace_le 0
    obtain ⟨hmin, hmax⟩ := F.one_in_range
    have hnumber := hasNumber_two_zpow hgradual (F.lastPlace_mono hmin) (by omega)
    obtain ⟨x, hx, hfinite, -, hvalue⟩ := hnumber.exists_canonical (two_zpow_pos _) .positive
    rw [Sign.factor, one_mul, ← toRat_epsilon] at hvalue
    exact ⟨x, hx, hfinite, hvalue⟩
  one_add_epsilon := F.isLeast_above_one

/-- The smallest number of a format with a single hexadecimal digit is rounded to a normal
one, and the last place of one in a format with two bits of exponent to a denormal one. -/
theorem not_canonical_minPositive_epsilon :
    let F : Format := ⟨.hexadecimal ⟨2, 1, by decide, by decide⟩, .towardZero, .gradual⟩
    let G : Format :=
      ⟨.binary ⟨2, 3, false, true, true, by decide, by decide⟩, .nearestEven, .gradual⟩
    Format.hexadecimal 2 1 = .ok (F.withUnderflow .sudden) ∧ Format.ieee 2 3 = .ok G ∧
      ¬ F.Canonical .positive (F.minPositive .positive) ∧
      (F.minPositive .positive).isDenormal = true ∧
      (F.minPositive .positive).convert F.alone = F.minNormal .positive ∧
      ¬ G.Canonical .positive G.epsilon ∧
      G.epsilon.isNormal = true ∧
      G.epsilon.convert G.alone =
        ⟨.positive, .onUnderflow, .finite .denormal 0 0x2000000000000000⟩ := by
  intro F G
  refine ⟨rfl, rfl, fun h => ?_, rfl, by decide +kernel, fun h => ?_, rfl, by decide +kernel⟩
  · exact absurd ((F.contains_minPositive_iff .positive).1 h.contains rfl) (by decide)
  · exact absurd (G.contains_epsilon_iff.1 h.contains) (by decide)

end Format
end CrossFloat
