/-
Which operands are exceptional, and what an operation makes of them.

The tables of the operations have rows for NaNs, infinities and zeros, and the first row
that fits is taken.  A NaN operand is handed on, and nothing is raised.  The other rows give
an infinity, a zero, or the NaN of an invalid operation.  The infinity of a division by
zero raises a flag, and the others raise none.

Whatever reaches the rounder is a number, and comes out as a number or an infinity.  The
rounder raises neither of the two flags that belong to the tables.  So each of these flags
stands for the rows that raise it, and for nothing else.
-/
import CrossFloat.Proofs.Arithmetic.Commutation

namespace CrossFloat

/-! ## The flags of a rounding -/

namespace Flags

/-- The flags are among those that a rounding raises. -/
structure OfRounding (f : Flags) : Prop where
  invalid : f.invalid = false
  divByZero : f.divByZero = false

theorem OfRounding.union {f g : Flags} (hf : f.OfRounding) (hg : g.OfRounding) :
    (f ∪ g).OfRounding where
  invalid := Bool.or_eq_false_iff.2 ⟨hf.invalid, hg.invalid⟩
  divByZero := Bool.or_eq_false_iff.2 ⟨hf.divByZero, hg.divByZero⟩

theorem OfRounding.ite {f g : Flags} (hf : f.OfRounding) (hg : g.OfRounding) (p : Prop)
    [Decidable p] : (if p then f else g).OfRounding := by
  by_cases h : p
  · rwa [if_pos h]
  · rwa [if_neg h]

theorem ofRounding_empty : (∅ : Flags).OfRounding := ⟨rfl, rfl⟩

end Flags

/-- A rounding keeps to its own flags. -/
theorem Context.ofRounding_roundRat (c : Context) (sign : Sign) {v : ℚ} (hv : 0 ≤ v)
    {flags : Flags} (hflags : flags.OfRounding) : (c.roundRat sign v flags).flags.OfRounding := by
  have hcorrect : CorrectRounding c sign v flags (c.roundRat sign v flags) :=
    correctRounding_roundRat hv
  by_cases hzero : v = 0
  · rw [hcorrect.zero hzero]
    exact hflags
  by_cases hflush : c.format.Flushes v
  · rw [hcorrect.flushed hzero hflush]
    exact (hflags.union ⟨rfl, rfl⟩).union ⟨rfl, rfl⟩
  rcases le_or_gt (2 ^ (c.format.maxExponent + 1)) (c.rounded sign v) with hlarge | hlt
  · by_cases haway : c.format.hasSpecials ∧ c.mode.LeavesRange sign
    · rw [hcorrect.infinite hzero hflush hlarge haway]
      exact (hflags.union ⟨rfl, rfl⟩).union ⟨rfl, rfl⟩
    · rw [hcorrect.largest hzero hflush hlarge haway]
      exact Flags.ofRounding_empty.union ((hflags.union ⟨rfl, rfl⟩).union ⟨rfl, rfl⟩)
  · rw [(hcorrect.stored hzero hflush hlt).2, raised]
    have hinexact : (if c.rounded sign v < v then .onInexactLow
        else if v < c.rounded sign v then .onInexactHigh else ∅ : Flags).OfRounding :=
      .ite ⟨rfl, rfl⟩ (.ite ⟨rfl, rfl⟩ Flags.ofRounding_empty _) _
    exact hflags.union ((Flags.OfRounding.ite ⟨rfl, rfl⟩ Flags.ofRounding_empty _).union hinexact)

theorem Intermediate.ofRounding_round (u : Intermediate) (c : Context)
    (hflags : u.flags.OfRounding) : (u.round c).flags.OfRounding := by
  rw [u.round_eq_roundRat]
  exact c.ofRounding_roundRat _ (mul_nonneg (Nat.cast_nonneg _) (two_zpow_pos _).le) hflags

/-! ## Exceptional operands -/

/-- The operations on two values. -/
inductive Operation where
  | add
  | sub
  | mul
  | div
  deriving DecidableEq

namespace Operation

def apply (op : Operation) (x y : Value) (c : Context) : Value :=
  match op with
  | add => x.add y c
  | sub => x.sub y c
  | mul => x.mul y c
  | div => x.div y c

/-- The sign with which the right operand takes part in a sum. -/
def rightSign (op : Operation) (s : Sign) : Sign :=
  match op with
  | sub => s.flip
  | add | mul | div => s

/-- The operands, neither of them a NaN, leave the operation without a meaningful result. -/
def IsInvalid (op : Operation) (x y : Value) : Prop :=
  match op with
  | add | sub => x.isInfinite ∧ y.isInfinite ∧ x.sign ≠ op.rightSign y.sign
  | mul => (x.isZero ∧ y.isInfinite) ∨ (x.isInfinite ∧ y.isZero)
  | div => (x.isZero ∧ y.isZero) ∨ (x.isInfinite ∧ y.isInfinite)

/-- A number other than zero is divided by zero. -/
structure DividesByZero (op : Operation) (x y : Value) : Prop where
  isDiv : op = div
  isFinite : x.isFinite = true
  not_isZero : x.isZero = false
  isZero : y.isZero = true

/-- What an infinite operand makes of the other one, where this is not invalid. -/
def limit (op : Operation) (x y : Value) (F : Format) : Value :=
  match op with
  | add | sub => .infinity (if x.isInfinite then x.sign else op.rightSign y.sign)
  | mul => .infinity (x.sign.times y.sign)
  | div =>
    if x.isInfinite then .infinity (x.sign.times y.sign) else F.zero (x.sign.times y.sign)

/-- `r` is the NaN `n` rounded into the format: its sign is kept, as are the bits of its
payload that the format has room for, and nothing is raised. -/
structure HandsOn (c : Context) (n r : Value) : Prop where
  rounded : r = n.convert c
  isNan : r.isNan = true
  sign : r.sign = n.sign
  flags : r.flags = ∅
  payload : r.significand.toNat =
    n.significand.toNat / 2 ^ (64 - c.format.payloadWidth) * 2 ^ (64 - c.format.payloadWidth)
  plain : r.kind = .nan ↔ n.significand.toNat < 2 ^ (64 - c.format.payloadWidth)

/-- The result `r` of an operation on operands without flags, neither of them a NaN: a NaN
for an invalid operation only, an infinity for a division by zero, and the limit with an
infinite operand.  The flags tell which of the two exceptions there was. -/
structure Answers (op : Operation) (x y : Value) (F : Format) (r : Value) : Prop where
  isNan_iff : r.isNan = true ↔ op.IsInvalid x y
  invalid_iff : r.flags.invalid = true ↔ op.IsInvalid x y
  divByZero_iff : r.flags.divByZero = true ↔ op.DividesByZero x y
  quotient : op.DividesByZero x y → r.isInfinite = true ∧ r.sign = x.sign.times y.sign
  infinite : x.isInfinite = true ∨ y.isInfinite = true → r.isNan = false → r = op.limit x y F

/-- The result `r` of an operation on operands without flags.  The left one of two NaNs
is handed on. -/
structure Obeys (op : Operation) (x y : Value) (c : Context) (r : Value) : Prop where
  nan_left : x.isNan = true → HandsOn c x r
  nan_right : x.isNan = false → y.isNan = true → HandsOn c y r
  regular : x.isNan = false → y.isNan = false → op.Answers x y c.format r

variable {op : Operation} {x y r : Value} {c : Context} {F : Format} {s t : Sign}

/-! ## The ways in which an operation can end -/

theorem handsOn_nanIn (sign : Sign) (payload : UInt64) :
    HandsOn c ⟨sign, ∅, .nan payload⟩ (Value.nanIn c.format sign ∅ payload) where
  rounded := rfl
  isNan := rfl
  sign := rfl
  flags := rfl
  payload := c.format.toNat_trimPayload payload
  plain := by
    have hpayload := c.format.toNat_trimPayload payload
    have hpos := Nat.two_pow_pos (64 - c.format.payloadWidth)
    have hzero : c.format.trimPayload payload = 0 ↔
        payload.toNat < 2 ^ (64 - c.format.payloadWidth) := by
      rw [← UInt64.toNat_inj, hpayload, UInt64.toNat_zero, Nat.mul_eq_zero,
        or_iff_left hpos.ne', Nat.div_eq_zero_iff, or_iff_right hpos.ne']
    refine Iff.trans ?_ hzero
    show (if c.format.trimPayload payload = 0 then Kind.nan else Kind.nanPayload) = .nan ↔ _
    by_cases h : c.format.trimPayload payload = 0
    · rw [if_pos h]
      exact iff_of_true rfl h
    · rw [if_neg h]
      exact iff_of_false Kind.noConfusion h

theorem not_dividesByZero_of_infinite (h : x.isInfinite = true ∨ y.isInfinite = true) :
    ¬ op.DividesByZero x y := by
  intro hdivides
  rcases h with hx | hy
  · have hfinite := hdivides.isFinite
    rw [Value.isInfinite, beq_iff_eq] at hx
    rw [Value.isFinite, hx] at hfinite
    exact absurd hfinite Bool.false_ne_true
  · have hzero := Value.isZero_iff.1 hdivides.isZero
    rw [Value.isInfinite, hzero] at hy
    exact absurd hy Bool.false_ne_true

/-- The dividend of a division by zero is neither a zero nor an infinity. -/
theorem not_dividesByZero_of_isInvalid (h : op.IsInvalid x y) : ¬ op.DividesByZero x y := by
  intro hdivides
  obtain rfl := hdivides.isDiv
  rcases h with ⟨hx, -⟩ | ⟨hx, -⟩
  · exact absurd (hx.symm.trans hdivides.not_isZero) (Ne.symm Bool.false_ne_true)
  · exact not_dividesByZero_of_infinite (Or.inl hx) hdivides

theorem flags_limit (op : Operation) (x y : Value) (F : Format) : (op.limit x y F).flags = ∅ := by
  cases op with
  | add | sub | mul => rfl
  | div =>
    rw [limit]
    split <;> rfl

theorem isNan_limit (op : Operation) (x y : Value) (F : Format) :
    (op.limit x y F).isNan = false := by
  cases op with
  | add | sub | mul => rfl
  | div =>
    rw [limit]
    split <;> rfl

namespace Answers

theorem of_invalid (hinvalid : op.IsInvalid x y) : op.Answers x y F (.invalidResult ∅) where
  isNan_iff := iff_of_true rfl hinvalid
  invalid_iff := iff_of_true rfl hinvalid
  divByZero_iff := iff_of_false Bool.false_ne_true (not_dividesByZero_of_isInvalid hinvalid)
  quotient hdivides := absurd hdivides (not_dividesByZero_of_isInvalid hinvalid)
  infinite _ hr := absurd hr.symm Bool.false_ne_true

theorem of_limit (hinfinite : x.isInfinite = true ∨ y.isInfinite = true)
    (hvalid : ¬ op.IsInvalid x y) (hr : r = op.limit x y F) : op.Answers x y F r where
  isNan_iff := by
    rw [hr, isNan_limit]
    exact iff_of_false Bool.false_ne_true hvalid
  invalid_iff := by
    rw [hr, flags_limit]
    exact iff_of_false Bool.false_ne_true hvalid
  divByZero_iff := by
    rw [hr, flags_limit]
    exact iff_of_false Bool.false_ne_true (not_dividesByZero_of_infinite hinfinite)
  quotient hdivides := absurd hdivides (not_dividesByZero_of_infinite hinfinite)
  infinite _ _ := hr

theorem of_divByZero (hdivides : op.DividesByZero x y) :
    op.Answers x y F ⟨x.sign.times y.sign, .onDivByZero, .infinite⟩ where
  isNan_iff := iff_of_false Bool.false_ne_true
    fun hinvalid => not_dividesByZero_of_isInvalid hinvalid hdivides
  invalid_iff := iff_of_false Bool.false_ne_true
    fun hinvalid => not_dividesByZero_of_isInvalid hinvalid hdivides
  divByZero_iff := iff_of_true rfl hdivides
  quotient _ := ⟨rfl, rfl⟩
  infinite hinfinite := absurd hdivides (not_dividesByZero_of_infinite hinfinite)

/-- The result comes from the rounder, or is an exact zero. -/
theorem of_rounding (hx : x.isInfinite = false) (hy : y.isInfinite = false)
    (hvalid : ¬ op.IsInvalid x y) (hdivides : ¬ op.DividesByZero x y) (hr : r.isNan = false)
    (hflags : r.flags.OfRounding) : op.Answers x y F r where
  isNan_iff := by
    rw [hr]
    exact iff_of_false Bool.false_ne_true hvalid
  invalid_iff := by
    rw [hflags.invalid]
    exact iff_of_false Bool.false_ne_true hvalid
  divByZero_iff := by
    rw [hflags.divByZero]
    exact iff_of_false Bool.false_ne_true hdivides
  quotient h := absurd h hdivides
  infinite h := by
    rw [hx, hy] at h
    exact absurd h (not_or.2 ⟨Bool.false_ne_true, Bool.false_ne_true⟩)

theorem of_number (hx : x.isInfinite = false) (hy : y.isInfinite = false)
    (hvalid : ¬ op.IsInvalid x y) (hdivides : ¬ op.DividesByZero x y) {u : Intermediate}
    (hflags : u.flags = ∅) (c : Context) : op.Answers x y F (u.round c) :=
  of_rounding hx hy hvalid hdivides (u.isNan_round c)
    (u.ofRounding_round c (hflags ▸ Flags.ofRounding_empty))

end Answers

namespace Obeys

theorem of_nan_left {payload : UInt64} :
    Obeys op ⟨s, ∅, .nan payload⟩ y c (Value.nanIn c.format s ∅ payload) where
  nan_left _ := handsOn_nanIn s payload
  nan_right hx := absurd hx.symm Bool.false_ne_true
  regular hx := absurd hx.symm Bool.false_ne_true

theorem of_nan_right (hx : x.isNan = false) {payload : UInt64} :
    Obeys op x ⟨t, ∅, .nan payload⟩ c (Value.nanIn c.format t ∅ payload) where
  nan_left hx' := absurd (hx.symm.trans hx') Bool.false_ne_true
  nan_right _ _ := handsOn_nanIn t payload
  regular _ hy := absurd hy.symm Bool.false_ne_true

theorem of_answers (hx : x.isNan = false) (hy : y.isNan = false)
    (hr : op.Answers x y c.format r) : Obeys op x y c r where
  nan_left hx' := absurd (hx.symm.trans hx') Bool.false_ne_true
  nan_right _ hy' := absurd (hy.symm.trans hy') Bool.false_ne_true
  regular _ _ := hr

end Obeys

/-! ## The tables -/

theorem isInvalid_sum_iff (hop : op = .add ∨ op = .sub) : op.IsInvalid x y ↔
    x.isInfinite = true ∧ y.isInfinite = true ∧ x.sign ≠ op.rightSign y.sign := by
  rcases hop with rfl | rfl <;> rfl

theorem limit_sum_left (hop : op = .add ∨ op = .sub) (s : Sign) (y : Value) :
    op.limit ⟨s, ∅, .infinite⟩ y F = .infinity s := by
  rcases hop with rfl | rfl <;> rfl

theorem limit_sum_right (hop : op = .add ∨ op = .sub) (hx : x.isInfinite = false) (t : Sign) :
    op.limit x ⟨t, ∅, .infinite⟩ F = .infinity (op.rightSign t) := by
  rcases hop with rfl | rfl <;> rw [limit, hx] <;> rfl

theorem obeys_sum (hop : op = .add ∨ op = .sub) (s t : Sign) (m n : Magnitude) (c : Context) :
    op.Obeys ⟨s, ∅, m⟩ ⟨t, ∅, n⟩ c
      ((Value.sumWithSign ⟨s, ∅, m⟩ ⟨t, ∅, n⟩ (op.rightSign t) c).round c) := by
  have hdivides {x y : Value} : ¬ op.DividesByZero x y := by
    intro h
    rcases hop with rfl | rfl <;> exact absurd h.isDiv Operation.noConfusion
  have hleft {x y : Value} (hx : x.isInfinite = false) : ¬ op.IsInvalid x y := fun hinvalid =>
    absurd (hx.symm.trans ((isInvalid_sum_iff hop).1 hinvalid).1) Bool.false_ne_true
  have hright {x y : Value} (hy : y.isInfinite = false) : ¬ op.IsInvalid x y := fun hinvalid =>
    absurd (hy.symm.trans ((isInvalid_sum_iff hop).1 hinvalid).2.1) Bool.false_ne_true
  cases m with
  | nan payload => exact .of_nan_left
  | infinite =>
    cases n with
    | nan payload => exact .of_nan_right rfl
    | infinite =>
      refine .of_answers rfl rfl ?_
      by_cases hsign : s = op.rightSign t
      · simp only [Value.sumWithSign, if_pos hsign]
        exact .of_limit (Or.inl rfl) (fun h => ((isInvalid_sum_iff hop).1 h).2.2 hsign)
          (limit_sum_left hop s _).symm
      · simp only [Value.sumWithSign, if_neg hsign]
        exact .of_invalid ((isInvalid_sum_iff hop).2 ⟨rfl, rfl, hsign⟩)
    | zero | finite =>
      exact .of_answers rfl rfl
        (.of_limit (Or.inl rfl) (hright rfl) (limit_sum_left hop s _).symm)
  | zero =>
    cases n with
    | nan payload => exact .of_nan_right rfl
    | infinite =>
      exact .of_answers rfl rfl
        (.of_limit (Or.inr rfl) (hleft rfl) (limit_sum_right hop rfl t).symm)
    | zero =>
      exact .of_answers rfl rfl
        (.of_rounding rfl rfl (hleft rfl) hdivides rfl Flags.ofRounding_empty)
    | finite => exact .of_answers rfl rfl (.of_number rfl rfl (hleft rfl) hdivides rfl c)
  | finite =>
    cases n with
    | nan payload => exact .of_nan_right rfl
    | infinite =>
      exact .of_answers rfl rfl
        (.of_limit (Or.inr rfl) (hleft rfl) (limit_sum_right hop rfl t).symm)
    | zero => exact .of_answers rfl rfl (.of_number rfl rfl (hleft rfl) hdivides rfl c)
    | finite =>
      refine .of_answers rfl rfl ?_
      simp only [Value.sumWithSign]
      split
      · exact .of_number rfl rfl (hleft rfl) hdivides rfl c
      · exact .of_rounding rfl rfl (hleft rfl) hdivides rfl Flags.ofRounding_empty

theorem not_isInvalid_mul (h : x.isZero = false ∨ y.isInfinite = false)
    (h' : x.isInfinite = false ∨ y.isZero = false) : ¬ mul.IsInvalid x y := by
  rintro (⟨hx, hy⟩ | ⟨hx, hy⟩)
  · rw [hx, hy] at h
    exact absurd h (by decide)
  · rw [hx, hy] at h'
    exact absurd h' (by decide)

theorem not_isInvalid_div (h : x.isZero = false ∨ y.isZero = false)
    (h' : x.isInfinite = false ∨ y.isInfinite = false) : ¬ div.IsInvalid x y := by
  rintro (⟨hx, hy⟩ | ⟨hx, hy⟩)
  · rw [hx, hy] at h
    exact absurd h (by decide)
  · rw [hx, hy] at h'
    exact absurd h' (by decide)

theorem obeys_mul (s t : Sign) (m n : Magnitude) (c : Context) :
    mul.Obeys ⟨s, ∅, m⟩ ⟨t, ∅, n⟩ c (Value.mul ⟨s, ∅, m⟩ ⟨t, ∅, n⟩ c) := by
  have hdivides {x y : Value} : ¬ mul.DividesByZero x y :=
    fun h => absurd h.isDiv Operation.noConfusion
  cases m with
  | nan payload => exact .of_nan_left
  | infinite =>
    cases n with
    | nan payload => exact .of_nan_right rfl
    | zero => exact .of_answers rfl rfl (.of_invalid (Or.inr ⟨rfl, rfl⟩))
    | infinite =>
      exact .of_answers rfl rfl
        (.of_limit (Or.inl rfl) (not_isInvalid_mul (Or.inl rfl) (Or.inr rfl)) rfl)
    | finite =>
      exact .of_answers rfl rfl (.of_limit (Or.inl rfl)
        (not_isInvalid_mul (Or.inl rfl) (Or.inr (Value.isZero_finite ..))) rfl)
  | zero =>
    cases n with
    | nan payload => exact .of_nan_right rfl
    | infinite => exact .of_answers rfl rfl (.of_invalid (Or.inl ⟨rfl, rfl⟩))
    | zero | finite =>
      exact .of_answers rfl rfl (.of_rounding rfl rfl
        (not_isInvalid_mul (Or.inr rfl) (Or.inl rfl)) hdivides rfl Flags.ofRounding_empty)
  | finite =>
    cases n with
    | nan payload => exact .of_nan_right rfl
    | infinite =>
      exact .of_answers rfl rfl (.of_limit (Or.inr rfl)
        (not_isInvalid_mul (Or.inl (Value.isZero_finite ..)) (Or.inl rfl)) rfl)
    | zero =>
      exact .of_answers rfl rfl (.of_rounding rfl rfl
        (not_isInvalid_mul (Or.inr rfl) (Or.inl rfl)) hdivides rfl Flags.ofRounding_empty)
    | finite =>
      exact .of_answers rfl rfl (.of_number rfl rfl
        (not_isInvalid_mul (Or.inr rfl) (Or.inl rfl)) hdivides rfl c)

theorem obeys_div (s t : Sign) (m n : Magnitude) (c : Context) :
    div.Obeys ⟨s, ∅, m⟩ ⟨t, ∅, n⟩ c (Value.div ⟨s, ∅, m⟩ ⟨t, ∅, n⟩ c) := by
  cases m with
  | nan payload => exact .of_nan_left
  | infinite =>
    cases n with
    | nan payload => exact .of_nan_right rfl
    | infinite => exact .of_answers rfl rfl (.of_invalid (Or.inr ⟨rfl, rfl⟩))
    | zero | finite =>
      exact .of_answers rfl rfl
        (.of_limit (Or.inl rfl) (not_isInvalid_div (Or.inl rfl) (Or.inr rfl)) rfl)
  | zero =>
    cases n with
    | nan payload => exact .of_nan_right rfl
    | zero => exact .of_answers rfl rfl (.of_invalid (Or.inl ⟨rfl, rfl⟩))
    | infinite =>
      exact .of_answers rfl rfl
        (.of_limit (Or.inr rfl) (not_isInvalid_div (Or.inr rfl) (Or.inl rfl)) rfl)
    | finite =>
      exact .of_answers rfl rfl (.of_rounding rfl rfl
        (not_isInvalid_div (Or.inr (Value.isZero_finite ..)) (Or.inl rfl))
        (fun h => absurd h.not_isZero.symm Bool.false_ne_true) rfl Flags.ofRounding_empty)
  | finite =>
    cases n with
    | nan payload => exact .of_nan_right rfl
    | infinite =>
      exact .of_answers rfl rfl (.of_limit (Or.inr rfl)
        (not_isInvalid_div (Or.inl (Value.isZero_finite ..)) (Or.inl rfl)) rfl)
    | zero =>
      exact .of_answers rfl rfl (.of_divByZero ⟨rfl, rfl, Value.isZero_finite .., rfl⟩)
    | finite =>
      exact .of_answers rfl rfl (.of_number rfl rfl
        (not_isInvalid_div (Or.inl (Value.isZero_finite ..)) (Or.inl rfl))
        (fun h => absurd (Value.isZero_iff.1 h.isZero) Magnitude.noConfusion) rfl c)

/-- NaN operands are handed on without a flag.  Otherwise the result is a NaN, and the
operation raises invalid, exactly for the invalid operands, and it raises the division by zero
exactly for a number divided by zero.  With an infinite operand the result is the limit,
which is exact.  The rounder gives no NaN at all. -/
theorem exceptions_raised_exactly (op : Operation) {x y : Value} (hx : x.flags = ∅)
    (hy : y.flags = ∅) (c : Context) :
    op.Obeys x y c (op.apply x y c) ∧ ∀ u : Intermediate, (u.round c).isNan = false := by
  refine ⟨?_, fun u => u.isNan_round c⟩
  obtain ⟨signX, flagsX, magnitudeX⟩ := x
  obtain ⟨signY, flagsY, magnitudeY⟩ := y
  obtain rfl : flagsX = ∅ := hx
  obtain rfl : flagsY = ∅ := hy
  cases op with
  | add => exact obeys_sum (Or.inl rfl) ..
  | sub => exact obeys_sum (Or.inr rfl) ..
  | mul => exact obeys_mul ..
  | div => exact obeys_div ..

/-- The largest number divided by a negative zero. -/
theorem exceptions_raised_exactly_division :
    let c := Format.double.alone
    let x := Format.double.maxFinite .positive
    let y := Value.zero .negative
    x.flags = ∅ ∧ y.flags = ∅ ∧ div.DividesByZero x y ∧ div.Obeys x y c (div.apply x y c) := by
  intro c x y
  have hdivides : div.DividesByZero x y := ⟨rfl, rfl, rfl, rfl⟩
  exact ⟨rfl, rfl, hdivides, (exceptions_raised_exactly div rfl rfl c).1⟩

end Operation
end CrossFloat
