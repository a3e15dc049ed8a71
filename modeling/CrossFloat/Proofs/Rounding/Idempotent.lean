/-
Rounding is idempotent.

A rounding returns a number of the format in the format's own form, an infinity,
or a NaN with its payload cut to the format.  All of these are left alone by a
further rounding into that format, whatever the mode, because a mode only matters
between two numbers of the format.

What remains to be seen is the flags.  A denormal result is reported each time it
is rounded, also when it is exact.  The rounding that made it has reported it
already, since it comes from a number below the normal range.
-/
import CrossFloat.Proofs.Membership

namespace CrossFloat

/-! ## Values that a rounding keeps -/

namespace Format

variable {F : Format} {x : Value} {sign : Sign} {r : ℚ}

/-- The value is a number of the format in the format's own form, an infinity, or a
NaN with a payload cut to the format. -/
def Keeps (F : Format) (x : Value) : Prop :=
  F.Represents x ∨ x.magnitude = .infinite ∨
    ∃ payload, x.magnitude = .nan payload ∧ F.trimPayload payload = payload

theorem Contains.keeps (h : F.Contains x) : F.Keeps x :=
  (contains_iff_hasEncoding.1 h).imp_right And.right

theorem Keeps.trimPayload_eq {payload : UInt64} (h : F.Keeps x)
    (hx : x.magnitude = .nan payload) : F.trimPayload payload = payload := by
  rcases h with hnumber | hinfinite | ⟨payload', hnan, htrim⟩
  · have hfinite := hnumber.isFinite
    rw [Value.isFinite, hx] at hfinite
    exact absurd hfinite Bool.false_ne_true
  · exact Magnitude.noConfusion (hx.symm.trans hinfinite)
  · rw [hx] at hnan
    rwa [Magnitude.nan.inj hnan]

/-- The mode is no part of what a format represents. -/
theorem Represents.withRounding (h : F.Represents x) (mode : RoundingMode) :
    (F.withRounding mode).Represents x :=
  ⟨⟨h.number.whole, h.number.lt, h.number.kept⟩,
    ⟨h.stores.zero, h.stores.denormal, h.stores.normal⟩⟩

theorem Keeps.withRounding (h : F.Keeps x) (mode : RoundingMode) :
    (F.withRounding mode).Keeps x :=
  h.imp_left fun hnumber => hnumber.withRounding mode

/-- Denormal values are the nonzero numbers below the normal range. -/
theorem Represents.isDenormal_iff (h : F.Represents x) :
    x.isDenormal = true ↔ 0 < x.magnitude.toRat ∧ x.magnitude.toRat < 2 ^ F.minExponent := by
  have hstores := h.stores
  rcases h.number.nonneg.eq_or_lt with hzero | hpos
  · rw [← hzero] at hstores ⊢
    rw [Value.isDenormal, Value.kind, (hstores.zero rfl).2]
    exact iff_of_false Bool.false_ne_true fun hlt => lt_irrefl _ hlt.1
  rcases lt_or_ge x.magnitude.toRat (2 ^ F.minExponent) with htiny | hnormal
  · obtain ⟨-, s, hm, -⟩ := hstores.denormal hpos htiny
    refine iff_of_true ?_ ⟨hpos, htiny⟩
    rw [Value.isDenormal, Value.kind, hm]
    rfl
  · obtain ⟨-, e, s, hm, -⟩ := hstores.normal hnormal
    refine iff_of_false ?_ fun hlt => hlt.2.not_ge hnormal
    rw [Value.isDenormal, Value.kind, hm]
    exact Bool.false_ne_true

end Format

/-! ## Roundings of what is representable -/

namespace Context

variable (c : Context) (sign : Sign) (flags : Flags) {r v : ℚ}

/-- A number of the format is stored as it is, and nothing is raised for it unless
it is below the normal range. -/
theorem roundRat_of_hasNumber (hr : c.format.HasNumber r) :
    c.roundRat sign r flags = (c.format.store sign r).raise
      (flags ∪ if 0 < r ∧ r < 2 ^ c.format.minExponent then .onUnderflow else ∅) := by
  rcases hr.nonneg.eq_or_lt with rfl | hpos
  · rw [roundRat, if_pos rfl, Format.store, if_pos rfl, if_neg fun h => lt_irrefl _ h.1,
      Flags.union_empty]
  · rw [roundRat, if_neg hpos.ne', if_neg (hr.kept.resolve_left hpos.ne'),
      c.rounded_eq_self sign hr, if_neg (not_le.2 hr.lt), raised, c.rounded_eq_self sign hr,
      if_neg (lt_irrefl r), if_neg (lt_irrefl r), Flags.union_empty]
    simp only [hpos, true_and]

/-- The rounding of a number of the format is exact, and reports a denormal result. -/
theorem exact_roundRat (hr : c.format.HasNumber r) :
    c.format.Represents (c.roundRat sign r flags) ∧
      (c.roundRat sign r flags).toRat = sign.factor * r ∧
      (c.roundRat sign r flags).flags =
        flags ∪ if (c.roundRat sign r flags).isDenormal then .onUnderflow else ∅ := by
  have hstores := hr.stores_store sign
  have hrounded := c.roundRat_of_hasNumber sign flags hr
  have hrepresents : c.format.Represents (c.roundRat sign r flags) := by
    rw [hrounded]
    exact (hstores.represents hr).raise _
  have hsize : (c.roundRat sign r flags).magnitude.toRat = r := by
    rw [hrounded]
    exact hstores.toRat_eq hr.nonneg
  refine ⟨hrepresents, ?_, ?_⟩
  · rw [hrounded]
    exact hstores.toRat_value hr.nonneg
  · simp only [hrepresents.isDenormal_iff, hsize]
    rw [hrounded]
    show (c.format.store sign r).flags ∪ _ = _
    rw [Format.store_flags, Flags.empty_union]

/-- What is rounded without a flag is a number of the format. -/
theorem hasNumber_of_silent (hv : 0 ≤ v) (h : (c.roundRat sign v ∅).flags = ∅) :
    c.format.HasNumber v := by
  have hcorrect : CorrectRounding c sign v ∅ (c.roundRat sign v ∅) := correctRounding_roundRat hv
  generalize c.roundRat sign v ∅ = x at *
  by_cases hzero : v = 0
  · exact hzero ▸ c.format.hasNumber_zero
  have hkept : ¬ c.format.Flushes v := by
    intro hflush
    rw [hcorrect.flushed hzero hflush] at h
    exact Bool.false_ne_true (congrArg Flags.inexactLow h).symm
  have hwhole : ∃ count : ℕ, v = count * 2 ^ c.format.place v := by
    by_contra! hnot
    have hinexact := hcorrect.inexact fun count hcount => hnot count hcount.symm
    rw [h] at hinexact
    exact absurd hinexact (by decide)
  refine ⟨hwhole, lt_of_not_ge fun hlarge => ?_, Or.inr hkept⟩
  rw [← c.rounded_of_whole sign hwhole] at hlarge
  by_cases haway : c.format.hasSpecials ∧ c.mode.LeavesRange sign
  · rw [hcorrect.infinite hzero hkept hlarge haway] at h
    exact Bool.false_ne_true (congrArg Flags.inexactHigh h).symm
  · rw [hcorrect.largest hzero hkept hlarge haway] at h
    exact Bool.false_ne_true (congrArg Flags.inexactLow h).symm

/-- A denormal result has been reported by the rounding that made it. -/
theorem raise_onUnderflow_roundRat (hv : 0 ≤ v)
    (h : (c.roundRat sign v flags).isDenormal = true) :
    (c.roundRat sign v flags).raise .onUnderflow = c.roundRat sign v flags := by
  have hcorrect : CorrectRounding c sign v flags (c.roundRat sign v flags) :=
    correctRounding_roundRat hv
  generalize c.roundRat sign v flags = x at *
  by_cases hzero : v = 0
  · rw [hcorrect.zero hzero] at h
    exact absurd h Bool.false_ne_true
  by_cases hflush : c.format.Flushes v
  · rw [hcorrect.flushed hzero hflush] at h
    exact absurd h Bool.false_ne_true
  rcases le_or_gt (2 ^ (c.format.maxExponent + 1)) (c.rounded sign v) with hlarge | hlt
  · by_cases haway : c.format.hasSpecials ∧ c.mode.LeavesRange sign
    · rw [hcorrect.infinite hzero hflush hlarge haway] at h
      exact absurd h Bool.false_ne_true
    · rw [hcorrect.largest hzero hflush hlarge haway] at h
      exact absurd h Bool.false_ne_true
  · obtain ⟨hstores, hflags⟩ := hcorrect.stored hzero hflush hlt
    have hpos : 0 < v := lt_of_le_of_ne hv (Ne.symm hzero)
    have hrepresents := hstores.represents (c.hasNumber_rounded sign hpos hflush hlt)
    obtain ⟨-, hresult⟩ := hrepresents.isDenormal_iff.1 h
    rw [hstores.toRat_eq (c.rounded_nonneg sign v)] at hresult
    have htiny : v < 2 ^ c.format.minExponent :=
      lt_of_not_ge fun hnormal => hresult.not_ge (c.rounded_normal sign hnormal)
    have habsorbed : x.flags ∪ .onUnderflow = x.flags := by
      rw [hflags, raised, if_pos htiny]
      ac_rfl
    rw [Value.raise, habsorbed]

end Context

namespace Value

variable {x : Value} {c : Context}

theorem isDenormal_eq_false (h : x.isFinite = false) : x.isDenormal = false := by
  obtain ⟨sign, flags, magnitude⟩ := x
  cases magnitude with
  | zero | finite => exact absurd h.symm Bool.false_ne_true
  | infinite => rfl
  | nan payload =>
    by_cases hpayload : payload = 0 <;> simp [isDenormal, kind, Magnitude.kind, hpayload]

/-- A value that the format keeps is returned as it is, and reported if it is
denormal. -/
theorem convert_of_keeps (h : c.format.Keeps x) :
    x.convert c = if x.isDenormal then x.raise .onUnderflow else x := by
  rcases h with hnumber | hinfinite | ⟨payload, hnan, htrim⟩
  · rw [convert_eq_roundRat hnumber.isFinite, c.roundRat_of_hasNumber _ _ hnumber.number,
      ← raise_raise, ← hnumber.stores.eq hnumber.number.nonneg]
    simp only [← hnumber.isDenormal_iff]
    split
    · rfl
    · exact x.raise_empty
  · rw [convert_of_infinite c hinfinite, isDenormal, kind, hinfinite]
    rfl
  · obtain ⟨sign, flags, magnitude⟩ := x
    subst hnan
    rw [isDenormal_eq_false rfl, convert, conversion]
    show nanIn c.format sign flags payload = _
    rw [nanIn, htrim]
    rfl

/-- An infinity or a NaN that the format keeps is returned as it is. -/
theorem convert_of_special (h : c.format.Keeps x) (hx : x.isFinite = false) :
    x.convert c = x := by
  rw [convert_of_keeps h, isDenormal_eq_false hx]
  rfl

theorem keeps_convert (x : Value) (c : Context) : c.format.Keeps (x.convert c) := by
  by_cases hfinite : x.isFinite = true
  · rw [convert_eq_roundRat hfinite]
    rcases c.roundRat_represents x.sign x.flags x.magnitude.toRat_nonneg with
      ⟨-, hinfinite⟩ | hnumber
    · exact Or.inr (Or.inl hinfinite)
    · exact Or.inl hnumber
  obtain ⟨sign, flags, magnitude⟩ := x
  cases magnitude with
  | zero | finite => exact absurd rfl hfinite
  | infinite => exact Or.inr (Or.inl rfl)
  | nan payload =>
    exact Or.inr (Or.inr ⟨_, rfl, Format.trimPayload_eq_self (c.format.toNat_trimPayload payload)⟩)

theorem raise_onUnderflow_convert (h : (x.convert c).isDenormal = true) :
    (x.convert c).raise .onUnderflow = x.convert c := by
  by_cases hfinite : x.isFinite = true
  · rw [convert_eq_roundRat hfinite] at h ⊢
    exact c.raise_onUnderflow_roundRat _ _ x.magnitude.toRat_nonneg h
  have hresult : (x.convert c).isFinite = false := by
    obtain ⟨sign, flags, magnitude⟩ := x
    cases magnitude with
    | zero | finite => exact absurd rfl hfinite
    | infinite | nan => rfl
  exact absurd ((isDenormal_eq_false hresult).symm.trans h) Bool.false_ne_true

/-- Rounding a value again into the same format changes nothing, flags included,
whatever the modes of the two roundings.  So a value and its rounding have one
encoding.  A value of the format is returned as it is, but for the report that it is
denormal. -/
theorem convert_convert (x : Value) (F : Format) (mode : RoundingMode)
    (override override' : Option RoundingMode) :
    let c : Context := ⟨F, override⟩
    let d : Context := ⟨F.withRounding mode, override'⟩
    (x.convert c).convert d = x.convert c ∧
      (x.convert c).encode d = x.encode c ∧
      (F.Contains x → x.convert d = if x.isDenormal then x.raise .onUnderflow else x) := by
  intro c d
  have hagain : (x.convert c).convert d = x.convert c := by
    rw [convert_of_keeps (c := d) ((keeps_convert x c).withRounding mode)]
    split
    · next hdenormal => exact raise_onUnderflow_convert hdenormal
    · rfl
  refine ⟨hagain, ?_, fun hx => convert_of_keeps (c := d) (hx.keeps.withRounding mode)⟩
  rw [encode, hagain]
  rfl

/-- The smallest number of the 64-bit format, with a flag from before. -/
theorem convert_convert_minPositive :
    let F := Format.double
    let x := (F.minPositive .negative).raise .onInvalid
    F.Contains x ∧ x.convert ⟨F.withRounding .towardZero, none⟩ = x.raise .onUnderflow := by
  intro F x
  have hx : F.Contains x :=
    .denormal rfl (by decide) (by decide) ((F.toRat_eq_count_iff _ _ _ 1).2 (by decide))
  obtain ⟨-, -, hkept⟩ := convert_convert x F .towardZero none none
  exact ⟨hx, hkept hx⟩

end Value
end CrossFloat
