/-
Decoding undoes encoding.

What a rounding returns is in the format's own form, or an infinity or a NaN.
Where the format has an encoding for it, decoding gives it back without its
flags, so a value survives the round trip as its rounding does.
-/
import CrossFloat.Proofs.Encoding.Layout

namespace CrossFloat

/-! ## Payloads -/

namespace Format

/-- Cutting a payload clears the places that the format has no room for. -/
theorem toNat_trimPayload (F : Format) (payload : UInt64) :
    (F.trimPayload payload).toNat =
      payload.toNat / 2 ^ (64 - F.payloadWidth) * 2 ^ (64 - F.payloadWidth) := by
  have hwidth := F.payloadWidth_pos
  have hones : (0xffffffffffffffff : UInt64).toNat = 2 ^ 64 - 1 := rfl
  have hpayload := payload.toNat_lt
  rw [trimPayload, UInt64.toNat_and, Limb.toNat_shiftLeft _ (by omega), hones]
  refine Nat.eq_of_testBit_eq fun i => ?_
  rw [Nat.testBit_and, Nat.testBit_mod_two_pow, Nat.testBit_mul_two_pow, Nat.testBit_mul_two_pow,
    Nat.testBit_two_pow_sub_one, Nat.testBit_div_two_pow]
  by_cases hi : i < 64
  · by_cases hle : 64 - F.payloadWidth ≤ i
    · have hlow : i - (64 - F.payloadWidth) < 64 := by omega
      simp [hi, hle, hlow]
    · simp [hle]
  · have hhigh : payload.toNat.testBit i = false :=
      Nat.testBit_lt_two_pow (hpayload.trans_le (Nat.pow_le_pow_right (by decide) (by omega)))
    by_cases hle : 64 - F.payloadWidth ≤ i <;> simp [hle, hhigh]

theorem trimPayload_eq_self {F : Format} {payload : UInt64} {q : ℕ}
    (hq : payload.toNat = q * 2 ^ (64 - F.payloadWidth)) : F.trimPayload payload = payload := by
  rw [← UInt64.toNat_inj, toNat_trimPayload, hq, Nat.mul_div_cancel _ (Nat.two_pow_pos _)]

/-! ## Values that have an encoding -/

/-- The value is a number of the format in the format's own form, or an infinity
or a NaN with a payload cut to the format if the format has them. -/
def HasEncoding (F : Format) (y : Value) : Prop :=
  F.Represents y ∨ F.hasSpecials = true ∧
    (y.magnitude = .infinite ∨ ∃ payload, y.magnitude = .nan payload ∧
      F.trimPayload payload = payload)

variable {F : Format} {y : Value}

/-- Only what the format lacks is replaced. -/
theorem encodable_eq_self (hy : y.isFinite = true ∨ F.hasSpecials = true) :
    F.encodable y = y := by
  rw [encodable]
  split
  · rfl
  · split <;> simp_all [Value.isFinite]

theorem HasEncoding.encodable_eq (hy : F.HasEncoding y) : F.encodable y = y :=
  encodable_eq_self (hy.imp (·.isFinite) (·.1))

/-- A rounded value has an encoding once what the format lacks is replaced. -/
theorem hasEncoding_encodable_convert (x : Value) (c : Context) :
    c.format.HasEncoding (c.format.encodable (x.convert c)) := by
  by_cases hfinite : x.isFinite = true
  · rw [Value.convert_eq_roundRat hfinite]
    rcases c.roundRat_represents x.sign x.flags x.magnitude.toRat_nonneg with
      ⟨hspecials, hinfinite⟩ | hnumber
    · rw [encodable, if_pos hspecials]
      exact Or.inr ⟨hspecials, Or.inl hinfinite⟩
    · rw [encodable_eq_self (Or.inl hnumber.isFinite)]
      exact Or.inl hnumber
  obtain ⟨sign, flags, magnitude⟩ := x
  cases magnitude with
  | zero | finite => exact absurd rfl hfinite
  | infinite =>
    show c.format.HasEncoding (c.format.encodable ⟨sign, flags, .infinite⟩)
    by_cases hspecials : c.format.hasSpecials = true
    · rw [encodable, if_pos hspecials]
      exact Or.inr ⟨hspecials, Or.inl rfl⟩
    · rw [encodable, if_neg hspecials]
      exact Or.inl (c.format.represents_maxFinite sign)
  | nan payload =>
    show c.format.HasEncoding (c.format.encodable (Value.nanIn c.format sign flags payload))
    by_cases hspecials : c.format.hasSpecials = true
    · rw [encodable, if_pos hspecials]
      exact Or.inr ⟨hspecials, Or.inr ⟨_, rfl,
        trimPayload_eq_self (c.format.toNat_trimPayload payload)⟩⟩
    · rw [encodable, if_neg hspecials]
      exact Or.inl (c.format.represents_maxFinite .positive)

/-- The fields of an infinity or a NaN are read as such. -/
theorem read_fields_special (hspecials : F.hasSpecials = true)
    (hy : y.magnitude = .infinite ∨ ∃ payload, y.magnitude = .nan payload ∧
      F.trimPayload payload = payload) :
    (F.fields y).Fits F ∧ F.read (F.fields y) = .special y.magnitude := by
  obtain ⟨b, hlayout, hspecials⟩ := exists_binary hspecials
  have hbiased : b.topBiased < 2 ^ b.exponentWidth := by
    rw [b.topBiased_eq, b.two_pow_exponentWidth]
    omega
  rw [← exponentWidth_binary hlayout] at hbiased
  rw [fields_binary hlayout, read_binary hlayout]
  rcases hy with hinfinite | ⟨payload, hnan, htrim⟩
  · obtain ⟨hfraction, hrest⟩ := BinaryLayout.storedLeadingBit_or (b := b) (Nat.two_pow_pos _)
    rw [Nat.or_zero] at hfraction hrest
    rw [← fractionWidth_binary hlayout] at hfraction
    rw [hinfinite]
    exact ⟨⟨hbiased, hfraction⟩, BinaryLayout.read_infinite ⟨rfl, hspecials⟩ hrest⟩
  · have hprecision := b.precision_mem
    have hq := F.toNat_trimPayload payload
    rw [htrim, payloadWidth_binary hlayout] at hq
    generalize payload.toNat / _ = q at hq
    have hlt : q < 2 ^ (b.precision - 2) := lt_two_pow_of_toNat_eq (by omega) hq
    obtain ⟨hfraction, hrest, hpayload⟩ := BinaryLayout.fraction_nan hlt
    rw [← fractionWidth_binary hlayout] at hfraction
    have hback : UInt64.ofNat q <<< (64 - (b.precision - 2)).toUInt64 = payload := by
      rw [← UInt64.toNat_inj, BinaryLayout.toNat_payload hlt, hq]
    have hread := BinaryLayout.read_nan (f := ⟨y.sign, _, _⟩) ⟨rfl, hspecials⟩ hrest
    rw [hpayload, hback] at hread
    rw [hnan, BinaryLayout.write_nan hq]
    exact ⟨⟨hbiased, hfraction⟩, hread⟩

/-- The fields of a value that has an encoding stand for that value. -/
theorem HasEncoding.decode_toWord (hy : F.HasEncoding y) :
    (F.fields y).Fits F ∧ F.decode ((F.fields y).toWord F) = y.clearFlags := by
  rcases hy with hnumber | ⟨hspecials, hspecial⟩
  · have hdenotes := denotes_fields hnumber
    have hword := hdenotes.1.ofWord_toWord
    refine ⟨hdenotes.1, ?_⟩
    rw [decode_of_denotes (hword.symm ▸ hdenotes), hword, hnumber.eq_store]
    rfl
  · obtain ⟨hfits, hread⟩ := read_fields_special hspecials hspecial
    have hword := hfits.ofWord_toWord
    refine ⟨hfits, ?_⟩
    rw [decode_of_special (hword.symm ▸ hread), hword]
    rfl

/-! ## Encoding values that have an encoding -/

theorem HasEncoding.clearFlags_convert {c : Context} (hy : c.format.HasEncoding y) :
    (y.convert c).clearFlags = y.clearFlags := by
  rcases hy with hnumber | ⟨-, hinfinite | ⟨payload, hnan, htrim⟩⟩
  · exact Value.clearFlags_convert hnumber
  · simp [Value.convert, Value.conversion, hinfinite]
  · simp [Value.convert, Value.conversion, hnan, Value.nanIn, htrim, Value.clearFlags]

theorem fields_encodable_congr (F : Format) {x y : Value} (h : x.clearFlags = y.clearFlags) :
    F.fields (F.encodable x) = F.fields (F.encodable y) := by
  obtain ⟨signX, flagsX, magnitudeX⟩ := x
  obtain ⟨signY, flagsY, magnitudeY⟩ := y
  simp only [Value.clearFlags, Value.mk.injEq, true_and] at h
  obtain ⟨rfl, rfl⟩ := h
  by_cases hspecials : F.hasSpecials = true
  · simp only [encodable, if_pos hspecials, fields]
  · simp only [encodable, if_neg hspecials]
    cases magnitudeX <;> rfl

/-- A value that has an encoding is encoded as it is. -/
theorem HasEncoding.encode_eq {c : Context} (hy : c.format.HasEncoding y) :
    y.encode c = (c.format.fields y).toWord c.format := by
  rw [Value.encode, encodeRounded, fields_encodable_congr _ hy.clearFlags_convert,
    hy.encodable_eq]

end Format

/-! ## Decoding an encoding -/

/-- `y` is what the encoding of a value with the rounding `r` stands for.  That is
`r` without its flags, except that a format without infinities and NaNs has its
largest number in their place. -/
structure StandsFor (F : Format) (r y : Value) : Prop where
  kept : r.isFinite ∨ F.hasSpecials → y = r.clearFlags
  infinite : ¬ F.hasSpecials → r.isInfinite → y = F.maxFinite r.sign
  nan : ¬ F.hasSpecials → r.isNan → y = F.maxFinite .positive

namespace Value

/-- An encoding fits in its width and stands for the rounded value.  A number of
the format keeps its value, and also its form if that is the format's own. -/
theorem decode_encode (x : Value) (c : Context) :
    x.encode c < 2 ^ c.format.storageWidth ∧
      StandsFor c.format (x.convert c) (c.format.decode (x.encode c)) ∧
      (x.isFinite → c.format.HasNumber x.magnitude.toRat →
        (c.format.decode (x.encode c)).toRat = x.toRat) ∧
      (c.format.Represents x → c.format.decode (x.encode c) = x.clearFlags) := by
  obtain ⟨hfits, hdecode⟩ := (Format.hasEncoding_encodable_convert x c).decode_toWord
  have hencode : x.encode c =
      (c.format.fields (c.format.encodable (x.convert c))).toWord c.format := rfl
  rw [← hencode] at hdecode
  rw [hdecode]
  refine ⟨hencode ▸ hfits.toWord_lt, ⟨fun hr => ?_, fun hnone hr => ?_, fun hnone hr => ?_⟩,
    fun hfinite hnumber => ?_, fun hown => ?_⟩
  · rw [Format.encodable_eq_self hr]
  · rw [Format.encodable, if_neg hnone]
    rw [isInfinite, beq_iff_eq] at hr
    rw [hr]
    rfl
  · rw [Format.encodable, if_neg hnone]
    rw [isNan] at hr
    split at hr
    · next payload hpayload =>
      rw [hpayload]
      rfl
    · exact absurd hr Bool.false_ne_true
  · have hstore := c.clearFlags_roundRat x.sign x.flags hnumber
    rw [← convert_eq_roundRat hfinite] at hstore
    have hr : (x.convert c).isFinite = true := by
      show (x.convert c).clearFlags.isFinite = true
      rw [hstore]
      exact (Format.represents_store hnumber x.sign).isFinite
    rw [Format.encodable_eq_self (Or.inl hr), hstore,
      (hnumber.stores_store x.sign).toRat_value hnumber.nonneg]
    rfl
  · have hown' := clearFlags_convert hown
    have hr : (x.convert c).isFinite = true := by
      show (x.convert c).clearFlags.isFinite = true
      rw [hown']
      exact hown.isFinite
    rw [Format.encodable_eq_self (Or.inl hr), hown']

end Value
end CrossFloat
