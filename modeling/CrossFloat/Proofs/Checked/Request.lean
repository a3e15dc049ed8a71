/-
No request on reachable values goes wrong.

What a sequence of requests makes is well-formed, and a request on well-formed
operands is evaluated without a fault.  So no sum, difference or product
overflows on the way to an answer, no shift is as long as the width, and no
callee is given what it asserts not to be given.
-/
import CrossFloat.Checked.Request
import CrossFloat.Proofs.Checked.Encoding
import CrossFloat.Proofs.Checked.Observation

namespace CrossFloat

theorem RoundedRequest.evaluate_eq (r : RoundedRequest) (c : Context)
    (hoperands : ∀ x ∈ r.operands, x.WellFormed) : r.evaluate c = pure (r.answer c) := by
  cases r with
  | raw number => rw [evaluate, Intermediate.roundChecked_eq]; rfl
  | literal => rw [evaluate, Value.ofLiteralChecked_eq]; rfl
  | integer | natural => rw [evaluate, Pending.roundChecked_eq]; rfl
  | convert => rw [evaluate, Value.convertChecked_eq]; rfl
  | encode => rw [evaluate, Value.encodeChecked_eq]; rfl
  | encodeBytes => rw [evaluate, Value.encodeBytesChecked_eq]; rfl
  | add x y =>
    obtain ⟨hx, hy, -⟩ := by simpa only [operands, List.forall_mem_cons] using hoperands
    rw [evaluate, Value.addChecked_eq c hx hy]; rfl
  | sub x y =>
    obtain ⟨hx, hy, -⟩ := by simpa only [operands, List.forall_mem_cons] using hoperands
    rw [evaluate, Value.subChecked_eq c hx hy]; rfl
  | mul x y =>
    obtain ⟨hx, hy, -⟩ := by simpa only [operands, List.forall_mem_cons] using hoperands
    rw [evaluate, Value.mulChecked_eq c hx hy]; rfl
  | div x y =>
    obtain ⟨hx, hy, -⟩ := by simpa only [operands, List.forall_mem_cons] using hoperands
    rw [evaluate, Value.divChecked_eq c hx hy]; rfl
  | complexMul x y =>
    obtain ⟨hre, him, hre', him', -⟩ := by
      simpa only [operands, List.forall_mem_cons] using hoperands
    rw [evaluate, Complex.mulChecked_eq c ⟨hre, him⟩ ⟨hre', him'⟩]; rfl
  | complexDiv x y =>
    obtain ⟨hre, him, hre', him', -⟩ := by
      simpa only [operands, List.forall_mem_cons] using hoperands
    rw [evaluate, Complex.divChecked_eq c ⟨hre, him⟩ ⟨hre', him'⟩]; rfl

theorem PlainRequest.evaluate_eq (r : PlainRequest)
    (hoperands : ∀ x ∈ r.operands, x.WellFormed) : r.evaluate = pure r.answer := by
  cases r with
  | nanIn F payload => rw [evaluate, F.nanChecked_eq]; rfl
  | maxFinite F sign => rw [evaluate, F.maxFiniteChecked_eq]; rfl
  | minPositive F sign => rw [evaluate, F.minPositiveChecked_eq]; rfl
  | epsilon F => rw [evaluate, F.epsilonChecked_eq]; rfl
  | decode F word => rw [evaluate, F.decodeChecked_eq]; rfl
  | compare x y =>
    obtain ⟨hx, hy, -⟩ := by simpa only [operands, List.forall_mem_cons] using hoperands
    rw [evaluate, Value.compareChecked_eq hx hy]; rfl
  | toInteger x type =>
    rw [evaluate, Value.toIntegerReportingChecked_eq (hoperands x List.mem_cons_self)]; rfl
  | text x => rw [evaluate, Value.textChecked_eq (hoperands x List.mem_cons_self)]; rfl
  | zero | infinity | nan | formatZero | minNormal | neg | abs | raise | clearFlags => rfl

theorem Request.evaluate_eq (r : Request) (override : Option RoundingMode)
    (hoperands : ∀ x ∈ r.operands, x.WellFormed) :
    r.evaluate override = pure (r.answer override) := by
  cases r with
  | rounded F request => exact request.evaluate_eq _ hoperands
  | plain request => exact request.evaluate_eq hoperands

/-- Whatever comes out of a sequence of requests is well-formed, and a further
request on it is answered without a fault. -/
theorem reachable_stays_in_range :
    (∀ x : Value, Reachable x → x.WellFormed) ∧
      ∀ (r : Request) (override : Option RoundingMode), (∀ x ∈ r.operands, Reachable x) →
        r.evaluate override = pure (r.answer override) :=
  ⟨fun _ hx => hx.wellFormed,
    fun r override hoperands => r.evaluate_eq override fun x hx => (hoperands x hx).wellFormed⟩

/-- A number without any bit is not reachable, and has no text. -/
example : (PlainRequest.text ⟨.positive, ∅, .finite .normal 0 0⟩).evaluate = .error .assertion :=
  rfl

/-- The largest number of one format divided by the least of another, into a
third. -/
theorem reachable_stays_in_range_quotient :
    let x := Format.extended.maxFinite .positive
    let y := Format.double.minPositive .negative
    Reachable x ∧ Reachable y ∧ x.WellFormed ∧ y.WellFormed ∧
      Request.evaluate none (.rounded .single (.div x y)) =
        pure (.value ⟨.negative, .onOverflow ∪ .onInexactHigh, .infinite⟩) := by
  intro x y
  have hx : Reachable x :=
    @Reachable.answer (.plain (.maxFinite .extended .positive)) none x
      (List.forall_mem_nil _) List.mem_cons_self
  have hy : Reachable y :=
    @Reachable.answer (.plain (.minPositive .double .negative)) none y
      (List.forall_mem_nil _) List.mem_cons_self
  obtain ⟨hwell, hevaluate⟩ := reachable_stays_in_range
  have hoperands : ∀ z ∈ (Request.rounded .single (.div x y)).operands, Reachable z :=
    List.forall_mem_cons.2 ⟨hx, List.forall_mem_cons.2 ⟨hy, List.forall_mem_nil _⟩⟩
  refine ⟨hx, hy, hwell x hx, hwell y hy, (hevaluate _ none hoperands).trans ?_⟩
  exact congrArg pure (by decide +kernel)

end CrossFloat
