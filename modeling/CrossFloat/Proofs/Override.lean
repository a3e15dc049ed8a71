/-
The rounding override stands for a change of every format.

A rounding sees nothing of a context but the layout of its format, the treatment
of underflow and the mode in effect.  So a context gives the same results as its
resolved form, in which the mode in effect is the format's own and there is no
override.  A format under an override and the format with its mode replaced have
one resolved form.

The second half is about sessions.  The cell holds what was stored last, so the
override in force at any step is the last one set before it, and this is all that
a step learns from the steps before it.  A block that ends by setting the override
it found is therefore not seen by the steps after it.
-/
import CrossFloat.Request

namespace CrossFloat

/-! ## The resolved form of a context -/

/-- The context in which the mode in effect is the format's own. -/
def Context.resolved (c : Context) : Context :=
  (c.format.withRounding c.mode).alone

theorem Context.resolved_override (F : Format) (mode : RoundingMode) :
    (⟨F, some mode⟩ : Context).resolved = (F.withRounding mode).alone := rfl

variable (c : Context)

/-! ## Roundings -/

namespace Intermediate

/-- The events of the two roundings may differ, for they name the format and its
own mode.  The values do not. -/
theorem settleSplit_resolved (u : Intermediate) :
    (u.settleSplit c.resolved).1 = (u.settleSplit c).1 := by
  simp only [settleSplit, apply_ite Prod.fst]
  rfl

theorem round_resolved (u : Intermediate) : u.round c.resolved = u.round c := by
  simp only [round, settle, apply_ite Prod.fst, settleSplit_resolved]
  rfl

end Intermediate

theorem Pending.round_resolved (p : Pending) : p.round c.resolved = p.round c := by
  cases p with
  | settled x => rfl
  | number u => exact u.round_resolved c

/-! ## Operations on values -/

namespace Value

theorem ofLiteral_resolved (kind : Kind) (sign : Sign) (exponent : Int) (significand : UInt64)
    (flags : Flags) :
    ofLiteral kind sign exponent significand flags c.resolved =
      ofLiteral kind sign exponent significand flags c :=
  Pending.round_resolved c _

theorem ofInt_resolved (n : Int) : ofInt n c.resolved = ofInt n c :=
  Pending.round_resolved c _

theorem ofNat_resolved (n : Nat) : ofNat n c.resolved = ofNat n c :=
  Pending.round_resolved c _

variable (x y : Value)

theorem convert_resolved : x.convert c.resolved = x.convert c :=
  Pending.round_resolved c _

theorem add_resolved : x.add y c.resolved = x.add y c :=
  Pending.round_resolved c _

theorem sub_resolved : x.sub y c.resolved = x.sub y c :=
  Pending.round_resolved c _

theorem mul_resolved : x.mul y c.resolved = x.mul y c :=
  Pending.round_resolved c _

theorem div_resolved : x.div y c.resolved = x.div y c :=
  Pending.round_resolved c _

theorem encode_resolved : x.encode c.resolved = x.encode c := by
  rw [encode, convert_resolved]
  rfl

theorem encodeBytes_resolved : x.encodeBytes c.resolved = x.encodeBytes c := by
  simp only [encodeBytes, encode_resolved]

end Value

/-! ## Operations on complex numbers -/

namespace Complex

variable (x y : Complex)

theorem value_ofPending_resolved (re im : Pending) :
    (ofPending re im c.resolved).value = (ofPending re im c).value := by
  simp only [value_ofPending, Pending.round_resolved]

theorem value_textbookProduct_resolved :
    (x.textbookProduct y c.resolved).value = (x.textbookProduct y c).value := by
  simp only [value_textbookProduct, Value.mul_resolved, Value.sub_resolved, Value.add_resolved]

theorem value_textbookQuotient_resolved :
    (x.textbookQuotient y c.resolved).value = (x.textbookQuotient y c).value := by
  simp only [value_textbookQuotient, Value.mul_resolved, Value.sub_resolved,
    Value.add_resolved, Value.div_resolved]

theorem mul_resolved : x.mul y c.resolved = x.mul y c := by
  simp only [mul, product, apply_ite Traced.value, value_textbookProduct_resolved]
  rw [show (x.fusedProduct y c.resolved).value = (x.fusedProduct y c).value from
    value_ofPending_resolved c _ _]

theorem div_resolved : x.div y c.resolved = x.div y c := by
  show (x.quotient y c.resolved).value = (x.quotient y c).value
  have hmagnitude : y.squaredMagnitude c.resolved = y.squaredMagnitude c := rfl
  simp only [quotient, hmagnitude]
  split
  · cases y.squaredMagnitude c with
    | zero sign => exact value_textbookQuotient_resolved c x y
    | nonzero denominator => exact value_ofPending_resolved c _ _
  · exact value_textbookQuotient_resolved c x y

end Complex

/-- A rounded request has the same answer in a context and in its resolved
form. -/
theorem RoundedRequest.answer_resolved (r : RoundedRequest) :
    r.answer c.resolved = r.answer c := by
  cases r with
  | raw number => exact congrArg Answer.value (number.round_resolved c)
  | literal => exact congrArg Answer.value (Value.ofLiteral_resolved c ..)
  | integer n => exact congrArg Answer.value (Value.ofInt_resolved c n)
  | natural n => exact congrArg Answer.value (Value.ofNat_resolved c n)
  | convert x => exact congrArg Answer.value (x.convert_resolved c)
  | add x y => exact congrArg Answer.value (x.add_resolved c y)
  | sub x y => exact congrArg Answer.value (x.sub_resolved c y)
  | mul x y => exact congrArg Answer.value (x.mul_resolved c y)
  | div x y => exact congrArg Answer.value (x.div_resolved c y)
  | complexMul x y => exact congrArg Answer.complex (x.mul_resolved c y)
  | complexDiv x y => exact congrArg Answer.complex (x.div_resolved c y)
  | encode x => exact congrArg Answer.word (x.encode_resolved c)
  | encodeBytes x => exact congrArg Answer.bytes (x.encodeBytes_resolved c)

/-- Under an override a rounded request is answered as it is without one in the
format whose mode has been replaced. -/
theorem Request.answer_override (F : Format) (r : RoundedRequest) (mode : RoundingMode) :
    (rounded F r).answer (some mode) = (rounded (F.withRounding mode) r).answer none := by
  show r.answer ⟨F, some mode⟩ = r.answer (F.withRounding mode).alone
  rw [← r.answer_resolved ⟨F, some mode⟩, Context.resolved_override]

/-! ## Sessions -/

/-- The argument of a change of the override. -/
def Step.override? : Step → Option (Option RoundingMode)
  | setOverride override => some override
  | ask _ => none

/-- The override in force after a list of steps: the argument of the last change,
and none where there was no change. -/
def lastOverride (steps : List Step) : Option RoundingMode :=
  (steps.filterMap Step.override?).getLastD none

/-- The reply to a step while an override is in force, or none. -/
def Step.reply (override : Option RoundingMode) : Step → Reply
  | setOverride _ => .replaced override
  | ask request => .answered (request.answer override)

/-- The replies to a list of steps from a given override on. -/
def repliesFrom (override : Option RoundingMode) : List Step → List Reply
  | [] => []
  | step :: steps => step.reply override :: repliesFrom (step.override?.getD override) steps

theorem Step.perform_eq (step : Step) (override : Option RoundingMode) :
    step.perform override = (step.reply override, ↑(step.override?.getD override)) := by
  cases step with
  | setOverride next =>
    show (let (previous, cell) := Session.setOverride next override
      (Reply.replaced previous, cell)) = _
    rw [Session.setOverride_store]
    rfl
  | ask request =>
    show (let (answer, cell) := Session.underOverride (request.answer ·) override
      (Reply.answered answer, cell)) = _
    rw [Session.underOverride_store]
    rfl

theorem getLastD_filterMap_override? (step : Step) (steps : List Step)
    (override : Option RoundingMode) :
    ((step :: steps).filterMap Step.override?).getLastD override =
      (steps.filterMap Step.override?).getLastD (step.override?.getD override) := by
  cases step with
  | setOverride next =>
    show (next :: steps.filterMap Step.override?).getLastD override = _
    rw [List.getLastD_cons]
    rfl
  | ask request => rfl

/-- Through the cell a list of steps has the replies that it has from the override in
force, and it leaves the last override that it sets in the cell. -/
theorem mapM_perform (steps : List Step) (override : Option RoundingMode) :
    steps.mapM Step.perform override =
      (repliesFrom override steps, ↑((steps.filterMap Step.override?).getLastD override)) := by
  induction steps generalizing override with
  | nil => rfl
  | cons step steps ih =>
    rw [List.mapM_cons]
    show (let (reply, cell) := step.perform override
      let (replies, cell) := steps.mapM Step.perform cell
      (reply :: replies, cell)) = _
    rw [step.perform_eq]
    dsimp only
    rw [ih, repliesFrom, getLastD_filterMap_override?]

theorem replies_eq (steps : List Step) : replies steps = repliesFrom none steps :=
  congrArg Prod.fst (mapM_perform steps none)

/-- What is read from the cell after a list of steps is the last override set by them. -/
theorem runFresh_override (steps : List Step) :
    Session.runFresh (do let _ ← steps.mapM Step.perform; Session.override) =
      lastOverride steps := by
  show (Session.override (steps.mapM Step.perform (OverrideCell.store none)).2).1 = _
  rw [mapM_perform, Session.override_store]
  rfl

theorem length_repliesFrom (steps : List Step) (override : Option RoundingMode) :
    (repliesFrom override steps).length = steps.length := by
  induction steps generalizing override with
  | nil => rfl
  | cons step steps ih => simp [repliesFrom, ih]

/-- The steps after a prefix reply as from the override that the prefix leaves. -/
theorem repliesFrom_append (before after : List Step) (override : Option RoundingMode) :
    repliesFrom override (before ++ after) =
      repliesFrom override before ++
        repliesFrom ((before.filterMap Step.override?).getLastD override) after := by
  induction before generalizing override with
  | nil => rfl
  | cons step before ih =>
    rw [List.cons_append, repliesFrom, ih, repliesFrom, List.cons_append,
      getLastD_filterMap_override?]

theorem drop_replies_append (before after : List Step) :
    (replies (before ++ after)).drop before.length = repliesFrom (lastOverride before) after := by
  rw [replies_eq, repliesFrom_append, ← length_repliesFrom before none, List.drop_left]
  rfl

/-- The reply to a step depends on the steps before it through the last override
set by them. -/
theorem getElem?_replies (before : List Step) (step : Step) (after : List Step) :
    (replies (before ++ step :: after))[before.length]? =
      some (step.reply (lastOverride before)) := by
  have h := drop_replies_append before (step :: after)
  rw [← List.head?_drop, h]
  rfl

theorem lastOverride_concat (steps : List Step) (override : Option RoundingMode) :
    lastOverride (steps ++ [.setOverride override]) = override := by
  simp [lastOverride, Step.override?]

/-- A block that ends by setting the override it found leaves the replies after
it as they are without it. -/
theorem drop_replies_block (before block after : List Step) :
    (replies (before ++ (block ++ [Step.setOverride (lastOverride before)]) ++ after)).drop
        (before ++ (block ++ [Step.setOverride (lastOverride before)])).length =
      (replies (before ++ after)).drop before.length := by
  rw [drop_replies_append, drop_replies_append, ← List.append_assoc, lastOverride_concat]

/-- Under an override every rounded request is answered as it is without one in
the format whose mode is replaced, and a plain request is answered alike under
all overrides.  In a session each change of the override returns the one set
before it, each answer is that under the last override set, and a block that
ends by setting what its opening change returned has no effect after it. -/
theorem override_replaces_rounding :
    (∀ (F : Format) (r : RoundedRequest) (mode : RoundingMode),
      (Request.rounded F r).answer (some mode) =
        (Request.rounded (F.withRounding mode) r).answer none) ∧
    (∀ (r : PlainRequest) (override : Option RoundingMode),
      (Request.plain r).answer override = (Request.plain r).answer none) ∧
    (∀ (before after : List Step) (override : Option RoundingMode),
      (replies (before ++ .setOverride override :: after))[before.length]? =
        some (.replaced (lastOverride before))) ∧
    (∀ (before after : List Step) (r : Request),
      (replies (before ++ .ask r :: after))[before.length]? =
        some (.answered (r.answer (lastOverride before)))) ∧
    ∀ (before inner after : List Step) (override previous : Option RoundingMode),
      let block := Step.setOverride override :: inner ++ [.setOverride previous]
      (replies (before ++ block ++ after))[before.length]? = some (.replaced previous) →
        (replies (before ++ block ++ after)).drop (before ++ block).length =
          (replies (before ++ after)).drop before.length := by
  refine ⟨Request.answer_override, fun _ _ => rfl, fun before after override => ?_,
    fun before after r => ?_, fun before inner after override previous => ?_⟩
  · exact getElem?_replies before _ after
  · exact getElem?_replies before _ after
  · intro block hopening
    -- The opening change returns the override that `before` leaves in force.
    have hprevious : previous = lastOverride before := by
      have h := getElem?_replies before (.setOverride override)
        (inner ++ [.setOverride previous] ++ after)
      rw [show before ++ .setOverride override :: (inner ++ [.setOverride previous] ++ after) =
        before ++ block ++ after by simp [block], hopening] at h
      simpa [Step.reply] using h
    subst hprevious
    exact drop_replies_block before (.setOverride override :: inner) after

/-- In single precision one divided by three differs between the modes toward
zero and toward positive.  A block that rounds toward positive does not show in
the quotient after it. -/
theorem override_replaces_rounding_restored :
    let third := Request.rounded .single (.div (.ofNat 1 Format.single.alone)
      (.ofNat 3 Format.single.alone))
    let block := [Step.setOverride (some .towardPositive), .ask third,
      .setOverride (some .towardZero)]
    (replies ([.setOverride (some .towardZero)] ++ block ++ [.ask third])).drop 4 =
        (replies [.setOverride (some .towardZero), .ask third]).drop 1 ∧
      third.answer (some .towardPositive) ≠ third.answer (some .towardZero) :=
  ⟨override_replaces_rounding.2.2.2.2 [.setOverride (some .towardZero)] [.ask _] [.ask _]
    (some .towardPositive) (some .towardZero) rfl, by decide +kernel⟩

end CrossFloat
