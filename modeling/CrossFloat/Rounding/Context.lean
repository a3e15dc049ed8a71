/-
The context of a rounding: a format, and the rounding mode imposed from outside.

A user can impose one rounding mode on every format at once.  While such an
override is in force it replaces the mode of each format that a result is
rounded into.  It is kept in a cell of one byte, which holds the code of a mode
or a byte that is the code of none.  A `Session` is a computation that reads the
cell and replaces what it holds.
-/
import CrossFloat.Format
import CrossFloat.Value

namespace CrossFloat

/-- A format to round into, and the rounding mode that overrides its own. -/
structure Context where
  format : Format
  override : Option RoundingMode
  deriving DecidableEq

def Format.alone (F : Format) : Context := ⟨F, none⟩

namespace Context

def mode (c : Context) : RoundingMode :=
  c.override.getD c.format.rounding

/-- The sign of an exact zero that is the sum of a number and its negation, or
of zeros with opposite signs. -/
def zeroSumSign (c : Context) : Sign :=
  .ofNegative (c.mode == .towardNegative)

end Context

/-! ## The cell of the override -/

namespace RoundingMode

/-- The code of a mode. -/
def toByte : RoundingMode → UInt8
  | towardZero => 0
  | nearestEven => 1
  | towardPositive => 2
  | towardNegative => 3
  | nearestAway => 4

def ofByte? : UInt8 → Option RoundingMode
  | 0 => some towardZero
  | 1 => some nearestEven
  | 2 => some towardPositive
  | 3 => some towardNegative
  | 4 => some nearestAway
  | _ => none

/-- A byte is read as a mode exactly if it is the code of that mode. -/
theorem ofByte?_eq_some_iff {byte : UInt8} {mode : RoundingMode} :
    ofByte? byte = some mode ↔ byte = mode.toByte := by
  constructor
  · intro h
    unfold ofByte? at h
    split at h <;> cases h <;> rfl
  · intro h
    subst h
    cases mode <;> rfl

theorem ofByte?_toByte (mode : RoundingMode) : ofByte? mode.toByte = some mode :=
  ofByte?_eq_some_iff.2 rfl

end RoundingMode

/-- The byte that keeps the override in force. -/
structure OverrideCell where
  byte : UInt8
  deriving DecidableEq

namespace OverrideCell

/-- What a cell holds when there is no override. -/
def vacant : UInt8 := 0xff

def store : Option RoundingMode → OverrideCell
  | some mode => ⟨mode.toByte⟩
  | none => ⟨vacant⟩

def load (cell : OverrideCell) : Option RoundingMode :=
  RoundingMode.ofByte? cell.byte

/-- An override stands for the cell that keeps it. -/
instance : Coe (Option RoundingMode) OverrideCell := ⟨store⟩

/-- A cell stands for the override that it keeps. -/
instance : Coe OverrideCell (Option RoundingMode) := ⟨load⟩

/-- No mode has the code of a vacant cell, so what is stored is what is loaded. -/
@[simp] theorem load_store (override : Option RoundingMode) :
    ((override : OverrideCell) : Option RoundingMode) = override := by
  cases override with
  | none => rfl
  | some mode => exact RoundingMode.ofByte?_toByte mode

end OverrideCell

/-- A computation that depends on the override in force and may replace it. -/
abbrev Session (α : Type) := StateM OverrideCell α

namespace Session

/-- The override in force. -/
def override : Session (Option RoundingMode) :=
  fun cell => (cell.load, cell)

/-- Put another override in force, or none, and return the one it replaces. -/
def setOverride (override : Option RoundingMode) : Session (Option RoundingMode) :=
  fun previous => (previous.load, .store override)

def underOverride {α : Type} (operation : Option RoundingMode → α) : Session α := do
  return operation (← override)

def runFresh {α : Type} (session : Session α) : α :=
  (session (.store none)).1

/-! Between cells that were stored into, a session acts on the overrides themselves. -/

theorem override_store (previous : Option RoundingMode) :
    Session.override previous = (previous, (previous : OverrideCell)) := by
  rw [override, OverrideCell.load_store]

theorem setOverride_store (override previous : Option RoundingMode) :
    setOverride override previous = (previous, (override : OverrideCell)) := by
  rw [setOverride, OverrideCell.load_store]

theorem underOverride_store {α : Type} (operation : Option RoundingMode → α)
    (previous : Option RoundingMode) :
    underOverride operation previous = (operation previous, (previous : OverrideCell)) := by
  show (operation (Session.override previous).1, (Session.override previous).2) = _
  rw [override_store]

end Session
end CrossFloat
