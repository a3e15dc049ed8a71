/-
What a rounding reports about itself.

Two outcomes of a rounding are reported as events besides being raised as flags:
a result flushed to zero, and a result beyond the finite range.  A computation
that rounds more than once collects its events in the order of the roundings.
-/
import CrossFloat.Format

namespace CrossFloat

/-- An outcome worth reporting. -/
inductive Event where
  /-- A result with its leading bit at `exp` was flushed to zero. -/
  | flushed (exp : Int) (format : Format)
  /-- A result was too large for the format, in a rounding by `mode`. -/
  | overflowed (format : Format) (mode : RoundingMode)
  deriving DecidableEq

structure Traced (α : Type) where
  value : α
  events : List Event

namespace Traced

def silent {α : Type} (value : α) : Traced α := ⟨value, []⟩

/-- One computation after another: the events of the first come first. -/
def andThen {α β : Type} (x : Traced α) (f : α → Traced β) : Traced β :=
  ⟨(f x.value).value, x.events ++ (f x.value).events⟩

instance : Monad Traced where
  pure := silent
  bind := andThen

end Traced
end CrossFloat
