import PivotedLU.DenseMatrix.Text
import PivotedLU.Elimination.Run

/-!
# The Log in Words

The level and the text of every event that a run logs, for matrices of floats.

## Main definitions

* `Elimination.LogLevel`: how important an event is.
* `Elimination.LogEvent.level`, `Elimination.LogEvent.message`.
-/

namespace PivotedLU

universe u

namespace Elimination

/-- How important an event is. -/
inductive LogLevel where
  | trace
  | debug
  | warn
deriving DecidableEq

namespace LogEvent

variable {n : Nat}

/-- Single pivots are traced, the end of a run is noted, and a breakdown is a warning. -/
def level {α : Type u} : LogEvent n α → LogLevel
  | .pivotChosen .. => .trace
  | .beforeElimination _ => .trace
  | .degenerate .. => .warn
  | .finished _ => .debug

/-- The event in words. -/
def message {F : Format} : LogEvent n (Binary F) → String
  | .pivotChosen column row magnitude =>
    s!"Column {column}: pivot row {row} (|a| = " ++ magnitude.literal ++ ")"
  | .beforeElimination snapshot => "Matrix before elimination: " ++ snapshot.bracketed
  | .degenerate column magnitude tolerance =>
    s!"Degenerate matrix: column {column} pivot " ++ magnitude.literal ++
      " below tolerance " ++ tolerance.literal
  | .finished exchanges =>
    s!"LU decomposition of {n}x{n} matrix done with {exchanges} row swaps"

end LogEvent

end Elimination

end PivotedLU
