/-!
# Element Arithmetic

The operations that the entries of a matrix offer. Nothing is assumed about them: no law of
addition, no order. The same definitions of elimination and substitution therefore run on
rounded floats, where addition is not associative and a value may be unordered, and on exact
numbers, where a field's laws hold.

## Main definitions

* `Scalar`: zero, one, the four operations, negation, magnitude and a strict comparison.
* `Scalar.larger`: the larger of a running value and a candidate, which ignores a candidate
  that compares with nothing.
-/

namespace PivotedLU

universe u

/-- Element arithmetic without laws. -/
class Scalar (α : Type u) extends Zero α, One α, Add α, Sub α, Mul α, Div α, Neg α where
  /-- The magnitude of an element. -/
  magnitude : α → α
  /-- Whether the first element is strictly below the second; false if they are unordered. -/
  below : α → α → Bool

namespace Scalar

variable {α : Type u} [Scalar α]

/-- The `running` value, unless it is strictly below `candidate`. An unordered candidate is below
nothing and above nothing, so it leaves the running value as it is. -/
def larger (running candidate : α) : α :=
  if below running candidate then candidate else running

end Scalar

/-- Exact rational arithmetic. -/
instance : Scalar Rat where
  zero := 0
  one := 1
  magnitude x := if x < 0 then -x else x
  below x y := decide (x < y)

end PivotedLU
