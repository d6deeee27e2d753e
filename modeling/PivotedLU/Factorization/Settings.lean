import PivotedLU.Factorization.Basic

/-!
# Configured Factorization

The settings of a factorization hold a tolerance in double precision, whatever the precision of
the matrices. A tolerance of zero would let a singular matrix pass, so only a positive finite one
is used, also after it has been rounded to the precision of the matrix.

## Main definitions

* `Settings`: the tolerance, with `Settings.default` and `Settings.withTolerance`.
* `Settings.factor`: the factorization of a matrix of floats.
* `Error.ofBreakdown`: a breakdown as a refusal.
-/

namespace PivotedLU

open scoped StructuralPowers

variable {F : Format} {n : Nat}

/-- A breakdown `b` of a run on floats as a refusal, its numbers in double precision. -/
def Error.ofBreakdown (b : Elimination.Breakdown n (Binary F)) : Error :=
  .degenerate b.column b.pivot.convert b.tolerance.convert

/-- The value `x` is above zero and finite. -/
def Binary.isPositiveFinite (x : Binary F) : Bool :=
  Binary.below 0 x && x.isFinite

/-- How matrices are factored. -/
structure Settings where
  /-- The magnitude below which a pivot counts as zero. -/
  tolerance : Binary64
deriving DecidableEq

namespace Settings

/-- The tolerance is the double nearest to `10 ^ (-10)`. -/
def default : Settings :=
  ⟨Binary.ofQuotient false (2 ^ Format.binary64.scale) (10 ^ (10 : Nat))⟩

/-- The settings with a given `tolerance`, refused unless it is positive and finite. -/
def withTolerance (tolerance : Binary64) : Except Error Settings :=
  if tolerance.isPositiveFinite then .ok ⟨tolerance⟩ else .error (.unusableTolerance tolerance)

/-- The tolerance of `s` in the precision `F` of the matrices. It is unusable unless it is positive
and finite before and after it has been rounded. -/
def toleranceIn (s : Settings) (F : Format) : Except Error (Binary F) :=
  let rounded : Binary F := s.tolerance.convert
  if s.tolerance.isPositiveFinite && rounded.isPositiveFinite then .ok rounded
  else .error (.unusableTolerance s.tolerance)

/-- The factorization of `A`. An unusable tolerance of `s` is refused before the matrix is looked
at. -/
def factor (s : Settings) (A : DenseMatrix n (Binary F)) :
    Except Error (Factorization n (Binary F)) := do
  let tolerance ← s.toleranceIn F
  (Factorization.ofMatrix tolerance A).mapError Error.ofBreakdown

end Settings

end PivotedLU
