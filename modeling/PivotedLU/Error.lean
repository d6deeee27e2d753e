import PivotedLU.Binary.Text

/-!
# Refusals

Why a computation is refused, as data, and the words in which it is said. Causes carry the
numbers they speak about; every wording is in this module. A refusal shows its floats in double
precision, whatever the precision of the computation.

A broken precondition is kept apart from a refusal: the caller handed in buffers of the wrong
size or a position outside a matrix, which the operation does not answer at all.

## Main definitions

* `DimensionFault`, `OrderFault`: sizes that do not fit, and lists that are no permutation.
* `Error`: a refusal, with `Error.message` and the numeric comparison `Error.equals`.
* `Violation`: a broken precondition, with `Violation.message?`.
-/

namespace PivotedLU

/-- Sizes that do not fit together. -/
inductive DimensionFault where
  /-- A row is not as long as there are rows; the first such row is named. -/
  | raggedRow (row length dim : Nat)
  /-- A row-major buffer does not hold `dim * dim` elements. -/
  | dataLength (length dim : Nat)
  /-- A product of matrices of two sizes. -/
  | factorSizes (left right : Nat)
  /-- A matrix is applied to a vector of another size. -/
  | vectorLength (dim length : Nat)
  /-- A permutation is applied to a vector of another size. -/
  | permutedLength (dim length : Nat)
  /-- A combined matrix and a permutation of another size. -/
  | orderSize (order dim : Nat)
  /-- A system whose matrix is not square. -/
  | notSquare (rows cols : Nat)
  /-- A right-hand side that is not as long as the matrix has rows. -/
  | rightHandSide (rows length : Nat)
  /-- A fault described in words. -/
  | described (text : String)
deriving DecidableEq

/-- What makes a list of naturals no permutation in flat layout. -/
inductive OrderFault where
  /-- The list lacks the counter. -/
  | empty
  /-- The counter is below the number of indices. -/
  | counterBelow (counter dim : Nat)
  /-- An index is too large or occurs twice. -/
  | notBijective (indices : List Nat)
  /-- A fault described in words. -/
  | described (text : String)
deriving DecidableEq

/-- A refusal. -/
inductive Error where
  /-- The largest pivot candidate of a column is below the tolerance. -/
  | degenerate (column : Nat) (pivot tolerance : Binary64)
  /-- Sizes do not fit. -/
  | dimensions (fault : DimensionFault)
  /-- A list is no permutation. -/
  | permutation (fault : OrderFault)
  /-- A tolerance that is not positive and finite. -/
  | unusableTolerance (value : Binary64)
deriving DecidableEq

/-! ## Wording -/

/-- The list `ns` in brackets. -/
def bracketed (ns : List Nat) : String :=
  "[" ++ ", ".intercalate (ns.map Nat.repr) ++ "]"

/-- The fault in words. -/
def DimensionFault.text : DimensionFault → String
  | .raggedRow row length dim =>
    s!"Row {row} has length {length} but the matrix has {dim} rows"
  | .dataLength length dim =>
    s!"Data length ({length}) does not match dimensions ({dim}x{dim})"
  | .factorSizes left right =>
    s!"Cannot multiply {left}x{left} by {right}x{right}"
  | .vectorLength dim length =>
    s!"Matrix dimension ({dim}) must match vector length ({length})"
  | .permutedLength dim length =>
    s!"Permutation length ({dim}) must match vector length ({length})"
  | .orderSize order dim =>
    s!"Permutation length ({order}) does not match matrix dimension ({dim})"
  | .notSquare rows cols =>
    s!"Matrix A must be square (dims: {rows}x{cols})"
  | .rightHandSide rows length =>
    s!"Matrix A rows ({rows}) must match RHS vector b length ({length})"
  | .described text => text

/-- The fault in words. -/
def OrderFault.text : OrderFault → String
  | .empty => "flat permutation must have at least one entry"
  | .counterBelow counter dim =>
    s!"swap counter ({counter}) is below the dimension ({dim})"
  | .notBijective indices =>
    bracketed indices ++ " is not a permutation of 0.." ++ Nat.repr indices.length
  | .described text => text

/-- The refusal in words. -/
def Error.message : Error → String
  | .degenerate column pivot limit =>
    "Degenerate matrix: best pivot " ++ pivot.scientific ++ " in column " ++ Nat.repr column ++
      " is below tolerance " ++ limit.scientific
  | .dimensions fault => "Invalid matrix dimensions: " ++ fault.text
  | .permutation fault => "Invalid permutation: " ++ fault.text
  | .unusableTolerance value => "Tolerance must be positive and finite, got " ++ value.plain

/-- The same kind of refusal with equal numbers and the same words. A refusal that holds a
float that is not a number equals nothing, not even itself. -/
def Error.equals : Error → Error → Bool
  | .degenerate c p t, .degenerate c' p' t' => c == c' && p.equals p' && t.equals t'
  | .dimensions f, .dimensions f' => f.text == f'.text
  | .permutation f, .permutation f' => f.text == f'.text
  | .unusableTolerance t, .unusableTolerance t' => t.equals t'
  | _, _ => false

example : (Error.permutation (.notBijective [0, 0])).message =
    "Invalid permutation: [0, 0] is not a permutation of 0..2" := by decide +kernel

/-! ## Broken preconditions -/

/-- A precondition that a caller broke. -/
inductive Violation where
  /-- The permutation is not as long as the matrix has rows. -/
  | orderLength
  /-- The right-hand side is not as long as the matrix has rows. -/
  | rightHandSideLength
  /-- The buffer for the solution is not as long as the matrix has rows. -/
  | solutionLength
  /-- The buffer for the inverse has another size than the matrix. -/
  | inverseDimension
  /-- A position outside the matrix or the permutation. -/
  | outOfBounds
deriving DecidableEq

/-- The precondition in words; a position has none. -/
def Violation.message? : Violation → Option String
  | .orderLength => some "permutation length must match matrix dimension"
  | .rightHandSideLength => some "right-hand side length must match matrix dimension"
  | .solutionLength => some "solution length must match matrix dimension"
  | .inverseDimension => some "inverse dimension must match matrix dimension"
  | .outOfBounds => none

end PivotedLU
