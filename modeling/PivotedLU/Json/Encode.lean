import PivotedLU.Factorization.Basic
import PivotedLU.Json.Number
import PivotedLU.RowOrder.Flat

/-!
# Matrices, Row Orders and Factorizations as JSON

The trees that matrices, row orders and factorizations are written as. A float that is not
finite has no number in JSON and is written as null.

## Main definitions

* `Json.ofFloat`, `Json.ofMatrix`, `Json.ofRowOrder`, `Json.ofFactorization`.
-/

namespace PivotedLU

namespace Json

variable {F : Format} {n : Nat}

/-- The float `x`, or null if it is not finite. -/
def ofFloat (x : Binary F) : Tree (Leaf F) :=
  if x.isFinite then .number (Leaf.ofValue x) else .null

/-- The matrix `A` as an array of its rows. -/
def ofMatrix (A : DenseMatrix n (Binary F)) : Tree (Leaf F) :=
  .array (A.toLists.map fun r => .array (r.map ofFloat) none) none

/-- The row order `p` as an array in flat layout. -/
def ofRowOrder (p : RowOrder n) : Tree (Leaf F) :=
  .array (p.toFlat.map fun k => .number (Leaf.ofNat k)) none

/-- The factorization `f` as an object with its two parts. -/
def ofFactorization (f : Factorization n (Binary F)) : Tree (Leaf F) :=
  .object
    [(Text.ofString "lu", ofMatrix f.lu), (Text.ofString "permutation", ofRowOrder f.order)]
    none

end Json

end PivotedLU
