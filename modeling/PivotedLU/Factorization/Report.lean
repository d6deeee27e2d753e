import PivotedLU.DenseMatrix.Product
import PivotedLU.Json.Encode

/-!
# Reports on Factorizations

Everything that a factorization is good for, worked out at once: its parts, the matrices derived
from it, and the solutions for a list of right-hand sides.

## Main definitions

* `FactorizationReport`, `Factorization.report`.
* `Factorization.equals`: equality of factorizations as numbers.
-/

namespace PivotedLU

variable {F : Format} {n m : Nat}

/-- What a factorization is good for. -/
structure FactorizationReport (n : Nat) (F : Format) where
  lu : DenseMatrix n (Binary F)
  order : RowOrder n
  lower : DenseMatrix n (Binary F)
  upper : DenseMatrix n (Binary F)
  permutationMatrix : DenseMatrix n (Binary F)
  reconstruct : DenseMatrix n (Binary F)
  inverse : DenseMatrix n (Binary F)
  determinant : Binary F
  /-- For every right-hand side its solution, or the fault of its length. -/
  solutions : List (Except DimensionFault (Vector (Binary F) n))
  /-- The tree that the factorization is written as. -/
  json : Json.Tree (Json.Leaf F)
  equalsItself : Bool

namespace Factorization

/-- The entries of `f` and `g` are equal as numbers, and so are the permutations and their
counters. -/
def equals (f : Factorization n (Binary F)) (g : Factorization m (Binary F)) : Bool :=
  f.lu.sameBy Binary.equals g.lu && f.order.same g.order

/-- The report on `f` for the given `rightHandSides`. -/
def report (f : Factorization n (Binary F)) (rightHandSides : List (List (Binary F))) :
    FactorizationReport n F where
  lu := f.lu
  order := f.order
  lower := f.lower
  upper := f.upper
  permutationMatrix := f.permutationMatrix
  reconstruct := f.reconstruct
  inverse := f.inverse
  determinant := f.determinant
  solutions := rightHandSides.map f.solve
  json := Json.ofFactorization f
  equalsItself := f.equals f

end Factorization

end PivotedLU
