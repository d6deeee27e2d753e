import PivotedLU.RowOrder.Basic

/-!
# Determinants

The determinant of a factored matrix is the product of the diagonal of its combined matrix, with
the sign turned after an odd number of exchanges. The determinant of a matrix that has not been
factored is the expansion along its first row.

## Main definitions

* `determinant`: from a combined matrix and the parity of a permutation.
* `minor`, `cofactorDeterminant`: the expansion along the first row.
-/

namespace PivotedLU

universe u

variable {α : Type u} [Scalar α] {n m : Nat}

/-- The product of the diagonal of `lu`, from one and by ascending index, negated if the counter of
`p` is odd. The determinant of the empty matrix is one. -/
def determinant (lu : DenseMatrix n α) (p : RowOrder m) : α :=
  let product := Fin.foldl n (fun acc i => acc * lu.entry i i) 1
  if p.isOdd then -product else product

/-- The matrix without its first row and without column `j`. -/
def minor (A : DenseMatrix (n + 1) α) (j : Fin (n + 1)) : DenseMatrix n α :=
  DenseMatrix.ofFn fun r c => A.entry r.succ (if c.castSucc < j then c.castSucc else c.succ)

/-- The expansion along the first row: its entries times the determinants of their minors, with
alternating signs, taken up from zero. -/
def cofactorDeterminant : {n : Nat} → DenseMatrix n α → α
  | 0, _ => 1
  | n + 1, A =>
    Fin.foldl (n + 1)
      (fun acc j =>
        let term := A.entry 0 j * cofactorDeterminant (minor A j)
        if j.val % 2 = 0 then acc + term else acc - term) 0

end PivotedLU
