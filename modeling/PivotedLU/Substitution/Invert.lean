import PivotedLU.RowOrder.Basic

/-!
# Inversion by Substitution

The inverse of the permuted product of two triangles, column by column in one matrix. The
right-hand side of a column is a unit vector; it is never formed, since its entry at a place is
one exactly if the source of the place is the column.

## Main definitions

* `Substitution.invertForwardAt`, `Substitution.invertBackwardAt`: one entry of the two passes.
* `Substitution.invertColumn`: both passes over one column.
* `Substitution.invertInto`, `Substitution.invert`: the inverse, in a given buffer or a new one.
* `Substitution.invertBuffer`, `Substitution.invertAny`: the same for any sizes, which are
  checked, in a fixed order, before anything is written.
-/

namespace PivotedLU

universe u

namespace Substitution

variable {α : Type u} [Scalar α] {n m l : Nat}

/-- The buffer after entry `(i, j)` has been solved with the unit lower triangle. -/
def invertForwardAt (lu : DenseMatrix n α) (p : RowOrder n) (j : Fin n)
    (X : DenseMatrix n α) (i : Fin n) : DenseMatrix n α :=
  let start : α := if p.source i = j then 1 else 0
  X.set i j <| Fin.foldl n
    (fun acc k => if k < i then acc - lu.entry i k * X.entry k j else acc) start

/-- The buffer after entry `(i, j)` has been solved with the upper triangle. -/
def invertBackwardAt (lu : DenseMatrix n α) (j : Fin n) (X : DenseMatrix n α) (i : Fin n) :
    DenseMatrix n α :=
  let reduced := Fin.foldl n
    (fun acc k => if i < k then acc - lu.entry i k * X.entry k j else acc) (X.entry i j)
  X.set i j (reduced / lu.entry i i)

/-- The buffer after column `j` has been solved, downwards and then upwards. -/
def invertColumn (lu : DenseMatrix n α) (p : RowOrder n) (X : DenseMatrix n α) (j : Fin n) :
    DenseMatrix n α :=
  let solved := Fin.foldl n (invertForwardAt lu p j) X
  Fin.foldl n (fun X k => invertBackwardAt lu j X k.rev) solved

/-- The inverse, written into the buffer `X` column by column. -/
def invertInto (lu : DenseMatrix n α) (p : RowOrder n) (X : DenseMatrix n α) :
    DenseMatrix n α :=
  Fin.foldl n (invertColumn lu p) X

/-- The inverse from `lu` and `p`, in a new buffer. -/
def invert (lu : DenseMatrix n α) (p : RowOrder n) : DenseMatrix n α :=
  invertInto lu p (DenseMatrix.zeros n)

/-- The inverse for an order `p` and a buffer `X` of any sizes. The first size that is not that of
`lu` is the violation. -/
def invertBuffer (lu : DenseMatrix n α) (p : RowOrder m) (X : DenseMatrix l α) :
    Except Violation (DenseMatrix n α) :=
  if hp : m = n then
    if hX : l = n then .ok (invertInto lu (hp ▸ p) (hX ▸ X)) else .error .inverseDimension
  else .error .orderLength

/-- The inverse for an order `p` of any length, in a new buffer. -/
def invertAny (lu : DenseMatrix n α) (p : RowOrder m) : Except Violation (DenseMatrix n α) :=
  invertBuffer lu p (DenseMatrix.zeros n : DenseMatrix n α)

end Substitution

end PivotedLU
