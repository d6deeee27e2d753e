import PivotedLU.DenseMatrix.Basic

/-!
# Pivots and One Column of Elimination

The pivot of a column is the candidate of largest magnitude among the rows from the diagonal
downwards, the highest row on ties. The scan starts from magnitude zero at the diagonal, so an
entry that compares with nothing is never chosen in place of another.

Clearing a column divides every entry below the pivot by it and keeps the quotient in the place
of the entry, as the multiplier of the row; the multiplier times the pivot row is subtracted
from the rest of the row.

## Main definitions

* `Elimination.Pivot`: a row and the magnitude found there.
* `Elimination.scan`: the pivot of a column.
* `Elimination.clearRow`, `Elimination.clearBelow`: the elimination of one row, and of all
  rows below the pivot.

## Main results

* `Elimination.entry_clearBelow`: the entries after a column has been cleared.
* `Elimination.forall_entry_clearBelow`: what holds of all of them.
-/

namespace PivotedLU

universe u

namespace Elimination

variable {α : Type u} [Scalar α] {n : Nat}

/-- A row and the magnitude of its entry in the scanned column. -/
structure Pivot (n : Nat) (α : Type u) where
  row : Fin n
  magnitude : α

/-- The better of the best row so far and a row `k`, which counts only from the diagonal
downwards and only if its magnitude is strictly larger. -/
def consider (A : DenseMatrix n α) (column : Fin n) (best : Pivot n α) (k : Fin n) :
    Pivot n α :=
  let candidate := Scalar.magnitude (A.entry k column)
  if column ≤ k ∧ Scalar.below best.magnitude candidate = true then ⟨k, candidate⟩ else best

/-- The pivot of `column`, scanned from top to bottom. -/
def scan (A : DenseMatrix n α) (column : Fin n) : Pivot n α :=
  (List.finRange n).foldl (consider A column) ⟨column, 0⟩

/-- A row `r` below `pivotRow` after the elimination of `column`. -/
def clearRow (column : Fin n) (pivotRow r : Vector α n) : Vector α n :=
  let multiplier := r.get column / pivotRow.get column
  Vector.ofFn fun j =>
    if j < column then r.get j
    else if j = column then multiplier
    else r.get j - multiplier * pivotRow.get j

/-- The matrix `A` after the elimination of `column` with the pivot on the diagonal. -/
def clearBelow (A : DenseMatrix n α) (column : Fin n) : DenseMatrix n α :=
  ⟨Vector.ofFn fun i =>
    if column < i then clearRow column (A.row column) (A.row i) else A.row i⟩

/-- The entries of `clearBelow A column`: rows up to `column` and columns before it keep theirs,
column `column` holds the quotients by the diagonal entry, and the rest is reduced by these
quotients times row `column`. -/
theorem entry_clearBelow (A : DenseMatrix n α) (column i j : Fin n) :
    (clearBelow A column).entry i j =
      if column < i then
        if j < column then A.entry i j
        else if j = column then A.entry i column / A.entry column column
        else A.entry i j - A.entry i column / A.entry column column * A.entry column j
      else A.entry i j := by
  rw [DenseMatrix.entry, DenseMatrix.row, clearBelow, get_ofFn]
  split
  · rw [clearRow, get_ofFn]
    rfl
  · rfl

/-- Up to `column` the rows of `clearBelow A column` are those of `A`. -/
theorem entry_clearBelow_of_le (A : DenseMatrix n α) {column i : Fin n} (hi : i ≤ column)
    (j : Fin n) : (clearBelow A column).entry i j = A.entry i j := by
  rw [entry_clearBelow, if_neg (Fin.not_lt.2 hi)]

/-- Before `column` the columns of `clearBelow A column` are those of `A`. -/
theorem entry_clearBelow_of_lt (A : DenseMatrix n α) {column j : Fin n} (hj : j < column)
    (i : Fin n) : (clearBelow A column).entry i j = A.entry i j := by
  rw [entry_clearBelow, if_pos hj, ite_self]

/-- Below the diagonal, column `column` of `clearBelow A column` holds the quotients by the diagonal
entry of `A`. -/
theorem entry_clearBelow_pivot (A : DenseMatrix n α) {column i : Fin n} (hi : column < i) :
    (clearBelow A column).entry i column = A.entry i column / A.entry column column := by
  rw [entry_clearBelow, if_pos hi, if_neg (Fin.lt_irrefl column), if_pos rfl]

/-- Below and to the right of the diagonal entry of `column`, the multiplier in column `column`
times the entry of row `column` is subtracted. -/
theorem entry_clearBelow_right (A : DenseMatrix n α) {column i j : Fin n} (hi : column < i)
    (hj : column < j) :
    (clearBelow A column).entry i j =
      A.entry i j - (clearBelow A column).entry i column * A.entry column j := by
  rw [entry_clearBelow_pivot A hi, entry_clearBelow, if_pos hi, if_neg (Fin.lt_asymm hj),
    if_neg (Fin.ne_of_gt hj)]

/-- A property `P` of the entries of `A`, of the quotients below the diagonal of `column`, and of
the rest of these rows less the quotients times row `column`, holds of all entries of
`clearBelow A column`. -/
theorem forall_entry_clearBelow {P : Fin n → Fin n → α → Prop} {A : DenseMatrix n α}
    {column : Fin n} (h : ∀ i j, P i j (A.entry i j))
    (hquotient : ∀ i, column < i → P i column (A.entry i column / A.entry column column))
    (hreduced : ∀ i j, column < i → column < j →
      P i j (A.entry i j - A.entry i column / A.entry column column * A.entry column j))
    (i j : Fin n) : P i j ((clearBelow A column).entry i j) := by
  rw [entry_clearBelow]
  split
  · next hi =>
    split
    · exact h i j
    · next hj =>
      split
      · next heq =>
        subst heq
        exact hquotient i hi
      · next hne =>
        have hval : column.val ≠ j.val := fun hval => hne (Fin.ext hval.symm)
        exact hreduced i j hi (Nat.lt_of_le_of_ne (Fin.not_lt.1 hj) hval)
  · exact h i j

end Elimination

end PivotedLU
