import PivotedLU.DenseMatrix.Product
import PivotedLU.Proofs.Substitution.Passes
import PivotedLU.Substitution.Invert

/-!
# Columns of an Inverse

An inversion solves one column of its buffer after the other, in place. Seen through one column
the writes are those of a solve for a unit vector, operation by operation, and they leave every
other column alone.

## Main definitions

* `DenseMatrix.column`: a column from top to bottom.
* `unitVector`: one at a place and zero elsewhere.

## Main results

* `column_invertColumn`, `column_invertColumn_of_ne`: what solving a column does to it and to the
  others.
* `column_invertInto`: the columns of an inverse are solutions for unit vectors, whatever the
  buffer held before.
* `invert_columns_eq_solve`: the same for the operations that check their sizes.
-/

namespace PivotedLU

universe u

variable {α : Type u} {n : Nat}

/-- Column `j` from top to bottom. -/
def DenseMatrix.column (A : DenseMatrix n α) (j : Fin n) : Vector α n :=
  Vector.ofFn fun i => A.entry i j

@[simp]
theorem DenseMatrix.get_column (A : DenseMatrix n α) (i j : Fin n) :
    (A.column j).get i = A.entry i j := by
  simp [column]

/-- Setting an entry in column `j` sets its place `i`. -/
theorem DenseMatrix.column_set_self (A : DenseMatrix n α) (i j : Fin n) (x : α) :
    (A.set i j x).column j = (A.column j).set i x i.isLt := by
  rw [vector_eq_iff]
  intro k
  rw [get_column, entry_set]
  by_cases hk : i = k
  · obtain rfl := hk
    rw [if_pos ⟨rfl, rfl⟩, get_set_self]
  · rw [if_neg fun h => hk h.1, get_set_of_ne _ hk, get_column]

/-- Setting an entry in column `j` leaves every other column `l` as it is. -/
theorem DenseMatrix.column_set_of_ne (A : DenseMatrix n α) {i j l : Fin n} (h : j ≠ l) (x : α) :
    (A.set i j x).column l = A.column l := by
  have hentry : ∀ k, (A.set i j x).entry k l = A.entry k l := by
    intro k
    rw [entry_set, if_neg fun hkl => h hkl.2]
  simp only [column, hentry]

/-- Column `j` of `A.mul B` is `A` applied to column `j` of `B`. -/
theorem DenseMatrix.column_mul [Scalar α] (A B : DenseMatrix n α) (j : Fin n) :
    (A.mul B).column j = A.mulVec (B.column j) := by
  rw [vector_eq_iff]
  intro i
  rw [get_column, entry_mul, get_mulVec, dot]
  simp only [get_column]
  rfl

theorem DenseMatrix.ext_column {A B : DenseMatrix n α} (h : ∀ j, A.column j = B.column j) :
    A = B := by
  ext i j
  rw [← get_column, h, get_column]

/-- One at place `j` and zero elsewhere. -/
def unitVector [Zero α] [One α] (j : Fin n) : Vector α n :=
  Vector.ofFn fun i => if i = j then 1 else 0

@[simp]
theorem get_unitVector [Zero α] [One α] (i j : Fin n) :
    (unitVector j : Vector α n).get i = if i = j then 1 else 0 := by
  simp [unitVector]

theorem DenseMatrix.column_identity [Zero α] [One α] (j : Fin n) :
    (identity n : DenseMatrix n α).column j = unitVector j := by
  rw [vector_eq_iff]
  intro i
  rw [get_column, entry_identity, get_unitVector]

namespace Substitution

variable [Scalar α] (lu : DenseMatrix n α) (p : RowOrder n)

/-! ## One column -/

/-- In column `j`, place `i` of the pass from top to bottom is that of solving for a unit vector. -/
theorem column_invertForwardAt (X : DenseMatrix n α) (i j : Fin n) :
    (invertForwardAt lu p j X i).column j = forwardAt lu p (unitVector j) (X.column j) i := by
  rw [invertForwardAt, forwardAt, DenseMatrix.column_set_self, subtractTerms, get_unitVector]
  congr 1
  refine foldl_guard_congr (fun k => decide_eq_true_iff.symm) (fun acc k _ => ?_) _
  rw [DenseMatrix.get_column]
  rfl

/-- In column `j`, place `i` of the pass from bottom to top is that of solving. -/
theorem column_invertBackwardAt (X : DenseMatrix n α) (i j : Fin n) :
    (invertBackwardAt lu j X i).column j = backwardAt lu (X.column j) i := by
  rw [invertBackwardAt, backwardAt, DenseMatrix.column_set_self, subtractTerms,
    DenseMatrix.get_column]
  congr 2
  refine foldl_guard_congr (fun k => decide_eq_true_iff.symm) (fun acc k _ => ?_) _
  rw [DenseMatrix.get_column]
  rfl

/-- Solving column `j` of `X` is solving for `unitVector j` in that column. -/
theorem column_invertColumn (X : DenseMatrix n α) (j : Fin n) :
    (invertColumn lu p X j).column j = solveInto lu p (unitVector j) (X.column j) := by
  have hforward : (Fin.foldl n (invertForwardAt lu p j) X).column j =
      forward lu p (unitVector j) (X.column j) :=
    foldl_hom (fun Y : DenseMatrix n α => Y.column j)
      (fun Y i => column_invertForwardAt lu p Y i j) X
  rw [solveInto, ← hforward]
  exact foldl_hom (fun Y : DenseMatrix n α => Y.column j)
    (fun Y k => column_invertBackwardAt lu Y k.rev j) _

/-- Solving column `j` of `X` leaves every other column `l` alone. -/
theorem column_invertColumn_of_ne (X : DenseMatrix n α) {j l : Fin n} (h : j ≠ l) :
    (invertColumn lu p X j).column l = X.column l := by
  have hforward : (Fin.foldl n (invertForwardAt lu p j) X).column l = X.column l :=
    foldl_invariant (fun _ (Y : DenseMatrix n α) => Y.column l = X.column l) rfl
      fun i Y hY => (Y.column_set_of_ne h _).trans hY
  exact foldl_invariant (fun _ (Y : DenseMatrix n α) => Y.column l = X.column l) hforward
    fun i Y hY => (Y.column_set_of_ne h _).trans hY

/-! ## All columns -/

/-- Column `l` of an inverse is the solution for `unitVector l`, whatever the buffer `X` held. -/
theorem column_invertInto (X : DenseMatrix n α) (l : Fin n) :
    (invertInto lu p X).column l = solve lu p (unitVector l) := by
  -- columns that have been solved stay as they are
  have hinvariant : ∀ l : Fin n, l.val < n →
      (invertInto lu p X).column l = solve lu p (unitVector l) := by
    refine foldl_invariant
      (fun m (Y : DenseMatrix n α) =>
        ∀ l : Fin n, l.val < m → Y.column l = solve lu p (unitVector l))
      (fun l hl => absurd hl (Nat.not_lt_zero _)) fun j Y hY l hl => ?_
    rcases Nat.lt_or_eq_of_le (Nat.le_of_lt_succ hl) with hlt | heq
    · -- a later column is solved without touching this one
      rw [column_invertColumn_of_ne lu p Y (Fin.ne_of_gt hlt)]
      exact hY l hlt
    · obtain rfl : l = j := Fin.ext heq
      rw [column_invertColumn, solveInto_eq_solve]
  exact hinvariant l l.isLt

/-- Column `l` of an inverse is the solution for `unitVector l`. -/
theorem column_invert (l : Fin n) : (invert lu p).column l = solve lu p (unitVector l) :=
  column_invertInto lu p _ l

/-- What an inversion writes does not depend on what the buffer `X` held. -/
theorem invertInto_eq_invert (X : DenseMatrix n α) : invertInto lu p X = invert lu p := by
  refine DenseMatrix.ext_column fun j => ?_
  rw [column_invertInto, column_invert]

theorem invertBuffer_eq_ok (X : DenseMatrix n α) : invertBuffer lu p X = .ok (invert lu p) := by
  rw [invertBuffer, dif_pos rfl, dif_pos rfl, invertInto_eq_invert]

/-- **Inverses by columns.** Inverting `lu`, factored or not, never fails for an order `p` of its
size, and the result `X` does not depend on the buffer `Y` that it is written into. Column `j` of
`X` is what a solve returns for `unitVector j`, whatever its buffer `y` held. Nothing is assumed of
the arithmetic: both perform the same operations in the same order. -/
theorem invert_columns_eq_solve :
    ∃ X, invertAny lu p = .ok X ∧
      (∀ Y : DenseMatrix n α, invertBuffer lu p Y = .ok X) ∧
      ∀ (j : Fin n) (y : Vector α n),
        solveList lu p (unitVector j).toList = .ok (X.column j) ∧
          solveBuffer lu p (unitVector j).toList y.toList = .ok (X.column j) := by
  refine ⟨invert lu p, invertBuffer_eq_ok lu p _, invertBuffer_eq_ok lu p, fun j y => ?_⟩
  have hcolumn : (invert lu p).column j = solve lu p (unitVector j) :=
    column_invertInto lu p _ j
  rw [hcolumn]
  exact ⟨solveList_toList lu p _, solveBuffer_toList lu p _ y⟩

end Substitution

end PivotedLU
