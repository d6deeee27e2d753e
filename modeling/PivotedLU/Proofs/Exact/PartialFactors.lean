import Mathlib.LinearAlgebra.Matrix.Block
import PivotedLU.Proofs.Exact.Basic

/-!
# Partial Factors

A matrix whose first `c` columns have been eliminated in place holds two matrices at once: below
the diagonal of these columns stand multipliers, everywhere else what is left of the matrix. The
triangles of a factorization are the case in which all columns are eliminated.

## Main definitions

* `DenseMatrix.multipliers`: the unit lower triangle of the multipliers.
* `DenseMatrix.remainder`: what is left, with zeros in the places of the multipliers.

## Main results

* `DenseMatrix.entry_multipliers_mul_remainder`: an entry of their product.
* `DenseMatrix.det_multipliers`: the multipliers have determinant one.
-/

namespace PivotedLU

namespace DenseMatrix

variable {n : Nat}

/-- The unit lower triangle of the multipliers in the first `c` columns. -/
def multipliers (F : DenseMatrix n ℚ) (c : Nat) : DenseMatrix n ℚ :=
  ofFn fun i j => if j < i ∧ j.val < c then F.entry i j else if i = j then 1 else 0

/-- The entries of `F.multipliers c`: those of `F` below the diagonal in the first `c` columns, and
a unit diagonal. -/
@[simp]
theorem entry_multipliers (F : DenseMatrix n ℚ) (c : Nat) (i j : Fin n) :
    (F.multipliers c).entry i j =
      if j < i ∧ j.val < c then F.entry i j else if i = j then 1 else 0 :=
  entry_ofFn _ i j

/-- What is left of a matrix after the elimination of the first `c` columns: zeros stand in the
places of their multipliers. -/
def remainder (F : DenseMatrix n ℚ) (c : Nat) : DenseMatrix n ℚ :=
  ofFn fun i j => if j < i ∧ j.val < c then 0 else F.entry i j

/-- The entries of `F.remainder c`: those of `F` but for the multipliers of the first `c`
columns. -/
@[simp]
theorem entry_remainder (F : DenseMatrix n ℚ) (c : Nat) (i j : Fin n) :
    (F.remainder c).entry i j = if j < i ∧ j.val < c then 0 else F.entry i j :=
  entry_ofFn _ i j

/-- At `(i, j)` the product is the sum of the products of finished columns left of and above this
place, and the last factor at the place itself. -/
theorem entry_multipliers_mul_remainder (F : DenseMatrix n ℚ) (c : Nat) (i j : Fin n) :
    ((F.multipliers c).mul (F.remainder c)).entry i j =
      (∑ k, if k < i ∧ k < j ∧ k.val < c then F.entry i k * F.entry k j else 0) +
        if j < i ∧ j.val < c then F.entry i j * F.entry j j else F.entry i j := by
  have hcount : ∀ k, k < i ∧ k < j ∧ k.val < c →
      (F.multipliers c).entry i k * (F.remainder c).entry k j = F.entry i k * F.entry k j := by
    rintro k ⟨hki, hkj, hkc⟩
    rw [entry_multipliers, entry_remainder, if_pos ⟨hki, hkc⟩, if_neg fun h => hkj.not_gt h.1]
  rw [entry_mul_eq_sum]
  by_cases hplace : j < i ∧ j.val < c
  · -- at the place of a multiplier the last factor stands in the column of the place
    obtain ⟨hji, hjc⟩ := hplace
    rw [sum_eq_guard_add (i := j) (fun h => lt_irrefl j h.2.1) hcount, if_pos ⟨hji, hjc⟩,
      entry_multipliers, entry_remainder, if_pos ⟨hji, hjc⟩, if_neg fun h => lt_irrefl j h.1]
    intro k hk hkj
    have hjk : j < k := by omega
    rw [entry_remainder, if_pos ⟨hjk, hjc⟩, mul_zero]
  · -- elsewhere it stands in the row of the place, next to a one
    rw [sum_eq_guard_add (i := i) (fun h => lt_irrefl i h.1) hcount, if_neg hplace,
      entry_multipliers, entry_remainder, if_neg fun h => lt_irrefl i h.1, if_pos rfl,
      if_neg hplace, one_mul]
    intro k hk hki
    have hmultiplier : ¬(k < i ∧ k.val < c) := by omega
    rw [entry_multipliers, if_neg hmultiplier, if_neg hki.symm, zero_mul]

/-- The determinant of `F.multipliers c` is one: it stands below a diagonal of ones. -/
theorem det_multipliers (F : DenseMatrix n ℚ) (c : Nat) : (F.multipliers c).entries.det = 1 := by
  have htriangular : (F.multipliers c).entries.IsLowerTriangular := by
    intro i j hij
    have hij : i < j := hij
    simp [hij.not_gt, hij.ne]
  rw [Matrix.det_of_isLowerTriangular _ htriangular]
  exact Finset.prod_eq_one fun i _ => by simp

end DenseMatrix

end PivotedLU
