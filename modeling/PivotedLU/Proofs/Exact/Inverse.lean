import PivotedLU.Proofs.Exact.Solve
import PivotedLU.Proofs.Substitution.Columns

/-!
# Exact Inverses

The columns of an inverse are solutions for unit vectors, so over the rationals they make up a
right inverse of the matrix that was factored. The matrix is square, so this is a left inverse
as well, and applying it is solving.

## Main results

* `Factorization.mul_inverse`, `Factorization.inverse_mul`: inverse from either side.
* `Factorization.inverse_mulVec`: applying the inverse is solving.
* `inverse_exact`: the same for the functions that check sizes.
-/

namespace PivotedLU

variable {n : Nat} {tolerance : ℚ} {A : DenseMatrix n ℚ} {f : Factorization n ℚ}

theorem DenseMatrix.identity_mulVec (x : Vector ℚ n) :
    (identity n : DenseMatrix n ℚ).mulVec x = x := by
  apply coordinates_injective
  rw [coordinates_mulVec, entries_identity, Matrix.one_mulVec]

namespace Factorization

open DenseMatrix

/-- The inverse from an `f` that `ofMatrix` finds is a right inverse of `A`. -/
theorem mul_inverse (ht : 0 < tolerance) (h : ofMatrix tolerance A = .ok f) :
    A.mul f.inverse = identity n := by
  -- column by column, the inverse holds the solutions for the columns of the identity
  refine ext_column fun j => ?_
  rw [column_mul, column_identity, mulVec_eq_iff ht h]
  exact Substitution.column_invert f.lu f.order j

/-- The inverse from an `f` that `ofMatrix` finds is a left inverse of `A`. -/
theorem inverse_mul (ht : 0 < tolerance) (h : ofMatrix tolerance A = .ok f) :
    f.inverse.mul A = identity n := by
  -- no property of the loop enters here: a right inverse of a square matrix is a left inverse
  have hright : A.entries * f.inverse.entries = 1 := by
    rw [← entries_mul, mul_inverse ht h, entries_identity]
  apply entries_injective
  rw [entries_mul, entries_identity]
  exact mul_eq_one_comm.1 hright

theorem inverse_mulVec (ht : 0 < tolerance) (h : ofMatrix tolerance A = .ok f)
    (b : Vector ℚ n) : f.inverse.mulVec b = Substitution.solve f.lu f.order b := by
  rw [← mulVec_eq_iff ht h, ← mulVec_mul, mul_inverse ht h, identity_mulVec]

end Factorization

/-- **Exact inverses.** Let `ofMatrix` find `f` for a matrix `A` of rationals under a positive
`tolerance`. Then `f.inverse` is the inverse of `A` from either side, and its product with `b` is
the solution that `f` finds for `b`. -/
theorem inverse_exact (A : DenseMatrix n ℚ) {tolerance : ℚ} (ht : 0 < tolerance)
    {f : Factorization n ℚ} (h : Factorization.ofMatrix tolerance A = .ok f) :
    A.multiply f.inverse = .ok (DenseMatrix.identity n) ∧
      f.inverse.multiply A = .ok (DenseMatrix.identity n) ∧
      ∀ b : Vector ℚ n, ∃ x : Vector ℚ n,
        f.inverse.apply b.toList = .ok x ∧ f.solve b.toList = .ok x := by
  refine ⟨?_, ?_, fun b => ⟨_, ?_, f.solve_toList b⟩⟩
  · rw [DenseMatrix.multiply_eq_ok, Factorization.mul_inverse ht h]
  · rw [DenseMatrix.multiply_eq_ok, Factorization.inverse_mul ht h]
  · rw [DenseMatrix.apply_toList, Factorization.inverse_mulVec ht h]

/-- The inverse of `cyclicMatrix` from its factors. -/
theorem inverse_exact_cyclicMatrix :
    cyclicMatrix.multiply cyclicFactors.inverse = .ok (DenseMatrix.identity 3) ∧
      cyclicFactors.inverse.multiply cyclicMatrix = .ok (DenseMatrix.identity 3) ∧
      ∀ b : Vector ℚ 3, ∃ x : Vector ℚ 3,
        cyclicFactors.inverse.apply b.toList = .ok x ∧ cyclicFactors.solve b.toList = .ok x :=
  inverse_exact cyclicMatrix (by norm_num) ofMatrix_cyclicMatrix

end PivotedLU
