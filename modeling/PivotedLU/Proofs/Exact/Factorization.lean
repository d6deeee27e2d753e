import Mathlib.Algebra.Order.Field.Basic
import Mathlib.Tactic.NormNum
import PivotedLU.Proofs.Elimination.LeftLooking
import PivotedLU.Proofs.Elimination.Pivots
import PivotedLU.Proofs.Exact.Triangles

/-!
# Exact Factorization

Over the rationals the left-looking recurrence is the product of the partial factors, entry by
entry. A run with a positive tolerance leaves no zero on the diagonal, so at every moment the
factors multiply to the matrix with its rows permuted, and so do those that are found in the end.

## Main results

* `Reached.tolerance_le_diagonal`: finished diagonal entries are not below the tolerance.
* `Reached.abs_multiplier_le_one`: multipliers are at most one in magnitude.
* `Reached.multipliers_mul_remainder`: the partial factors at every moment of a run.
* `Factorization.mul_eq_permuteRows`: the triangles multiply to the permuted matrix.
* `factorization_exact`: the same for the products that the library computes, and the combined
  matrix is the only one.
-/

namespace PivotedLU

variable {n : Nat} {tolerance : ℚ} {A : DenseMatrix n ℚ}

namespace Elimination

/-! ## Pivots and multipliers -/

theorem strictComparison_rat : StrictComparison ℚ where
  irrefl x := (below_eq_false_iff x x).2 le_rfl
  trans x y z hxy hyz := by
    rw [below_eq_true_iff] at *
    exact hxy.trans hyz

/-- Over the rationals only `0` is `Negligible`. -/
theorem negligible_iff_eq_zero (x : ℚ) : Scalar.Negligible x ↔ x = 0 := by
  rw [Scalar.Negligible, below_eq_false_iff, magnitude_eq_abs]
  exact abs_nonpos_iff

/-- The rationals have `BoundedQuotients`. -/
theorem boundedQuotients_rat : BoundedQuotients ℚ where
  toStrictComparison := strictComparison_rat
  quotient x p hp h := by
    rw [negligible_iff_eq_zero] at hp
    rw [below_eq_false_iff, magnitude_eq_abs, magnitude_eq_abs] at h
    rw [below_eq_false_iff, magnitude_eq_abs, abs_div]
    exact (div_le_one (abs_pos.2 hp)).2 h
  quotient_negligible x p hp _ := by
    -- a quotient by zero is zero
    rw [negligible_iff_eq_zero] at hp
    rw [below_eq_false_iff, magnitude_eq_abs, hp, div_zero, abs_zero]
    exact zero_le_one

/-- The first `k` diagonal entries are at least `tolerance` in magnitude. -/
theorem Reached.tolerance_le_diagonal {k : Nat} {s : State n ℚ} (ht : 0 < tolerance)
    (h : Reached tolerance A k s) {i : Fin n} (hi : i.val < k) :
    tolerance ≤ |s.matrix.entry i i| := by
  have hbelow := h.diagonal_not_below ((below_eq_true_iff 0 tolerance).2 ht) hi
  rwa [below_eq_false_iff, magnitude_eq_abs] at hbelow

/-- The multipliers of the first `k` columns are at most one in magnitude. -/
theorem Reached.abs_multiplier_le_one {k : Nat} {s : State n ℚ} (h : Reached tolerance A k s)
    {i j : Fin n} (hji : j < i) (hj : j.val < k) : |s.matrix.entry i j| ≤ 1 := by
  have hbelow := boundedQuotients_rat.not_above_one h hji hj
  rwa [below_eq_false_iff, magnitude_eq_abs] at hbelow

/-! ## The recurrence over the rationals -/

theorem reduced_eq_sub_sum (F : DenseMatrix n ℚ) (c : Nat) (i j : Fin n) (start : ℚ) :
    reduced F c i j start =
      start - ∑ k, if k < i ∧ k < j ∧ k.val < c then F.entry i k * F.entry k j else 0 :=
  foldl_sub_guard (fun k => k < i ∧ k < j ∧ k.val < c) (fun k => F.entry i k * F.entry k j) start

/-- The partial factors of a `Recurrent` matrix `F` multiply to the rows of `A` that it started
from. -/
theorem Recurrent.entry_multipliers_mul_remainder {F : DenseMatrix n ℚ} {row : Fin n → Fin n}
    {c : Nat} (h : Recurrent A F row c) (hdiag : ∀ i : Fin n, i.val < c → F.entry i i ≠ 0)
    (i j : Fin n) :
    ((F.multipliers c).mul (F.remainder c)).entry i j = A.entry (row i) j := by
  have hentry := h i j
  rw [leftLooking, reduced_eq_sub_sum] at hentry
  rw [DenseMatrix.entry_multipliers_mul_remainder]
  split
  · next hj =>
    rw [if_pos hj, eq_div_iff (hdiag j hj.2)] at hentry
    rw [hentry, add_sub_cancel]
  · next hj =>
    rw [if_neg hj] at hentry
    rw [hentry, add_sub_cancel]

theorem Reached.entry_diagonal_ne_zero {k : Nat} {s : State n ℚ} (ht : 0 < tolerance)
    (h : Reached tolerance A k s) {i : Fin n} (hi : i.val < k) : s.matrix.entry i i ≠ 0 :=
  abs_pos.1 (ht.trans_le (h.tolerance_le_diagonal ht hi))

/-- After every number `k` of columns the partial factors multiply to `A` with its rows permuted. -/
theorem Reached.multipliers_mul_remainder {k : Nat} {s : State n ℚ} (ht : 0 < tolerance)
    (h : Reached tolerance A k s) :
    (s.matrix.multipliers k).mul (s.matrix.remainder k) = s.order.permuteRows A := by
  ext i j
  rw [RowOrder.entry_permuteRows]
  exact h.recurrent.entry_multipliers_mul_remainder (fun i hi => h.entry_diagonal_ne_zero ht hi) i j

end Elimination

/-! ## The product of the factors -/

namespace Factorization

variable {f : Factorization n ℚ}

theorem diagonal_ne_zero (ht : 0 < tolerance) (h : ofMatrix tolerance A = .ok f) (i : Fin n) :
    f.lu.entry i i ≠ 0 := by
  obtain ⟨s, hs, rfl⟩ := ofMatrix_eq_ok_iff.1 h
  exact hs.entry_diagonal_ne_zero ht i.isLt

/-- The triangles of a factorization `f` that `ofMatrix` finds multiply to the permuted `A`. -/
theorem mul_eq_permuteRows (ht : 0 < tolerance) (h : ofMatrix tolerance A = .ok f) :
    f.lower.mul f.upper = f.order.permuteRows A := by
  obtain ⟨s, hs, rfl⟩ := ofMatrix_eq_ok_iff.1 h
  rw [lower_eq_multipliers, upper_eq_remainder]
  exact hs.multipliers_mul_remainder ht

end Factorization

/-! ## Exactness -/

/-- A matrix whose rows are exchanged twice, so that the order of its factors is a cycle. -/
def cyclicMatrix : DenseMatrix 3 ℚ :=
  ⟨#v[#v[0, 2, 1], #v[1, 0, 0], #v[3, 0, 1]]⟩

/-- The factors that are found for `cyclicMatrix`. -/
def cyclicFactors : Factorization 3 ℚ where
  lu := ⟨#v[#v[3, 0, 1], #v[0, 2, 1], #v[1 / 3, 0, -1 / 3]]⟩
  order := { sources := #v[2, 0, 1], distinct := by decide, exchanges := 2 }

theorem ofMatrix_cyclicMatrix :
    Factorization.ofMatrix (1 / 10) cyclicMatrix = .ok cyclicFactors := by
  decide +kernel

/-- **Exact factorization.** Let `ofMatrix` find `f` for a matrix `A` of rationals under a positive
`tolerance`.

- The triangles of `f` multiply to `A` with its rows in the order of `f`, and this is also what
  `f.reconstruct` and the product of `f.permutationMatrix` with `A` are.
- No `g` with another combined matrix has triangles with this product. -/
theorem factorization_exact (A : DenseMatrix n ℚ) {tolerance : ℚ} (ht : 0 < tolerance)
    {f : Factorization n ℚ} (h : Factorization.ofMatrix tolerance A = .ok f) :
    f.lower.multiply f.upper = .ok (f.order.permuteRows A) ∧
      f.permutationMatrix.multiply A = .ok f.reconstruct ∧
      ∀ g : Factorization n ℚ,
        g.lower.multiply g.upper = .ok (f.order.permuteRows A) → g.lu = f.lu := by
  have hproduct := Factorization.mul_eq_permuteRows ht h
  refine ⟨?_, ?_, fun g hg => ?_⟩
  · rw [DenseMatrix.multiply_eq_ok, hproduct]
  · rw [DenseMatrix.multiply_eq_ok, Factorization.permutationMatrix, RowOrder.toMatrix_mul,
      Factorization.reconstruct_eq_mul, hproduct]
  · rw [DenseMatrix.multiply_eq_ok, ← hproduct] at hg
    exact Factorization.lu_eq_of_mul_eq (Factorization.diagonal_ne_zero ht h) (Except.ok.inj hg)

/-- The factors of `cyclicMatrix`, whose rows are brought into a cycle. -/
theorem factorization_exact_cyclicMatrix :
    cyclicFactors.lower.multiply cyclicFactors.upper =
        .ok (cyclicFactors.order.permuteRows cyclicMatrix) ∧
      cyclicFactors.permutationMatrix.multiply cyclicMatrix = .ok cyclicFactors.reconstruct ∧
      ∀ g : Factorization 3 ℚ,
        g.lower.multiply g.upper = .ok (cyclicFactors.order.permuteRows cyclicMatrix) →
          g.lu = cyclicFactors.lu :=
  factorization_exact cyclicMatrix (by norm_num) ofMatrix_cyclicMatrix

end PivotedLU
