import PivotedLU.Proofs.Binary.Laws
import PivotedLU.Proofs.Elimination.Negligible

/-!
# Singular Matrices of Floats

Rounding can hide that a matrix is singular, but not if the reason shows in its entries: a row of
zeros, a column of zeros, two equal rows. Such a matrix of floats is rejected under every positive
tolerance, whatever infinities and values that are not numbers stand in its other places.

## Main results

* `Binary.negligibleLaws`: the arithmetic of floats absorbs what is negligible.
* `Binary.decompose_error_of_singular`: the three kinds of matrices are rejected.
-/

namespace PivotedLU

namespace Binary

open Elimination
open Scalar (Negligible)

variable {F : Format}

/-- Floats have the `NegligibleLaws` that keep rows and columns of zeros negligible. -/
theorem negligibleLaws : NegligibleLaws (Binary F) where
  toStrictComparison := strictComparison
  sub_mul_left _ _ u ha hf := negligible_sub ha (negligible_mul_left hf u)
  sub_mul_right _ f _ ha hu := negligible_sub ha (negligible_mul_right f hu)
  quotient _ _ ha hp := negligible_div ha hp
  cancel _ u hp := negligible_sub_div_self_mul u hp

/-- What `equals` `0`, under either sign, is `Negligible`. -/
theorem negligible_of_equals_zero {x : Binary F} (h : equals x 0 = true) : Negligible x := by
  obtain ⟨negative, rfl⟩ := equals_zero_iff.1 h
  exact negligible_zero negative

/-- **Matrices that are singular by their shape are rejected.** Let `tolerance` be above `0`, and
let the entries of `A` be arbitrary but for one of the following.

- The entries of some row `i` are zeros of either sign: the run on `A` breaks down.
- The entries of some column `c` are such zeros: the run breaks down in column `c` or before, and if
  in column `c`, with the pivot `0`.
- Rows `i` and `i'` are the same: the run breaks down. -/
theorem decompose_error_of_singular {n : Nat} (A : DenseMatrix n (Binary F)) {tolerance : Binary F}
    (ht : below 0 tolerance = true) :
    (∀ i, (∀ j, equals (A.entry i j) 0 = true) →
      ∃ b, (decompose tolerance A).outcome = .error b) ∧
    (∀ c, (∀ i, equals (A.entry i c) 0 = true) →
      ∃ b, (decompose tolerance A).outcome = .error b ∧ b.column ≤ c ∧
        (b.column = c → b.pivot = 0)) ∧
    ∀ i i', i ≠ i' → A.row i = A.row i' → ∃ b, (decompose tolerance A).outcome = .error b := by
  refine ⟨fun i hrow => ?_, fun c hcolumn => ?_, fun i i' hne htwin => ?_⟩
  · exact negligibleLaws.exists_error_of_row ht fun j => negligible_of_equals_zero (hrow j)
  · exact negligibleLaws.exists_error_of_column ht fun i => negligible_of_equals_zero (hcolumn i)
  · exact negligibleLaws.exists_error_of_twins ht hne htwin

/-- A row of zeros meets an `infinity` and turns into `nan`; a column of zeros stands beside `nan`;
and two rows of what is not finite are the same. -/
theorem decompose_error_of_singular_infinity :
    (∃ b, (decompose 1
      (⟨#v[#v[0, zero true], #v[1, infinity false]]⟩ : DenseMatrix 2 Binary64)).outcome =
        .error b) ∧
    (∃ b, (decompose 1
      (⟨#v[#v[1, zero true], #v[nan, 0]]⟩ : DenseMatrix 2 Binary32)).outcome = .error b ∧
        b.column ≤ 1 ∧ (b.column = 1 → b.pivot = 0)) ∧
    ∃ b, (decompose 1
      (⟨#v[#v[infinity true, nan], #v[infinity true, nan]]⟩ : DenseMatrix 2 Binary64)).outcome =
        .error b := by
  refine ⟨?_, ?_, ?_⟩
  · exact (decompose_error_of_singular _ (by decide +kernel)).1 0 (by decide +kernel)
  · exact (decompose_error_of_singular _ (by decide +kernel)).2.1 1 (by decide +kernel)
  · exact (decompose_error_of_singular _ (by decide +kernel)).2.2 0 1 (by decide) rfl

end Binary

end PivotedLU
