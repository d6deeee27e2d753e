import PivotedLU.Proofs.Binary.Laws
import PivotedLU.Proofs.Exact.Factorization
import PivotedLU.Proofs.Substitution.Divisors

/-!
# The Guarantee of Partial Pivoting

What partial pivoting is for: no multiplier exceeds one, and under a positive tolerance no pivot is
too small to be divided by. Both hold of floats of every format, with whatever infinities and values
that are not numbers the matrix holds, and of exact numbers.

## Main results

* `Binary.isNaN_or_atMost_one`, `Binary.atMost_of_not_below`: the bounds as comparisons of numbers.
* `pivoting_bounds`: the bounds for every run that succeeds.
-/

namespace PivotedLU

open Elimination

namespace Binary

variable {F : Format}

/-- If `1` is not below the magnitude of `x`, then `x` is not a number or `x.abs` is at most `1`. -/
theorem isNaN_or_atMost_one {x : Binary F}
    (h : Scalar.below 1 (Scalar.magnitude x) = false) :
    x.isNaN = true ∨ atMost x.abs 1 = true := by
  cases hx : x.isNaN with
  | true => exact Or.inl rfl
  | false => exact Or.inr ((atMost_iff_not_below ((isNaN_abs x).trans hx) rfl).2 h)

/-- If `x` is not `Negligible`, and its magnitude is not below a `tolerance` above `0`, then `x` is
a number, not zero, and `tolerance` is at most `x.abs`. -/
theorem atMost_of_not_below {x tolerance : Binary F} (ht : below 0 tolerance = true)
    (hx : ¬Scalar.Negligible x) (h : Scalar.below (Scalar.magnitude x) tolerance = false) :
    x.isNaN = false ∧ equals x 0 = false ∧ atMost tolerance x.abs = true := by
  have hnumber : x.isNaN = false := by
    rcases cases_of_not_negligible hx with ⟨a, rfl⟩ | ⟨a, q, hq, rfl, -⟩ <;> rfl
  have hnonzero : equals x 0 = false := by
    rcases cases_of_not_negligible hx with ⟨a, rfl⟩ | ⟨a, q, hq, rfl, hpos⟩
    · rfl
    · have hne : signed a q ≠ signed false 0 := by
        cases a <;> simp [signed] <;> omega
      exact beq_eq_false_iff_ne.2 hne
  obtain ⟨-, htolerance, -⟩ := (below_iff 0 tolerance).1 ht
  exact ⟨hnumber, hnonzero,
    (atMost_iff_not_below htolerance ((isNaN_abs x).trans hnumber)).2 h⟩

end Binary

/-- **The guarantee of partial pivoting.** Let the run on `A` succeed.

- For floats and any `tolerance`, every multiplier that it stores in `lu` is not a number, or at
  most `1` in magnitude.
- If `tolerance` is above `0`, every diagonal entry of `lu` is a number, not zero, and in magnitude
  at least `tolerance`, so that no solve and no inversion with `lu` divides by zero or by `nan`:
  they do not depend on what `g` such a division gives.
- Over the rationals, under a positive `tolerance`, multipliers are at most `1` and diagonal entries
  at least `tolerance` in magnitude. -/
theorem pivoting_bounds :
    (∀ (F : Format) (n : Nat) (A : DenseMatrix n (Binary F)) (tolerance : Binary F)
        (p : RowOrder n), (decompose tolerance A).outcome = .ok p →
      let lu := (decompose tolerance A).matrix
      (∀ i j, j < i →
        (lu.entry i j).isNaN = true ∨ Binary.atMost (lu.entry i j).abs 1 = true) ∧
      (Binary.below 0 tolerance = true →
        (∀ i, (lu.entry i i).isNaN = false ∧ Binary.equals (lu.entry i i) 0 = false ∧
          Binary.atMost tolerance (lu.entry i i).abs = true) ∧
        ∀ divide : Binary F → Binary F → Binary F,
          (∀ x d, d.isNaN = false → Binary.equals d 0 = false → divide x d = x / d) →
          (∀ b, @Substitution.solve _ (Scalar.withDivision divide) n lu p b =
            Substitution.solve lu p b) ∧
          @Substitution.invert _ (Scalar.withDivision divide) n lu p =
            Substitution.invert lu p)) ∧
    ∀ (n : Nat) (A : DenseMatrix n ℚ) (tolerance : ℚ) (p : RowOrder n), 0 < tolerance →
      (decompose tolerance A).outcome = .ok p →
        let lu := (decompose tolerance A).matrix
        (∀ i j, j < i → |lu.entry i j| ≤ 1) ∧ ∀ i, tolerance ≤ |lu.entry i i| := by
  constructor
  · intro F n A tolerance p hp lu
    obtain ⟨s, hs, hmatrix⟩ := exists_reached_matrix_of_ok hp
    have hlu : lu = s.matrix := hmatrix.symm
    refine ⟨fun i j hji => ?_, fun ht => ?_⟩
    · rw [hlu]
      exact Binary.isNaN_or_atMost_one (Binary.boundedQuotients.not_above_one hs hji j.isLt)
    · have hdiagonal : ∀ i, (lu.entry i i).isNaN = false ∧
          Binary.equals (lu.entry i i) 0 = false ∧
            Binary.atMost tolerance (lu.entry i i).abs = true := by
        intro i
        rw [hlu]
        exact Binary.atMost_of_not_below ht
          (hs.diagonal_not_negligible Binary.strictComparison ht i.isLt)
          (hs.diagonal_not_below ht i.isLt)
      -- the substitutions divide by entries of the diagonal only
      refine ⟨hdiagonal, fun divide hdivide => ?_⟩
      have hdivisors : ∀ i x, divide x (lu.entry i i) = x / lu.entry i i :=
        fun i x => hdivide x _ (hdiagonal i).1 (hdiagonal i).2.1
      exact ⟨fun b => Substitution.solve_withDivision hdivisors p b,
        Substitution.invert_withDivision hdivisors p⟩
  · intro n A tolerance p ht hp lu
    obtain ⟨s, hs, hmatrix⟩ := exists_reached_matrix_of_ok hp
    have hlu : lu = s.matrix := hmatrix.symm
    rw [hlu]
    exact ⟨fun i j hji => hs.abs_multiplier_le_one hji j.isLt,
      fun i => hs.tolerance_le_diagonal ht i.isLt⟩

/-- An infinite pivot under the tolerance `1`, a column of `nan` under the tolerance `nan`, and
exact numbers. -/
theorem pivoting_bounds_infinitePivot :
    (let lu := (decompose 1
        (⟨#v[#v[1, 1], #v[.infinity true, 1]]⟩ : DenseMatrix 2 Binary64)).matrix;
      ((lu.entry 1 0).isNaN = true ∨ Binary.atMost (lu.entry 1 0).abs 1 = true) ∧
        ∀ i, (lu.entry i i).isNaN = false ∧ Binary.equals (lu.entry i i) 0 = false ∧
          Binary.atMost 1 (lu.entry i i).abs = true) ∧
    (let lu := (decompose .nan
        (⟨#v[#v[.nan, 1], #v[.nan, 1]]⟩ : DenseMatrix 2 Binary32)).matrix;
      (lu.entry 1 0).isNaN = true ∨ Binary.atMost (lu.entry 1 0).abs 1 = true) ∧
    (let lu := (decompose (1 / 10) cyclicMatrix).matrix;
      (∀ i j, j < i → |lu.entry i j| ≤ 1) ∧ ∀ i, 1 / 10 ≤ |lu.entry i i|) := by
  have hinfinite : (decompose 1
      (⟨#v[#v[1, 1], #v[.infinity true, 1]]⟩ : DenseMatrix 2 Binary64)).outcome =
        .ok ((RowOrder.identity 2).exchange 0 1) := by
    decide +kernel
  have hnan : (decompose .nan
      (⟨#v[#v[.nan, 1], #v[.nan, 1]]⟩ : DenseMatrix 2 Binary32)).outcome =
        .ok (RowOrder.identity 2) := by
    decide +kernel
  have hexact : (decompose (1 / 10) cyclicMatrix).outcome = .ok cyclicFactors.order := by
    decide +kernel
  obtain ⟨hmultiplier, hpositive⟩ := pivoting_bounds.1 .binary64 2 _ 1 _ hinfinite
  refine ⟨⟨hmultiplier 1 0 (by decide), (hpositive (by decide +kernel)).1⟩, ?_, ?_⟩
  · exact (pivoting_bounds.1 .binary32 2 _ .nan _ hnan).1 1 0 (by decide)
  · exact pivoting_bounds.2 3 _ (1 / 10) _ (by norm_num) hexact

end PivotedLU
