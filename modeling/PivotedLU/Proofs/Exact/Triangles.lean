import PivotedLU.Factorization.Basic
import PivotedLU.Proofs.Exact.PartialFactors
import PivotedLU.Proofs.Product.ZeroTerms

/-!
# The Product of the Triangles

The two triangles of a combined matrix of rationals, and what their product says about the
combined matrix.

## Main results

* `Factorization.lower_eq_multipliers`, `Factorization.upper_eq_remainder`: the triangles are the
  partial factors after all columns.
* `Factorization.entry_lower_mul_upper`: an entry of the product in terms of the combined matrix.
* `Factorization.reconstruct_eq_mul`: the product with the terms outside the triangles left out.
* `Factorization.lu_eq_of_mul_eq`: the product determines the combined matrix, if no diagonal
  entry is zero.
-/

namespace PivotedLU

namespace Factorization

variable {n : Nat}

/-- The triangle `f.lower` holds the multipliers of all columns. -/
theorem lower_eq_multipliers (f : Factorization n ℚ) : f.lower = f.lu.multipliers n := by
  ext i j
  simp

/-- The triangle `f.upper` is what is left after the elimination of all columns. -/
theorem upper_eq_remainder (f : Factorization n ℚ) : f.upper = f.lu.remainder n := by
  ext i j
  by_cases h : j < i
  · simp [h, h.not_ge]
  · simp [h, not_lt.1 h]

/-- At `(i, j)` the product is the sum of the products left of and above this place, and the last
factor at the place itself. -/
theorem entry_lower_mul_upper (f : Factorization n ℚ) (i j : Fin n) :
    (f.lower.mul f.upper).entry i j =
      (∑ k, if k < i ∧ k < j then f.lu.entry i k * f.lu.entry k j else 0) +
        if j < i then f.lu.entry i j * f.lu.entry j j else f.lu.entry i j := by
  rw [lower_eq_multipliers, upper_eq_remainder, DenseMatrix.entry_multipliers_mul_remainder]
  -- with all columns finished the bound on the columns is void
  simp only [Fin.is_lt, and_true]

/-- Exact sums of any kind have the `ZeroTermLaws`: they do not notice a product with zero. -/
theorem zeroTermLaws_rat : ZeroTermLaws (fun _ : ℚ => True) fun _ => True where
  usable_zero := trivial
  usable_one := trivial
  reachable_zero := trivial
  reachable_add _ _ := trivial
  add_zero_mul {s x} _ _ := by
    show s + 0 * x = s
    rw [zero_mul, add_zero]
  add_mul_zero {s x} _ _ := by
    show s + x * 0 = s
    rw [mul_zero, add_zero]

/-- The terms that `f.reconstruct` leaves out of the product of the triangles are zero. -/
theorem reconstruct_eq_mul (f : Factorization n ℚ) : f.reconstruct = f.lower.mul f.upper :=
  reconstruct_eq_mul_of zeroTermLaws_rat fun _ _ => trivial

/-- The product of the triangles determines `g.lu`, if an `f` that has this product has no zero on
its diagonal. -/
theorem lu_eq_of_mul_eq {f g : Factorization n ℚ} (hdiag : ∀ i, f.lu.entry i i ≠ 0)
    (h : g.lower.mul g.upper = f.lower.mul f.upper) : g.lu = f.lu := by
  -- where all entries before a place agree, the last factors of its two products agree
  have hlast : ∀ i j : Fin n,
      (∀ k, k < i → k < j → g.lu.entry i k = f.lu.entry i k ∧ g.lu.entry k j = f.lu.entry k j) →
        (if j < i then g.lu.entry i j * g.lu.entry j j else g.lu.entry i j) =
          if j < i then f.lu.entry i j * f.lu.entry j j else f.lu.entry i j := by
    intro i j hsettled
    have hsum : (∑ k, if k < i ∧ k < j then g.lu.entry i k * g.lu.entry k j else 0) =
        ∑ k, if k < i ∧ k < j then f.lu.entry i k * f.lu.entry k j else 0 := by
      refine Finset.sum_congr rfl fun k _ => ?_
      split
      · next hk => rw [(hsettled k hk.1 hk.2).1, (hsettled k hk.1 hk.2).2]
      · rfl
    have hentry : (g.lower.mul g.upper).entry i j = (f.lower.mul f.upper).entry i j := by rw [h]
    rw [entry_lower_mul_upper, entry_lower_mul_upper, hsum] at hentry
    exact add_left_cancel hentry
  refine DenseMatrix.ext_of_finished (fun i j hij hsettled => ?_)
    (fun i j hji hsettled hself => ?_)
  · have hentry := hlast i j fun k hk _ => ⟨(hsettled k hk i).2, (hsettled k hk j).1⟩
    rwa [if_neg hij.not_gt, if_neg hij.not_gt] at hentry
  · have hentry := hlast i j fun k _ hk => ⟨(hsettled k hk i).2, (hsettled k hk j).1⟩
    rw [if_pos hji, if_pos hji, hself] at hentry
    exact mul_right_cancel₀ (hdiag j) hentry

end Factorization

end PivotedLU
