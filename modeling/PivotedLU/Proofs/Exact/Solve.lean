import PivotedLU.Proofs.Exact.Factorization
import PivotedLU.Proofs.Substitution.Passes

/-!
# Exact Solutions

Over the rationals the equations of the two passes of a solve are the two triangular systems, row
by row. A solve therefore finds the one solution of the system with the permuted product of the
triangles, and after a factorization that of the system with the matrix itself.

## Main results

* `Factorization.lower_mulVec_eq_iff`, `Factorization.upper_mulVec_eq_iff`: the triangular
  systems as equations of the passes.
* `Factorization.lower_mulVec_upper_eq_permute_iff`: a solve finds the one solution for the permuted
  right-hand side.
* `Factorization.mulVec_eq_iff`: after a factorization it finds the one solution of the system
  with the matrix.
* `solve_exact`: the same for the functions that check lengths, and for the matrix that was
  factored.
-/

namespace PivotedLU

universe u

variable {α : Type u} {n : Nat}

/-- Over the rationals `subtractTerms` takes a sum away from `start`. -/
theorem Substitution.subtractTerms_eq_sub_sum (selected : Fin n → Bool) (r x : Vector ℚ n)
    (start : ℚ) :
    subtractTerms selected r x start =
      start - ∑ k, if selected k = true then r.get k * x.get k else 0 :=
  foldl_sub_guard (fun k => selected k = true) (fun k => r.get k * x.get k) start

namespace Factorization

open Substitution

/-! ## Triangular systems -/

variable (f : Factorization n ℚ)

/-- Row `i` of the system with `f.lower`. -/
theorem get_lower_mulVec (y : Vector ℚ n) (i : Fin n) :
    (f.lower.mulVec y).get i =
      (∑ k, if k < i then f.lu.entry i k * y.get k else 0) + y.get i := by
  rw [DenseMatrix.get_mulVec_eq_sum,
    sum_eq_guard_add (p := fun k => k < i) (i := i)
      (g := fun k => f.lu.entry i k * y.get k) (lt_irrefl i)]
  · rw [entry_lower_self, one_mul]
  · intro k hk
    rw [entry_lower, if_pos hk]
  · intro k hk hki
    rw [entry_lower, if_neg hk, if_neg hki.symm, zero_mul]

/-- Row `i` of the system with `f.upper`. -/
theorem get_upper_mulVec (x : Vector ℚ n) (i : Fin n) :
    (f.upper.mulVec x).get i =
      (∑ k, if i < k then f.lu.entry i k * x.get k else 0) + f.lu.entry i i * x.get i := by
  rw [DenseMatrix.get_mulVec_eq_sum,
    sum_eq_guard_add (p := fun k => i < k) (i := i)
      (g := fun k => f.lu.entry i k * x.get k) (lt_irrefl i)]
  · rw [entry_upper_self]
  · intro k hk
    rw [entry_upper, if_pos hk.le]
  · intro k hk hki
    rw [entry_upper_of_lt f (lt_of_le_of_ne (not_lt.1 hk) hki), zero_mul]

/-- The system with `f.lower`, row by row, solved for the diagonal term of `y`. -/
theorem lower_mulVec_eq_iff (y z : Vector ℚ n) :
    f.lower.mulVec y = z ↔
      ∀ i, y.get i = subtractTerms (fun k => k < i) (f.lu.row i) y (z.get i) := by
  rw [vector_eq_iff]
  refine forall_congr' fun i => ?_
  rw [get_lower_mulVec, subtractTerms_eq_sub_sum, eq_sub_iff_add_eq']
  simp only [decide_eq_true_eq]
  rfl

/-- The system with `f.upper`, row by row, solved for the diagonal term of `x`. -/
theorem upper_mulVec_eq_iff (hdiag : ∀ i, f.lu.entry i i ≠ 0) (x y : Vector ℚ n) :
    f.upper.mulVec x = y ↔
      ∀ i, x.get i = subtractTerms (fun k => i < k) (f.lu.row i) x (y.get i) / f.lu.entry i i := by
  rw [vector_eq_iff]
  refine forall_congr' fun i => ?_
  rw [get_upper_mulVec, subtractTerms_eq_sub_sum, eq_div_iff (hdiag i), eq_sub_iff_add_eq',
    mul_comm (x.get i)]
  simp only [decide_eq_true_eq]
  rfl

/-! ## Both systems -/

/-- A solve finds the one `x` that the triangles of `f`, one after the other, take to the permuted
`b`. -/
theorem lower_mulVec_upper_eq_permute_iff (hdiag : ∀ i, f.lu.entry i i ≠ 0)
    (b x : Vector ℚ n) :
    f.lower.mulVec (f.upper.mulVec x) = f.order.permute b ↔
      x = Substitution.solve f.lu f.order b := by
  -- the vector between the triangles is what the first pass leaves in the buffer
  have hforward : f.lower.mulVec (f.upper.mulVec x) = f.order.permute b ↔
      f.upper.mulVec x = forward f.lu f.order b (Vector.replicate n 0) := by
    rw [lower_mulVec_eq_iff, eq_forward_iff]
    simp only [RowOrder.get_permute]
  rw [hforward, upper_mulVec_eq_iff f hdiag, Substitution.solve, solveInto,
    eq_backward_iff]

variable {f} {A : DenseMatrix n ℚ} {tolerance : ℚ}

theorem solve_toList [Scalar α] (f : Factorization n α) (b : Vector α n) :
    f.solve b.toList = .ok (Substitution.solve f.lu f.order b) := by
  rw [Factorization.solve, dif_pos b.length_toList, vectorOfList_toList]

/-- After `ofMatrix` has found `f` for `A`, a solve finds the one `x` that `A` takes to `b`. -/
theorem mulVec_eq_iff (ht : 0 < tolerance) (h : ofMatrix tolerance A = .ok f)
    (b x : Vector ℚ n) : A.mulVec x = b ↔ x = Substitution.solve f.lu f.order b := by
  rw [← lower_mulVec_upper_eq_permute_iff f (diagonal_ne_zero ht h), ← DenseMatrix.mulVec_mul,
    mul_eq_permuteRows ht h, RowOrder.mulVec_permuteRows, f.order.permute_injective.eq_iff]

end Factorization

/-- **Exact solutions.** Over the rationals:

- if `f.lu` has no zero on its diagonal, `solveList` finds for every `b` the one `x` that the
  triangles of `f`, one after the other, take to the permuted `b`;
- if `ofMatrix` finds `f` for `A` under a positive `tolerance`, `f.solve` finds for every `b` the
  one `x` that `A` takes to `b`. -/
theorem solve_exact :
    (∀ f : Factorization n ℚ, (∀ i, f.lu.entry i i ≠ 0) → ∀ b : Vector ℚ n, ∃ x : Vector ℚ n,
      Substitution.solveList f.lu f.order b.toList = .ok x ∧
        ∀ y, f.order.permuteList b.toList = .ok (f.lower.mulVec (f.upper.mulVec y)) ↔ y = x) ∧
      ∀ (A : DenseMatrix n ℚ) (tolerance : ℚ) (f : Factorization n ℚ), 0 < tolerance →
        Factorization.ofMatrix tolerance A = .ok f → ∀ b : Vector ℚ n, ∃ x : Vector ℚ n,
          f.solve b.toList = .ok x ∧ ∀ y : Vector ℚ n, A.apply y.toList = .ok b ↔ y = x := by
  constructor
  · intro f hdiag b
    refine ⟨_, Substitution.solveList_toList f.lu f.order b, fun y => ?_⟩
    rw [RowOrder.permuteList_toList, Except.ok.injEq, eq_comm]
    exact f.lower_mulVec_upper_eq_permute_iff hdiag b y
  · intro A tolerance f ht h b
    refine ⟨_, f.solve_toList b, fun y => ?_⟩
    rw [DenseMatrix.apply_toList, Except.ok.injEq]
    exact Factorization.mulVec_eq_iff ht h b y

/-- The solution for `cyclicMatrix` and one right-hand side. -/
theorem solve_exact_cyclicMatrix :
    (∃ x : Vector ℚ 3,
      Substitution.solveList cyclicFactors.lu cyclicFactors.order [7, 1, 6] = .ok x ∧
        ∀ y, cyclicFactors.order.permuteList [7, 1, 6] =
          .ok (cyclicFactors.lower.mulVec (cyclicFactors.upper.mulVec y)) ↔ y = x) ∧
      ∃ x : Vector ℚ 3, cyclicFactors.solve [7, 1, 6] = .ok x ∧
        ∀ y : Vector ℚ 3, cyclicMatrix.apply y.toList = .ok #v[7, 1, 6] ↔ y = x :=
  ⟨solve_exact.1 cyclicFactors (by decide +kernel) #v[7, 1, 6],
    solve_exact.2 cyclicMatrix (1 / 10) cyclicFactors (by norm_num) ofMatrix_cyclicMatrix
      #v[7, 1, 6]⟩

end PivotedLU
