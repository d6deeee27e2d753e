import PivotedLU.Proofs.Elimination.Records
import PivotedLU.Proofs.Exact.Factorization

/-!
# Exact Determinants

Over the rationals the expansion along the first row is the determinant of linear algebra, and so
is the signed product of the diagonal that is worked out from a factorization: the triangles have
the determinants one and the product of the diagonal, and the permuted matrix differs from the
matrix by the sign of the permutation, which the counter of exchanges knows.

## Main results

* `cofactorDeterminant_eq_det`: the expansion along the first row is the determinant.
* `Factorization.determinant_eq_det`, `Factorization.determinant_eq_neg_det`: so is the determinant
  from factors whose counter has the parity of the permutation; with any other counter it is the
  negative.
* `RowOrder.CountsParity.sign_eq_cofactorDeterminant`: the sign of an order is the determinant of
  its matrix.
* `determinant_exact`: the determinant after a factorization, and after an exchange of two rows.
-/

namespace PivotedLU

variable {n : Nat}

/-! ## The expansion along the first row -/

theorem entries_minor (A : DenseMatrix (n + 1) ℚ) (j : Fin (n + 1)) :
    (minor A j).entries = A.entries.submatrix Fin.succ j.succAbove := by
  ext r c
  exact DenseMatrix.entry_ofFn _ r c

/-- The expansion of `A` along the first row is Mathlib's determinant. -/
theorem cofactorDeterminant_eq_det (A : DenseMatrix n ℚ) :
    cofactorDeterminant A = A.entries.det := by
  induction n with
  | zero => rw [cofactorDeterminant, Matrix.det_fin_zero]
  | succ n ih =>
    -- added or subtracted, a term is added with its sign
    have hterm : ∀ (acc : ℚ) (j : Fin (n + 1)),
        (if j.val % 2 = 0 then acc + A.entry 0 j * cofactorDeterminant (minor A j)
          else acc - A.entry 0 j * cofactorDeterminant (minor A j)) =
        acc + (-1) ^ j.val * A.entry 0 j * (A.entries.submatrix Fin.succ j.succAbove).det := by
      intro acc j
      rw [ih, entries_minor]
      split
      · next hj => rw [(Nat.even_iff.2 hj).neg_one_pow, one_mul]
      · next hj =>
        rw [(Nat.odd_iff.2 (Nat.mod_two_ne_zero.1 hj)).neg_one_pow, neg_one_mul, neg_mul,
          sub_eq_add_neg]
    rw [cofactorDeterminant, foldl_congr_step hterm, foldl_add, Matrix.det_succ_row_zero]
    exact zero_add _

/-! ## The sign of an order -/

namespace RowOrder

variable {p : RowOrder n}

/-- The sign of `p` is a power of minus one, by its counter. -/
theorem sign_eq_pow : (p.sign : ℚ) = (((-1) ^ p.exchanges : ℤˣ) : ℤ) := by
  rw [sign, isOdd]
  rcases Nat.mod_two_eq_zero_or_one p.exchanges with hp | hp
  · rw [(Nat.even_iff.2 hp).neg_one_pow, hp]
    rfl
  · rw [(Nat.odd_iff.2 hp).neg_one_pow, hp]
    rfl

/-- Under `CountsParity` the sign of `p` is the sign of its permutation. -/
theorem CountsParity.sign_eq (h : p.CountsParity) :
    (p.sign : ℚ) = ((Equiv.Perm.sign p.perm : ℤ) : ℚ) := by
  rw [sign_eq_pow, ← h]

/-- Without `CountsParity` the sign of `p` is the opposite of the sign of its permutation. -/
theorem sign_eq_neg_of_not_countsParity (h : ¬p.CountsParity) :
    (p.sign : ℚ) = -((Equiv.Perm.sign p.perm : ℤ) : ℚ) := by
  have hpow : (-1 : ℤˣ) ^ p.exchanges = -Equiv.Perm.sign p.perm :=
    Int.units_ne_iff_eq_neg.1 (Ne.symm h)
  rw [sign_eq_pow, hpow, Units.val_neg, Int.cast_neg]

/-- The determinant of `p.permuteRows A` is that of `A`, times the sign of the permutation of
`p`. -/
theorem det_permuteRows (A : DenseMatrix n ℚ) :
    (p.permuteRows A).entries.det = ((Equiv.Perm.sign p.perm : ℤ) : ℚ) * A.entries.det := by
  rw [entries_permuteRows, ← Matrix.det_permute]
  rfl

/-- Under `CountsParity` the sign of `p` is the determinant of its matrix. -/
theorem CountsParity.sign_eq_cofactorDeterminant (h : p.CountsParity) :
    (p.sign : ℚ) = cofactorDeterminant (p.toMatrix : DenseMatrix n ℚ) := by
  -- the matrix of the order permutes the rows of the identity
  have hmatrix : (p.toMatrix : DenseMatrix n ℚ) = p.permuteRows (DenseMatrix.identity n) := by
    ext i j
    rw [entry_toMatrix, entry_permuteRows, DenseMatrix.entry_identity]
  rw [cofactorDeterminant_eq_det, hmatrix, det_permuteRows, DenseMatrix.entries_identity,
    Matrix.det_one, mul_one, h.sign_eq]

end RowOrder

/-! ## Factors -/

/-- The determinant from `lu` and `p` is the product of the diagonal, times the sign of `p`. -/
theorem determinant_eq_sign_mul_prod (lu : DenseMatrix n ℚ) (p : RowOrder n) :
    determinant lu p = p.sign * ∏ i, lu.entry i i := by
  have hproduct : Fin.foldl n (fun acc i => acc * lu.entry i i) 1 = ∏ i, lu.entry i i :=
    (foldl_mul (fun i => lu.entry i i) 1).trans (one_mul _)
  rw [determinant, hproduct, RowOrder.sign]
  cases p.isOdd
  · exact (one_mul _).symm
  · exact (neg_one_mul _).symm

namespace Factorization

variable (f : Factorization n ℚ)

theorem det_lower : f.lower.entries.det = 1 := by
  rw [lower_eq_multipliers, DenseMatrix.det_multipliers]

theorem det_upper : f.upper.entries.det = ∏ i, f.lu.entry i i := by
  have htriangular : f.upper.entries.IsUpperTriangular := fun i j hij => f.entry_upper_of_lt hij
  rw [Matrix.det_of_isUpperTriangular htriangular]
  exact Finset.prod_congr rfl fun i _ => by simp

variable {f} {A : DenseMatrix n ℚ}

/-- If the triangles of `f` multiply to `A` with its rows permuted, the determinant worked out from
`f` is that of `A`, up to the two signs of the order. -/
theorem determinant_eq_sign_mul_det (hproduct : f.lower.mul f.upper = f.order.permuteRows A) :
    PivotedLU.determinant f.lu f.order =
      f.order.sign * ((Equiv.Perm.sign f.order.perm : ℤ) : ℚ) * A.entries.det := by
  calc PivotedLU.determinant f.lu f.order
      = f.order.sign * ∏ i, f.lu.entry i i := determinant_eq_sign_mul_prod f.lu f.order
    _ = f.order.sign * (f.lower.entries.det * f.upper.entries.det) := by
        rw [f.det_lower, f.det_upper, one_mul]
    _ = f.order.sign * (f.order.permuteRows A).entries.det := by
        rw [← Matrix.det_mul, ← DenseMatrix.entries_mul, hproduct]
    _ = f.order.sign * ((Equiv.Perm.sign f.order.perm : ℤ) : ℚ) * A.entries.det := by
        rw [RowOrder.det_permuteRows, mul_assoc]

theorem sign_mul_sign : ((Equiv.Perm.sign f.order.perm : ℤ) : ℚ) *
    ((Equiv.Perm.sign f.order.perm : ℤ) : ℚ) = 1 := by
  rw [← Int.cast_mul, Int.units_coe_mul_self, Int.cast_one]

/-- Under `CountsParity` the determinant worked out from `f` is that of `A`. -/
theorem determinant_eq_det (hparity : f.order.CountsParity)
    (hproduct : f.lower.mul f.upper = f.order.permuteRows A) :
    PivotedLU.determinant f.lu f.order = A.entries.det := by
  rw [determinant_eq_sign_mul_det hproduct, hparity.sign_eq, sign_mul_sign, one_mul]

/-- Without `CountsParity` the determinant worked out from `f` is the negative of that of `A`. -/
theorem determinant_eq_neg_det (hparity : ¬f.order.CountsParity)
    (hproduct : f.lower.mul f.upper = f.order.permuteRows A) :
    PivotedLU.determinant f.lu f.order = -A.entries.det := by
  rw [determinant_eq_sign_mul_det hproduct, RowOrder.sign_eq_neg_of_not_countsParity hparity,
    neg_mul, sign_mul_sign, neg_one_mul]

end Factorization

/-! ## Exactness -/

/-- An exchange of rows `i` and `j` turns the sign of the determinant of `A`. -/
theorem DenseMatrix.det_swapRows (A : DenseMatrix n ℚ) {i j : Fin n} (h : i ≠ j) :
    (A.swapRows i j).entries.det = -A.entries.det := by
  have hentries : (A.swapRows i j).entries = A.entries.submatrix (Equiv.swap i j) id := by
    ext k l
    rw [entries_apply, entry_swapRows, exchanged_eq_swap]
    rfl
  rw [hentries, Matrix.det_permute, Equiv.Perm.sign_swap h]
  simp

/-- The determinant worked out from an `f` that `ofMatrix` finds for `A` is that of `A`. -/
theorem Factorization.determinant_eq_det_of_ok {tolerance : ℚ} {A : DenseMatrix n ℚ}
    {f : Factorization n ℚ} (ht : 0 < tolerance) (h : ofMatrix tolerance A = .ok f) :
    PivotedLU.determinant f.lu f.order = A.entries.det := by
  have hproduct := mul_eq_permuteRows ht h
  obtain ⟨s, hs, rfl⟩ := ofMatrix_eq_ok_iff.1 h
  exact determinant_eq_det hs.countsParity hproduct

/-- **Exact determinants.** Let `ofMatrix` find `f` for a matrix `A` of rationals under a positive
`tolerance`. The determinant worked out from `f` is the expansion of `A` along its first row. If `A`
with rows `i` and `j` exchanged is factored into `g` under whatever positive `tolerance'`, its
determinant is the negative. -/
theorem determinant_exact (A : DenseMatrix n ℚ) {tolerance : ℚ} (ht : 0 < tolerance)
    {f : Factorization n ℚ} (h : Factorization.ofMatrix tolerance A = .ok f) :
    determinant f.lu f.order = cofactorDeterminant A ∧
      ∀ (i j : Fin n) (tolerance' : ℚ) (g : Factorization n ℚ), i ≠ j → 0 < tolerance' →
        Factorization.ofMatrix tolerance' (A.swapRows i j) = .ok g →
          determinant g.lu g.order = -determinant f.lu f.order := by
  have hdet := Factorization.determinant_eq_det_of_ok ht h
  refine ⟨?_, fun i j tolerance' g hij ht' hg => ?_⟩
  · rw [hdet, cofactorDeterminant_eq_det]
  · -- the two runs are not compared: each of them finds the determinant of its own matrix
    rw [hdet, Factorization.determinant_eq_det_of_ok ht' hg, DenseMatrix.det_swapRows A hij]

/-- The determinant of `cyclicMatrix`, and its negative after an exchange of the outer rows. -/
theorem determinant_exact_cyclicMatrix :
    determinant cyclicFactors.lu cyclicFactors.order = cofactorDeterminant cyclicMatrix ∧
      ∃ g, Factorization.ofMatrix (1 / 10) (cyclicMatrix.swapRows 0 2) = .ok g ∧
        determinant g.lu g.order = -determinant cyclicFactors.lu cyclicFactors.order := by
  obtain ⟨hdet, hswap⟩ := determinant_exact cyclicMatrix (by norm_num) ofMatrix_cyclicMatrix
  -- the first pivot is in place now, which leaves one exchange
  have hswapped : Factorization.ofMatrix (1 / 10) (cyclicMatrix.swapRows 0 2) =
      .ok ⟨cyclicFactors.lu, ⟨#v[0, 2, 1], by decide, 1⟩⟩ := by
    decide +kernel
  exact ⟨hdet, _, hswapped, hswap 0 2 (1 / 10) _ (by decide) (by norm_num) hswapped⟩

end PivotedLU
