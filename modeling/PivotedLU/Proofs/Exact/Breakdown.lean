import PivotedLU.Proofs.Exact.Determinant

/-!
# Exact Breakdowns

Over the rationals a run stops exactly where it should. The matrix is at every moment an
invertible matrix times what is left of it, and in what is left the finished columns have nonzero
entries on the diagonal and zeros below. So the finished columns of the matrix are independent,
and a column whose largest candidate is zero depends on them.

## Main definitions

* `Cleared`: a matrix whose first columns have nonzero diagonal entries and zeros below.

## Main results

* `Cleared.linearIndepOn`, `Cleared.mem_span`: the first columns of such a matrix are independent,
  and span the vectors that end with them.
* `Elimination.Reached.exists_mul_remainder`: the matrix in terms of what is left of it.
* `Elimination.Reached.linearIndepOn_col`: the columns that have been eliminated are independent.
* `Elimination.Reached.col_mem_span`: a column in which nothing is left depends on those before.
* `Elimination.exists_reached_of_det_ne_zero`: a nonsingular matrix gets through under all small
  tolerances.
* `breakdown_exact`: what success and failure of a run say about the matrix.
-/

namespace PivotedLU

variable {n : Nat}

/-! ## Cleared columns -/

/-- The columns up to `c` are column `c` and those before it. -/
theorem setOf_val_lt_succ {c : Nat} (hc : c < n) :
    {j : Fin n | j.val < c + 1} = insert ⟨c, hc⟩ {j : Fin n | j.val < c} := by
  ext j
  simp only [Set.mem_ofPred_eq, Set.mem_insert_iff, Fin.ext_iff]
  omega

/-- The first `c` columns of a matrix have nonzero entries on the diagonal and zeros below. -/
structure Cleared (R : Matrix (Fin n) (Fin n) ℚ) (c : Nat) : Prop where
  diagonal_ne_zero : ∀ j : Fin n, j.val < c → R j j ≠ 0
  below_eq_zero : ∀ i j : Fin n, j < i → j.val < c → R i j = 0

namespace Cleared

variable {R : Matrix (Fin n) (Fin n) ℚ} {c : Nat}

theorem mono {m : Nat} (h : Cleared R c) (hm : m ≤ c) : Cleared R m where
  diagonal_ne_zero j hj := h.diagonal_ne_zero j (hj.trans_le hm)
  below_eq_zero i j hji hj := h.below_eq_zero i j hji (hj.trans_le hm)

/-- The first `c` columns of a `Cleared` matrix are independent: each of them ends where those
before it are zero. -/
theorem linearIndepOn (h : Cleared R c) (hc : c ≤ n) :
    LinearIndepOn ℚ R.col {j : Fin n | j.val < c} := by
  induction c with
  | zero => simp
  | succ c ih =>
    let last : Fin n := ⟨c, hc⟩
    -- the columns before it are zero where the last one has its diagonal entry
    have hzero : Submodule.span ℚ (R.col '' {j : Fin n | j.val < c}) ≤
        (LinearMap.proj last : (Fin n → ℚ) →ₗ[ℚ] ℚ).ker := by
      rw [Submodule.span_le]
      rintro _ ⟨j, hj, rfl⟩
      exact h.below_eq_zero last j hj (Nat.lt_succ_of_lt hj)
    rw [setOf_val_lt_succ hc]
    refine (ih (h.mono (Nat.le_succ c)) (Nat.le_of_succ_le hc)).insert fun hmem => ?_
    exact h.diagonal_ne_zero last (Nat.lt_succ_self c) (LinearMap.mem_ker.1 (hzero hmem))

/-- A vector `w` that ends with the first `c` columns of a `Cleared` matrix is a combination of
them: its last entry is taken away with the last of these columns, and so on upwards. -/
theorem mem_span (h : Cleared R c) (hc : c ≤ n) {w : Fin n → ℚ}
    (hw : ∀ i : Fin n, c ≤ i.val → w i = 0) :
    w ∈ Submodule.span ℚ (R.col '' {j : Fin n | j.val < c}) := by
  induction c generalizing w with
  | zero =>
    have hzero : w = 0 := funext fun i => hw i (Nat.zero_le _)
    rw [hzero]
    exact Submodule.zero_mem _
  | succ c ih =>
    let last : Fin n := ⟨c, hc⟩
    rw [setOf_val_lt_succ hc, Set.image_insert_eq, Submodule.mem_span_insert]
    -- without its share of the last column the vector ends one place earlier
    refine ⟨w last / R last last, w - (w last / R last last) • R.col last, ?_,
      (add_sub_cancel _ _).symm⟩
    refine ih (h.mono (Nat.le_succ c)) (Nat.le_of_succ_le hc) fun i hi => ?_
    show w i - w last / R last last * R i last = 0
    rcases Nat.eq_or_lt_of_le hi with hic | hic
    · obtain rfl : last = i := Fin.ext hic
      rw [div_mul_cancel₀ _ (h.diagonal_ne_zero last (Nat.lt_succ_self c)), sub_self]
    · rw [hw i hic, h.below_eq_zero i last hic (Nat.lt_succ_self c), mul_zero, sub_zero]

end Cleared

/-! ## What is left of a matrix -/

namespace Elimination

variable {A : DenseMatrix n ℚ} {tolerance : ℚ} {k : Nat} {s : State n ℚ}

theorem abs_entry_le_scan (M : DenseMatrix n ℚ) {column i : Fin n} (hi : column ≤ i) :
    |M.entry i column| ≤ (scan M column).magnitude := by
  have hbelow := strictComparison_rat.not_below_scan (A := M) hi
  rwa [below_eq_false_iff, magnitude_eq_abs] at hbelow

/-- In the `remainder` after `k` columns, these are `Cleared`. -/
theorem Reached.cleared_remainder (ht : 0 < tolerance) (h : Reached tolerance A k s) :
    Cleared (s.matrix.remainder k).entries k where
  diagonal_ne_zero j hj := by
    rw [DenseMatrix.entries_apply, DenseMatrix.entry_remainder, if_neg fun h => lt_irrefl j h.1]
    exact h.entry_diagonal_ne_zero ht hj
  below_eq_zero i j hji hj := by
    rw [DenseMatrix.entries_apply, DenseMatrix.entry_remainder, if_pos ⟨hji, hj⟩]

/-- After every number `k` of columns, `A` is an invertible `B` times the `remainder`. -/
theorem Reached.exists_mul_remainder (ht : 0 < tolerance) (h : Reached tolerance A k s) :
    ∃ B : Matrix (Fin n) (Fin n) ℚ,
      IsUnit B ∧ A.entries = B * (s.matrix.remainder k).entries := by
  have hproduct : (s.matrix.multipliers k).entries * (s.matrix.remainder k).entries =
      A.entries.submatrix s.order.perm id := by
    rw [← DenseMatrix.entries_mul, h.multipliers_mul_remainder ht, RowOrder.entries_permuteRows]
    rfl
  -- the rows of the multipliers go back to where they came from
  refine ⟨(s.matrix.multipliers k).entries.submatrix s.order.perm.symm id, ?_, ?_⟩
  · rw [Matrix.isUnit_iff_isUnit_det, Matrix.det_permute, DenseMatrix.det_multipliers, mul_one]
    exact (Equiv.Perm.sign s.order.perm.symm).isUnit.map (Int.castRingHom ℚ)
  · ext i j
    have hentry := congrFun (congrFun hproduct (s.order.perm.symm i)) j
    rw [Matrix.submatrix_apply, Equiv.apply_symm_apply] at hentry
    exact hentry.symm

/-- The columns of `A` are the images under `B` of the columns of `R`. -/
theorem col_eq_mulVecLin_comp {B : Matrix (Fin n) (Fin n) ℚ} {R : DenseMatrix n ℚ}
    (h : A.entries = B * R.entries) : A.entries.col = B.mulVecLin ∘ R.entries.col := by
  rw [h]
  rfl

/-- The first `k` columns of `A` are independent once a run has eliminated them. -/
theorem Reached.linearIndepOn_col (ht : 0 < tolerance) (h : Reached tolerance A k s) :
    LinearIndepOn ℚ A.entries.col {j : Fin n | j.val < k} := by
  obtain ⟨B, hunit, hA⟩ := h.exists_mul_remainder ht
  rw [col_eq_mulVecLin_comp hA]
  exact ((h.cleared_remainder ht).linearIndepOn h.le).map_injOn _
    (Matrix.mulVec_injective_of_isUnit hunit).injOn

/-- A `column` of `A` in which the scan finds nothing depends on the columns before it. -/
theorem Reached.col_mem_span {column : Fin n} (ht : 0 < tolerance)
    (h : Reached tolerance A column s) (hscan : (scan s.matrix column).magnitude ≤ 0) :
    A.entries.col column ∈ Submodule.span ℚ (A.entries.col '' Set.Iio column) := by
  obtain ⟨B, -, hA⟩ := h.exists_mul_remainder ht
  -- nothing is left of the column from the diagonal downwards
  have hends : ∀ i : Fin n, column.val ≤ i.val →
      (s.matrix.remainder column).entries.col column i = 0 := by
    intro i hi
    have hentry : s.matrix.entry i column = 0 :=
      abs_nonpos_iff.1 ((abs_entry_le_scan s.matrix hi).trans hscan)
    simp [Matrix.col, hentry]
  rw [col_eq_mulVecLin_comp hA, Set.image_comp, ← Submodule.map_span]
  exact Submodule.mem_map_of_mem ((h.cleared_remainder ht).mem_span h.le hends)

/-- A matrix `A` all of whose columns have been eliminated is nonsingular. -/
theorem Reached.det_ne_zero (ht : 0 < tolerance) (h : Reached tolerance A n s) :
    A.entries.det ≠ 0 := by
  have hall : {j : Fin n | j.val < n} = Set.univ := Set.eq_univ_of_forall Fin.isLt
  have hindependent := h.linearIndepOn_col ht
  rw [hall, linearIndepOn_univ_iff, Matrix.linearIndependent_cols_iff_isUnit,
    Matrix.isUnit_iff_isUnit_det] at hindependent
  exact hindependent.ne_zero

/-! ## Small tolerances -/

/-- A nonsingular `A` gets through `k` columns under all small tolerances `t`, and reaches the same
state `s` under each of them. -/
theorem exists_reached_of_det_ne_zero (hdet : A.entries.det ≠ 0) (hk : k ≤ n) :
    ∃ t₀ : ℚ, 0 < t₀ ∧ ∃ s, ∀ t : ℚ, 0 < t → t ≤ t₀ → Reached t A k s := by
  induction k with
  | zero => exact ⟨1, one_pos, State.initial A, fun _ _ _ => Reached.initial⟩
  | succ k ih =>
    obtain ⟨t₁, ht₁, s, hs⟩ := ih (Nat.le_of_succ_le hk)
    let column : Fin n := ⟨k, hk⟩
    have hpivot : 0 < (scan s.matrix column).magnitude := by
      by_contra hscan
      -- otherwise the next column would depend on those before it
      have hbefore : Reached t₁ A column s := hs t₁ ht₁ le_rfl
      have hmem := hbefore.col_mem_span ht₁ (not_lt.1 hscan)
      have hindependent := Matrix.linearIndependent_cols_of_det_ne_zero hdet
      exact hindependent.notMem_span_image (lt_irrefl column) hmem
    -- below both bounds a run comes this far, and accepts the next pivot
    refine ⟨min t₁ (scan s.matrix column).magnitude, lt_min ht₁ hpivot,
      s.eliminate column (scan s.matrix column), fun t ht hle => ?_⟩
    have hbefore : Reached t A column s := hs t ht (hle.trans (min_le_left _ _))
    exact hbefore.eliminate ((below_eq_false_iff _ _).2 (hle.trans (min_le_right _ _)))

end Elimination

/-! ## Success and failure -/

open Elimination

/-- **Exact breakdowns.** Let `A` be a matrix of rationals. Under a positive `tolerance`:

- if the run returns some `p`, the determinant of `A` is not zero, and if this is zero, the run
  fails;
- if the run fails with `b`, the columns before `b.column` are independent, and if `b.pivot` is
  zero, column `b.column` is a combination of them.

If the determinant of `A` is not zero, the run succeeds under all tolerances up to some `t₀`. -/
theorem breakdown_exact (A : DenseMatrix n ℚ) :
    (∀ tolerance : ℚ, 0 < tolerance →
      (∀ p, (decompose tolerance A).outcome = .ok p → A.entries.det ≠ 0) ∧
      (A.entries.det = 0 → ∃ b, (decompose tolerance A).outcome = .error b) ∧
      ∀ b, (decompose tolerance A).outcome = .error b →
        LinearIndepOn ℚ A.entries.col (Set.Iio b.column) ∧
        (b.pivot = 0 →
          A.entries.col b.column ∈ Submodule.span ℚ (A.entries.col '' Set.Iio b.column))) ∧
    (A.entries.det ≠ 0 → ∃ t₀ : ℚ, 0 < t₀ ∧ ∀ tolerance : ℚ, 0 < tolerance → tolerance ≤ t₀ →
      ∃ p, (decompose tolerance A).outcome = .ok p) := by
  refine ⟨fun tolerance ht => ?_, fun hdet => ?_⟩
  · have hok : ∀ p, (decompose tolerance A).outcome = .ok p → A.entries.det ≠ 0 := by
      intro p hp
      obtain ⟨s, hs, -, -⟩ := exists_reached_of_ok hp
      exact hs.det_ne_zero ht
    refine ⟨hok, fun hdet => ?_, fun b hb => ?_⟩
    · rcases outcome_eq_ok_or_error tolerance A with ⟨p, hp⟩ | hfailed
      · exact absurd hdet (hok p hp)
      · exact hfailed
    · obtain ⟨s, hs, hpivot, -⟩ := exists_reached_of_error hb
      refine ⟨hs.linearIndepOn_col ht, fun hzero => ?_⟩
      exact hs.col_mem_span ht (hpivot ▸ hzero).le
  · obtain ⟨t₀, ht₀, s, hs⟩ := exists_reached_of_det_ne_zero hdet le_rfl
    exact ⟨t₀, ht₀, fun t ht hle => ⟨s.order, (hs t ht hle).outcome_eq_ok⟩⟩

/-- A matrix whose second column is twice the first. -/
def dependentMatrix : DenseMatrix 3 ℚ :=
  ⟨#v[#v[1, 2, 3], #v[2, 4, 1], #v[3, 6, 2]]⟩

/-- The run on `cyclicMatrix` gets through under small tolerances; the second column of
`dependentMatrix` is a multiple of the first. -/
theorem breakdown_exact_dependentMatrix :
    (cyclicMatrix.entries.det ≠ 0 ∧
      ∃ t₀ : ℚ, 0 < t₀ ∧ ∀ tolerance : ℚ, 0 < tolerance → tolerance ≤ t₀ →
        ∃ p, (decompose tolerance cyclicMatrix).outcome = .ok p) ∧
    (∃ b, (decompose (1 / 10) dependentMatrix).outcome = .error b) ∧
      LinearIndepOn ℚ dependentMatrix.entries.col (Set.Iio 1) ∧
      dependentMatrix.entries.col 1 ∈
        Submodule.span ℚ (dependentMatrix.entries.col '' Set.Iio 1) := by
  obtain ⟨hcyclic, hsmall⟩ := breakdown_exact cyclicMatrix
  obtain ⟨-, hsingular, hfailed⟩ := (breakdown_exact dependentMatrix).1 (1 / 10) (by norm_num)
  have hdet : cyclicMatrix.entries.det ≠ 0 :=
    (hcyclic (1 / 10) (by norm_num)).1 cyclicFactors.order (by decide +kernel)
  have hzero : dependentMatrix.entries.det = 0 := by
    rw [← cofactorDeterminant_eq_det]
    decide +kernel
  obtain ⟨hindependent, hspan⟩ := hfailed ⟨1, 0, 1 / 10⟩ (by decide +kernel)
  exact ⟨⟨hdet, hsmall hdet⟩, hsingular hzero, hindependent, hspan rfl⟩

end PivotedLU
