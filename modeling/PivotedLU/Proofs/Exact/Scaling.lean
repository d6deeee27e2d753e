import PivotedLU.Proofs.Exact.Determinant

/-!
# Multiples of a Matrix

A run on a multiple of a matrix can be followed beside the run on the matrix, if the tolerance is
multiplied by the magnitude of the factor. Magnitudes keep their order, ties included, so the runs
choose the same pivots. A multiplier is a quotient of two entries of a column and does not notice
the factor. What is taken from an entry is a multiplier times an entry of the pivot row, so finished
rows and the rows that are left stay multiples.

## Main definitions

* `DenseMatrix.scale`: a multiple of a matrix.
* `DenseMatrix.scaleRemainder`: the same, apart from the multipliers that have been stored.

## Main results

* `swapRows_scaleRemainder`, `clearBelow_scaleRemainder`, `scan_scaleRemainder`: one step.
* `Reached.exists_scaled`: the runs side by side.
* `decompose_scale`: what the run on a multiple returns and leaves.
-/

namespace PivotedLU

variable {n k : Nat} {c : ℚ}

namespace DenseMatrix

/-- The matrix `A` times `c`. -/
def scale (c : ℚ) (A : DenseMatrix n ℚ) : DenseMatrix n ℚ :=
  ofFn fun i j => c * A.entry i j

/-- The matrix times a number, apart from the multipliers of the first `k` columns. -/
def scaleRemainder (c : ℚ) (k : Nat) (A : DenseMatrix n ℚ) : DenseMatrix n ℚ :=
  ofFn fun i j => if j < i ∧ j.val < k then A.entry i j else c * A.entry i j

/-- The entries of `A.scaleRemainder c k`: multipliers of the first `k` columns are kept, and all
other entries are multiplied by `c`. -/
@[simp]
theorem entry_scaleRemainder (A : DenseMatrix n ℚ) (i j : Fin n) :
    (A.scaleRemainder c k).entry i j =
      if j < i ∧ j.val < k then A.entry i j else c * A.entry i j :=
  entry_ofFn _ i j

/-- As long as there are no multipliers, all entries of `A` are multiplied by `c`. -/
theorem scaleRemainder_zero (A : DenseMatrix n ℚ) : A.scaleRemainder c 0 = A.scale c := by
  ext i j
  rw [entry_scaleRemainder, if_neg fun h => Nat.not_lt_zero _ h.2, scale, entry_ofFn]

end DenseMatrix

namespace Elimination

variable {M : DenseMatrix n ℚ} {column : Fin n}

/-! ## One step -/

/-- The exchange of `column` and `other` takes the multipliers of the first columns with their
rows. -/
theorem swapRows_scaleRemainder (M : DenseMatrix n ℚ) {column other : Fin n} (h : column ≤ other) :
    (M.scaleRemainder c column).swapRows column other =
      (M.swapRows column other).scaleRemainder c column := by
  ext i j
  have hbelow : j < exchanged column other i ∧ j.val < column ↔ j < i ∧ j.val < column :=
    and_congr_left fun hj => lt_exchanged_iff h hj
  rw [DenseMatrix.entry_swapRows, DenseMatrix.entry_scaleRemainder,
    DenseMatrix.entry_scaleRemainder, DenseMatrix.entry_swapRows]
  simp only [hbelow]

/-- Clearing `column` of the multiple leaves a multiple, apart from one more column of
multipliers. -/
theorem clearBelow_scaleRemainder (hc : c ≠ 0) (M : DenseMatrix n ℚ) (column : Fin n) :
    clearBelow (M.scaleRemainder c column) column =
      (clearBelow M column).scaleRemainder c (column + 1) := by
  ext i j
  rcases le_or_gt i column with hi | hi
  · -- the finished rows down to the pivot row hold no multiplier of this column
    have hfinished : j < i ∧ j.val < column + 1 ↔ j < i ∧ j.val < column :=
      and_congr_right fun hj => by omega
    rw [entry_clearBelow_of_le _ hi, DenseMatrix.entry_scaleRemainder,
      DenseMatrix.entry_scaleRemainder, entry_clearBelow_of_le _ hi]
    simp only [hfinished]
  · have hmultiplier : (clearBelow (M.scaleRemainder c column) column).entry i column =
        (clearBelow M column).entry i column := by
      rw [entry_clearBelow_pivot _ hi, entry_clearBelow_pivot _ hi,
        DenseMatrix.entry_scaleRemainder, DenseMatrix.entry_scaleRemainder,
        if_neg fun h => lt_irrefl _ h.2, if_neg fun h => lt_irrefl _ h.2,
        mul_div_mul_left _ _ hc]
    rcases lt_trichotomy j column with hj | rfl | hj
    · rw [entry_clearBelow_of_lt _ hj, DenseMatrix.entry_scaleRemainder,
        DenseMatrix.entry_scaleRemainder, entry_clearBelow_of_lt _ hj, if_pos ⟨hj.trans hi, hj⟩,
        if_pos ⟨hj.trans hi, Nat.lt_succ_of_lt hj⟩]
    · rw [hmultiplier, DenseMatrix.entry_scaleRemainder, if_pos ⟨hi, Nat.lt_succ_self _⟩]
    · have hright : ¬j.val < column := by omega
      have hright' : ¬j.val < column + 1 := by omega
      rw [entry_clearBelow_right _ hi hj, hmultiplier, DenseMatrix.entry_scaleRemainder,
        DenseMatrix.entry_scaleRemainder, DenseMatrix.entry_scaleRemainder,
        if_neg fun h => hright h.2, if_neg fun h => hright h.2, if_neg fun h => hright' h.2,
        entry_clearBelow_right _ hi hj, mul_sub, mul_left_comm]

/-- A positive factor `c` keeps the order. -/
theorem below_mul_left (hc : 0 < c) (x y : ℚ) :
    Scalar.below (c * x) (c * y) = Scalar.below x y := by
  rw [Bool.eq_iff_iff, below_eq_true_iff, below_eq_true_iff]
  exact mul_lt_mul_iff_right₀ hc

/-- The scan of the multiple finds the same row, with `|c|` times the magnitude. -/
theorem scan_scaleRemainder (hc : c ≠ 0) (M : DenseMatrix n ℚ) (column : Fin n) :
    scan (M.scaleRemainder c column) column =
      ⟨(scan M column).row, |c| * (scan M column).magnitude⟩ := by
  refine scan_map_magnitude (|c| * ·) (mul_zero _) (below_mul_left (abs_pos.2 hc)) fun i _ => ?_
  rw [DenseMatrix.entry_scaleRemainder, if_neg fun h => lt_irrefl _ h.2, magnitude_eq_abs,
    magnitude_eq_abs, abs_mul]

/-! ## Runs side by side -/

variable {tolerance : ℚ} {A : DenseMatrix n ℚ} {s : State n ℚ}

/-- The run on `A.scale c` under `|c| * tolerance` follows the run on `A`. -/
theorem Reached.exists_scaled (hc : c ≠ 0) (h : Reached tolerance A k s) :
    ∃ s', Reached (|c| * tolerance) (A.scale c) k s' ∧
      s'.matrix = s.matrix.scaleRemainder c k ∧ s'.order = s.order := by
  induction h with
  | initial => exact ⟨_, Reached.initial, A.scaleRemainder_zero.symm, rfl⟩
  | @eliminate s column before accepted ih =>
    obtain ⟨s', hs', hmatrix, horder⟩ := ih
    have hscan := scan_scaleRemainder hc s.matrix column
    rw [← hmatrix] at hscan
    have haccepted : Scalar.below (scan s'.matrix column).magnitude (|c| * tolerance) = false := by
      rw [hscan]
      exact (below_mul_left (abs_pos.2 hc) _ _).trans accepted
    refine ⟨_, hs'.eliminate haccepted, ?_, ?_⟩
    · rw [hscan, State.matrix_eliminate, State.matrix_eliminate, hmatrix,
        swapRows_scaleRemainder _ (column_le_row_scan s.matrix column),
        clearBelow_scaleRemainder hc]
    · rw [hscan, State.order_eliminate, State.order_eliminate, horder]

end Elimination

/-- Without a multiplier on the diagonal, the determinant takes the factor `c` once for each
column. -/
theorem determinant_scaleRemainder (lu : DenseMatrix n ℚ) (p : RowOrder n) :
    determinant (lu.scaleRemainder c k) p = c ^ n * determinant lu p := by
  have hdiagonal : ∀ i, (lu.scaleRemainder c k).entry i i = c * lu.entry i i := by
    intro i
    rw [DenseMatrix.entry_scaleRemainder, if_neg fun h => lt_irrefl i h.1]
  rw [determinant_eq_sign_mul_prod, determinant_eq_sign_mul_prod,
    Finset.prod_congr rfl fun i _ => hdiagonal i, Finset.prod_mul_distrib, Finset.prod_const,
    Finset.card_univ, Fintype.card_fin, mul_left_comm]

open Elimination

/-- **Multiples of a matrix.** Over the rationals, let `r` be the run on `A` under `tolerance`, and
`r'` the run on `A.scale c` under `|c| * tolerance`, with `c ≠ 0`.

- One run succeeds exactly if the other does.
- If `r` returns `p`, so does `r'`, with the same multipliers; the other entries are multiplied by
  `c`, and the determinant by `c ^ n`.
- If `r` fails with `b`, so does `r'` in the same column, with `|c|` times the pivot and the
  tolerance. -/
theorem decompose_scale (A : DenseMatrix n ℚ) (tolerance : ℚ) (hc : c ≠ 0) :
    let r := decompose tolerance A
    let r' := decompose (|c| * tolerance) (A.scale c)
    ((∃ p, r'.outcome = .ok p) ↔ ∃ p, r.outcome = .ok p) ∧
      (∀ p, r.outcome = .ok p → r'.outcome = .ok p ∧
        (∀ i j, r'.matrix.entry i j =
          if j < i then r.matrix.entry i j else c * r.matrix.entry i j) ∧
        determinant r'.matrix p = c ^ n * determinant r.matrix p) ∧
      ∀ b, r.outcome = .error b →
        r'.outcome = .error ⟨b.column, |c| * b.pivot, |c| * tolerance⟩ := by
  intro r r'
  have hok : ∀ p, r.outcome = .ok p →
      r'.outcome = .ok p ∧ r'.matrix = r.matrix.scaleRemainder c n := by
    intro p hp
    obtain ⟨s, hs, rfl, -⟩ := exists_reached_of_ok hp
    obtain ⟨s', hs', hmatrix, horder⟩ := hs.exists_scaled hc
    refine ⟨?_, ?_⟩
    · rw [show r'.outcome = _ from hs'.outcome_eq_ok, horder]
    · rw [show r'.matrix = _ from hs'.matrix_eq, show r.matrix = _ from hs.matrix_eq, hmatrix]
  have herror : ∀ b, r.outcome = .error b →
      r'.outcome = .error ⟨b.column, |c| * b.pivot, |c| * tolerance⟩ := by
    intro b hb
    obtain ⟨s, hs, hpivot, hlow⟩ := exists_reached_of_error hb
    obtain ⟨s', hs', hmatrix, -⟩ := hs.exists_scaled hc
    have hscan := scan_scaleRemainder hc s.matrix b.column
    rw [← hmatrix] at hscan
    have hlow' : Scalar.below (scan s'.matrix b.column).magnitude (|c| * tolerance) = true := by
      rw [hscan, ← hpivot]
      exact (below_mul_left (abs_pos.2 hc) _ _).trans hlow
    rw [show r'.outcome = _ from hs'.outcome_eq_error hlow', hscan, ← hpivot]
  refine ⟨⟨?_, ?_⟩, fun p hp => ?_, herror⟩
  · -- a run that failed would have been followed to its failure
    rintro ⟨p, hp⟩
    rcases outcome_eq_ok_or_error tolerance A with hsuccess | ⟨b, hb⟩
    · exact hsuccess
    · cases hp.symm.trans (herror b hb)
  · rintro ⟨p, hp⟩
    exact ⟨p, (hok p hp).1⟩
  · obtain ⟨houtcome, hmatrix⟩ := hok p hp
    refine ⟨houtcome, fun i j => ?_, ?_⟩
    · rw [hmatrix, DenseMatrix.entry_scaleRemainder]
      simp only [Fin.is_lt, and_true]
    · rw [hmatrix, determinant_scaleRemainder]

/-- A negative factor: a run with two exchanges, and a run that meets a tie in `A` and then breaks
down. -/
theorem decompose_scale_negative :
    let r := decompose (|-2| * (1 / 10)) (cyclicMatrix.scale (-2))
    let A : DenseMatrix 2 ℚ := ⟨#v[#v[2, 1], #v[-2, -1]]⟩
    (-2 : ℚ) ≠ 0 ∧
      r.outcome = .ok cyclicFactors.order ∧
      (∀ i j, r.matrix.entry i j =
        if j < i then cyclicFactors.lu.entry i j else -2 * cyclicFactors.lu.entry i j) ∧
      determinant r.matrix cyclicFactors.order =
        (-2) ^ 3 * determinant cyclicFactors.lu cyclicFactors.order ∧
      (decompose (|-2| * (1 / 10)) (A.scale (-2))).outcome =
        .error ⟨1, |-2| * 0, |-2| * (1 / 10)⟩ := by
  intro r A
  have hfactor : (-2 : ℚ) ≠ 0 := by norm_num
  have hfactored : (decompose (1 / 10) cyclicMatrix).outcome = .ok cyclicFactors.order := by
    decide +kernel
  have hmatrix : (decompose (1 / 10) cyclicMatrix).matrix = cyclicFactors.lu := by
    decide +kernel
  have hfailed : (decompose (1 / 10) A).outcome = .error ⟨1, 0, 1 / 10⟩ := by
    decide +kernel
  obtain ⟨-, hsuccess, -⟩ := decompose_scale cyclicMatrix (1 / 10) hfactor
  obtain ⟨houtcome, hentry, hdeterminant⟩ := hsuccess _ hfactored
  rw [hmatrix] at hentry hdeterminant
  obtain ⟨-, -, hfailure⟩ := decompose_scale A (1 / 10) hfactor
  exact ⟨hfactor, houtcome, hentry, hdeterminant, hfailure _ hfailed⟩

end PivotedLU
