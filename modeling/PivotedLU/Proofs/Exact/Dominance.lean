import Mathlib.Algebra.BigOperators.Field
import Mathlib.Algebra.Order.BigOperators.Group.Finset
import Mathlib.Tactic.Linarith
import PivotedLU.Proofs.Exact.Factorization

/-!
# Dominant Columns

If the diagonal entry of every column outweighs all other entries of the column together, the
largest candidate of a column is the one on the diagonal, so there is nothing to exchange. Clearing
a column keeps this: what the step adds to the entries of another column adds up to no more than the
entry of that column in the pivot row, which does not count any more.

## Main definitions

* `DenseMatrix.dominance`: how far a diagonal entry outweighs the rest of its column.
* `Dominant`: how dominant the columns have to be at a moment of a run.

## Main results

* `dominance_le_clearBelow`: a step makes no column less dominant.
* `scan_of_dominant`: the pivot of a dominant column.
* `exists_reached_dominant`: the run on a matrix with dominant columns.
* `decompose_of_dominant`: its outcome.
-/

namespace PivotedLU

variable {n k : Nat}

/-- The rows from row `k` downwards. -/
def rowsFrom (n k : Nat) : Finset (Fin n) :=
  Finset.univ.filter fun i => k ≤ i.val

@[simp]
theorem mem_rowsFrom {i : Fin n} : i ∈ rowsFrom n k ↔ k ≤ i.val := by
  simp [rowsFrom]

theorem rowsFrom_zero : rowsFrom n 0 = Finset.univ := by
  simp [rowsFrom]

theorem notMem_rowsFrom_succ (column : Fin n) : column ∉ rowsFrom n (column + 1) := by
  simp

theorem insert_rowsFrom_succ (column : Fin n) :
    insert column (rowsFrom n (column + 1)) = rowsFrom n column := by
  ext i
  rw [Finset.mem_insert, mem_rowsFrom, mem_rowsFrom, Fin.ext_iff]
  omega

namespace DenseMatrix

/-- How far the diagonal entry of column `j` outweighs its other entries in `rows` together. -/
def dominance (A : DenseMatrix n ℚ) (rows : Finset (Fin n)) (j : Fin n) : ℚ :=
  |A.entry j j| - ∑ i ∈ rows.erase j, |A.entry i j|

theorem dominance_le_abs (A : DenseMatrix n ℚ) (rows : Finset (Fin n)) (j : Fin n) :
    A.dominance rows j ≤ |A.entry j j| :=
  sub_le_self _ (Finset.sum_nonneg fun _ _ => abs_nonneg _)

end DenseMatrix

namespace Elimination

/-! ## One step -/

section Step

variable {F : DenseMatrix n ℚ} {column : Fin n}

/-- In `column` the rows that the diagonal entry outweighs are those below. -/
theorem dominance_rowsFrom_self (F : DenseMatrix n ℚ) (column : Fin n) :
    F.dominance (rowsFrom n column) column =
      |F.entry column column| - ∑ i ∈ rowsFrom n (column + 1), |F.entry i column| := by
  rw [DenseMatrix.dominance, ← insert_rowsFrom_succ,
    Finset.erase_insert (notMem_rowsFrom_succ column)]

/-- If `column` is dominant from the diagonal on, no candidate is above the diagonal entry. -/
theorem abs_entry_le_diagonal (h : 0 ≤ F.dominance (rowsFrom n column) column) {i : Fin n}
    (hi : column ≤ i) : |F.entry i column| ≤ |F.entry column column| := by
  rw [dominance_rowsFrom_self, sub_nonneg] at h
  rcases eq_or_lt_of_le hi with rfl | hlt
  · exact le_rfl
  · have hmem : i ∈ rowsFrom n (column + 1) := mem_rowsFrom.2 hlt
    exact (Finset.single_le_sum (f := fun i => |F.entry i column|) (fun _ _ => abs_nonneg _)
      hmem).trans h

/-- The multipliers of a dominant `column` are at most one together. -/
theorem sum_abs_multiplier_le_one (h : 0 ≤ F.dominance (rowsFrom n column) column) :
    ∑ i ∈ rowsFrom n (column + 1), |(clearBelow F column).entry i column| ≤ 1 := by
  rw [dominance_rowsFrom_self, sub_nonneg] at h
  have hmultiplier : ∀ i ∈ rowsFrom n (column + 1),
      |(clearBelow F column).entry i column| =
        |F.entry i column| / |F.entry column column| := by
    intro i hi
    rw [entry_clearBelow_pivot F (mem_rowsFrom.1 hi), abs_div]
  rw [Finset.sum_congr rfl hmultiplier, ← Finset.sum_div]
  exact div_le_one_of_le₀ h (abs_nonneg _)

/-- Clearing a dominant `column` makes no later column `j` less dominant. -/
theorem dominance_le_clearBelow (h : 0 ≤ F.dominance (rowsFrom n column) column) {j : Fin n}
    (hj : column < j) :
    F.dominance (rowsFrom n column) j ≤
      (clearBelow F column).dominance (rowsFrom n (column + 1)) j := by
  let below := rowsFrom n (column + 1)
  let m (i : Fin n) : ℚ := (clearBelow F column).entry i column
  let u : ℚ := F.entry column j
  have hentry : ∀ i ∈ below, (clearBelow F column).entry i j = F.entry i j - m i * u :=
    fun i hi => entry_clearBelow_right F (mem_rowsFrom.1 hi) hj
  have hmem : j ∈ below := mem_rowsFrom.2 hj
  -- the entry of the pivot row leaves the sum
  have hbefore : F.dominance (rowsFrom n column) j =
      |F.entry j j| - (|u| + ∑ i ∈ below.erase j, |F.entry i j|) := by
    have hnotMem : column ∉ below.erase j := fun hc =>
      notMem_rowsFrom_succ column (Finset.mem_of_mem_erase hc)
    rw [DenseMatrix.dominance, ← insert_rowsFrom_succ, Finset.erase_insert_of_ne hj.ne,
      Finset.sum_insert hnotMem]
  -- the multipliers make up for it
  have hsum : (|m j| + ∑ i ∈ below.erase j, |m i|) * |u| ≤ 1 * |u| := by
    rw [Finset.add_sum_erase below (fun i => |m i|) hmem]
    exact mul_le_mul_of_nonneg_right (sum_abs_multiplier_le_one h) (abs_nonneg u)
  have hdiagonal : |F.entry j j| - |m j| * |u| ≤ |(clearBelow F column).entry j j| := by
    rw [hentry j hmem, ← abs_mul]
    exact abs_sub_abs_le_abs_sub _ _
  have hothers : ∑ i ∈ below.erase j, |(clearBelow F column).entry i j| ≤
      ∑ i ∈ below.erase j, |F.entry i j| + (∑ i ∈ below.erase j, |m i|) * |u| := by
    rw [Finset.sum_mul, ← Finset.sum_add_distrib]
    refine Finset.sum_le_sum fun i hi => ?_
    rw [hentry i (Finset.mem_of_mem_erase hi), ← abs_mul]
    exact abs_sub _ _
  calc F.dominance (rowsFrom n column) j
      = |F.entry j j| - (1 * |u| + ∑ i ∈ below.erase j, |F.entry i j|) := by
        rw [hbefore, one_mul]
    _ ≤ |F.entry j j| - ((|m j| + ∑ i ∈ below.erase j, |m i|) * |u| +
          ∑ i ∈ below.erase j, |F.entry i j|) := by gcongr
    _ = (|F.entry j j| - |m j| * |u|) -
          (∑ i ∈ below.erase j, |F.entry i j| + (∑ i ∈ below.erase j, |m i|) * |u|) := by ring
    _ ≤ (clearBelow F column).dominance below j := sub_le_sub hdiagonal hothers

/-- The pivot of a dominant `column` stands on the diagonal. -/
theorem scan_of_dominant (h : 0 < F.dominance (rowsFrom n column) column) :
    scan F column = ⟨column, |F.entry column column|⟩ := by
  have habove : 0 < |F.entry column column| := h.trans_le (F.dominance_le_abs _ column)
  refine scan_eq_diagonal (Or.inr ⟨(magnitude_eq_abs _).symm, ?_⟩) fun i hi => ?_
  · rwa [below_eq_true_iff]
  · rw [below_eq_false_iff, magnitude_eq_abs]
    exact abs_entry_le_diagonal h.le hi

end Step

/-! ## Runs -/

/-- With `k` columns eliminated, no column has become less dominant: in a finished column the
diagonal entry is at least what the column of `A` had, and in the others the rows that are not
finished are outweighed by at least as much. -/
structure Dominant (A : DenseMatrix n ℚ) (k : Nat) (F : DenseMatrix n ℚ) : Prop where
  finished : ∀ j : Fin n, j.val < k → A.dominance Finset.univ j ≤ |F.entry j j|
  remaining : ∀ j : Fin n, k ≤ j.val → A.dominance Finset.univ j ≤ F.dominance (rowsFrom n k) j

/-- Before the first step all columns are as dominant as they are. -/
theorem Dominant.zero (A : DenseMatrix n ℚ) : Dominant A 0 A where
  finished j hj := absurd hj (Nat.not_lt_zero _)
  remaining j _ := by rw [rowsFrom_zero]

/-- A step in a `column` that is dominant in `A` keeps all columns `Dominant`. -/
theorem Dominant.clearBelow {A F : DenseMatrix n ℚ} {column : Fin n} (h : Dominant A column F)
    (hcolumn : 0 ≤ A.dominance Finset.univ column) :
    Dominant A (column + 1) (clearBelow F column) where
  finished j hj := by
    have hle : j ≤ column := Nat.le_of_lt_succ hj
    rw [entry_clearBelow_of_le F hle]
    rcases eq_or_lt_of_le hle with rfl | hlt
    · exact (h.remaining j le_rfl).trans (F.dominance_le_abs _ j)
    · exact h.finished j hlt
  remaining j hj := by
    have hpivot := hcolumn.trans (h.remaining column le_rfl)
    exact (h.remaining j (Nat.le_of_succ_le hj)).trans (dominance_le_clearBelow hpivot hj)

variable {tolerance : ℚ} {A : DenseMatrix n ℚ}

/-- If all columns of `A` are dominant by `tolerance`, the run goes through all columns and never
exchanges rows. -/
theorem exists_reached_dominant (ht : 0 < tolerance)
    (hA : ∀ j, tolerance ≤ A.dominance Finset.univ j) (hk : k ≤ n) :
    ∃ s, Reached tolerance A k s ∧ s.order = RowOrder.identity n ∧ Dominant A k s.matrix := by
  refine exists_reached_of_step (P := fun k s =>
    s.order = RowOrder.identity n ∧ Dominant A k s.matrix) ⟨rfl, Dominant.zero A⟩ ?_ hk
  rintro s column ⟨horder, hdominant⟩
  have hgap : tolerance ≤ s.matrix.dominance (rowsFrom n column) column :=
    (hA column).trans (hdominant.remaining column le_rfl)
  have hscan := scan_of_dominant (ht.trans_le hgap)
  refine ⟨?_, ?_, ?_⟩
  · rw [hscan, below_eq_false_iff]
    exact hgap.trans (s.matrix.dominance_le_abs _ column)
  · rw [hscan, State.order_eliminate_diagonal, horder]
  · rw [hscan, State.matrix_eliminate_diagonal]
    exact Dominant.clearBelow hdominant (ht.le.trans (hA column))

end Elimination

open Elimination

/-- **Dominant columns.** Let the diagonal entry of every column `j` of `A`, over the rationals,
outweigh the other entries of the column together by at least a positive `tolerance`. The run under
`tolerance` succeeds with `RowOrder.identity n`, and the diagonal entries that it leaves are as
large as what the columns are dominant by. -/
theorem decompose_of_dominant {tolerance : ℚ} (ht : 0 < tolerance) {A : DenseMatrix n ℚ}
    (hA : ∀ j, tolerance ≤ |A.entry j j| - ∑ i ∈ Finset.univ.erase j, |A.entry i j|) :
    (decompose tolerance A).outcome = .ok (RowOrder.identity n) ∧
      ∀ j, |A.entry j j| - ∑ i ∈ Finset.univ.erase j, |A.entry i j| ≤
        |(decompose tolerance A).matrix.entry j j| := by
  obtain ⟨s, hs, horder, hdominant⟩ := exists_reached_dominant ht hA le_rfl
  refine ⟨?_, fun j => ?_⟩
  · rw [hs.outcome_eq_ok, horder]
  · rw [hs.matrix_eq]
    exact hdominant.finished j j.isLt

/-- Every column of `A` is dominant by just the tolerance, and no row is dominant. -/
theorem decompose_of_dominant_one :
    let A : DenseMatrix 3 ℚ := ⟨#v[#v[3, 5, 4], #v[-1, 9, 8], #v[1, -3, -13]]⟩
    (∀ j, 1 ≤ |A.entry j j| - ∑ i ∈ Finset.univ.erase j, |A.entry i j|) ∧
      (decompose 1 A).outcome = .ok (RowOrder.identity 3) ∧
      ∀ j, |A.entry j j| - ∑ i ∈ Finset.univ.erase j, |A.entry i j| ≤
        |(decompose 1 A).matrix.entry j j| := by
  intro A
  have hA : ∀ j, 1 ≤ |A.entry j j| - ∑ i ∈ Finset.univ.erase j, |A.entry i j| := by
    decide +kernel
  exact ⟨hA, decompose_of_dominant one_pos hA⟩

end PivotedLU
