import Mathlib.Data.List.Forall2
import PivotedLU.Proofs.Elimination.Records

/-!
# Leading Columns

An elimination writes in all columns to the right of the one that it clears, and exchanges whole
rows. Still nothing flows from the right to the left: the pivot of a column is found in that column,
and an entry is changed by entries of its own column and of the one that is cleared. Two runs on
matrices that agree in the first columns therefore cannot be told apart as long as they work in
these columns.

## Main definitions

* `DenseMatrix.AgreeBefore`: matrices with the same entries in the first columns.
* `PivotRecord.AgreeBefore`, `State.AgreeBefore`: the same for records and for states.

## Main results

* `State.AgreeBefore.eliminate`: a step of both runs.
* `Reached.exists_agreeBefore`: the runs side by side.
* `decompose_agreeBefore`: what the runs have in common in the end.
-/

namespace PivotedLU

universe u

variable {α : Type u} {n k : Nat}

namespace DenseMatrix

/-- The matrices have the same entries in the first `k` columns. -/
def AgreeBefore (k : Nat) (A B : DenseMatrix n α) : Prop :=
  ∀ i j : Fin n, j.val < k → A.entry i j = B.entry i j

instance [DecidableEq α] (A B : DenseMatrix n α) : Decidable (AgreeBefore k A B) :=
  inferInstanceAs (Decidable (∀ i j : Fin n, j.val < k → A.entry i j = B.entry i j))

namespace AgreeBefore

variable {A B : DenseMatrix n α}

theorem symm (h : AgreeBefore k A B) : AgreeBefore k B A :=
  fun i j hj => (h i j hj).symm

/-- An exchange of rows `i` and `j` moves no entry to another column. -/
theorem swapRows (h : AgreeBefore k A B) (i j : Fin n) :
    AgreeBefore k (A.swapRows i j) (B.swapRows i j) := by
  intro l m hm
  rw [entry_swapRows, entry_swapRows, h _ m hm]

variable [Scalar α] {column : Fin n}

/-- Clearing `column` among the first `k` reads that column and the one in which it writes. -/
theorem clearBelow (h : AgreeBefore k A B) (hcolumn : column.val < k) :
    AgreeBefore k (Elimination.clearBelow A column) (Elimination.clearBelow B column) := by
  intro i j hj
  simp only [Elimination.entry_clearBelow, h i j hj, h column j hj, h i column hcolumn,
    h column column hcolumn]

/-- The scans of `column` among the first `k` find the same. -/
theorem scan_eq (h : AgreeBefore k A B) (hcolumn : column.val < k) :
    Elimination.scan A column = Elimination.scan B column :=
  Elimination.scan_congr fun i _ => h i column hcolumn

end AgreeBefore

end DenseMatrix

namespace Elimination

/-- The records report the same pivot of the same column, and their snapshots agree in the first
`k` columns. -/
structure PivotRecord.AgreeBefore (k : Nat) (r r' : PivotRecord n α) : Prop where
  column : r.column = r'.column
  pivotRow : r.pivotRow = r'.pivotRow
  pivot : r.pivot = r'.pivot
  snapshot : r.snapshot.AgreeBefore k r'.snapshot

/-- The matrices agree in the first `k` columns, and so do the records, one by one. -/
structure State.AgreeBefore (k : Nat) (s s' : State n α) : Prop where
  matrix : s.matrix.AgreeBefore k s'.matrix
  records : List.Forall₂ (PivotRecord.AgreeBefore k) s.records s'.records

variable [Scalar α] {tolerance : α} {A B : DenseMatrix n α} {m : Nat} {s s' : State n α}

/-- A step in `column` among the first `k` keeps the agreement: both runs choose the same pivot. -/
theorem State.AgreeBefore.eliminate (h : s.AgreeBefore k s') {column : Fin n}
    (hcolumn : column.val < k) :
    (s.eliminate column (scan s.matrix column)).AgreeBefore k
      (s'.eliminate column (scan s'.matrix column)) := by
  have hsnapshot := h.matrix.swapRows column (scan s.matrix column).row
  rw [← h.matrix.scan_eq hcolumn]
  refine ⟨hsnapshot.clearBelow hcolumn, ?_⟩
  rw [State.records_eliminate, State.records_eliminate]
  refine List.rel_append h.records (List.Forall₂.cons ?_ List.Forall₂.nil)
  exact ⟨rfl, rfl, hsnapshot column column hcolumn, hsnapshot⟩

/-! ## Runs side by side -/

/-- While a run on `A` works in the first `k` columns, the run on a `B` that agrees in them follows
it. -/
theorem Reached.exists_agreeBefore (hAB : A.AgreeBefore k B) (h : Reached tolerance A m s)
    (hm : m ≤ k) : ∃ s', Reached tolerance B m s' ∧ s.AgreeBefore k s' := by
  induction h with
  | initial => exact ⟨_, Reached.initial, hAB, List.Forall₂.nil⟩
  | @eliminate s column before accepted ih =>
    obtain ⟨s', hs', hagree⟩ := ih (Nat.le_of_succ_le hm)
    have haccepted : Scalar.below (scan s'.matrix column).magnitude tolerance = false := by
      rw [← hagree.matrix.scan_eq hm]
      exact accepted
    exact ⟨_, hs'.eliminate haccepted, hagree.eliminate hm⟩

/-- In the first `k` columns the runs on `A` and on `B` come equally far. -/
theorem min_finishedColumns_eq (hAB : A.AgreeBefore k B) :
    min k (decompose tolerance A).finishedColumns =
      min k (decompose tolerance B).finishedColumns := by
  -- neither run comes further there than the other
  have hle : ∀ {A B : DenseMatrix n α}, A.AgreeBefore k B →
      min k (decompose tolerance A).finishedColumns ≤ (decompose tolerance B).finishedColumns := by
    intro A B hAB
    obtain ⟨s, hs⟩ :=
      exists_reached_of_le (Nat.min_le_right k (decompose tolerance A).finishedColumns)
    obtain ⟨s', hs', -⟩ := hs.exists_agreeBefore hAB (Nat.min_le_left _ _)
    exact hs'.le_finishedColumns
  have hforth := hle hAB
  have hback := hle hAB.symm
  omega

/-- The records of the first `k` columns are those of the state `s` in which the run has gone
through them, or of the last state. -/
theorem Reached.take_records
    (h : Reached tolerance A (min k (decompose tolerance A).finishedColumns) s) :
    (decompose tolerance A).records.take k = s.records := by
  obtain ⟨last, hlast, -, hrecords⟩ := exists_reached_left tolerance A
  rw [List.take_eq_take_min, hrecords, hlast.length_records, ← h.length_records, ← hrecords]
  exact (List.prefix_iff_eq_take.1 h.prefix_records).symm

/-- A run that fails with `b` in one of the first `k` columns is followed to the end. -/
theorem outcome_eq_error_of_agreeBefore (hAB : A.AgreeBefore k B) {b : Breakdown n α}
    (hb : b.column.val < k) (h : (decompose tolerance A).outcome = .error b) :
    (decompose tolerance B).outcome = .error b := by
  obtain ⟨s, hs, hpivot, hlow⟩ := exists_reached_of_error h
  obtain ⟨s', hs', hagree⟩ := hs.exists_agreeBefore hAB hb.le
  have hscan := hagree.matrix.scan_eq hb
  rw [hpivot] at hlow
  have hfailed := hs.outcome_eq_error hlow
  rw [hscan] at hlow hfailed
  rw [hs'.outcome_eq_error hlow, ← hfailed, h]

/-- **The columns to the right do not matter.** Let `A` and `B` agree in the first `k` columns,
entry by entry.

- The records of their runs about these columns correspond one by one by `PivotRecord.AgreeBefore`:
  they name the same column, pivot row and pivot, and show matrices that agree in the first `k`
  columns.
- One run fails with `b` in one of these columns exactly if the other does.
- If both runs succeed, the matrices that they leave have the same entries in the first `k` rows of
  the first `k` columns. -/
theorem decompose_agreeBefore (tolerance : α) (hAB : A.AgreeBefore k B) :
    List.Forall₂ (PivotRecord.AgreeBefore k) ((decompose tolerance A).records.take k)
        ((decompose tolerance B).records.take k) ∧
      (∀ b, b.column.val < k →
        ((decompose tolerance A).outcome = .error b ↔ (decompose tolerance B).outcome = .error b)) ∧
      ∀ p q, (decompose tolerance A).outcome = .ok p → (decompose tolerance B).outcome = .ok q →
        ∀ i j : Fin n, i.val < k → j.val < k →
          (decompose tolerance A).matrix.entry i j = (decompose tolerance B).matrix.entry i j := by
  obtain ⟨s, hs⟩ :=
    exists_reached_of_le (Nat.min_le_right k (decompose tolerance A).finishedColumns)
  obtain ⟨s', hs', hagree⟩ := hs.exists_agreeBefore hAB (Nat.min_le_left _ _)
  refine ⟨?_, fun b hb => ⟨outcome_eq_error_of_agreeBefore hAB hb,
    outcome_eq_error_of_agreeBefore hAB.symm hb⟩, fun p q hp hq i j hi hj => ?_⟩
  · rw [hs.take_records]
    rw [min_finishedColumns_eq hAB] at hs'
    rw [hs'.take_records]
    exact hagree.records
  · -- the first rows are finished with the first columns
    have hmin : i.val < min k (decompose tolerance A).finishedColumns := by
      rw [Run.finishedColumns_of_ok hp]
      exact lt_min hi i.isLt
    obtain ⟨last, hlast, hmatrix⟩ := exists_reached_matrix_of_ok hp
    obtain ⟨last', hlast', hmatrix'⟩ := exists_reached_matrix_of_ok hq
    rw [← hmatrix, ← hmatrix', hs.entry_eq hlast hs.le hmin, hs'.entry_eq hlast' hs'.le hmin]
    exact hagree.matrix i j hj

/-- The first two columns of `A` and `B` agree, with an exchange in each of them; the third differs,
and one of the runs fails there. -/
theorem decompose_agreeBefore_prefix :
    let A : DenseMatrix 3 Binary64 :=
      ⟨#v[#v[1, .ofNat 2, .nan], #v[.ofNat 2, .ofNat 4, 1], #v[1, .ofNat 5, .ofNat 7]]⟩
    let B : DenseMatrix 3 Binary64 :=
      ⟨#v[#v[1, .ofNat 2, .ofNat 9], #v[.ofNat 2, .ofNat 4, 1], #v[1, .ofNat 5, 0]]⟩
    A.AgreeBefore 2 B ∧ (decompose 1 A).outcome = .error ⟨2, 0, 1⟩ ∧
      List.Forall₂ (PivotRecord.AgreeBefore 2) ((decompose 1 A).records.take 2)
        ((decompose 1 B).records.take 2) := by
  intro A B
  have hAB : A.AgreeBefore 2 B := by decide +kernel
  exact ⟨hAB, by decide +kernel, (decompose_agreeBefore 1 hAB).1⟩

end Elimination

end PivotedLU
