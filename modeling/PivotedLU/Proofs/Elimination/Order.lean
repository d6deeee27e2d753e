import PivotedLU.Proofs.Exact.Determinant

/-!
# The Order That a Run Returns

A run keeps its permutation and its counter of exchanges beside the matrix, and reports every
pivot to its caller. This module compares the two: the permutation that a run returns is the one
that its reports describe, and the counter counts the exchanges among them and has the parity of
the permutation. Nothing is assumed of the arithmetic, so this holds of runs on floats as well.

## Main results

* `decompose_order`: what the permutation and the counter are.
-/

namespace PivotedLU

universe u

namespace Elimination

variable {α : Type u} [Scalar α] {n : Nat}

/-- **The order of a run.** Let the run on `A` return `p`.

- The indices of `p` are a rearrangement of `0, 1, …`, and they come about by the exchanges of the
  recorded columns with their pivot rows, from the first column to the last.
- The counter is the number of records whose pivot stood in another row, at most `n - 1`.
- It is odd exactly if the indices have an odd number of inversions, so the sign of `p` is the
  determinant of `p.toMatrix`. -/
theorem decompose_order (tolerance : α) (A : DenseMatrix n α) {p : RowOrder n}
    (h : (decompose tolerance A).outcome = .ok p) :
    let records := (decompose tolerance A).records
    p.indices.Perm (List.range n) ∧
      records.map (fun r => r.column.val) = List.range n ∧
      p.indices = (replay records).toList.map Fin.val ∧
      p.exchanges = records.countP (fun r => r.pivotRow ≠ r.column) ∧
      p.exchanges ≤ n - 1 ∧
      (p.isOdd = true ↔ Odd p.inversions) ∧
      (p.sign : ℚ) = cofactorDeterminant (p.toMatrix : DenseMatrix n ℚ) := by
  intro records
  obtain ⟨s, hs, rfl, hrecords⟩ := exists_reached_of_ok h
  have hparity := hs.countsParity
  refine ⟨s.order.indices_perm_range, ?_, ?_, ?_, hs.exchanges_le.2, hparity.isOdd_iff,
    hparity.sign_eq_cofactorDeterminant⟩
  · rw [← hs.map_column_records, hrecords]
  · rw [RowOrder.indices, hs.sources_eq_replay, hrecords]
  · rw [hs.exchanges_eq_countP, hrecords]

/-- The run on `cyclicMatrix` makes two exchanges, which bring the rows into a cycle. -/
theorem decompose_order_cyclicMatrix :
    let p := cyclicFactors.order
    let records := (decompose (1 / 10) cyclicMatrix).records
    p.indices.Perm (List.range 3) ∧
      records.map (fun r => r.column.val) = List.range 3 ∧
      p.indices = (replay records).toList.map Fin.val ∧
      p.exchanges = records.countP (fun r => r.pivotRow ≠ r.column) ∧
      p.exchanges ≤ 3 - 1 ∧
      (p.isOdd = true ↔ Odd p.inversions) ∧
      (p.sign : ℚ) = cofactorDeterminant (p.toMatrix : DenseMatrix 3 ℚ) :=
  decompose_order (1 / 10) cyclicMatrix (by decide +kernel)

end Elimination

end PivotedLU
