import PivotedLU.Proofs.Elimination.Reached
import PivotedLU.Proofs.RowOrder.Parity

/-!
# What the Records of a Run Say

The records of a run name the exchanges of rows in the order in which they were made. Carried out
again on the places `0, 1, …` they give the permutation that the run itself keeps, and those of
them that exchange two different rows are the ones that it counts.

## Main definitions

* `replay`: the places after the exchanges of some records.

## Main results

* `Reached.map_column_records`: there is one record for each column eliminated, in order.
* `Reached.exists_of_mem_records`: the step that a record comes from.
* `Reached.sources_eq_replay`: the permutation is the replay of the records.
* `Reached.exchanges_eq_countP`, `Reached.exchanges_le`: the counter counts the records of two
  different rows, and the last column never adds one.
* `Reached.countsParity`: the counter has the parity of the permutation.
-/

namespace PivotedLU

universe u

namespace Elimination

variable {α : Type u} {n : Nat}

/-- The places `0, 1, …` after the exchanges of some records, carried out one after the other. -/
def replay (records : List (PivotRecord n α)) : Vector (Fin n) n :=
  records.foldl (fun places r => places.swap r.column r.pivotRow r.column.isLt r.pivotRow.isLt)
    (Vector.ofFn id)

/-- One more record `r` is one more exchange. -/
theorem replay_concat (records : List (PivotRecord n α)) (r : PivotRecord n α) :
    replay (records ++ [r]) =
      (replay records).swap r.column r.pivotRow r.column.isLt r.pivotRow.isLt := by
  rw [replay, List.foldl_append]
  rfl

/-- The sources of `p` after an exchange, also of a place with itself. -/
theorem sources_exchange (p : RowOrder n) (i j : Fin n) :
    (p.exchange i j).sources = p.sources.swap i j i.isLt j.isLt := by
  unfold RowOrder.exchange
  split
  · next h =>
    -- such an exchange is skipped, and would move nothing
    subst h
    ext k hk
    simp only [Vector.getElem_swap]
    split
    · next hki => simp only [hki]
    · rfl
  · rfl

variable [Scalar α] {tolerance : α} {A : DenseMatrix n α} {k : Nat} {s : State n α}

/-- There is one record for each of the `k` columns eliminated, in the order of the columns. -/
theorem Reached.map_column_records (h : Reached tolerance A k s) :
    s.records.map (fun r => r.column.val) = List.range k := by
  induction h with
  | initial => rfl
  | eliminate before accepted ih =>
    rw [State.records_eliminate, List.map_append, ih, List.range_succ]
    rfl

theorem Reached.length_records (h : Reached tolerance A k s) : s.records.length = k := by
  simpa using congrArg List.length h.map_column_records

/-- Every `record` comes from a step: the run had reached a state `t` with the columns before its
own, the scan of `t` found the pivot row, and the snapshot is the matrix of `t` after the
exchange. -/
theorem Reached.exists_of_mem_records (h : Reached tolerance A k s) {record : PivotRecord n α}
    (hrecord : record ∈ s.records) :
    ∃ t, Reached tolerance A record.column t ∧
      Reached tolerance A (record.column + 1)
        (t.eliminate record.column (scan t.matrix record.column)) ∧
      record.column < k ∧
      record.pivotRow = (scan t.matrix record.column).row ∧
      record.snapshot = t.matrix.swapRows record.column (scan t.matrix record.column).row ∧
      record.pivot = record.snapshot.entry record.column record.column := by
  induction h with
  | initial => exact absurd hrecord List.not_mem_nil
  | @eliminate s column before accepted ih =>
    rw [State.records_eliminate, List.mem_append, List.mem_singleton] at hrecord
    rcases hrecord with hearlier | rfl
    · obtain ⟨t, ht, hnext, hlt, hstep⟩ := ih hearlier
      exact ⟨t, ht, hnext, Nat.lt_succ_of_lt hlt, hstep⟩
    · exact ⟨s, before, before.eliminate accepted, Nat.lt_succ_self _, rfl, rfl, rfl⟩

/-- The sources of a state's order are the `replay` of its records. -/
theorem Reached.sources_eq_replay (h : Reached tolerance A k s) :
    s.order.sources = replay s.records := by
  induction h with
  | initial => rfl
  | eliminate before accepted ih =>
    rw [State.order_eliminate, sources_exchange, State.records_eliminate, replay_concat, ih]

/-- The counter of a state is the number of its records whose pivot stood in another row. -/
theorem Reached.exchanges_eq_countP (h : Reached tolerance A k s) :
    s.order.exchanges = s.records.countP fun r => r.pivotRow ≠ r.column := by
  induction h with
  | initial => rfl
  | @eliminate s column before accepted ih =>
    rw [State.order_eliminate, RowOrder.exchanges_exchange, State.records_eliminate,
      List.countP_append, ← ih]
    by_cases hrow : column = (scan s.matrix column).row
    · simp [← hrow]
    · simp [hrow, Ne.symm hrow]

/-- A state counts at most one exchange for each of the `k` columns, and none for the last column of
the matrix: below its diagonal there is no row to exchange with. -/
theorem Reached.exchanges_le (h : Reached tolerance A k s) :
    s.order.exchanges ≤ k ∧ s.order.exchanges ≤ n - 1 := by
  induction h with
  | initial => exact ⟨Nat.zero_le _, Nat.zero_le _⟩
  | @eliminate s column before accepted ih =>
    rw [State.order_eliminate, RowOrder.exchanges_exchange]
    obtain ⟨hcolumns, hlast⟩ := ih
    have hle : column ≤ (scan s.matrix column).row := column_le_row_scan s.matrix column
    have hrow : (scan s.matrix column).row < n := (scan s.matrix column).row.isLt
    split
    · exact ⟨Nat.le_succ_of_le hcolumns, hlast⟩
    · next hne =>
      have hlt : column.val < (scan s.matrix column).row.val := by
        have hval : column.val ≠ (scan s.matrix column).row.val := fun h => hne (Fin.ext h)
        omega
      omega

/-- The counter of a state has the parity of its order. -/
theorem Reached.countsParity (h : Reached tolerance A k s) : s.order.CountsParity := by
  induction h with
  | initial => exact RowOrder.countsParity_identity
  | eliminate before accepted ih => exact ih.exchange _ _

end Elimination

end PivotedLU
