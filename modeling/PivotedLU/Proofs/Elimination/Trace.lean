import PivotedLU.Elimination.Log
import PivotedLU.Proofs.Elimination.Records

/-!
# The Trace of a Run

A run describes itself twice while it is going on: it hands a record of every pivot to its caller,
and it writes a log. This module compares both with each other and with the matrix that is left in
the end. Every record shows the rows down to its pivot row as they will stay, and the log has two
events for each record, in the same order, before the one event that closes it.

## Main definitions

* `PivotRecord.events`: what is logged for a pivot.
* `scannedMagnitude`: the magnitude that the scan of a column finds when the run comes to it.

## Main results

* `Reached.row_snapshot`: the rows of a record that are not changed any more.
* `Reached.log_eq`: the log of a state that has not stopped.
* `log_of_ok`, `log_of_error`: the log of a run, by its outcome.
* `decompose_trace`: the records, the log and the matrix of a run agree.
-/

namespace PivotedLU

universe u

namespace Elimination

variable {α : Type u} {n : Nat}

/-- What is logged for `record`: the column, the row in which the pivot was found and the
`magnitude` that was found there, and the matrix after the exchange. -/
def PivotRecord.events (record : PivotRecord n α) (magnitude : α) : List (LogEvent n α) :=
  [.pivotChosen record.column record.pivotRow magnitude, .beforeElimination record.snapshot]

/-- The events of `records` are traced, two for each. -/
theorem map_level_events (records : List (PivotRecord n α)) (magnitude : Fin n → α) :
    (records.flatMap fun record => record.events (magnitude record.column)).map LogEvent.level =
      List.replicate (2 * records.length) .trace := by
  induction records with
  | nil => rfl
  | cons record records ih =>
    rw [List.flatMap_cons, List.map_append, ih, List.length_cons, Nat.mul_succ]
    rfl

variable [Scalar α] {tolerance : α} {A : DenseMatrix n α} {k : Nat} {s : State n α}

/-- The magnitude that the scan of `column` finds when the columns of `A` before it are
eliminated. -/
def scannedMagnitude (tolerance : α) (A : DenseMatrix n α) (column : Fin n) : α :=
  (scan (sweep tolerance A column (Nat.le_of_lt column.isLt)).matrix column).magnitude

/-- The magnitude for `column` is that of the scan in the state before it. -/
theorem Reached.scannedMagnitude_eq {column : Fin n} (h : Reached tolerance A column s) :
    scannedMagnitude tolerance A column = (scan s.matrix column).magnitude := by
  rw [scannedMagnitude, h.sweep_eq]
  rfl

/-! ## Records -/

/-- The pivot of a `record` never stood above the place of its column on the diagonal. -/
theorem Reached.column_le_pivotRow (h : Reached tolerance A k s) {record : PivotRecord n α}
    (hrecord : record ∈ s.records) : record.column ≤ record.pivotRow := by
  obtain ⟨t, -, -, -, hrow, -, -⟩ := h.exists_of_mem_records hrecord
  rw [hrow]
  exact column_le_row_scan t.matrix record.column

/-- The magnitude that the scan for a `record` found is that of the pivot, or the `0` from which it
started. -/
theorem Reached.scannedMagnitude_of_mem (h : Reached tolerance A k s) {record : PivotRecord n α}
    (hrecord : record ∈ s.records) :
    scannedMagnitude tolerance A record.column = Scalar.magnitude record.pivot ∨
      scannedMagnitude tolerance A record.column = 0 ∧ record.pivotRow = record.column := by
  obtain ⟨t, ht, -, -, hrow, hsnapshot, hpivot⟩ := h.exists_of_mem_records hrecord
  -- the exchange has brought the pivot to the diagonal
  rw [ht.scannedMagnitude_eq, hpivot, hsnapshot, DenseMatrix.entry_swapRows, exchanged_left]
  rcases scan_cases t.matrix record.column with hstart | ⟨-, hfound⟩
  · refine Or.inr ⟨?_, ?_⟩
    · rw [hstart]
    · rw [hrow, hstart]
  · exact Or.inl hfound

/-- The rows of a snapshot down to the pivot row are those of every later state `s`: clearing leaves
them alone, and so do all steps that follow. -/
theorem Reached.row_snapshot (h : Reached tolerance A k s) {record : PivotRecord n α}
    (hrecord : record ∈ s.records) {i : Fin n} (hi : i ≤ record.column) :
    record.snapshot.row i = s.matrix.row i := by
  obtain ⟨t, -, hnext, hlt, -, hsnapshot, -⟩ := h.exists_of_mem_records hrecord
  refine vector_eq_iff.2 fun j => ?_
  change record.snapshot.entry i j = s.matrix.entry i j
  rw [hnext.entry_eq h hlt (Nat.lt_succ_of_le hi), State.matrix_eliminate,
    entry_clearBelow_of_le _ hi, hsnapshot]

/-! ## The log -/

/-- A step logs the `pivot` and the matrix from which it is about to be eliminated. -/
theorem State.log_eliminate (s : State n α) (column : Fin n) (pivot : Pivot n α) :
    (s.eliminate column pivot).log =
      s.log ++ [.pivotChosen column pivot.row pivot.magnitude,
        .beforeElimination (s.matrix.swapRows column pivot.row)] :=
  rfl

/-- As long as a run has not stopped, its log has the events of its records, in their order. -/
theorem Reached.log_eq (h : Reached tolerance A k s) :
    s.log = s.records.flatMap fun record =>
      record.events (scannedMagnitude tolerance A record.column) := by
  induction h with
  | initial => rfl
  | @eliminate s column before accepted ih =>
    rw [State.log_eliminate, State.records_eliminate, List.flatMap_append, ← ih,
      List.flatMap_singleton, before.scannedMagnitude_eq]
    rfl

/-- A run that returns `p` closes its log with the counter of `p`. -/
theorem log_of_ok {p : RowOrder n} (h : (decompose tolerance A).outcome = .ok p) :
    (decompose tolerance A).log =
      ((decompose tolerance A).records.flatMap fun record =>
        record.events (scannedMagnitude tolerance A record.column)) ++ [.finished p.exchanges] := by
  obtain ⟨s, hs, rfl, hrecords⟩ := exists_reached_of_ok h
  rw [← hrecords, ← hs.log_eq, hs.decompose_eq]
  rfl

/-- A run that fails with `b` closes its log with the column and the pivot of `b`. -/
theorem log_of_error {b : Breakdown n α} (h : (decompose tolerance A).outcome = .error b) :
    (decompose tolerance A).log =
      ((decompose tolerance A).records.flatMap fun record =>
        record.events (scannedMagnitude tolerance A record.column)) ++
          [.degenerate b.column b.pivot tolerance] := by
  rcases decompose_cases tolerance A with ⟨s, -, hrun⟩ | ⟨column, s, hs, hlow, hrun⟩
  · rw [hrun] at h
    cases h
  · rw [attempt_of_refused hlow] at hrun
    rw [hrun] at h ⊢
    cases h
    exact congrArg (· ++ _) hs.log_eq

/-! ## The whole trace -/

/-- **The trace of a run.** Let `r` be the run on `A`, and `events` those of its records, two for
each: the pivot with its row and magnitude, and the snapshot.

- If `r` returns `p`, there is one record for each column, and the log has `events`, all at the
  level `.trace`, and at `.debug` the number of records whose pivot stood in another row.
- If `r` fails with `b`, there is one record for each column before `b.column`, and the log ends at
  `.warn` with the column, the pivot and `tolerance`.
- The pivot of a `record` stood in its column's row or below, and the snapshot shows it on the
  diagonal. The rows of the snapshot down to this one are those of the matrix that `r` leaves. The
  magnitude that is logged is that of the pivot, or the `0` of a scan that found nothing and left
  the rows as they were. -/
theorem decompose_trace (tolerance : α) (A : DenseMatrix n α) :
    let r := decompose tolerance A
    let events := r.records.flatMap fun record =>
      record.events (scannedMagnitude tolerance A record.column)
    (∀ p, r.outcome = .ok p →
      r.records.map (fun record => record.column.val) = List.range n ∧
      r.log = events ++
        [.finished (r.records.countP fun record => record.pivotRow ≠ record.column)] ∧
      r.log.map LogEvent.level = List.replicate (2 * n) .trace ++ [.debug]) ∧
    (∀ b, r.outcome = .error b →
      r.records.map (fun record => record.column.val) = List.range b.column ∧
      r.log = events ++ [.degenerate b.column b.pivot tolerance] ∧
      r.log.map LogEvent.level = List.replicate (2 * b.column) .trace ++ [.warn]) ∧
    ∀ record ∈ r.records,
      record.column ≤ record.pivotRow ∧
      record.pivot = record.snapshot.entry record.column record.column ∧
      (∀ i, i ≤ record.column → record.snapshot.row i = r.matrix.row i) ∧
      (scannedMagnitude tolerance A record.column = Scalar.magnitude record.pivot ∨
        scannedMagnitude tolerance A record.column = 0 ∧ record.pivotRow = record.column) := by
  intro r events
  -- the state that the run has reached without having stopped has its records and its matrix
  obtain ⟨s, hs, hmatrix, hrecords⟩ := exists_reached_left tolerance A
  have hcolumns : r.records.map (fun record => record.column.val) =
      List.range r.finishedColumns := by
    rw [hrecords]
    exact hs.map_column_records
  have hlevels : events.map LogEvent.level = List.replicate (2 * r.finishedColumns) .trace := by
    rw [← hs.length_records, ← hrecords]
    exact map_level_events r.records (scannedMagnitude tolerance A)
  refine ⟨fun p hp => ?_, fun b hb => ?_, fun record hrecord => ?_⟩
  · have hcount : p.exchanges = r.records.countP fun record => record.pivotRow ≠ record.column := by
      obtain ⟨t, ht, rfl, hreported⟩ := exists_reached_of_ok hp
      rw [ht.exchanges_eq_countP, hreported]
    have hlog : r.log = events ++ [.finished p.exchanges] := log_of_ok hp
    rw [Run.finishedColumns_of_ok hp] at hcolumns hlevels
    refine ⟨hcolumns, ?_, ?_⟩
    · rw [hlog, hcount]
    · rw [hlog, List.map_append, hlevels]
      rfl
  · have hlog : r.log = events ++ [.degenerate b.column b.pivot tolerance] := log_of_error hb
    rw [Run.finishedColumns_of_error hb] at hcolumns hlevels
    refine ⟨hcolumns, hlog, ?_⟩
    rw [hlog, List.map_append, hlevels]
    rfl
  · rw [hrecords] at hrecord
    obtain ⟨-, -, -, -, -, -, hpivot⟩ := hs.exists_of_mem_records hrecord
    refine ⟨hs.column_le_pivotRow hrecord, hpivot, fun i hi => ?_,
      hs.scannedMagnitude_of_mem hrecord⟩
    rw [hmatrix]
    exact hs.row_snapshot hrecord hi

end Elimination

end PivotedLU
