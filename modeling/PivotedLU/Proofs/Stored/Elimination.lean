import PivotedLU.Proofs.Elimination.Reached
import PivotedLU.Proofs.Stored.Order

/-!
# Elimination in Stored Rows

Elimination in place, written with checked accesses: the scan of a column, the exchange of rows, the
split behind the pivot row, the update of every row below it. On rows of the right lengths no access
fails, whatever the entries are, and a run leaves the rows and the order that the run of the library
has.

## Main definitions

* `Stored.selectPivot`, `Stored.eliminateBelow`: one column.
* `Stored.Work`: the rows and the order that change during a run.
* `Stored.attempt`, `Stored.sweep`, `Stored.decompose`: one column with its exchange, several, all.

## Main results

* `Stored.selectPivot_toLists`, `Stored.run_eliminateBelow`, `Stored.run_attempt`: one column is a
  column of the library.
* `Stored.run_decompose`: so is a run.
-/

namespace PivotedLU

namespace Stored

open InPlace

variable {α γ : Type} [Scalar α] {n : Nat}

/-! ## One column -/

/-- The row and the magnitude of the largest entry of `column` from the diagonal downwards. -/
def selectPivot (rows : Rows α) (column : Nat) : Except Violation (Nat × α) :=
  (rows.zipIdx.drop column).foldlM
    (fun best row => do
      let candidate := Scalar.magnitude (← readAt row.1 column)
      return if Scalar.below best.2 candidate then (row.2, candidate) else best)
    (column, 0)

/-- A row below `pivotRow`: its entry in `column` becomes the multiplier, and the multiplier times
the pivot row is subtracted from what stands to the right. -/
def clearRow (column : Nat) (pivotRow : List α) (pivot : α) : InPlace (List α) Unit := do
  let x ← check (readAt (← get) column)
  atPosition column (set (x / pivot))
  let multiplier ← check (readAt (← get) column)
  let us ← check (restOf pivotRow (column + 1))
  onRest (column + 1) (modify fun rest => zipInto (fun a u => a - multiplier * u) rest us)

/-- The rows are split behind the pivot row, and those below are cleared one after the other. -/
def eliminateBelow (column : Nat) : InPlace (Rows α) Unit := do
  let head ← check (firstOf (← get) (column + 1))
  let pivotRow ← check (readAt head column)
  let pivot ← check (readAt pivotRow column)
  onRest (column + 1) (eachOf (clearRow column pivotRow pivot))

/-! ## Runs -/

/-- What changes during a run. -/
structure Work (α : Type) where
  rows : Rows α
  order : Order

/-- The column in which a run stopped, the magnitude found there and the tolerance. -/
structure Breakdown (α : Type) where
  column : Nat
  pivot : α
  tolerance : α

/-- An action on the rows. -/
def onRows (act : InPlace (Rows α) γ) : InPlace (Work α) γ := fun w =>
  placed (fun rows => { w with rows := rows }) (act.run w.rows)

/-- An action on the order. -/
def onOrder (act : InPlace Order γ) : InPlace (Work α) γ := fun w =>
  placed (fun order => { w with order := order }) (act.run w.order)

/-- The pivot row `row` is brought to the diagonal of `column`, and the order follows, unless it is
there. -/
def bringUp (column row : Nat) : InPlace (Work α) Unit :=
  if row = column then pure ()
  else do
    onOrder (exchange column row)
    onRows (swapAt column row)

/-- One `column`: the run stops if the pivot is below `tolerance`. -/
def attempt (tolerance : α) (column : Nat) : InPlace (Work α) (Option (Breakdown α)) := do
  let best ← check (selectPivot (← get).rows column)
  if Scalar.below best.2 tolerance then
    pure (some ⟨column, best.2, tolerance⟩)
  else do
    bringUp column best.1
    -- the pivot is reported before the column is cleared
    let _ ← check (entryAt (← get).rows column column)
    onRows (eliminateBelow column)
    pure none

/-- The columns of a list, until the run stops. -/
def sweep (tolerance : α) : List Nat → InPlace (Work α) (Option (Breakdown α))
  | [] => pure none
  | column :: columns => do
    match ← attempt tolerance column with
    | some b => pure (some b)
    | none => sweep tolerance columns

/-- What a run gives when its columns are done: the order is handed out, the rows stay. -/
def finished : EStateM.Result Violation (Work α) (Option (Breakdown α)) →
    EStateM.Result Violation (Rows α) (Except (Breakdown α) Order)
  | .ok none w => .ok (.ok w.order) w.rows
  | .ok (some b) w => .ok (.error b) w.rows
  | .error v w => .error v w.rows

/-- All columns. The rows stay as the run leaves them, also if it stops. -/
def decompose (tolerance : α) : InPlace (Rows α) (Except (Breakdown α) Order) := fun rows =>
  finished ((sweep tolerance (List.range rows.length)).run ⟨rows, Order.identity rows.length⟩)

end Stored

/-! ## The states of a run as they are stored -/

section Views

variable {α : Type} {n : Nat}

/-- A pivot as the scan of stored rows returns it. -/
def Elimination.Pivot.stored (p : Elimination.Pivot n α) : Nat × α :=
  (p.row.val, p.magnitude)

/-- What has been reached in `s`, as far as it is stored: records and log are not. -/
def Elimination.State.stored (s : Elimination.State n α) : Stored.Work α :=
  ⟨s.matrix.toLists, s.order.stored⟩

/-- A breakdown without the size of the matrix. -/
def Elimination.Breakdown.stored (b : Elimination.Breakdown n α) : Stored.Breakdown α :=
  ⟨b.column.val, b.pivot, b.tolerance⟩

/-- What the run `r` returns: an order or a breakdown. -/
def Elimination.Run.storedOutcome (r : Elimination.Run n α) :
    Except (Stored.Breakdown α) Stored.Order :=
  (r.outcome.map RowOrder.stored).mapError Elimination.Breakdown.stored

end Views

namespace Stored

open InPlace

variable {α : Type} [Scalar α] {n : Nat}

/-! ## One column of a dense matrix -/

/-- On the rows of `A`, the loop finds what the scan of `column` finds. -/
theorem selectPivot_toLists (A : DenseMatrix n α) (column : Fin n) :
    selectPivot A.toLists column = .ok (Elimination.scan A column).stored := by
  -- one step of the loop, on rows that are known to be inside
  let better (best : Elimination.Pivot n α) (k : Fin n) : Elimination.Pivot n α :=
    if Scalar.below best.magnitude (Scalar.magnitude (A.entry k column)) = true then
      ⟨k, Scalar.magnitude (A.entry k column)⟩
    else best
  have hscan : Elimination.scan A column =
      ((List.finRange n).drop column).foldl better ⟨column, 0⟩ := by
    rw [foldl_drop_finRange, Elimination.scan, ← Fin.foldl_eq_finRange_foldl]
    refine foldl_congr_step (fun best k => ?_) _
    unfold Elimination.consider
    dsimp only [better]
    by_cases hk : column ≤ k
    · have hle : column.val ≤ k.val := hk
      simp only [hk, hle, true_and, if_true]
    · have hle : ¬column.val ≤ k.val := hk
      simp only [hk, hle, false_and, if_false]
  have hstep : ∀ (best : Elimination.Pivot n α) (k : Fin n),
      (do
        let candidate := Scalar.magnitude (← readAt (A.row k).toList column.val)
        return if Scalar.below best.stored.2 candidate then (k.val, candidate)
          else best.stored : Except Violation (Nat × α)) = .ok (better best k).stored := by
    intro best k
    rw [readAt_toList]
    refine congrArg Except.ok ?_
    by_cases h : Scalar.below best.magnitude (Scalar.magnitude (A.entry k column)) = true
    · rw [show better best k = _ from if_pos h]
      exact if_pos h
    · rw [show better best k = _ from if_neg h]
      exact if_neg h
  rw [selectPivot, A.toLists_eq_map, zipIdx_map_finRange, ← List.map_drop, hscan]
  exact foldlM_map Elimination.Pivot.stored (f := better) hstep _ ⟨column, 0⟩

/-- On the lists of `pivotRow` and `r`, the row is cleared as in the library. -/
theorem run_clearRow (column : Fin n) (pivotRow r : Vector α n) :
    (clearRow column pivotRow.toList (pivotRow.get column)).run r.toList =
      .ok () (Elimination.clearRow column pivotRow r).toList := by
  let multiplier := r.get column / pivotRow.get column
  let divided := r.set column multiplier column.isLt
  have hlength : ∀ v : Vector α n, column.val + 1 ≤ v.toList.length := by
    intro v
    simp
  have hmultiplier : readAt divided.toList column = .ok multiplier := by
    rw [readAt_toList, get_set_self]
  -- left of the column and in it the row is the divided one
  have hentries : (List.finRange n).map (Elimination.clearRow column pivotRow r).get =
      (List.finRange n).map fun j => if j.val < column.val + 1 then divided.get j
        else divided.get j - multiplier * pivotRow.get j := by
    refine List.map_congr_left fun j _ => ?_
    rw [Elimination.clearRow, get_ofFn]
    rcases lt_trichotomy j column with hj | rfl | hj
    · rw [if_pos hj, if_pos (Nat.lt_succ_of_lt hj), get_set_of_ne _ hj.ne']
    · rw [if_neg (lt_irrefl j), if_pos rfl, if_pos (Nat.lt_succ_self _), get_set_self]
    · rw [if_neg hj.asymm, if_neg hj.ne', if_neg (by omega), get_set_of_ne _ hj.ne]
  have hzip : zipInto (fun a u => a - multiplier * u) (divided.toList.drop (column + 1))
      (pivotRow.toList.drop (column + 1)) =
        ((List.finRange n).map fun j => divided.get j - multiplier * pivotRow.get j).drop
          (column + 1) := by
    rw [zipInto_eq_zipWith _ (by simp), ← List.drop_zipWith, toList_eq_map, toList_eq_map,
      List.zipWith_map, List.zipWith_self]
  rw [clearRow, run_get_bind, run_check_bind (readAt_toList r column),
    run_bind_of_ok (run_atPosition_set r column multiplier), run_get_bind,
    run_check_bind hmultiplier, run_check_bind (restOf_of_le (hlength pivotRow)),
    run_onRest (hlength divided)]
  refine congrArg (EStateM.Result.ok ()) ?_
  dsimp only
  rw [hzip, toList_eq_map divided, take_append_drop_finRange, ← hentries, ← toList_eq_map]

/-- On the rows of `A`, `column` is cleared as in the library. -/
theorem run_eliminateBelow (A : DenseMatrix n α) (column : Fin n) :
    (eliminateBelow column).run A.toLists =
      .ok () (Elimination.clearBelow A column).toLists := by
  have hlength : column.val + 1 ≤ A.toLists.length := A.lt_length_toLists column
  have hpivot : readAt (A.toLists.take (column + 1)) column = .ok (A.row column).toList := by
    rw [readAt, List.getElem?_take_of_lt (Nat.lt_succ_self _)]
    exact readAt_toLists A column
  -- the rows behind the pivot row are cleared, and those before them are put back
  have hrows : (eachOf (clearRow column (A.row column).toList ((A.row column).get column))).run
      (A.toLists.drop (column + 1)) = .ok () (((List.finRange n).map fun i =>
        (Elimination.clearRow column (A.row column) (A.row i)).toList).drop (column + 1)) := by
    rw [A.toLists_eq_map, ← List.map_drop, ← List.map_drop]
    exact run_eachOf_map (fun i => run_clearRow column (A.row column) (A.row i)) _
  have hresult : (Elimination.clearBelow A column).toLists =
      (List.finRange n).map fun i => if i.val < column.val + 1 then (A.row i).toList
        else (Elimination.clearRow column (A.row column) (A.row i)).toList := by
    rw [DenseMatrix.toLists_eq_map]
    refine List.map_congr_left fun i _ => ?_
    rw [DenseMatrix.row, Elimination.clearBelow, get_ofFn]
    by_cases hi : column < i
    · rw [if_pos hi, if_neg (by omega)]
    · rw [if_neg hi, if_pos (by omega)]
  rw [eliminateBelow, run_get_bind, run_check_bind (firstOf_of_le hlength), run_check_bind hpivot,
    run_check_bind (readAt_toList _ column), run_onRest hlength, hrows]
  refine congrArg (EStateM.Result.ok ()) ?_
  dsimp only
  rw [A.toLists_eq_map, take_append_drop_finRange, hresult]

/-! ## Runs on a dense matrix -/

omit [Scalar α] in
/-- The exchange of `column` and `row` is made in the rows of `A` and in the order `p`. -/
theorem run_bringUp (A : DenseMatrix n α) (p : RowOrder n) (column row : Fin n) :
    (bringUp column row).run ⟨A.toLists, p.stored⟩ =
      .ok () ⟨(A.swapRows column row).toLists, (p.exchange column row).stored⟩ := by
  unfold bringUp
  by_cases h : row = column
  · -- the row is in its place, and an exchange with itself changes nothing
    have hmatrix : A.swapRows column column = A := by
      ext i j
      rw [DenseMatrix.entry_swapRows, exchanged_self]
    have horder : p.exchange column column = p := if_pos rfl
    rw [if_pos (congrArg Fin.val h), h, hmatrix, horder]
    rfl
  · have horder : (onOrder (exchange column row)).run (⟨A.toLists, p.stored⟩ : Work α) =
        .ok () ⟨A.toLists, (p.exchange column row).stored⟩ :=
      congrArg (placed fun order => (⟨A.toLists, order⟩ : Work α))
        (run_exchange_inside p column row)
    have hrows : (onRows (swapAt column row)).run
        (⟨A.toLists, (p.exchange column row).stored⟩ : Work α) =
          .ok () ⟨(A.swapRows column row).toLists, (p.exchange column row).stored⟩ :=
      congrArg (placed fun rows => (⟨rows, (p.exchange column row).stored⟩ : Work α))
        (run_swapAt_map A.rows Vector.toList column row)
    rw [if_neg fun heq => h (Fin.ext heq), run_bind_of_ok horder, hrows]

/-- An attempt at `column` changes the stored state of `s` as it changes `s`. -/
theorem run_attempt (tolerance : α) (column : Fin n) (s : Elimination.State n α) :
    (attempt tolerance column).run s.stored =
      .ok ((Elimination.attempt tolerance column s).breakdown?.map Elimination.Breakdown.stored)
        (Elimination.attempt tolerance column s).state.stored := by
  let pivot := Elimination.scan s.matrix column
  let snapshot := s.matrix.swapRows column pivot.row
  have hscan : selectPivot s.stored.rows column = .ok pivot.stored :=
    selectPivot_toLists s.matrix column
  rw [attempt, run_get_bind, run_check_bind hscan]
  cases h : Scalar.below pivot.magnitude tolerance with
  | true =>
    -- the run stops before anything is changed
    rw [Elimination.attempt_of_refused h]
    exact congrArg (fun act : InPlace (Work α) _ => act.run s.stored) (if_pos h)
  | false =>
    -- exchange, report, clear
    have hcleared : (onRows (eliminateBelow column)).run
        (⟨snapshot.toLists, (s.order.exchange column pivot.row).stored⟩ : Work α) =
          .ok () (s.eliminate column pivot).stored :=
      congrArg (placed fun rows => (⟨rows, (s.order.exchange column pivot.row).stored⟩ : Work α))
        (run_eliminateBelow snapshot column)
    have hup : (bringUp column pivot.stored.1).run s.stored =
        .ok () ⟨snapshot.toLists, (s.order.exchange column pivot.row).stored⟩ :=
      run_bringUp s.matrix s.order column pivot.row
    have haccepted : ¬Scalar.below pivot.stored.2 tolerance = true := by
      rw [show pivot.stored.2 = pivot.magnitude from rfl, h]
      exact Bool.false_ne_true
    rw [Elimination.attempt_of_accepted h, if_neg haccepted, run_bind_of_ok hup, run_get_bind,
      run_check_bind (entryAt_toLists snapshot column column), run_bind_of_ok hcleared]
    rfl

/-- One more `column` at the end of a list is tried if the run has not stopped before. -/
theorem sweep_concat (tolerance : α) (columns : List Nat) (column : Nat) :
    sweep tolerance (columns ++ [column]) = (do
      match ← sweep tolerance columns with
      | some b => pure (some b)
      | none => attempt tolerance column) := by
  induction columns with
  | nil =>
    have hlast : (fun stop? : Option (Breakdown α) => (match stop? with
        | some b => pure (some b)
        | none => sweep tolerance [] : InPlace (Work α) _)) = pure := by
      funext stop?
      cases stop? <;> rfl
    calc sweep tolerance [column]
        = attempt tolerance column >>= pure := congrArg (attempt tolerance column >>= ·) hlast
      _ = attempt tolerance column := bind_pure _
      _ = _ := by rw [sweep, pure_bind]
  | cons c columns ih =>
    rw [List.cons_append, sweep, sweep, bind_assoc]
    refine bind_congr fun stop? => ?_
    cases stop? with
    | none => exact ih
    | some b => rw [pure_bind]

/-- The first `k` columns of a run on the rows of `A`. -/
theorem run_sweep (tolerance : α) (A : DenseMatrix n α) (k : Nat) (hk : k ≤ n) :
    let r := Elimination.sweep tolerance A k hk
    (sweep tolerance (List.range k)).run (Elimination.State.initial A).stored =
      .ok (r.breakdown?.map Elimination.Breakdown.stored) r.state.stored := by
  induction k with
  | zero => rfl
  | succ k ih =>
    rw [List.range_succ, sweep_concat, run_bind_of_ok (ih (Nat.le_of_succ_le hk)),
      Elimination.sweep_succ]
    cases h : (Elimination.sweep tolerance A k (Nat.le_of_succ_le hk)).breakdown? with
    | none => exact run_attempt tolerance ⟨k, hk⟩ _
    | some b =>
      -- a run that has stopped does not try the column
      dsimp only
      rw [h]
      rfl

/-- **Elimination in place.** On the rows of `A` a run is never stopped by an access, whatever the
entries and `tolerance` are. It returns what the run of the library returns and leaves the rows that
it leaves, also if it breaks down. -/
theorem run_decompose (tolerance : α) (A : DenseMatrix n α) :
    (decompose tolerance).run A.toLists =
      .ok (Elimination.decompose tolerance A).storedOutcome
        (Elimination.decompose tolerance A).matrix.toLists := by
  have hsweep := run_sweep tolerance A n (Nat.le_refl n)
  have hstart : (Elimination.State.initial A).stored =
      ⟨A.toLists, Order.identity A.toLists.length⟩ := by
    rw [A.length_toLists, ← stored_identity]
    rfl
  rw [hstart] at hsweep
  have hrange : List.range A.toLists.length = List.range n := by rw [A.length_toLists]
  have hrun : (decompose tolerance).run A.toLists =
      finished ((sweep tolerance (List.range n)).run
        ⟨A.toLists, Order.identity A.toLists.length⟩) := by
    rw [← hrange]
    rfl
  rw [hrun, hsweep, Elimination.Run.storedOutcome, Elimination.Run.outcome,
    Elimination.matrix_decompose, Elimination.decompose]
  cases h : (Elimination.sweep tolerance A n (Nat.le_refl n)).breakdown? with
  | none => rfl
  | some b =>
    -- the run carries its breakdown, and its log is not closed
    dsimp only
    rw [h]
    rfl

/-- If the run of the library returns `p`, the run on the rows of `A` returns its stored form. -/
theorem run_decompose_of_ok {tolerance : α} {A : DenseMatrix n α} {p : RowOrder n}
    (h : (Elimination.decompose tolerance A).outcome = .ok p) :
    (decompose tolerance).run A.toLists =
      .ok (.ok p.stored) (Elimination.decompose tolerance A).matrix.toLists := by
  rw [run_decompose, Elimination.Run.storedOutcome, h]
  rfl

end Stored

end PivotedLU
