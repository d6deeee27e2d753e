import PivotedLU.Elimination.Pivot
import PivotedLU.RowOrder.Basic

/-!
# Decomposition with Partial Pivoting

A run of elimination goes through the columns from left to right. At each column it looks for
the pivot, exchanges rows to bring it to the diagonal, reports the column, and clears the
entries below. It stops at the first column whose largest candidate is strictly below the
tolerance, before that column has been touched. A tolerance that compares with nothing stops no
run.

The result holds everything that a caller can observe: the matrix as the run left it, the
permutation, a record for every pivot that was used, and the log in order.

## Main definitions

* `Elimination.PivotRecord`, `Elimination.LogEvent`: what is reported during a run.
* `Elimination.State`: what a run has reached.
* `Elimination.Breakdown`: the column at which a run stopped.
* `Elimination.Run`: a state, and the breakdown if there was one.
* `Elimination.attempt`: the elimination of one column.
* `Elimination.sweep`: the elimination of the first `k` columns.
* `Elimination.decompose`: the elimination of all columns.

## Main results

* `Elimination.sweep_succ`: one more column.
* `Elimination.matrix_decompose`: closing the log leaves the matrix as it is.
-/

namespace PivotedLU

universe u

namespace Elimination

variable {α : Type u} {n : Nat}

/-- The report of one pivot: the state after the exchange of rows and before the entries below
the pivot are eliminated. -/
structure PivotRecord (n : Nat) (α : Type u) where
  column : Fin n
  /-- The row in which the pivot was found, before the exchange. -/
  pivotRow : Fin n
  pivot : α
  snapshot : DenseMatrix n α
deriving DecidableEq

/-- What is logged during a run. -/
inductive LogEvent (n : Nat) (α : Type u) where
  /-- A pivot was chosen. -/
  | pivotChosen (column row : Fin n) (magnitude : α)
  /-- The matrix from which the rows below a pivot are about to be eliminated. -/
  | beforeElimination (snapshot : DenseMatrix n α)
  /-- The run stops at a column. -/
  | degenerate (column : Fin n) (magnitude tolerance : α)
  /-- The run went through all columns. -/
  | finished (exchanges : Nat)
deriving DecidableEq

/-- What a run has reached. -/
structure State (n : Nat) (α : Type u) where
  /-- The matrix in place. -/
  matrix : DenseMatrix n α
  /-- The exchanges so far. -/
  order : RowOrder n
  /-- The reports so far, in order. -/
  records : List (PivotRecord n α)
  /-- The log so far, in order. -/
  log : List (LogEvent n α)
deriving DecidableEq

/-- Nothing has happened to `A` yet. -/
def State.initial (A : DenseMatrix n α) : State n α where
  matrix := A
  order := RowOrder.identity n
  records := []
  log := []

/-- The column at which a run stopped, the largest magnitude found there, and the tolerance
that it is below. -/
structure Breakdown (n : Nat) (α : Type u) where
  column : Fin n
  pivot : α
  tolerance : α
deriving DecidableEq

/-- A run so far: what it has reached and whether it has stopped. -/
structure Run (n : Nat) (α : Type u) where
  state : State n α
  breakdown? : Option (Breakdown n α)
deriving DecidableEq

namespace Run

/-- The matrix as the run `r` left it. -/
def matrix (r : Run n α) : DenseMatrix n α := r.state.matrix

/-- The reports of the pivots that the run `r` used. -/
def records (r : Run n α) : List (PivotRecord n α) := r.state.records

/-- The log. -/
def log (r : Run n α) : List (LogEvent n α) := r.state.log

/-- The order of a run `r` that did not stop, or else its breakdown. -/
def outcome (r : Run n α) : Except (Breakdown n α) (RowOrder n) :=
  match r.breakdown? with
  | some b => .error b
  | none => .ok r.state.order

end Run

variable [Scalar α]

/-- The state `s` after `column` has been eliminated with `pivot`. -/
def State.eliminate (s : State n α) (column : Fin n) (pivot : Pivot n α) : State n α :=
  let snapshot := s.matrix.swapRows column pivot.row
  { matrix := clearBelow snapshot column
    order := s.order.exchange column pivot.row
    records := s.records ++
      [{ column := column
         pivotRow := pivot.row
         pivot := snapshot.entry column column
         snapshot := snapshot }]
    log := s.log ++
      [.pivotChosen column pivot.row pivot.magnitude, .beforeElimination snapshot] }

/-- One `column`: the run stops if the pivot is below `tolerance`. -/
def attempt (tolerance : α) (column : Fin n) (s : State n α) : Run n α :=
  let pivot := scan s.matrix column
  if Scalar.below pivot.magnitude tolerance then
    { state := { s with log := s.log ++ [.degenerate column pivot.magnitude tolerance] }
      breakdown? := some
        { column := column, pivot := pivot.magnitude, tolerance := tolerance } }
  else
    { state := s.eliminate column pivot, breakdown? := none }

/-- The first `k` columns, unless the run stops before. -/
def sweep (tolerance : α) (A : DenseMatrix n α) : (k : Nat) → k ≤ n → Run n α
  | 0, _ => { state := State.initial A, breakdown? := none }
  | k + 1, h =>
    let before := sweep tolerance A k (Nat.le_of_succ_le h)
    match before.breakdown? with
    | some _ => before
    | none => attempt tolerance ⟨k, h⟩ before.state

/-- A `sweep` of `k + 1` columns is that of `k` columns if this one broke down, and otherwise the
`attempt` at column `k` in the state that it leaves. -/
theorem sweep_succ (tolerance : α) (A : DenseMatrix n α) (k : Nat) (h : k + 1 ≤ n) :
    sweep tolerance A (k + 1) h =
      match (sweep tolerance A k (Nat.le_of_succ_le h)).breakdown? with
      | some _ => sweep tolerance A k (Nat.le_of_succ_le h)
      | none => attempt tolerance ⟨k, h⟩ (sweep tolerance A k (Nat.le_of_succ_le h)).state :=
  rfl

/-- All columns of `A`, and the line that ends the log of a run that did not stop. -/
def decompose (tolerance : α) (A : DenseMatrix n α) : Run n α :=
  let swept := sweep tolerance A n (Nat.le_refl n)
  match swept.breakdown? with
  | some _ => swept
  | none =>
    { swept with
      state := { swept.state with log := swept.log ++ [.finished swept.state.order.exchanges] } }

/-- The matrix that `decompose` leaves is that of the `sweep` over all columns; the end of the log
changes nothing. -/
theorem matrix_decompose (tolerance : α) (A : DenseMatrix n α) :
    (decompose tolerance A).matrix = (sweep tolerance A n (Nat.le_refl n)).matrix := by
  unfold decompose
  dsimp only
  split <;> rfl

end Elimination

end PivotedLU
