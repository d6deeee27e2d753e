import PivotedLU.Factorization.Basic
import PivotedLU.Proofs.Elimination.Scan

/-!
# States That a Run Reaches

A run that has not stopped is a chain of steps, one column each. This module turns the recursion
over the columns into such a chain, so that a property of all runs needs a proof for the start
and one for a step, and lists what one step does to the parts of a state.

## Main definitions

* `Reached`: the states that a run reaches without having stopped.
* `State.finish`: the state with the line that ends the log.
* `Run.finishedColumns`: the number of columns that a run has eliminated.

## Main results

* `Reached.sweep_eq` and `sweep_cases`: the states reached are those of the recursion.
* `Reached.le_induction`: what the later steps keep, the later states have.
* `Reached.entry_eq`: a finished row keeps its entries.
* `Reached.mono`: the states reached under another tolerance.
* `exists_reached_of_step`: a property that takes a run through all columns.
* `decompose_cases`: a run goes through all columns, or it stops at the first one whose pivot is
  below the tolerance.
* `exists_reached_decompose`, `exists_reached_left`: either way it leaves a state that it has
  reached.
* `exists_reached_of_ok`, `exists_reached_of_error`: which state that is, by the outcome.
* `tolerance_eq_of_error`: the tolerance that a breakdown reports.
* `exists_reached_of_le`: which states a run reaches.
* `Reached.prefix_records`: the records of a state are the first ones of the run.
* `Factorization.ofMatrix_eq_ok_iff`: the factorizations that are found.
-/

namespace PivotedLU

universe u

namespace Elimination

variable {α : Type u} {n : Nat}

/-! ## How a run ends -/

namespace Run

/-- A run `r` returns `p` exactly if it has not stopped and `p` is the order of its state. -/
theorem outcome_eq_ok_iff {r : Run n α} {p : RowOrder n} :
    r.outcome = .ok p ↔ r.breakdown? = none ∧ r.state.order = p := by
  unfold outcome
  cases r.breakdown? with
  | none => simp
  | some b => simp

/-- A run `r` fails with `b` exactly if it has stopped with it. -/
theorem outcome_eq_error_iff {r : Run n α} {b : Breakdown n α} :
    r.outcome = .error b ↔ r.breakdown? = some b := by
  unfold outcome
  cases r.breakdown? with
  | none => simp
  | some b => simp

/-- The number of columns that a run `r` has eliminated: all of them, or those before the column in
which it stopped. -/
def finishedColumns (r : Run n α) : Nat :=
  match r.breakdown? with
  | some b => b.column
  | none => n

theorem finishedColumns_of_ok {r : Run n α} {p : RowOrder n} (h : r.outcome = .ok p) :
    r.finishedColumns = n := by
  rw [finishedColumns, (outcome_eq_ok_iff.1 h).1]

theorem finishedColumns_of_error {r : Run n α} {b : Breakdown n α} (h : r.outcome = .error b) :
    r.finishedColumns = b.column := by
  rw [finishedColumns, outcome_eq_error_iff.1 h]

end Run

variable [Scalar α]

/-! ## One step -/

namespace State

/-- A step brings the row of `pivot` to the diagonal and clears `column` below it. -/
theorem matrix_eliminate (s : State n α) (column : Fin n) (pivot : Pivot n α) :
    (s.eliminate column pivot).matrix =
      clearBelow (s.matrix.swapRows column pivot.row) column :=
  rfl

/-- A step exchanges the place `column` with that of `pivot`. -/
theorem order_eliminate (s : State n α) (column : Fin n) (pivot : Pivot n α) :
    (s.eliminate column pivot).order = s.order.exchange column pivot.row :=
  rfl

/-- A step adds the record of its `pivot`. -/
theorem records_eliminate (s : State n α) (column : Fin n) (pivot : Pivot n α) :
    (s.eliminate column pivot).records =
      s.records ++
        [⟨column, pivot.row, (s.matrix.swapRows column pivot.row).entry column column,
          s.matrix.swapRows column pivot.row⟩] :=
  rfl

/-- A step whose pivot stands on the diagonal of `column` already only clears the column. -/
theorem matrix_eliminate_diagonal (s : State n α) (column : Fin n) (m : α) :
    (s.eliminate column ⟨column, m⟩).matrix = clearBelow s.matrix column := by
  rw [matrix_eliminate, DenseMatrix.swapRows_self]

/-- A step whose pivot stands on the diagonal of `column` already counts no exchange. -/
theorem order_eliminate_diagonal (s : State n α) (column : Fin n) (m : α) :
    (s.eliminate column ⟨column, m⟩).order = s.order := by
  rw [order_eliminate, RowOrder.exchange_self]

/-- Rows `i` before `column` are finished: the step leaves them alone. -/
theorem entry_eliminate_of_lt (s : State n α) {column i : Fin n} {pivot : Pivot n α}
    (hrow : column ≤ pivot.row) (hi : i < column) (j : Fin n) :
    (s.eliminate column pivot).matrix.entry i j = s.matrix.entry i j := by
  rw [matrix_eliminate, entry_clearBelow_of_le _ (Fin.le_of_lt hi), DenseMatrix.entry_swapRows,
    exchanged_of_lt hrow hi]

/-- After the step, row `column` is the row of `pivot` as it was found. -/
theorem entry_eliminate_self (s : State n α) (column : Fin n) (pivot : Pivot n α) (j : Fin n) :
    (s.eliminate column pivot).matrix.entry column j = s.matrix.entry pivot.row j := by
  rw [matrix_eliminate, entry_clearBelow_of_le _ (Fin.le_refl column),
    DenseMatrix.entry_swapRows, exchanged_left]

/-- The state `s` with the line that ends the log of a run that went through all columns. -/
def finish (s : State n α) : State n α :=
  { s with log := s.log ++ [.finished s.order.exchanges] }

end State

/-! ## Chains of steps -/

/-- The states that a run on `A` under `tolerance` reaches without having stopped, with the number
of columns eliminated. -/
inductive Reached (tolerance : α) (A : DenseMatrix n α) : Nat → State n α → Prop
  | initial : Reached tolerance A 0 (State.initial A)
  | eliminate {s : State n α} {column : Fin n} (before : Reached tolerance A column s)
      (accepted : Scalar.below (scan s.matrix column).magnitude tolerance = false) :
      Reached tolerance A (column + 1) (s.eliminate column (scan s.matrix column))

variable {tolerance : α} {A : DenseMatrix n α} {k : Nat} {s : State n α}

/-- A run eliminates no more columns `k` than there are. -/
theorem Reached.le (h : Reached tolerance A k s) : k ≤ n := by
  cases h with
  | initial => exact Nat.zero_le n
  | @eliminate _ column _ _ => exact column.isLt

/-- If the magnitude that the scan finds is not below `tolerance`, `column` is eliminated. -/
theorem attempt_of_accepted {column : Fin n}
    (h : Scalar.below (scan s.matrix column).magnitude tolerance = false) :
    attempt tolerance column s = ⟨s.eliminate column (scan s.matrix column), none⟩ := by
  unfold attempt
  dsimp only
  rw [if_neg (by rw [h]; exact Bool.false_ne_true)]

/-- If the magnitude that the scan finds is below `tolerance`, the run stops in `column`, and of `s`
only the log has changed. -/
theorem attempt_of_refused {column : Fin n}
    (h : Scalar.below (scan s.matrix column).magnitude tolerance = true) :
    attempt tolerance column s =
      ⟨{ s with log := s.log ++ [.degenerate column (scan s.matrix column).magnitude tolerance] },
        some ⟨column, (scan s.matrix column).magnitude, tolerance⟩⟩ := by
  unfold attempt
  dsimp only
  rw [if_pos h]

/-- The states that are `Reached` are those of `sweep`, the recursion over the columns. -/
theorem Reached.sweep_eq (h : Reached tolerance A k s) :
    sweep tolerance A k h.le = ⟨s, none⟩ := by
  induction h with
  | initial => rfl
  | eliminate before accepted ih =>
    rw [sweep_succ, ih]
    exact attempt_of_accepted accepted

/-- After `k` columns a run has one state. -/
theorem Reached.unique {s' : State n α} (h : Reached tolerance A k s)
    (h' : Reached tolerance A k s') : s = s' := by
  have heq : (⟨s, none⟩ : Run n α) = ⟨s', none⟩ := h.sweep_eq.symm.trans h'.sweep_eq
  exact congrArg Run.state heq

/-- A property `P` of the state after `k` columns that every step after it keeps holds after `l`
columns. -/
theorem Reached.le_induction {P : State n α → Prop} {l : Nat} {s' : State n α}
    (h : Reached tolerance A k s) (hs : P s)
    (hstep : ∀ (t : State n α) (column : Fin n), Reached tolerance A column t → k ≤ column → P t →
      P (t.eliminate column (scan t.matrix column)))
    (h' : Reached tolerance A l s') (hkl : k ≤ l) : P s' := by
  induction h' with
  | initial =>
    obtain rfl : k = 0 := Nat.le_zero.1 hkl
    rwa [← h.unique Reached.initial]
  | @eliminate t column before accepted ih =>
    rcases Nat.lt_or_eq_of_le hkl with hlt | rfl
    · exact hstep t column before (Nat.le_of_lt_succ hlt) (ih (Nat.le_of_lt_succ hlt))
    · rwa [← h.unique (before.eliminate accepted)]

/-- A row `i` before `k` is finished and keeps its entries: later steps exchange and clear rows
below it only. -/
theorem Reached.entry_eq {l : Nat} {s' : State n α} (h : Reached tolerance A k s)
    (h' : Reached tolerance A l s') (hkl : k ≤ l) {i : Fin n} (hi : i.val < k) (j : Fin n) :
    s'.matrix.entry i j = s.matrix.entry i j := by
  refine h.le_induction (P := fun t => t.matrix.entry i j = s.matrix.entry i j) rfl
    (fun t column _ hcolumn ht => ?_) h' hkl
  have hlt : i < column := Nat.lt_of_lt_of_le hi hcolumn
  rw [t.entry_eliminate_of_lt (column_le_row_scan t.matrix column) hlt]
  exact ht

/-- A run that has gone past `column` has accepted the pivot that the scan found there. -/
theorem Reached.accepted_of_lt {column : Fin n} {s' : State n α} (h : Reached tolerance A k s)
    (h' : Reached tolerance A column s') (hlt : column < k) :
    Scalar.below (scan s'.matrix column).magnitude tolerance = false := by
  induction h with
  | initial => exact absurd hlt (Nat.not_lt_zero _)
  | @eliminate t last before accepted ih =>
    rcases Nat.lt_or_eq_of_le (Nat.le_of_lt_succ hlt) with hcolumn | hcolumn
    · exact ih hcolumn
    · obtain rfl : column = last := Fin.ext hcolumn
      rwa [h'.unique before]

/-- A state `s` is reached under every `tolerance'` that accepts the pivots that `tolerance`
accepts. -/
theorem Reached.mono {tolerance' : α}
    (haccepted : ∀ (M : DenseMatrix n α) (column : Fin n),
      Scalar.below (scan M column).magnitude tolerance = false →
        Scalar.below (scan M column).magnitude tolerance' = false)
    (h : Reached tolerance A k s) : Reached tolerance' A k s := by
  induction h with
  | initial => exact Reached.initial
  | eliminate before accepted ih => exact ih.eliminate (haccepted _ _ accepted)

/-- A property `P` of states that makes the next pivot acceptable, and that the step keeps, takes a
run through all columns up to `k`. -/
theorem exists_reached_of_step {P : Nat → State n α → Prop} (hinitial : P 0 (State.initial A))
    (hstep : ∀ (t : State n α) (column : Fin n), P column t →
      Scalar.below (scan t.matrix column).magnitude tolerance = false ∧
        P (column + 1) (t.eliminate column (scan t.matrix column)))
    (hk : k ≤ n) : ∃ s, Reached tolerance A k s ∧ P k s := by
  induction k with
  | zero => exact ⟨_, Reached.initial, hinitial⟩
  | succ k ih =>
    obtain ⟨s, hs, hP⟩ := ih (Nat.le_of_succ_le hk)
    -- the number of columns is the value of the place, up to unfolding
    have hs : Reached tolerance A (⟨k, hk⟩ : Fin n) s := hs
    obtain ⟨haccepted, hnext⟩ := hstep s ⟨k, hk⟩ hP
    exact ⟨_, hs.eliminate haccepted, hnext⟩

/-- The first `k` columns have all been eliminated, or the run has stopped in one of them. -/
theorem sweep_cases (tolerance : α) (A : DenseMatrix n α) (k : Nat) (hk : k ≤ n) :
    (∃ s, Reached tolerance A k s ∧ sweep tolerance A k hk = ⟨s, none⟩) ∨
      ∃ (column : Fin n) (s : State n α), Reached tolerance A column s ∧
        Scalar.below (scan s.matrix column).magnitude tolerance = true ∧
        sweep tolerance A k hk = attempt tolerance column s := by
  induction k with
  | zero => exact Or.inl ⟨_, Reached.initial, rfl⟩
  | succ k ih =>
    rw [sweep_succ]
    rcases ih (Nat.le_of_succ_le hk) with ⟨s, hs, hsweep⟩ | ⟨column, s, hs, hlow, hsweep⟩
    · rw [hsweep]
      cases hlow : Scalar.below (scan s.matrix ⟨k, hk⟩).magnitude tolerance with
      | false =>
        -- the number of columns is the value of the place, up to unfolding
        have hs : Reached tolerance A (⟨k, hk⟩ : Fin n) s := hs
        exact Or.inl ⟨_, hs.eliminate hlow, attempt_of_accepted hlow⟩
      | true => exact Or.inr ⟨⟨k, hk⟩, s, hs, hlow, rfl⟩
    · -- a run that has stopped carries its breakdown past the columns that are left
      refine Or.inr ⟨column, s, hs, hlow, ?_⟩
      rw [hsweep, attempt_of_refused hlow]

/-- A run that has eliminated all `n` columns only ends its log. -/
theorem Reached.decompose_eq (h : Reached tolerance A n s) :
    decompose tolerance A = ⟨s.finish, none⟩ := by
  unfold decompose
  rw [h.sweep_eq]
  rfl

/-- A run goes through all `n` columns, or it stops at a `column` whose pivot is below `tolerance`
and leaves the state that it had reached before that column. -/
theorem decompose_cases (tolerance : α) (A : DenseMatrix n α) :
    (∃ s, Reached tolerance A n s ∧ decompose tolerance A = ⟨s.finish, none⟩) ∨
      ∃ (column : Fin n) (s : State n α), Reached tolerance A column s ∧
        Scalar.below (scan s.matrix column).magnitude tolerance = true ∧
        decompose tolerance A = attempt tolerance column s := by
  rcases sweep_cases tolerance A n (Nat.le_refl n) with ⟨s, hs, -⟩ | ⟨c, s, hs, hlow, hsweep⟩
  · exact Or.inl ⟨s, hs, hs.decompose_eq⟩
  · refine Or.inr ⟨c, s, hs, hlow, ?_⟩
    unfold decompose
    rw [hsweep, attempt_of_refused hlow]

/-- Apart from its log, a run leaves the state `s` that it reached with its `finishedColumns`,
whether it stopped or not. -/
theorem exists_reached_decompose (tolerance : α) (A : DenseMatrix n α) :
    ∃ s, Reached tolerance A (decompose tolerance A).finishedColumns s ∧
      (decompose tolerance A).state = { s with log := (decompose tolerance A).log } := by
  rcases decompose_cases tolerance A with ⟨s, hs, hrun⟩ | ⟨c, s, hs, hlow, hrun⟩
  · rw [hrun]
    exact ⟨s, hs, rfl⟩
  · rw [hrun, attempt_of_refused hlow]
    exact ⟨s, hs, rfl⟩

/-- The matrix that a run leaves and the records that it has made are those of the state `s` that it
reached with its `finishedColumns`. -/
theorem exists_reached_left (tolerance : α) (A : DenseMatrix n α) :
    ∃ s, Reached tolerance A (decompose tolerance A).finishedColumns s ∧
      (decompose tolerance A).matrix = s.matrix ∧ (decompose tolerance A).records = s.records := by
  obtain ⟨s, hs, hstate⟩ := exists_reached_decompose tolerance A
  refine ⟨s, hs, ?_, ?_⟩
  · rw [Run.matrix, hstate]
  · rw [Run.records, hstate]

/-- If a run has reached a state after `k` columns, it has at least `k` `finishedColumns` in the
end. -/
theorem Reached.le_finishedColumns (h : Reached tolerance A k s) :
    k ≤ (decompose tolerance A).finishedColumns := by
  rcases decompose_cases tolerance A with ⟨s', -, hrun⟩ | ⟨column, s', hs', hlow, hrun⟩
  · rw [hrun]
    exact h.le
  · rw [hrun, attempt_of_refused hlow]
    refine Nat.le_of_not_lt fun hlt => ?_
    exact Bool.false_ne_true ((h.accepted_of_lt hs' hlt).symm.trans hlow)

/-- A run has reached a state after every number `k` of columns up to its `finishedColumns`. -/
theorem exists_reached_of_le (hk : k ≤ (decompose tolerance A).finishedColumns) :
    ∃ s, Reached tolerance A k s := by
  obtain ⟨last, hlast, -⟩ := exists_reached_decompose tolerance A
  generalize (decompose tolerance A).finishedColumns = m at hk hlast
  induction hlast with
  | initial =>
    obtain rfl : k = 0 := Nat.le_zero.1 hk
    exact ⟨_, Reached.initial⟩
  | @eliminate s column before accepted ih =>
    rcases Nat.lt_or_eq_of_le hk with hlt | rfl
    · exact ih (Nat.le_of_lt_succ hlt)
    · exact ⟨_, before.eliminate accepted⟩

/-- The records of a state `s` are the first records of the run. -/
theorem Reached.prefix_records (h : Reached tolerance A k s) :
    s.records <+: (decompose tolerance A).records := by
  obtain ⟨s', hs', -, hrecords⟩ := exists_reached_left tolerance A
  rw [hrecords]
  refine h.le_induction (P := fun t => s.records <+: t.records) (List.prefix_refl _)
    (fun t column _ _ ht => ?_) hs' h.le_finishedColumns
  rw [State.records_eliminate]
  exact ht.trans (List.prefix_append _ _)

/-- A run that returns `p` has reached a state after all columns, with the order `p` and the records
of the run. -/
theorem exists_reached_of_ok {p : RowOrder n} (h : (decompose tolerance A).outcome = .ok p) :
    ∃ s, Reached tolerance A n s ∧ s.order = p ∧ s.records = (decompose tolerance A).records := by
  obtain ⟨s, hs, hstate⟩ := exists_reached_decompose tolerance A
  rw [Run.finishedColumns_of_ok h] at hs
  obtain ⟨-, horder⟩ := Run.outcome_eq_ok_iff.1 h
  refine ⟨s, hs, ?_, ?_⟩
  · rw [← horder, hstate]
  · rw [Run.records, hstate]

/-- A run that returns `p` has reached a state after all columns, and leaves its matrix. -/
theorem exists_reached_matrix_of_ok {p : RowOrder n}
    (h : (decompose tolerance A).outcome = .ok p) :
    ∃ s, Reached tolerance A n s ∧ s.matrix = (decompose tolerance A).matrix := by
  obtain ⟨s, hs, hmatrix, -⟩ := exists_reached_left tolerance A
  rw [Run.finishedColumns_of_ok h] at hs
  exact ⟨s, hs, hmatrix.symm⟩

/-- A run that fails with `b` has reached a state after the columns before `b.column`, and `b.pivot`
is the magnitude found there, which is below `tolerance`. -/
theorem exists_reached_of_error {b : Breakdown n α}
    (h : (decompose tolerance A).outcome = .error b) :
    ∃ s, Reached tolerance A b.column s ∧ b.pivot = (scan s.matrix b.column).magnitude ∧
      Scalar.below b.pivot tolerance = true := by
  rcases decompose_cases tolerance A with ⟨s, -, hrun⟩ | ⟨column, s, hs, hlow, hrun⟩
  · rw [hrun] at h
    cases h
  · rw [hrun, attempt_of_refused hlow] at h
    cases h
    exact ⟨s, hs, rfl, hlow⟩

/-- A run that has reached a `column` whose pivot is below `tolerance` fails there. -/
theorem Reached.outcome_eq_error {column : Fin n} (h : Reached tolerance A column s)
    (hlow : Scalar.below (scan s.matrix column).magnitude tolerance = true) :
    (decompose tolerance A).outcome =
      .error ⟨column, (scan s.matrix column).magnitude, tolerance⟩ := by
  rcases decompose_cases tolerance A with ⟨s', hs', -⟩ | ⟨column', s', hs', hlow', hrun⟩
  · exact absurd ((hs'.accepted_of_lt h column.isLt).symm.trans hlow) Bool.false_ne_true
  · -- it stops in no other column: it has gone past those before, and would have gone past this one
    have hcolumn : column = column' := by
      rcases lt_trichotomy column column' with hlt | heq | hlt
      · exact absurd ((hs'.accepted_of_lt h hlt).symm.trans hlow) Bool.false_ne_true
      · exact heq
      · exact absurd ((h.accepted_of_lt hs' hlt).symm.trans hlow') Bool.false_ne_true
    subst hcolumn
    rw [hrun, h.unique hs', attempt_of_refused hlow']
    rfl

/-- A run that fails with `b` reports the `tolerance` that it was given. -/
theorem tolerance_eq_of_error {b : Breakdown n α}
    (h : (decompose tolerance A).outcome = .error b) : b.tolerance = tolerance := by
  obtain ⟨s, hs, hpivot, hlow⟩ := exists_reached_of_error h
  rw [hpivot] at hlow
  have hreported := h.symm.trans (hs.outcome_eq_error hlow)
  exact congrArg Breakdown.tolerance (Except.error.inj hreported)

/-- A run that has eliminated all `n` columns leaves the matrix of its state `s`. -/
theorem Reached.matrix_eq (h : Reached tolerance A n s) :
    (decompose tolerance A).matrix = s.matrix := by
  rw [h.decompose_eq]
  rfl

/-- A run that has eliminated all `n` columns returns the order of its state `s`. -/
theorem Reached.outcome_eq_ok (h : Reached tolerance A n s) :
    (decompose tolerance A).outcome = .ok s.order := by
  rw [h.decompose_eq]
  rfl

/-- A run returns some `p`, or it fails with some `b`. -/
theorem outcome_eq_ok_or_error (tolerance : α) (A : DenseMatrix n α) :
    (∃ p, (decompose tolerance A).outcome = .ok p) ∨
      ∃ b, (decompose tolerance A).outcome = .error b := by
  cases (decompose tolerance A).outcome with
  | ok p => exact Or.inl ⟨p, rfl⟩
  | error b => exact Or.inr ⟨b, rfl⟩

end Elimination

/-! ## Factorizations -/

variable {α : Type u} [Scalar α] {n : Nat}

/-- A factorization `f` is found exactly if the run goes through all columns, and it holds the
matrix and the order of the state that the run has reached then. -/
theorem Factorization.ofMatrix_eq_ok_iff {tolerance : α} {A : DenseMatrix n α}
    {f : Factorization n α} :
    ofMatrix tolerance A = .ok f ↔
      ∃ s, Elimination.Reached tolerance A n s ∧ f = ⟨s.matrix, s.order⟩ := by
  unfold ofMatrix
  constructor
  · intro h
    rcases Elimination.decompose_cases tolerance A with ⟨s, hs, hrun⟩ | ⟨c, s, hs, hlow, hrun⟩
    · rw [hrun] at h
      exact ⟨s, hs, (Except.ok.inj h).symm⟩
    · rw [hrun, Elimination.attempt_of_refused hlow] at h
      cases h
  · rintro ⟨s, hs, rfl⟩
    rw [hs.decompose_eq]
    rfl

end PivotedLU
