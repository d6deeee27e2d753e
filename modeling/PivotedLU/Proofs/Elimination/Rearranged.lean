import PivotedLU.Proofs.Binary.Order
import PivotedLU.Proofs.Elimination.Reached
import PivotedLU.Proofs.RowOrder.Parity

/-!
# Runs on Rearranged Rows

Two runs on the same rows in different orders can be followed side by side. After each column the
rows that are not finished stand in different orders in the two matrices, and a permutation of these
places says which row corresponds to which. As long as both runs choose corresponding rows as pivots
they perform the same operations on corresponding rows, and the finished rows are the same.

The first use is a matrix whose rows have been brought into the order that its own run returns.
There every pivot stands on the diagonal already, and the scan, which keeps the earliest of equal
rows and starts from the diagonal, leaves it there.

## Main definitions

* `Rearranged`: corresponding states of two runs.

## Main results

* `Rearranged.eliminate`: a step of both runs with corresponding pivots.
* `Rearranged.matrix_eq`, `Rearranged.source_eq`: what the runs have in common in the end.
* `Reached.source_eq`: the order of finished rows does not change any more.
* `decompose_permuteRows`: the run on the rows in the order that it returns.
-/

namespace PivotedLU

universe u

variable {n : Nat}

/-- A permutation `σ` that leaves the first `k` places alone keeps the others behind them. -/
theorem le_apply_iff_of_fixed {σ : Equiv.Perm (Fin n)} {k : Nat}
    (h : ∀ i : Fin n, i.val < k → σ i = i) (i : Fin n) : k ≤ σ i ↔ k ≤ i := by
  rw [← not_lt, ← not_lt, not_iff_not]
  constructor
  · intro hi
    rwa [σ.injective (h (σ i) hi)] at hi
  · intro hi
    rwa [h i hi]

namespace Elimination

variable {α : Type u} {q : RowOrder n} {k : Nat} {σ : Equiv.Perm (Fin n)} {s s' : State n α}

/-- A state with `k` columns eliminated, and one of a run on the rows in the order `q`: the row at
place `i` of the second is the row at place `σ i` of the first, also in the original matrices, and
the finished rows stand at the same places. -/
structure Rearranged (q : RowOrder n) (k : Nat) (σ : Equiv.Perm (Fin n)) (s s' : State n α) :
    Prop where
  finished : ∀ i : Fin n, i.val < k → σ i = i
  entry : ∀ i j, s'.matrix.entry i j = s.matrix.entry (σ i) j
  source : ∀ i, q.source (s'.order.source i) = s.order.source (σ i)

namespace Rearranged

/-- Runs on `A` and on its rows in the order `q` start with states that correspond by `q`. -/
theorem initial (q : RowOrder n) (A : DenseMatrix n α) :
    Rearranged q 0 q.perm (State.initial A) (State.initial (q.permuteRows A)) where
  finished i hi := absurd hi (Nat.not_lt_zero _)
  entry i j := RowOrder.entry_permuteRows q A i j
  source i := by
    rw [State.initial, State.initial, RowOrder.source_identity, RowOrder.source_identity]
    rfl

/-- By `σ`, rows that are not finished correspond to rows that are not finished. -/
theorem le_apply_iff (h : Rearranged q k σ s s') (i : Fin n) : k ≤ σ i ↔ k ≤ i :=
  le_apply_iff_of_fixed h.finished i

/-- When all `n` rows are finished the matrices are the same. -/
theorem matrix_eq (h : Rearranged q n σ s s') : s'.matrix = s.matrix := by
  ext i j
  rw [h.entry, h.finished i i.isLt]

/-- When all `n` rows are finished the same rows of `A` have come to stand at each place. -/
theorem source_eq (h : Rearranged q n σ s s') (i : Fin n) :
    q.source (s'.order.source i) = s.order.source i := by
  rw [h.source, h.finished i i.isLt]

variable [Scalar α] {column : Fin n}

/-- A step of both runs whose pivots stand in corresponding rows leads to states that correspond by
`σ` between the two exchanges. -/
theorem eliminate (h : Rearranged q column σ s s') {pivot pivot' : Pivot n α}
    (hrow : σ pivot'.row = pivot.row) (hle : column ≤ pivot.row) (hle' : column ≤ pivot'.row) :
    Rearranged q (column + 1)
      (Equiv.swap column pivot.row * σ * Equiv.swap column pivot'.row)
      (s.eliminate column pivot) (s'.eliminate column pivot') := by
  generalize hτ : Equiv.swap column pivot.row * σ * Equiv.swap column pivot'.row = τ
  have hτ_apply : ∀ i, τ i = exchanged column pivot.row (σ (exchanged column pivot'.row i)) := by
    intro i
    rw [← hτ, exchanged_eq_swap, exchanged_eq_swap]
    rfl
  -- the exchange of the first run undoes the last part of `τ`
  have hexchanged : ∀ i, exchanged column pivot.row (τ i) = σ (exchanged column pivot'.row i) :=
    fun i => by rw [hτ_apply, exchanged_exchanged]
  have hfixed : ∀ i : Fin n, i.val < column + 1 → τ i = i := by
    intro i hi
    rw [hτ_apply]
    rcases Nat.lt_or_eq_of_le (Nat.le_of_lt_succ hi) with hlt | heq
    · rw [exchanged_of_lt hle' hlt, h.finished i hlt, exchanged_of_lt hle hlt]
    · obtain rfl : i = column := Fin.ext heq
      rw [exchanged_left, hrow, exchanged_right]
  have hswapped : ∀ i j, (s'.matrix.swapRows column pivot'.row).entry i j =
      (s.matrix.swapRows column pivot.row).entry (τ i) j := by
    intro i j
    rw [DenseMatrix.entry_swapRows, h.entry, DenseMatrix.entry_swapRows, hexchanged]
  have hbelow : ∀ i, column < τ i ↔ column < i := le_apply_iff_of_fixed hfixed
  refine ⟨hfixed, fun i j => ?_, fun i => ?_⟩
  · -- clearing reads the row itself and the pivot row, which is the same in both
    rw [State.matrix_eliminate, State.matrix_eliminate, entry_clearBelow, entry_clearBelow]
    simp only [hswapped, hfixed column (Nat.lt_succ_self _), hbelow]
  · rw [State.order_eliminate, State.order_eliminate, RowOrder.source_exchange,
      RowOrder.source_exchange, h.source, hexchanged]

end Rearranged

/-! ## The rows in the order of their own run -/

variable [Scalar α] {tolerance : α} {A : DenseMatrix n α}

/-- A row `i` before `k` is finished and is not moved any more. -/
theorem Reached.source_eq {l : Nat} (h : Reached tolerance A k s) (h' : Reached tolerance A l s')
    (hkl : k ≤ l) {i : Fin n} (hi : i.val < k) : s'.order.source i = s.order.source i := by
  refine h.le_induction (P := fun t => t.order.source i = s.order.source i) rfl
    (fun t column _ hcolumn ht => ?_) h' hkl
  have hlt : i < column := Nat.lt_of_lt_of_le hi hcolumn
  rw [State.order_eliminate, RowOrder.source_exchange,
    exchanged_of_lt (column_le_row_scan t.matrix column) hlt]
  exact ht

/-- A run on the rows of `A` in the order that a run returns in its `last` state follows that run
without an exchange. -/
theorem Reached.exists_rearranged_of_order (hα : StrictComparison α) {last : State n α}
    (hlast : Reached tolerance A n last) (h : Reached tolerance A k s) :
    ∃ s' σ, Reached tolerance (last.order.permuteRows A) k s' ∧
      s'.order = RowOrder.identity n ∧ Rearranged last.order k σ s s' := by
  induction h with
  | initial => exact ⟨_, _, Reached.initial, rfl, Rearranged.initial _ _⟩
  | @eliminate s column before accepted ih =>
    obtain ⟨s', σ, hs', horder, hrearranged⟩ := ih
    -- the row that will be finished at the diagonal is the pivot row, and stands there already
    have hrow : σ column = (scan s.matrix column).row := by
      refine s.order.source_injective ?_
      have hnext := before.eliminate accepted
      have hfinished := hnext.source_eq hlast hnext.le (Nat.lt_succ_self _)
      rw [State.order_eliminate, RowOrder.source_exchange, exchanged_left] at hfinished
      rw [← hrearranged.source, horder, RowOrder.source_identity]
      exact hfinished
    have hscan : scan s'.matrix column = ⟨column, (scan s.matrix column).magnitude⟩ := by
      refine scan_eq_diagonal ?_ fun i hi => ?_
      · rcases hα.scan_cases s.matrix column with hstart | ⟨hfound, habove⟩
        · rw [hstart]
          exact Or.inl rfl
        · refine Or.inr ⟨?_, habove⟩
          rw [hrearranged.entry, hrow]
          exact hfound
      · rw [hrearranged.entry]
        exact hα.not_below_scan ((hrearranged.le_apply_iff i).2 hi)
    have haccepted : Scalar.below (scan s'.matrix column).magnitude tolerance = false := by
      rw [hscan]
      exact accepted
    refine ⟨_, _, hs'.eliminate haccepted, ?_,
      hrearranged.eliminate ?_ (column_le_row_scan s.matrix column)
        (column_le_row_scan s'.matrix column)⟩
    · rw [hscan, State.order_eliminate_diagonal, horder]
    · rw [hscan]
      exact hrow

/-- **Factoring the permuted matrix.** Let the run on `A` return `p`, under whatever `tolerance`.
The run on `p.permuteRows A` under the same tolerance succeeds with `RowOrder.identity n` and leaves
the same matrix. All that is asked of the arithmetic is a `StrictComparison`. -/
theorem decompose_permuteRows (hα : StrictComparison α) {p : RowOrder n}
    (h : (decompose tolerance A).outcome = .ok p) :
    (decompose tolerance (p.permuteRows A)).outcome = .ok (RowOrder.identity n) ∧
      (decompose tolerance (p.permuteRows A)).matrix = (decompose tolerance A).matrix := by
  obtain ⟨s, hs, rfl, -⟩ := exists_reached_of_ok h
  obtain ⟨s', σ, hs', horder, hrearranged⟩ := hs.exists_rearranged_of_order hα hs
  refine ⟨?_, ?_⟩
  · rw [hs'.outcome_eq_ok, horder]
  · rw [hs'.matrix_eq, hs.matrix_eq, hrearranged.matrix_eq]

/-- The first column of `A` has a tie and `nan`, the last one has no pivot at all. -/
theorem decompose_permuteRows_tie :
    let A : DenseMatrix 3 Binary64 :=
      ⟨#v[#v[.nan, 1, 0], #v[.ofNat 2, 1, 1], #v[.neg (.ofNat 2), .ofNat 3, 1]]⟩
    let p : RowOrder 3 := { sources := #v[1, 2, 0], distinct := by decide, exchanges := 2 }
    (decompose 0 A).outcome = .ok p ∧
      (decompose 0 (p.permuteRows A)).outcome = .ok (RowOrder.identity 3) ∧
      (decompose 0 (p.permuteRows A)).matrix = (decompose 0 A).matrix := by
  intro A p
  have hrun : (decompose 0 A).outcome = .ok p := by decide +kernel
  exact ⟨hrun, decompose_permuteRows Binary.strictComparison hrun⟩

end Elimination

end PivotedLU
