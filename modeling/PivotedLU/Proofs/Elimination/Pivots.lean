import PivotedLU.Proofs.Elimination.Reached

/-!
# Pivots and Multipliers

A run writes two kinds of final entries: a diagonal entry is a pivot as the scan found it, and an
entry below the diagonal is a quotient by the pivot of its column. What a single step guarantees of
them holds of the whole result, because later exchanges only rearrange the rows below a finished
column and later steps leave the finished columns alone.

From this follow the two guarantees of partial pivoting: no multiplier is above one, and under a
positive tolerance every diagonal entry has a magnitude that is not below the tolerance.

## Main definitions

* `Scalar.Negligible`: the magnitude is not above zero.
* `BoundedQuotients`: what the bound on the multipliers needs from the arithmetic.

## Main results

* `Reached.forall_diagonal`, `Reached.forall_multiplier`: from one step to a run.
* `BoundedQuotients.not_above_one`: no multiplier is above one, whatever the tolerance.
* `Reached.diagonal_not_below`, `Reached.diagonal_not_negligible`: diagonal entries under a
  positive tolerance.
-/

namespace PivotedLU

universe u

variable {α : Type u} [Scalar α]

/-- The magnitude of `x` is not above `0`: `x` is a zero, or it is `Unordered`. -/
def Scalar.Negligible (x : α) : Prop :=
  Scalar.below 0 (Scalar.magnitude x) = false

instance (x : α) : Decidable (Scalar.Negligible x) :=
  inferInstanceAs (Decidable (_ = false))

namespace Elimination

open Scalar (Negligible)

variable {n k : Nat} {tolerance : α} {A : DenseMatrix n α} {s : State n α}

/-! ## From one step to a run -/

/-- A property `P` of every pivot that is accepted holds of the diagonal entries of the first `k`
columns. -/
theorem Reached.forall_diagonal {P : α → Prop}
    (hpivot : ∀ (M : DenseMatrix n α) (column : Fin n),
      Scalar.below (scan M column).magnitude tolerance = false →
        P (M.entry (scan M column).row column))
    (h : Reached tolerance A k s) {i : Fin n} (hi : i.val < k) : P (s.matrix.entry i i) := by
  induction h with
  | initial => exact absurd hi (Nat.not_lt_zero _)
  | @eliminate s column before accepted ih =>
    -- a finished row is not touched again, and the newest one is the pivot row
    rcases Nat.lt_or_eq_of_le (Nat.le_of_lt_succ hi) with hlt | heq
    · rw [s.entry_eliminate_of_lt (column_le_row_scan s.matrix column) hlt]
      exact ih hlt
    · obtain rfl : i = column := Fin.ext heq
      rw [State.entry_eliminate_self]
      exact hpivot s.matrix i accepted

/-- A property `P` of the quotients of a column by every pivot that is accepted holds of the entries
below the diagonal in the first `k` columns. -/
theorem Reached.forall_multiplier {P : α → Prop}
    (hquotient : ∀ (M : DenseMatrix n α) (column i : Fin n),
      Scalar.below (scan M column).magnitude tolerance = false → column ≤ i →
        P (M.entry i column / M.entry (scan M column).row column))
    (h : Reached tolerance A k s) {i j : Fin n} (hji : j < i) (hj : j.val < k) :
    P (s.matrix.entry i j) := by
  induction h generalizing i with
  | initial => exact absurd hj (Nat.not_lt_zero _)
  | @eliminate s column before accepted ih =>
    have hrow := column_le_row_scan s.matrix column
    rw [State.matrix_eliminate]
    rcases Nat.lt_or_eq_of_le (Nat.le_of_lt_succ hj) with hlt | heq
    · -- a finished column takes part in the exchange only
      rw [entry_clearBelow_of_lt _ hlt, DenseMatrix.entry_swapRows]
      exact ih ((lt_exchanged_iff hrow hlt).2 hji) hlt
    · obtain rfl : j = column := Fin.ext heq
      rw [entry_clearBelow_pivot _ hji, DenseMatrix.entry_swapRows, DenseMatrix.entry_swapRows,
        exchanged_left]
      exact hquotient s.matrix j _ accepted (le_exchanged hrow (Fin.le_of_lt hji))

/-! ## The bound on the multipliers -/

/-- The comparison is a strict order, a quotient by an element that is above zero and not below
the dividend in magnitude is not above one, and neither is a quotient of negligible elements. -/
structure BoundedQuotients (α : Type u) [Scalar α] : Prop extends StrictComparison α where
  quotient : ∀ x p : α, ¬Negligible p →
    Scalar.below (Scalar.magnitude p) (Scalar.magnitude x) = false →
      Scalar.below 1 (Scalar.magnitude (x / p)) = false
  quotient_negligible : ∀ x p : α, Negligible p → Negligible x →
    Scalar.below 1 (Scalar.magnitude (x / p)) = false

/-- In the first `k` columns no multiplier is above `1`, whatever the tolerance. -/
theorem BoundedQuotients.not_above_one (hα : BoundedQuotients α) (h : Reached tolerance A k s)
    {i j : Fin n} (hji : j < i) (hj : j.val < k) :
    Scalar.below 1 (Scalar.magnitude (s.matrix.entry i j)) = false := by
  refine h.forall_multiplier (P := fun x => Scalar.below 1 (Scalar.magnitude x) = false)
    (fun M column i _ hi => ?_) hji hj
  have hcandidate := hα.not_below_scan (A := M) hi
  have hdiagonal := hα.not_below_scan (A := M) (Fin.le_refl column)
  rcases hα.scan_cases M column with hstart | ⟨hfound, habove⟩
  · -- nothing was found above zero, neither at the diagonal nor in the other row
    rw [hstart] at hcandidate hdiagonal ⊢
    exact hα.quotient_negligible _ _ hdiagonal hcandidate
  · rw [hfound] at hcandidate habove
    refine hα.quotient _ _ (fun hnegligible => ?_) hcandidate
    exact Bool.false_ne_true (hnegligible.symm.trans habove)

/-! ## The diagonal under a positive tolerance -/

/-- If `tolerance` is above `0`, a pivot that is accepted was found. -/
theorem scan_ne_start_of_accepted (ht : Scalar.below 0 tolerance = true) {M : DenseMatrix n α}
    {column : Fin n} (h : Scalar.below (scan M column).magnitude tolerance = false) :
    scan M column ≠ ⟨column, 0⟩ := by
  intro hstart
  rw [hstart] at h
  exact Bool.false_ne_true (h.symm.trans ht)

/-- If `tolerance` is above `0`, the diagonal entries of the first `k` columns are not below it in
magnitude. -/
theorem Reached.diagonal_not_below (ht : Scalar.below 0 tolerance = true)
    (h : Reached tolerance A k s) {i : Fin n} (hi : i.val < k) :
    Scalar.below (Scalar.magnitude (s.matrix.entry i i)) tolerance = false := by
  refine h.forall_diagonal (P := fun x => Scalar.below (Scalar.magnitude x) tolerance = false)
    (fun M column accepted => ?_) hi
  rcases scan_cases M column with hstart | hfound
  · exact absurd hstart (scan_ne_start_of_accepted ht accepted)
  · rwa [hfound.2] at accepted

/-- If `tolerance` is above `0`, the diagonal entries of the first `k` columns are not
`Negligible`. -/
theorem Reached.diagonal_not_negligible (hα : StrictComparison α)
    (ht : Scalar.below 0 tolerance = true) (h : Reached tolerance A k s) {i : Fin n}
    (hi : i.val < k) : ¬Negligible (s.matrix.entry i i) := by
  refine h.forall_diagonal (P := fun x => ¬Negligible x) (fun M column accepted => ?_) hi
  rcases hα.scan_cases M column with hstart | ⟨hfound, habove⟩
  · exact absurd hstart (scan_ne_start_of_accepted ht accepted)
  · intro hnegligible
    rw [hfound] at habove
    exact Bool.false_ne_true (hnegligible.symm.trans habove)

end Elimination

end PivotedLU
