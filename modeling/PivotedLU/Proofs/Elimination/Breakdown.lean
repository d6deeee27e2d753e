import PivotedLU.Proofs.Binary.Order
import PivotedLU.Proofs.Elimination.Pivots
import PivotedLU.Proofs.Exact.Basic

/-!
# Where a Run Breaks Down

The steps of an elimination do not look at the tolerance; it only decides how many of them are made.
So there is one sequence of states for each matrix, and a run stops before the first column of this
sequence whose largest magnitude is below the tolerance. The state before that column is what it
leaves, and what it reports is what the column holds there.

## Main definitions

* `eliminated`: the state after the first columns, whatever their pivots are.

## Main results

* `Reached.eq_eliminated`, `reached_eliminated`: how far the states of a run go.
* `outcome_eq_error_iff_scan`, `exists_outcome_eq_ok_iff_scan`: both ends of a run, by its scans.
* `decompose_breakdown`: the same for the largest magnitudes of the columns, and what a breakdown
  leaves behind.
-/

namespace PivotedLU

universe u

namespace Elimination

open Scalar (Unordered)

variable {α : Type u} [Scalar α] {n k : Nat} {tolerance : α} {A : DenseMatrix n α} {s : State n α}

/-- The state after the first `k` columns have been eliminated, whatever their pivots are. -/
def eliminated (A : DenseMatrix n α) : (k : Nat) → k ≤ n → State n α
  | 0, _ => State.initial A
  | k + 1, h =>
    let before := eliminated A k (Nat.le_of_succ_le h)
    before.eliminate ⟨k, h⟩ (scan before.matrix ⟨k, h⟩)

/-! ## How far a run goes -/

/-- The states that a run reaches are those of `eliminated`. -/
theorem Reached.eq_eliminated (h : Reached tolerance A k s) : s = eliminated A k h.le := by
  induction h with
  | initial => rfl
  | @eliminate _ column _ _ ih =>
    exact congrArg (fun t => t.eliminate column (scan t.matrix column)) ih

/-- A run reaches `eliminated A k` if the scans of the columns before `k` find no magnitude below
`tolerance`. -/
theorem reached_eliminated (hk : k ≤ n)
    (haccepted : ∀ c : Fin n, c.val < k →
      Scalar.below (scan (eliminated A c c.isLt.le).matrix c).magnitude tolerance = false) :
    Reached tolerance A k (eliminated A k hk) := by
  induction k with
  | zero => exact Reached.initial
  | succ k ih =>
    have hbefore : Reached tolerance A (⟨k, hk⟩ : Fin n) (eliminated A k (Nat.le_of_succ_le hk)) :=
      ih (Nat.le_of_succ_le hk) fun c hc => haccepted c (Nat.lt_succ_of_lt hc)
    exact hbefore.eliminate (haccepted ⟨k, hk⟩ (Nat.lt_succ_self k))

/-- A run that has gone past column `c` has accepted the pivot that stands there in
`eliminated A c`. -/
theorem Reached.accepted_eliminated (h : Reached tolerance A k s) {c : Fin n} (hc : c.val < k) :
    Scalar.below (scan (eliminated A c c.isLt.le).matrix c).magnitude tolerance = false := by
  obtain ⟨t, ht⟩ := exists_reached_of_le (hc.le.trans h.le_finishedColumns)
  rw [← ht.eq_eliminated]
  exact h.accepted_of_lt ht hc

/-- A run fails exactly in the first column `c` whose pivot in `eliminated A c` is below
`tolerance`. -/
theorem outcome_eq_error_iff_scan {c : Fin n} {m t : α} :
    (decompose tolerance A).outcome = .error ⟨c, m, t⟩ ↔
      m = (scan (eliminated A c c.isLt.le).matrix c).magnitude ∧
        Scalar.below m tolerance = true ∧ t = tolerance ∧
        ∀ c' < c,
          Scalar.below (scan (eliminated A c' c'.isLt.le).matrix c').magnitude tolerance =
            false := by
  constructor
  · intro h
    obtain ⟨s, hs, hpivot, hlow⟩ := exists_reached_of_error h
    dsimp only at hs hpivot hlow
    have htolerance : t = tolerance := by
      rw [hpivot] at hlow
      rw [hs.outcome_eq_error hlow] at h
      exact (congrArg Breakdown.tolerance (Except.error.inj h)).symm
    rw [hs.eq_eliminated] at hpivot
    exact ⟨hpivot, hlow, htolerance, fun c' hc' => hs.accepted_eliminated hc'⟩
  · rintro ⟨rfl, hlow, rfl, haccepted⟩
    exact (reached_eliminated c.isLt.le haccepted).outcome_eq_error hlow

/-- A run succeeds exactly if for no column `c` the pivot in `eliminated A c` is below
`tolerance`. -/
theorem exists_outcome_eq_ok_iff_scan :
    (∃ p, (decompose tolerance A).outcome = .ok p) ↔
      ∀ c : Fin n,
        Scalar.below (scan (eliminated A c c.isLt.le).matrix c).magnitude tolerance = false := by
  constructor
  · rintro ⟨p, hp⟩ c
    obtain ⟨s, hs, -, -⟩ := exists_reached_of_ok hp
    exact hs.accepted_eliminated c.isLt
  · intro haccepted
    exact ⟨_, (reached_eliminated le_rfl fun c _ => haccepted c).outcome_eq_ok⟩

/-- A run that fails with `b` leaves the matrix of `eliminated A b.column`. -/
theorem matrix_eq_eliminated_of_error {b : Breakdown n α}
    (h : (decompose tolerance A).outcome = .error b) :
    (decompose tolerance A).matrix = (eliminated A b.column b.column.isLt.le).matrix := by
  obtain ⟨s, hs, hmatrix, -⟩ := exists_reached_left tolerance A
  rw [Run.finishedColumns_of_error h] at hs
  rw [hmatrix, hs.eq_eliminated]

/-! ## Breakdowns -/

/-- **Where a run breaks down.** Under `MagnitudeLaws`, as floats and ordered fields have them, let
`before c` be the matrix with the columns before `c` eliminated, whatever the pivots.

- The run fails with `⟨c, m, t⟩` exactly if `m` is the `LargestMagnitude` of column `c` in
  `before c`, `m` is below `tolerance`, `t` is `tolerance`, and for no column `c'` before `c` the
  largest magnitude is below `tolerance`.
- It succeeds exactly if there is no such column, and it ends in no third way.
- A run that fails with `b` leaves `before b.column`, where `b.pivot` is the largest magnitude of
  the column. If `tolerance` is above `0`, the diagonal entries before this column are not
  `Unordered`, and not below `tolerance` in magnitude. -/
theorem decompose_breakdown (hα : MagnitudeLaws α) (tolerance : α) (A : DenseMatrix n α) :
    let r := decompose tolerance A
    let before := fun c : Fin n => (eliminated A c c.isLt.le).matrix
    (∀ c m t, r.outcome = .error ⟨c, m, t⟩ ↔
      LargestMagnitude (before c) c m ∧ Scalar.below m tolerance = true ∧ t = tolerance ∧
        ∀ c' < c, ∀ m', LargestMagnitude (before c') c' m' →
          Scalar.below m' tolerance = false) ∧
    ((∃ p, r.outcome = .ok p) ↔
      ∀ c m, LargestMagnitude (before c) c m → Scalar.below m tolerance = false) ∧
    ((∃ p, r.outcome = .ok p) ∨ ∃ c m, r.outcome = .error ⟨c, m, tolerance⟩) ∧
    ∀ b, r.outcome = .error b →
      r.matrix = before b.column ∧ LargestMagnitude r.matrix b.column b.pivot ∧
      (Scalar.below 0 tolerance = true → ∀ i < b.column,
        ¬Unordered (r.matrix.entry i i) ∧
          Scalar.below (Scalar.magnitude (r.matrix.entry i i)) tolerance = false) := by
  intro r before
  simp only [hα.largestMagnitude_iff, forall_eq]
  refine ⟨fun c m t => outcome_eq_error_iff_scan, exists_outcome_eq_ok_iff_scan, ?_,
    fun b hb => ⟨matrix_eq_eliminated_of_error hb, ?_, fun ht i hi => ?_⟩⟩
  · rcases outcome_eq_ok_or_error tolerance A with hok | ⟨⟨c, m, t⟩, hb⟩
    · exact Or.inl hok
    · obtain ⟨-, -, rfl, -⟩ := outcome_eq_error_iff_scan.1 hb
      exact Or.inr ⟨c, m, hb⟩
  · rw [show r.matrix = before b.column from matrix_eq_eliminated_of_error hb]
    exact (outcome_eq_error_iff_scan.1 hb).1
  · -- the finished columns of the state that is left have accepted pivots on the diagonal
    obtain ⟨s, hs, hmatrix, -⟩ := exists_reached_left tolerance A
    rw [Run.finishedColumns_of_error hb] at hs
    rw [show r.matrix = s.matrix from hmatrix]
    have hpivot := hs.diagonal_not_negligible hα.toStrictComparison ht hi
    exact ⟨hα.not_unordered (by simpa [Scalar.Negligible] using hpivot),
      hs.diagonal_not_below ht hi⟩

/-- The rationals have the `MagnitudeLaws` of ordered fields. -/
theorem magnitudeLaws_rat : MagnitudeLaws ℚ := by
  refine magnitudeLaws_of_lt below_eq_true_iff (fun x => ?_) ?_
  · rw [magnitude_eq_abs]
    exact abs_nonneg x
  · rw [magnitude_eq_abs]
    exact abs_zero

/-- A column of `A` in which nothing is a number when its turn comes, and a pivot of `B` below the
tolerance. -/
theorem decompose_breakdown_nanColumn :
    let A : DenseMatrix 2 Binary64 := ⟨#v[#v[1, 1], #v[.ofNat 2, .nan]]⟩
    let B : DenseMatrix 2 ℚ := ⟨#v[#v[2, 4], #v[4, 4]]⟩
    (decompose 1 A).outcome = .error ⟨1, 0, 1⟩ ∧
      LargestMagnitude (decompose 1 A).matrix 1 0 ∧
      (¬Unordered ((decompose 1 A).matrix.entry 0 0) ∧
        Scalar.below (Scalar.magnitude ((decompose 1 A).matrix.entry 0 0)) 1 = false) ∧
      (decompose 3 B).outcome = .error ⟨1, 2, 3⟩ ∧
      LargestMagnitude (eliminated B 1 (by decide)).matrix 1 2 := by
  intro A B
  have hA : (decompose 1 A).outcome = .error ⟨1, 0, 1⟩ := by decide +kernel
  have hB : (decompose 3 B).outcome = .error ⟨1, 2, 3⟩ := by decide +kernel
  obtain ⟨-, -, -, hleft⟩ := decompose_breakdown Binary.magnitudeLaws 1 A
  obtain ⟨-, hlargest, hdiagonal⟩ := hleft _ hA
  exact ⟨hA, hlargest, hdiagonal (by decide +kernel) 0 (by decide), hB,
    (((decompose_breakdown magnitudeLaws_rat 3 B).1 1 2 3).1 hB).1⟩

end Elimination

end PivotedLU
