import Mathlib.Tactic.GCongr
import Mathlib.Tactic.Ring
import PivotedLU.Proofs.Elimination.Records
import PivotedLU.Proofs.Exact.Factorization

/-!
# Element Growth

An elimination step subtracts from an entry a multiple of the entry in the pivot row. Partial
pivoting keeps the multipliers at most one in magnitude, so the entries of the rows that are not
finished can at most double, and once a row is finished it does not grow any more.

## Main definitions

* `GrowthBounded`: the bound on the entries of all rows at a moment of a run.

## Main results

* `GrowthBounded.swapRows`, `GrowthBounded.clearBelow`: the two halves of a step.
* `Reached.growthBounded`: the bound at every moment of a run.
* `growth_bounds`: the bound on what a run reports and on what it leaves.
-/

namespace PivotedLU

variable {n : Nat}

namespace Elimination

/-- With `k` columns eliminated, the entries of a row that are not multipliers are at most `M` in
magnitude, doubled once for each step that the row has gone through: a row above place `k` was
finished in its own step. -/
def GrowthBounded (M : ℚ) (k : Nat) (F : DenseMatrix n ℚ) : Prop :=
  ∀ i j : Fin n, min i.val k ≤ j.val → |F.entry i j| ≤ 2 ^ min i.val k * M

namespace GrowthBounded

variable {M : ℚ} {F : DenseMatrix n ℚ}

/-- Before the first step nothing has grown beyond `M`. -/
theorem zero (h : ∀ i j, |F.entry i j| ≤ M) : GrowthBounded M 0 F := by
  intro i j _
  simpa using h i j

/-- The bound on the entries that the step of `column` works on. -/
theorem unfinished {column i j : Fin n} (h : GrowthBounded M column F) (hi : column ≤ i)
    (hj : column ≤ j) : |F.entry i j| ≤ 2 ^ column.val * M := by
  have hbound := h i j
  rw [min_eq_right (Fin.le_def.1 hi)] at hbound
  exact hbound hj

/-- Rows that are not finished have the same bound, so `column` and `other` can be exchanged. -/
theorem swapRows {column other : Fin n} (h : GrowthBounded M column F) (hle : column ≤ other) :
    GrowthBounded M column (F.swapRows column other) := by
  intro i j hj
  rw [DenseMatrix.entry_swapRows]
  have hmin : min (exchanged column other i).val column.val = min i.val column.val := by
    rcases lt_or_ge i column with hi | hi
    · rw [exchanged_of_lt hle hi]
    · have hi' : column ≤ exchanged column other i := le_exchanged hle hi
      rw [min_eq_right (Fin.le_def.1 hi), min_eq_right (Fin.le_def.1 hi')]
  have hentry := h (exchanged column other i) j
  rw [hmin] at hentry
  exact hentry hj

/-- Clearing `column` with multipliers that are at most one doubles the bound of the rows below it,
and of no others. -/
theorem clearBelow {column : Fin n} (h : GrowthBounded M column F)
    (hmultiplier : ∀ i, column < i → |(Elimination.clearBelow F column).entry i column| ≤ 1) :
    GrowthBounded M (column + 1) (Elimination.clearBelow F column) := by
  intro i j hj
  rcases le_or_gt i column with hi | hi
  · have hmin : min i.val (column.val + 1) = min i.val column.val := by omega
    rw [hmin] at hj ⊢
    rw [entry_clearBelow_of_le F hi]
    exact h i j hj
  · have hnew : min i.val (column.val + 1) = column.val + 1 := by omega
    rw [hnew] at hj ⊢
    have hentry : |F.entry i j| ≤ 2 ^ column.val * M := h.unfinished hi.le (Nat.le_of_succ_le hj)
    have hpivot : |F.entry column j| ≤ 2 ^ column.val * M :=
      h.unfinished le_rfl (Nat.le_of_succ_le hj)
    rw [entry_clearBelow_right F hi hj]
    -- one product more, and its multiplier is at most one: the bound is doubled
    generalize hm : (Elimination.clearBelow F column).entry i column = m
    have hm_le : |m| ≤ 1 := hm ▸ hmultiplier i hi
    calc |F.entry i j - m * F.entry column j|
        ≤ |F.entry i j| + |m| * |F.entry column j| := by
          rw [← abs_mul]
          exact abs_sub _ _
      _ ≤ 2 ^ column.val * M + 1 * (2 ^ column.val * M) := by gcongr
      _ = 2 ^ (column.val + 1) * M := by ring

end GrowthBounded

/-! ## Runs -/

variable {tolerance M : ℚ} {A : DenseMatrix n ℚ} {k : Nat} {s : State n ℚ}

/-- The entries of a state after `k` columns are `GrowthBounded`, whatever the tolerance. -/
theorem Reached.growthBounded (hA : ∀ i j, |A.entry i j| ≤ M) (h : Reached tolerance A k s) :
    GrowthBounded M k s.matrix := by
  induction h with
  | initial => exact GrowthBounded.zero hA
  | @eliminate s column before accepted ih =>
    have hsnapshot := ih.swapRows (column_le_row_scan s.matrix column)
    refine hsnapshot.clearBelow fun i hi => ?_
    exact (before.eliminate accepted).abs_multiplier_le_one hi (Nat.lt_succ_self _)

/-- The entries of a snapshot from its pivot on, to the right and downwards. -/
theorem Reached.abs_snapshot_le (hA : ∀ i j, |A.entry i j| ≤ M) (h : Reached tolerance A k s)
    {record : PivotRecord n ℚ} (hrecord : record ∈ s.records) {i j : Fin n}
    (hi : record.column ≤ i) (hj : record.column ≤ j) :
    |record.snapshot.entry i j| ≤ 2 ^ record.column.val * M := by
  obtain ⟨t, ht, -, -, -, hsnapshot, -⟩ := h.exists_of_mem_records hrecord
  rw [hsnapshot]
  have hbound := (ht.growthBounded hA).swapRows (column_le_row_scan t.matrix record.column)
  exact hbound.unfinished hi hj

end Elimination

open Elimination

/-- **Element growth under partial pivoting.** Let the entries of a matrix `A` of rationals be at
most `M` in magnitude, and let `r` be the run on `A` under whatever `tolerance`.

- The snapshot of a `record` has entries of at most `2 ^ record.column * M` from the pivot on to the
  right and downwards.
- If `r` returns some `p`, row `i` is left with entries of at most `2 ^ i * M` from the diagonal on,
  and with multipliers of at most one before it. -/
theorem growth_bounds (tolerance : ℚ) {M : ℚ} {A : DenseMatrix n ℚ}
    (hA : ∀ i j, |A.entry i j| ≤ M) :
    let r := decompose tolerance A
    (∀ record ∈ r.records, ∀ i j, record.column ≤ i → record.column ≤ j →
      |record.snapshot.entry i j| ≤ 2 ^ record.column.val * M) ∧
    ∀ p, r.outcome = .ok p → ∀ i j,
      (i ≤ j → |r.matrix.entry i j| ≤ 2 ^ i.val * M) ∧ (j < i → |r.matrix.entry i j| ≤ 1) := by
  intro r
  constructor
  · intro record hrecord i j hi hj
    obtain ⟨s, hs, -, hrecords⟩ := exists_reached_left tolerance A
    rw [hrecords] at hrecord
    exact hs.abs_snapshot_le hA hrecord hi hj
  · intro p hp i j
    obtain ⟨s, hs, hmatrix⟩ := exists_reached_matrix_of_ok hp
    rw [← hmatrix]
    refine ⟨fun hij => ?_, fun hji => hs.abs_multiplier_le_one hji j.isLt⟩
    -- in the end every row is finished
    have hbound := hs.growthBounded hA i j
    rw [min_eq_left i.isLt.le] at hbound
    exact hbound hij

/-- The entries of `A` double in every step, so the last one reaches the bound. -/
theorem growth_bounds_doubling :
    let A : DenseMatrix 3 ℚ := ⟨#v[#v[1, 0, 1], #v[-1, 1, 1], #v[-1, -1, 1]]⟩
    let r := decompose (1 / 10) A
    (∀ i j, |A.entry i j| ≤ 1) ∧ r.matrix.entry 2 2 = 2 ^ 2 * 1 ∧
      |r.matrix.entry 2 2| ≤ 2 ^ 2 * 1 ∧
      ∀ record ∈ r.records, ∀ i j, record.column ≤ i → record.column ≤ j →
        |record.snapshot.entry i j| ≤ 2 ^ record.column.val * 1 := by
  intro A r
  have hA : ∀ i j, |A.entry i j| ≤ 1 := by decide +kernel
  obtain ⟨hreported, hleft⟩ := growth_bounds (1 / 10) hA
  have hrun : r.outcome = .ok (RowOrder.identity 3) := by decide +kernel
  exact ⟨hA, by decide +kernel, (hleft _ hrun 2 2).1 le_rfl, hreported⟩

end PivotedLU
