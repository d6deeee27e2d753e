import PivotedLU.Proofs.Elimination.Records
import PivotedLU.Proofs.Fold

/-!
# The Left-Looking Recurrence

Elimination updates the whole trailing block in every step. The same matrix can be described entry
by entry: an entry is the entry of the permuted matrix, less the products of the entries to its
left and above it, in order, and below the diagonal divided by the diagonal entry of its column.
The two orders of computing perform the same operations on every entry, so they agree for any
arithmetic, rounded or not.

## Main definitions

* `reduced`, `leftLooking`: the value that the recurrence gives to an entry.
* `Recurrent`: a matrix whose entries satisfy the recurrence for the first columns.

## Main results

* `Recurrent.swapRows` and `Recurrent.clearBelow`: the two halves of a step.
* `Reached.recurrent`: every state that a run reaches satisfies the recurrence.
* `Recurrent.unique`: the recurrence determines the matrix.
-/

namespace PivotedLU

universe u

namespace Elimination

variable {α : Type u} [Scalar α] {n : Nat}

/-- A start value, less the products `F i k * F k j` for the `k` before `i`, before `j` and before
`c`, subtracted one by one by ascending `k`. -/
def reduced (F : DenseMatrix n α) (c : Nat) (i j : Fin n) (start : α) : α :=
  Fin.foldl n
    (fun acc k => if k < i ∧ k < j ∧ k.val < c then acc - F.entry i k * F.entry k j else acc)
    start

/-- The value that the recurrence gives to an entry when the first `c` columns are finished: an
entry below the diagonal in a finished column is divided at last. -/
def leftLooking (F : DenseMatrix n α) (c : Nat) (i j : Fin n) (start : α) : α :=
  if j < i ∧ j.val < c then reduced F c i j start / F.entry j j else reduced F c i j start

/-- The entries of `F` satisfy the recurrence for the first `c` columns, started from the rows of
`A` in a given order. -/
def Recurrent (A F : DenseMatrix n α) (row : Fin n → Fin n) (c : Nat) : Prop :=
  ∀ i j, F.entry i j = leftLooking F c i j (A.entry (row i) j)

/-- At `(i, j)` the products that `reduced` subtracts depend on the entries left of and above this
place. -/
theorem reduced_congr {F G : DenseMatrix n α} {c d : Nat} {i i' j : Fin n}
    (hguard : ∀ k, (k < i ∧ k < j ∧ k.val < c) ↔ (k < i' ∧ k < j ∧ k.val < d))
    (hleft : ∀ k, k < i → k < j → k.val < c → F.entry i k = G.entry i' k)
    (habove : ∀ k, k < i → k < j → k.val < c → F.entry k j = G.entry k j) (start : α) :
    reduced F c i j start = reduced G d i' j start := by
  refine foldl_guard_congr hguard (fun acc k hk => ?_) start
  obtain ⟨hi, hj, hc⟩ := hk
  rw [hleft k hi hj hc, habove k hi hj hc]

/-- At `(i, j)` the value of `leftLooking` depends on the entries left of and above this place, and
on the diagonal entry of column `j`. -/
theorem leftLooking_congr {F G : DenseMatrix n α} {c d : Nat} {i i' j : Fin n}
    (hguard : ∀ k, (k < i ∧ k < j ∧ k.val < c) ↔ (k < i' ∧ k < j ∧ k.val < d))
    (hdiv : (j < i ∧ j.val < c) ↔ (j < i' ∧ j.val < d))
    (hleft : ∀ k, k < i → k < j → k.val < c → F.entry i k = G.entry i' k)
    (habove : ∀ k, k < i → k ≤ j → k.val < c → F.entry k j = G.entry k j) (start : α) :
    leftLooking F c i j start = leftLooking G d i' j start := by
  have hreduced : reduced F c i j start = reduced G d i' j start :=
    reduced_congr hguard hleft (fun k hi hj => habove k hi (Fin.le_of_lt hj)) start
  unfold leftLooking
  rw [hreduced]
  by_cases hj : j < i ∧ j.val < c
  · rw [if_pos hj, if_pos (hdiv.1 hj), habove j hj.1 (Fin.le_refl j) hj.2]
  · rw [if_neg hj, if_neg fun h => hj (hdiv.2 h)]

/-- Before any column is finished, `reduced` subtracts nothing from `start`. -/
theorem reduced_zero (F : DenseMatrix n α) (i j : Fin n) (start : α) :
    reduced F 0 i j start = start :=
  foldl_guard_false (fun _ hk => Nat.not_lt_zero _ hk.2.2) start

/-- Before any column is finished, the recurrence asks for `A` itself. -/
theorem recurrent_zero (A : DenseMatrix n α) : Recurrent A A id 0 := by
  intro i j
  rw [leftLooking, if_neg fun h => Nat.not_lt_zero _ h.2, reduced_zero]
  rfl

/-! ## The two halves of a step -/

/-- An exchange of the unfinished rows `column` and `other` keeps the recurrence, with the same
exchange of the rows of `A` it is started from. -/
theorem Recurrent.swapRows {A F : DenseMatrix n α} {row : Fin n → Fin n} {column other : Fin n}
    (h : Recurrent A F row column) (hle : column ≤ other) :
    Recurrent A (F.swapRows column other) (fun i => row (exchanged column other i)) column := by
  intro i j
  rw [DenseMatrix.entry_swapRows, h]
  symm
  -- the entries that the recurrence reads above row `i` lie in finished rows, which stay
  have hfixed : ∀ k l : Fin n, k < column →
      (F.swapRows column other).entry k l = F.entry k l := by
    intro k l hk
    rw [DenseMatrix.entry_swapRows, exchanged_of_lt hle hk]
  have hbelow : ∀ k : Fin n, k < column → (k < i ↔ k < exchanged column other i) :=
    fun k hk => (lt_exchanged_iff hle hk).symm
  refine leftLooking_congr (fun k => ?_) ?_ (fun k _ _ _ => ?_) (fun k _ _ hk => hfixed k j hk) _
  · constructor
    · exact fun hk => ⟨(hbelow k hk.2.2).1 hk.1, hk.2⟩
    · exact fun hk => ⟨(hbelow k hk.2.2).2 hk.1, hk.2⟩
  · constructor
    · exact fun hj => ⟨(hbelow j hj.2).1 hj.1, hj.2⟩
    · exact fun hj => ⟨(hbelow j hj.2).2 hj.1, hj.2⟩
  · rw [DenseMatrix.entry_swapRows]

/-- One more finished `column` is one more product, subtracted after all others. -/
theorem reduced_succ (F : DenseMatrix n α) {column i j : Fin n} (hi : column < i)
    (hj : column < j) (start : α) :
    reduced F (column + 1) i j start =
      reduced F column i j start - F.entry i column * F.entry column j := by
  have hle : ∀ k : Fin n, (k < i ∧ k < j ∧ k.val < column.val + 1) ↔ k ≤ column := by
    intro k
    omega
  have hlt : ∀ k : Fin n, (k < i ∧ k < j ∧ k.val < column.val) ↔ k < column := by
    intro k
    omega
  let subtract (acc : α) (k : Fin n) : α := acc - F.entry i k * F.entry k j
  calc reduced F (column + 1) i j start
      = Fin.foldl n (fun acc k => if k ≤ column then subtract acc k else acc) start :=
        foldl_guard_congr hle (fun _ _ _ => rfl) start
    _ = subtract (Fin.foldl n (fun acc k => if k < column then subtract acc k else acc) start)
          column := foldl_guard_le subtract column start
    _ = reduced F column i j start - F.entry i column * F.entry column j := by
        rw [reduced, foldl_guard_congr hlt fun _ _ _ => rfl]

/-- Clearing the next `column` keeps the recurrence and finishes that column. -/
theorem Recurrent.clearBelow {A F : DenseMatrix n α} {row : Fin n → Fin n} {column : Fin n}
    (h : Recurrent A F row column) :
    Recurrent A (clearBelow F column) row (column + 1) := by
  intro i j
  have hentry := h i j
  have hupper := fun {i} (hi : i ≤ column) j => entry_clearBelow_of_le F hi j
  have hleft := fun {j} (hj : j < column) i => entry_clearBelow_of_lt F hj i
  rcases Fin.lt_or_le column i with hi | hi
  · -- the products of finished columns are the same before and after
    have hreduced : reduced F column i j (A.entry (row i) j) =
        reduced (Elimination.clearBelow F column) column i j (A.entry (row i) j) := by
      refine reduced_congr (fun k => Iff.rfl) (fun k _ _ hk => ?_) (fun k _ _ hk => ?_) _
      · exact (hleft hk i).symm
      · exact (hupper (Fin.le_of_lt hk) j).symm
    rcases lt_trichotomy j column with hj | rfl | hj
    · -- left of the column nothing is new
      rw [hleft hj, hentry]
      refine leftLooking_congr (fun k => by omega) (by omega) (fun k _ hk _ => ?_)
        (fun k _ _ _ => ?_) _
      · exact (hleft (hk.trans hj) i).symm
      · exact (hleft hj k).symm
    · -- in the column the quotient is taken
      rw [leftLooking, if_neg fun hj => Nat.lt_irrefl _ hj.2] at hentry
      rw [entry_clearBelow_pivot F hi, hentry, hreduced, leftLooking,
        if_pos ⟨hi, Nat.lt_succ_self _⟩, hupper (Fin.le_refl j)]
      congr 1
      exact reduced_congr (fun k => by omega) (fun _ _ _ _ => rfl) (fun _ _ _ _ => rfl) _
    · -- right of the column one more product is subtracted
      have hfinished : ¬(j < i ∧ j.val < column.val) := fun hc => hj.not_gt hc.2
      have hfinished' : ¬(j < i ∧ j.val < column.val + 1) := by omega
      rw [leftLooking, if_neg hfinished] at hentry
      rw [entry_clearBelow_right F hi hj, hentry, hreduced, leftLooking, if_neg hfinished',
        reduced_succ _ hi hj, hupper (Fin.le_refl column)]
  · -- rows down to the diagonal are not touched
    rw [hupper hi, hentry]
    refine leftLooking_congr (fun k => by omega) (by omega) (fun k _ _ _ => ?_)
      (fun k hk _ _ => ?_) _
    · exact (hupper hi k).symm
    · exact (hupper ((Fin.le_of_lt hk).trans hi) j).symm

/-! ## Runs -/

variable {tolerance : α} {A : DenseMatrix n α} {k : Nat} {s : State n α}

/-- Every state `s` that a run reaches is `Recurrent` for the `k` columns eliminated so far, started
from the rows of `A` in the order of `s`. -/
theorem Reached.recurrent (h : Reached tolerance A k s) :
    Recurrent A s.matrix s.order.source k := by
  induction h with
  | initial =>
    have hsource : (RowOrder.identity n).source = id := funext RowOrder.source_identity
    rw [State.initial, hsource]
    exact recurrent_zero A
  | @eliminate s column before accepted ih =>
    -- the exchange goes through the recurrence before the column is cleared
    have hsource : (s.order.exchange column (scan s.matrix column).row).source =
        fun i => s.order.source (exchanged column (scan s.matrix column).row i) :=
      funext fun i => RowOrder.source_exchange s.order _ _ i
    rw [State.matrix_eliminate, State.order_eliminate, hsource]
    exact (ih.swapRows (column_le_row_scan s.matrix column)).clearBelow

/-- The recurrence determines the matrix: an entry depends on entries whose row or column comes
before its own, so `F` and `G` are equal. -/
theorem Recurrent.unique {A F G : DenseMatrix n α} {row : Fin n → Fin n} {c : Nat}
    (hF : Recurrent A F row c) (hG : Recurrent A G row c) : F = G := by
  refine DenseMatrix.ext_of_finished (fun i j _ hsettled => ?_) (fun i j _ hsettled hdiag => ?_)
  · rw [hF i j, hG i j]
    refine leftLooking_congr (fun k => Iff.rfl) Iff.rfl (fun k hk _ _ => ?_)
      (fun k hk _ _ => ?_) _
    · exact (hsettled k hk i).2
    · exact (hsettled k hk j).1
  · rw [hF i j, hG i j]
    refine leftLooking_congr (fun k => Iff.rfl) Iff.rfl (fun k _ hk _ => ?_)
      (fun k _ hk _ => ?_) _
    · exact (hsettled k hk i).2
    · -- the diagonal entry by which the column is divided is among those read
      rcases Nat.lt_or_eq_of_le hk with hkj | hkj
      · exact (hsettled k hkj j).1
      · rw [Fin.ext hkj]
        exact hdiag

/-- **The run in left-looking form.** Let `c` be the `finishedColumns` of the run `r` on `A`, and
let `order` be the `replay` of the exchanges that its records name.

- The records name the columns up to `c` one by one. If `r` returns `p`, then `c = n`, and `order`
  has the sources of `p`.
- The matrix that `r` leaves is the one `F` whose entries are `leftLooking F c`, started from the
  rows of `A` in `order`.
- If `r` fails with `b`, then `c` is `b.column`, and apart from its log `r` leaves the state of the
  sweep before that column. -/
theorem decompose_leftLooking (tolerance : α) (A : DenseMatrix n α) :
    let r := decompose tolerance A
    let c := r.finishedColumns
    let order := replay r.records
    r.records.map (fun record => record.column.val) = List.range c ∧
      (∀ p, r.outcome = .ok p → c = n ∧ p.sources = order) ∧
      (∀ F : DenseMatrix n α,
        (∀ i j, F.entry i j = leftLooking F c i j (A.entry (order.get i) j)) ↔ F = r.matrix) ∧
      (∀ b, r.outcome = .error b → c = b.column ∧
        ∃ s, sweep tolerance A b.column b.column.isLt.le = ⟨s, none⟩ ∧
          r.state = { s with log := r.log }) := by
  intro r c order
  -- `s` is the state before the column in which the run stopped, or the last one
  obtain ⟨s, hs, hstate⟩ := exists_reached_decompose tolerance A
  have hmatrix : r.matrix = s.matrix := by rw [Run.matrix, hstate]
  have hrecords : r.records = s.records := by rw [Run.records, hstate]
  have horder : s.order.sources = order := by rw [hs.sources_eq_replay, ← hrecords]
  have hrecurrent : Recurrent A r.matrix (fun i => order.get i) c := by
    rw [hmatrix, ← horder]
    exact hs.recurrent
  refine ⟨?_, fun p hp => ⟨Run.finishedColumns_of_ok hp, ?_⟩, fun F => ⟨fun hF => ?_, ?_⟩,
    fun b hb => ⟨Run.finishedColumns_of_error hb, ?_⟩⟩
  · rw [hrecords]
    exact hs.map_column_records
  · rw [← (Run.outcome_eq_ok_iff.1 hp).2, hstate]
    exact horder
  · exact Recurrent.unique hF hrecurrent
  · rintro rfl
    exact hrecurrent
  · -- the breakdown has only added a line to the log
    rw [Run.finishedColumns_of_error hb] at hs
    exact ⟨s, hs.sweep_eq, hstate⟩

end Elimination

end PivotedLU
