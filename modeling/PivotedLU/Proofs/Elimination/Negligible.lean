import PivotedLU.Proofs.Elimination.LeftLooking
import PivotedLU.Proofs.Elimination.Pivots
import PivotedLU.Proofs.RowOrder.Parity

/-!
# Matrices That Are Singular by Their Shape

A row of zeros, a column of zeros and two equal rows make a matrix singular whatever its other
entries are. In rounded arithmetic such a row or column need not stay zero, since zero times an
infinity is not a number; but it stays within the negligible elements, and a negligible element is
never accepted as a pivot under a positive tolerance. Two equal rows go through the same operations
until one of them is the pivot row; that step makes the other negligible from there on.

All of this is read off the recurrence that the finished matrix satisfies: an exchange of rows only
changes the row that a place is started from.

## Main definitions

* `NegligibleLaws`: what the argument needs from the arithmetic.

## Main results

* `Recurrent.negligible_from`: a row that is negligible from a place on remains so.
* `Recurrent.negligible_column`: a negligible column remains so down to its diagonal.
* `Recurrent.negligible_twin`: of two equal rows the lower one ends up negligible.
* `NegligibleLaws.exists_error_of_row`, `NegligibleLaws.exists_error_of_column` and
  `NegligibleLaws.exists_error_of_twins`: such matrices are rejected.
-/

namespace PivotedLU

universe u

namespace Elimination

open Scalar (Negligible)

/-- The negligible elements absorb what elimination does to them, and an element less its product
with the quotient of a pivot by itself is negligible. -/
structure NegligibleLaws (α : Type u) [Scalar α] : Prop extends StrictComparison α where
  sub_mul_left : ∀ a f u : α, Negligible a → Negligible f → Negligible (a - f * u)
  sub_mul_right : ∀ a f u : α, Negligible a → Negligible u → Negligible (a - f * u)
  quotient : ∀ a p : α, Negligible a → ¬Negligible p → Negligible (a / p)
  cancel : ∀ p u : α, ¬Negligible p → Negligible (u - p / p * u)

variable {α : Type u} [Scalar α] {n : Nat}

/-! ## Induction over the products -/

/-- A property `P` that holds after the products of the first `m` columns, and is kept by each
further product, holds of `reduced` in the end. -/
theorem reduced_induction {P : α → Prop} {F : DenseMatrix n α} {m c : Nat} {i j : Fin n}
    {start : α} (hmc : m ≤ c) (h : P (reduced F m i j start))
    (hstep : ∀ k : Fin n, m ≤ k → k < i → k < j → k.val < c → ∀ acc, P acc →
      P (acc - F.entry i k * F.entry k j)) :
    P (reduced F c i j start) := by
  induction c, hmc using Nat.le_induction with
  | base => exact h
  | succ c hmc ih =>
    have hreduced : P (reduced F c i j start) :=
      ih fun k hk hi hj hc => hstep k hk hi hj (Nat.lt_succ_of_lt hc)
    by_cases hc : c < i ∧ c < j
    · -- column `c` has a product for this place
      let column : Fin n := ⟨c, hc.1.trans i.isLt⟩
      have hi : column < i := hc.1
      have hsucc : reduced F (c + 1) i j start =
          reduced F c i j start - F.entry i column * F.entry column j :=
        reduced_succ F hi hc.2 start
      rw [hsucc]
      exact hstep column hmc hc.1 hc.2 (Nat.lt_succ_self c) _ hreduced
    · -- the place lies in a row or a column that ends before column `c`
      have hsame : reduced F (c + 1) i j start = reduced F c i j start :=
        reduced_congr (fun k => by omega) (fun _ _ _ _ => rfl) (fun _ _ _ _ => rfl) start
      rw [hsame]
      exact hreduced

/-! ## What stays negligible -/

section Recurrent

variable {A F : DenseMatrix n α} {row : Fin n → Fin n} {c : Nat}

/-- Row `i` is `Negligible` from place `m` on if it is when the first `m` products of each entry
have been subtracted. -/
theorem Recurrent.negligible_from (hα : NegligibleLaws α) (h : Recurrent A F row c)
    (hdiagonal : ∀ k : Fin n, k.val < c → ¬Negligible (F.entry k k)) {i : Fin n} {m : Nat}
    (hmc : m ≤ c)
    (hstart : ∀ j : Fin n, m ≤ j → Negligible (reduced F m i j (A.entry (row i) j)))
    (j : Fin n) (hj : m ≤ j) : Negligible (F.entry i j) := by
  -- by induction from left to right: the multipliers of an entry stand to its left
  induction j using WellFoundedLT.induction with
  | ind j ih =>
    have hreduced : Negligible (reduced F c i j (A.entry (row i) j)) :=
      reduced_induction hmc (hstart j hj) fun k hk _ hkj _ acc hacc =>
        hα.sub_mul_left acc _ _ hacc (ih k hkj hk)
    rw [h i j]
    unfold leftLooking
    split
    · next hdivided => exact hα.quotient _ _ hreduced (hdiagonal j hdivided.2)
    · exact hreduced

/-- A row `i` that is started from `Negligible` entries is `Negligible`. -/
theorem Recurrent.negligible_row (hα : NegligibleLaws α) (h : Recurrent A F row c)
    (hdiagonal : ∀ k : Fin n, k.val < c → ¬Negligible (F.entry k k)) {i : Fin n}
    (hstart : ∀ j, Negligible (A.entry (row i) j)) (j : Fin n) : Negligible (F.entry i j) := by
  refine h.negligible_from hα hdiagonal (Nat.zero_le c) (fun j _ => ?_) j (Nat.zero_le j)
  rw [reduced_zero]
  exact hstart j

/-- A column `j` that is started from `Negligible` entries is `Negligible` where nothing is
divided. -/
theorem Recurrent.negligible_column (hα : NegligibleLaws α) (h : Recurrent A F row c)
    {j : Fin n} (hstart : ∀ i, Negligible (A.entry i j)) (i : Fin n) (hi : i ≤ j ∨ c ≤ j) :
    Negligible (F.entry i j) := by
  -- by induction from top to bottom: the entries of the column that are read stand above
  induction i using WellFoundedLT.induction with
  | ind i ih =>
    rw [h i j, leftLooking, if_neg (by omega)]
    refine reduced_induction (Nat.zero_le c) ?_ fun k _ hki hkj _ acc hacc => ?_
    · rw [reduced_zero]
      exact hstart (row i)
    · exact hα.sub_mul_right acc _ _ hacc (ih k hki (Or.inl (Fin.le_of_lt hkj)))

/-- Rows `i` and `i'` that are started from the same entries are the same before column `i`. -/
theorem Recurrent.entry_eq_of_twin (h : Recurrent A F row c) {i i' : Fin n} (hii' : i < i')
    (htwin : ∀ j, A.entry (row i') j = A.entry (row i) j) (j : Fin n) (hj : j < i) :
    F.entry i' j = F.entry i j := by
  induction j using WellFoundedLT.induction with
  | ind j ih =>
    rw [h i' j, h i j, htwin j]
    refine leftLooking_congr (fun k => by omega) (by omega) (fun k _ hkj _ => ?_)
      (fun _ _ _ _ => rfl) _
    exact ih k hkj (hkj.trans hj)

/-- For rows `i` and `i'` that are started from the same entries, the products before column `i` are
the same. -/
theorem Recurrent.reduced_eq_of_twin (h : Recurrent A F row c) {i i' : Fin n} (hii' : i < i')
    (htwin : ∀ j, A.entry (row i') j = A.entry (row i) j) {j : Fin n} (hj : i ≤ j) {m : Nat}
    (hm : ∀ k : Fin n, (k < i' ∧ k < j ∧ k.val < m) ↔ (k < i ∧ k < j ∧ k.val < c)) :
    reduced F m i' j (A.entry (row i') j) = F.entry i j := by
  rw [h i j, leftLooking, if_neg (by omega), htwin j]
  refine reduced_congr hm (fun k hk hkj hkm => ?_) (fun _ _ _ _ => rfl) _
  exact h.entry_eq_of_twin hii' htwin k ((hm k).1 ⟨hk, hkj, hkm⟩).1

/-- Of two rows `i < i'` that are started from the same entries, the lower one is `Negligible`
behind column `i`, once the diagonal entry of this column has been the pivot. -/
theorem Recurrent.negligible_twin (hα : NegligibleLaws α) (h : Recurrent A F row c)
    (hdiagonal : ∀ k : Fin n, k.val < c → ¬Negligible (F.entry k k)) {i i' : Fin n}
    (hii' : i < i') (hi : i.val < c) (htwin : ∀ j, A.entry (row i') j = A.entry (row i) j)
    (j : Fin n) (hj : i < j) : Negligible (F.entry i' j) := by
  -- the multiplier of the lower row is the quotient of the pivot by itself
  have hmultiplier : F.entry i' i = F.entry i i / F.entry i i := by
    have hreduced := h.reduced_eq_of_twin (m := c) hii' htwin (Fin.le_refl i) (by omega)
    calc F.entry i' i = reduced F c i' i (A.entry (row i') i) / F.entry i i := by
          rw [h i' i, leftLooking, if_pos ⟨hii', hi⟩]
      _ = F.entry i i / F.entry i i := by rw [hreduced]
  refine h.negligible_from hα hdiagonal hi (fun j hj => ?_) j hj
  have hreduced := h.reduced_eq_of_twin (m := i) hii' htwin (Nat.le_of_lt hj) (by omega)
  rw [reduced_succ F hii' hj, hreduced, hmultiplier]
  exact hα.cancel _ _ (hdiagonal i hi)

end Recurrent

/-! ## Such matrices are rejected -/

variable {tolerance : α} {A : DenseMatrix n α}

/-- If `tolerance` is above `0`, no diagonal entry is `Negligible` in the end, so a matrix `A` for
which one would be is rejected. -/
theorem StrictComparison.exists_error_of_diagonal (hα : StrictComparison α)
    (ht : Scalar.below 0 tolerance = true)
    (h : ∀ s, Reached tolerance A n s →
      (∀ k : Fin n, k.val < n → ¬Negligible (s.matrix.entry k k)) →
        ∃ place, Negligible (s.matrix.entry place place)) :
    ∃ b, (decompose tolerance A).outcome = .error b := by
  rcases outcome_eq_ok_or_error tolerance A with ⟨p, hp⟩ | herror
  · obtain ⟨s, hs, -, -⟩ := exists_reached_of_ok hp
    have hdiagonal := fun (k : Fin n) (hk : k.val < n) => hs.diagonal_not_negligible hα ht hk
    obtain ⟨place, hplace⟩ := h s hs hdiagonal
    exact absurd hplace (hdiagonal place place.isLt)
  · exact herror

/-- If `tolerance` is above `0`, a matrix with a `Negligible` row `i` is rejected. -/
theorem NegligibleLaws.exists_error_of_row (hα : NegligibleLaws α)
    (ht : Scalar.below 0 tolerance = true) {i : Fin n} (hrow : ∀ j, Negligible (A.entry i j)) :
    ∃ b, (decompose tolerance A).outcome = .error b := by
  refine hα.exists_error_of_diagonal ht fun s hs hdiagonal => ?_
  -- the row has come to some place, and is negligible on the diagonal there
  obtain ⟨place, hplace⟩ := s.order.source_bijective.2 i
  exact ⟨place, hs.recurrent.negligible_row hα hdiagonal (fun j => hplace ▸ hrow j) place⟩

/-- If `tolerance` is above `0`, a matrix with a `Negligible` column `c` is rejected in that column
or before, and if in that column, with the pivot `0`. -/
theorem NegligibleLaws.exists_error_of_column (hα : NegligibleLaws α)
    (ht : Scalar.below 0 tolerance = true) {c : Fin n}
    (hcolumn : ∀ i, Negligible (A.entry i c)) :
    ∃ b, (decompose tolerance A).outcome = .error b ∧ b.column ≤ c ∧
      (b.column = c → b.pivot = 0) := by
  -- a run that finishes the column would have a negligible entry on the diagonal
  have hunfinished : ∀ {k : Nat} {s : State n α}, Reached tolerance A k s → k ≤ c := by
    intro k s hs
    refine Nat.le_of_not_lt fun hc => ?_
    exact hs.diagonal_not_negligible hα.toStrictComparison ht hc
      (hs.recurrent.negligible_column hα hcolumn c (Or.inl (Fin.le_refl c)))
  rcases outcome_eq_ok_or_error tolerance A with ⟨p, hp⟩ | ⟨b, hb⟩
  · obtain ⟨s, hs, -, -⟩ := exists_reached_of_ok hp
    exact absurd (hunfinished hs) (Nat.not_le_of_lt c.isLt)
  · obtain ⟨s, hs, hpivot, -⟩ := exists_reached_of_error hb
    refine ⟨b, hb, hunfinished hs, ?_⟩
    rintro rfl
    -- every candidate is negligible, so the scan leaves its start as it is
    rcases hα.scan_cases s.matrix b.column with hstart | ⟨hfound, habove⟩
    · rw [hpivot, hstart]
    · have hnegligible := hs.recurrent.negligible_column hα hcolumn
        (scan s.matrix b.column).row (Or.inr (Nat.le_refl _))
      rw [hfound] at habove
      exact absurd (hnegligible.symm.trans habove) Bool.false_ne_true

/-- If `tolerance` is above `0`, a matrix whose rows `i` and `i'` are equal is rejected. -/
theorem NegligibleLaws.exists_error_of_twins (hα : NegligibleLaws α)
    (ht : Scalar.below 0 tolerance = true) {i i' : Fin n} (hne : i ≠ i')
    (htwin : A.row i = A.row i') : ∃ b, (decompose tolerance A).outcome = .error b := by
  refine hα.exists_error_of_diagonal ht fun s hs hdiagonal => ?_
  obtain ⟨place, rfl⟩ := s.order.source_bijective.2 i
  obtain ⟨place', rfl⟩ := s.order.source_bijective.2 i'
  -- one of the two rows has come to stand above the other
  rcases lt_trichotomy place place' with hlt | rfl | hlt
  · exact ⟨place', hs.recurrent.negligible_twin hα hdiagonal hlt place.isLt
      (fun j => by rw [DenseMatrix.entry, DenseMatrix.entry, htwin]) place' hlt⟩
  · exact absurd rfl hne
  · exact ⟨place, hs.recurrent.negligible_twin hα hdiagonal hlt place'.isLt
      (fun j => by rw [DenseMatrix.entry, DenseMatrix.entry, htwin]) place hlt⟩

end Elimination

end PivotedLU
