import PivotedLU.DenseMatrix.Product
import PivotedLU.Proofs.Binary.Laws

/-!
# Fixed Points of the Elimination

The triangles that an elimination leaves behind are eliminated already. In a column of the upper one
there is nothing below the pivot; in a column of the lower one the pivot is one and the largest
candidate, and to the right of it there is nothing in its row. Either way nothing but zeros is taken
away. Zeros change their signs on the way, so the triangles come back with the same numbers, though
not with the same bits.

## Main definitions

* `FixedColumn`: a column of a matrix that has nothing to be eliminated.

## Main results

* `FixedColumn.scan_eq`, `FixedColumn.equalsBy_clearBelow`: what a step does to such a column.
* `decompose_of_fixedColumn`: a run on a matrix whose columns are all of this kind.
* `fixedColumn_upper`, `fixedColumn_lower`: the triangles of a factorization are.
* `decompose_upper_lower`: the runs on the two triangles.
-/

namespace PivotedLU

namespace Binary

open Elimination
open Scalar (Negligible)

variable {F : Format} {n : Nat} {tolerance : Binary F} {T M : DenseMatrix n (Binary F)}
  {column : Fin n}

/-! ## Columns with nothing to eliminate -/

/-- The pivot of `column` stands on the diagonal of `T`, and there are only zeros below it, or it is
one and there are only zeros to the right of it. -/
structure FixedColumn (T : DenseMatrix n (Binary F)) (column : Fin n) : Prop where
  pivot : ¬Negligible (T.entry column column)
  largest : ∀ i, column < i →
    below (T.entry column column).abs (T.entry i column).abs = false
  zeros : (∀ i, column < i → T.entry i column = 0) ∨
    (T.entry column column = 1 ∧ ∀ j, column < j → T.entry column j = 0)

/-- A float `x` that `equals` a `y` that is not negligible is `y`. -/
theorem eq_of_equals_of_not_negligible {x y : Binary F} (hy : ¬Negligible y)
    (h : equals x y = true) : x = y := by
  rcases eq_or_zeros_of_equals h with rfl | ⟨-, negative, -, rfl⟩
  · rfl
  · exact absurd (negligible_zero negative) hy

theorem isFinite_of_equals {x y : Binary F} (hy : y.isFinite) (h : equals x y = true) :
    x.isFinite := by
  rcases eq_or_zeros_of_equals h with rfl | ⟨negative, -, rfl, -⟩
  · exact hy
  · rfl

namespace FixedColumn

/-- If `M` equals `T` up to the signs of zeros, the scan of a `FixedColumn` stays at the
diagonal. -/
theorem scan_eq (h : FixedColumn T column) (hM : M.equalsBy equals T = true) :
    scan M column = ⟨column, (T.entry column column).abs⟩ := by
  rw [DenseMatrix.equalsBy_iff] at hM
  rw [scan_congr_magnitude fun i _ => abs_eq_of_equals (hM i column)]
  have habove : Scalar.below 0 (Scalar.magnitude (T.entry column column)) = true := by
    simpa [Negligible] using h.pivot
  refine scan_eq_diagonal (Or.inr ⟨rfl, habove⟩) fun i hi => ?_
  rcases eq_or_lt_of_le hi with rfl | hlt
  · exact strictComparison.irrefl _
  · exact h.largest i hlt

/-- The multiplier of row `i` equals the entry of `T` that it replaces, and its products with the
pivot row are zeros: either it is a zero itself, or what stands to the right of the pivot is. -/
theorem equals_multiplier (h : FixedColumn T column) (hfinite : ∀ i j, (M.entry i j).isFinite)
    (hM : ∀ i j, equals (M.entry i j) (T.entry i j) = true) {i : Fin n} (hi : column < i) :
    equals (M.entry i column / M.entry column column) (T.entry i column) = true ∧
      ∀ j, column < j →
        equals (M.entry i column / M.entry column column * M.entry column j) 0 = true := by
  have hpivot : M.entry column column = T.entry column column :=
    eq_of_equals_of_not_negligible h.pivot (hM column column)
  rcases h.zeros with hbelow | ⟨hone, hright⟩
  · -- a zero below the pivot stays one, whatever its sign is
    have hdividend := hM i column
    rw [hbelow i hi] at hdividend ⊢
    have hquotient : equals (M.entry i column / M.entry column column) 0 = true := by
      refine equals_zero_div hdividend (hfinite column column) ?_
      rw [hpivot]
      exact h.pivot
    exact ⟨hquotient, fun j _ => equals_zero_mul hquotient (hfinite column j)⟩
  · -- a pivot of one leaves the multiplier as it is, and the row of the pivot has nothing else
    have hquotient : M.entry i column / M.entry column column = M.entry i column := by
      rw [hpivot, hone]
      exact div_one _
    rw [hquotient]
    refine ⟨hM i column, fun j hj => ?_⟩
    have hfactor := hM column j
    rw [hright j hj] at hfactor
    have hcomm : M.entry i column * M.entry column j = M.entry column j * M.entry i column :=
      mul_comm _ _
    rw [hcomm]
    exact equals_zero_mul hfactor (hfinite i column)

/-- Clearing a `FixedColumn` of `M` takes away nothing but zeros. -/
theorem equalsBy_clearBelow (h : FixedColumn T column) (hfinite : ∀ i j, (T.entry i j).isFinite)
    (hM : M.equalsBy equals T = true) : (clearBelow M column).equalsBy equals T = true := by
  rw [DenseMatrix.equalsBy_iff] at hM ⊢
  have hfinite' : ∀ i j, (M.entry i j).isFinite := fun i j =>
    isFinite_of_equals (hfinite i j) (hM i j)
  refine forall_entry_clearBelow (P := fun i j x => equals x (T.entry i j) = true) hM
    (fun i hi => (h.equals_multiplier hfinite' hM hi).1) fun i j hi hj => ?_
  have hproduct := (h.equals_multiplier hfinite' hM hi).2 j hj
  exact equals_trans (equals_sub_zero (hfinite' i j) hproduct) (hM i j)

end FixedColumn

/-! ## Runs -/

/-- If every column of `T` is a `FixedColumn` and no diagonal entry is below `tolerance` in
magnitude, the run on `T` succeeds without an exchange and leaves a matrix that equals `T`. -/
theorem decompose_of_fixedColumn (hfinite : ∀ i j, (T.entry i j).isFinite)
    (hT : ∀ c, FixedColumn T c) (haccepted : ∀ c, below (T.entry c c).abs tolerance = false) :
    (decompose tolerance T).outcome = .ok (RowOrder.identity n) ∧
      (decompose tolerance T).matrix.equalsBy equals T = true := by
  have hinitial : T.equalsBy equals T = true :=
    DenseMatrix.equalsBy_iff.2 fun i j => equals_self (hfinite i j)
  -- no step exchanges rows, and every step keeps the numbers
  obtain ⟨s, hs, horder, hM⟩ : ∃ s, Reached tolerance T n s ∧ s.order = RowOrder.identity n ∧
      s.matrix.equalsBy equals T = true := by
    refine exists_reached_of_step (P := fun _ s =>
      s.order = RowOrder.identity n ∧ s.matrix.equalsBy equals T = true) ⟨rfl, hinitial⟩ ?_ le_rfl
    rintro s column ⟨horder, hM⟩
    have hscan := (hT column).scan_eq hM
    refine ⟨?_, ?_, ?_⟩
    · rw [hscan]
      exact haccepted column
    · rw [hscan, State.order_eliminate_diagonal, horder]
    · rw [hscan, State.matrix_eliminate_diagonal]
      exact (hT column).equalsBy_clearBelow hfinite hM
  rw [hs.outcome_eq_ok, horder, hs.matrix_eq]
  exact ⟨rfl, hM⟩

/-! ## The triangles of a factorization -/

variable {A : DenseMatrix n (Binary F)} {f : Factorization n (Binary F)}

theorem isFinite_upper (hfinite : ∀ i j, (f.lu.entry i j).isFinite) (i j : Fin n) :
    (f.upper.entry i j).isFinite :=
  Factorization.forall_entry_upper (P := fun x : Binary F => x.isFinite = true) rfl hfinite i j

theorem isFinite_lower (hfinite : ∀ i j, (f.lu.entry i j).isFinite) (i j : Fin n) :
    (f.lower.entry i j).isFinite :=
  Factorization.forall_entry_lower (P := fun x : Binary F => x.isFinite = true) rfl rfl hfinite i j

/-- Below the pivots of `f.upper` there are zeros. -/
theorem fixedColumn_upper (hpivot : ∀ c, ¬Negligible (f.lu.entry c c)) (c : Fin n) :
    FixedColumn f.upper c := by
  refine ⟨?_, fun i hi => ?_, Or.inl fun i hi => f.entry_upper_of_lt hi⟩
  · rw [f.entry_upper_self]
    exact hpivot c
  · rw [f.entry_upper_of_lt hi]
    exact magnitudeLaws.not_below_zero _

/-- The pivots of `f.lower` are one, its multipliers are not above one, and to the right of a pivot
there are zeros. -/
theorem fixedColumn_lower
    (hmultiplier : ∀ i j, j < i → below 1 (f.lu.entry i j).abs = false) (c : Fin n) :
    FixedColumn f.lower c := by
  refine ⟨?_, fun i hi => ?_, Or.inr ⟨f.entry_lower_self c, fun j hj => f.entry_lower_of_lt hj⟩⟩
  · rw [f.entry_lower_self]
    exact fun hone => Bool.false_ne_true (hone.symm.trans zero_below_one)
  · rw [f.entry_lower_self, f.entry_lower, if_pos hi]
    exact hmultiplier i c hi

/-- **Both triangles are fixed points.** Let `ofMatrix` factor `A` into `f` under a `tolerance`
above `0`, with finite entries of `f.lu`.

- The run on `f.upper` under `tolerance` succeeds with `RowOrder.identity n`.
- The run on `f.lower` does so under every `t` above `0` and at most `1`.

Each leaves its triangle again, entry by entry the same number under `equals`. -/
theorem decompose_upper_lower (ht : below 0 tolerance = true)
    (hf : Factorization.ofMatrix tolerance A = .ok f)
    (hfinite : ∀ i j, (f.lu.entry i j).isFinite = true) :
    ((decompose tolerance f.upper).outcome = .ok (RowOrder.identity n) ∧
      (decompose tolerance f.upper).matrix.equalsBy equals f.upper = true) ∧
    ∀ t : Binary F, below 0 t = true → atMost t 1 = true →
      (decompose t f.lower).outcome = .ok (RowOrder.identity n) ∧
        (decompose t f.lower).matrix.equalsBy equals f.lower = true := by
  obtain ⟨s, hs, rfl⟩ := Factorization.ofMatrix_eq_ok_iff.1 hf
  refine ⟨?_, fun t _ ht1 => ?_⟩
  · refine decompose_of_fixedColumn (isFinite_upper hfinite)
      (fixedColumn_upper fun c => hs.diagonal_not_negligible strictComparison ht c.isLt) fun c => ?_
    rw [Factorization.entry_upper_self]
    exact hs.diagonal_not_below ht c.isLt
  · refine decompose_of_fixedColumn (isFinite_lower hfinite)
      (fixedColumn_lower fun i j hji => boundedQuotients.not_above_one hs hji j.isLt) fun c => ?_
    rw [Factorization.entry_lower_self]
    exact (atMost_iff_not_below ((atMost_iff t 1).1 ht1).1 rfl).1 ht1

/-- A multiplier of `A` is as large as the pivot one, and zeros below a negative pivot of `f.upper`
become negative: the matrix that is left `equals` the triangle and is not the same. -/
theorem decompose_upper_lower_negativeZero :
    let A : DenseMatrix 3 Binary64 :=
      ⟨#v[#v[(.ofNat 2 : Binary64).neg, 1, .ofNat 4], #v[.ofNat 2, 1, 1], #v[1, .zero true, 1]]⟩
    ∃ f, Factorization.ofMatrix 1 A = .ok f ∧ (f.lower.entry 1 0).abs = 1 ∧
      (decompose 1 f.upper).matrix ≠ f.upper ∧
      ((decompose 1 f.upper).outcome = .ok (RowOrder.identity 3) ∧
        (decompose 1 f.upper).matrix.equalsBy equals f.upper = true) ∧
      (decompose 1 f.lower).outcome = .ok (RowOrder.identity 3) ∧
        (decompose 1 f.lower).matrix.equalsBy equals f.lower = true := by
  intro A
  let f : Factorization 3 Binary64 := ⟨(decompose 1 A).matrix, RowOrder.identity 3⟩
  have hf : Factorization.ofMatrix 1 A = .ok f := by decide +kernel
  have hfinite : ∀ i j, (f.lu.entry i j).isFinite = true := by decide +kernel
  have hpositive : below 0 (1 : Binary64) = true := by decide +kernel
  have hone : atMost (1 : Binary64) 1 = true := by decide +kernel
  obtain ⟨hupper, hlower⟩ := decompose_upper_lower hpositive hf hfinite
  exact ⟨f, hf, by decide +kernel, by decide +kernel, hupper, hlower 1 hpositive hone⟩

end Binary

end PivotedLU
