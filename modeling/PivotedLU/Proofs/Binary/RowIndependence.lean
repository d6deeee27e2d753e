import PivotedLU.Proofs.Binary.Order
import PivotedLU.Proofs.Elimination.Pivots
import PivotedLU.Proofs.Elimination.Rearranged
import PivotedLU.Proofs.Elimination.Records

/-!
# Independence of the Order of Rows

A run brings the rows of a matrix into an order of its own. If no two candidates for a pivot are
equally large, this order is decided by the rows and not by the places at which they are given, and
with it every operation: the run on the rows in any other order leaves the same matrix, bit for bit.
Only the numbers of exchanges differ, by the parity of the other order, and so does the sign of the
determinant.

## Main definitions

* `Binary.IsLargest`: a candidate that no other one exceeds.

## Main results

* `Binary.isLargest_scan`: what a scan finds is such a candidate.
* `Binary.magnitude_scan_eq`: the magnitude that a scan finds does not depend on the order of rows.
* `Binary.apply_row_scan`: neither does the row, if there is no tie.
* `Binary.exists_rearranged_of_untied`: runs on the same rows in two orders.
* `Binary.decompose_permuteRows_of_untied`: their results.
-/

namespace PivotedLU

open Elimination

namespace Binary

variable {F : Format} {n : Nat}

/-! ## The largest candidates -/

/-- The entry of `M` in row `i` of `column` is a number, and no entry from the diagonal downwards is
larger in magnitude. -/
def IsLargest (M : DenseMatrix n (Binary F)) (column i : Fin n) : Prop :=
  column ≤ i ∧ (M.entry i column).isNaN = false ∧
    ∀ k, column ≤ k → below (M.entry i column).abs (M.entry k column).abs = false

instance (M : DenseMatrix n (Binary F)) (column i : Fin n) : Decidable (IsLargest M column i) :=
  inferInstanceAs (Decidable (_ ∧ _))

/-- If the magnitude of `x` is above `0`, then `x` is a number. -/
theorem isNaN_of_below_abs {x : Binary F} (h : below 0 x.abs = true) : x.isNaN = false := by
  rw [← isNaN_abs]
  exact ((below_iff 0 x.abs).1 h).2.1

variable {M M' : DenseMatrix n (Binary F)} {column : Fin n}

/-- The row that a scan of `M` finds with a magnitude above `0` holds an `IsLargest` candidate. -/
theorem isLargest_scan (habove : below 0 (scan M column).magnitude = true) :
    IsLargest M column (scan M column).row := by
  rcases strictComparison.scan_cases M column with hstart | ⟨hfound, -⟩
  · rw [hstart] at habove
    exact absurd ((strictComparison.irrefl 0).symm.trans habove) Bool.false_ne_true
  · rw [hfound] at habove
    refine ⟨column_le_row_scan M column, isNaN_of_below_abs habove, fun k hk => ?_⟩
    have hmax := strictComparison.not_below_scan (A := M) hk
    rwa [hfound] at hmax

/-- If row `i` of `M'` has in `column` the entry of row `σ i` of `M`, largest candidates correspond
to each other by `σ`. -/
theorem isLargest_iff_of_entry {σ : Equiv.Perm (Fin n)} (hσ : ∀ i, column ≤ σ i ↔ column ≤ i)
    (hentry : ∀ i, M'.entry i column = M.entry (σ i) column) (i : Fin n) :
    IsLargest M' column i ↔ IsLargest M column (σ i) := by
  unfold IsLargest
  rw [hσ, hentry]
  refine and_congr_right fun _ => and_congr_right fun _ => ?_
  -- the places from the diagonal downwards are the places of the corresponding rows
  refine Iff.trans ?_ σ.forall_congr_right
  simp only [hσ, hentry]

/-- An exchange of rows `column` and `row` exchanges the largest candidates. -/
theorem isLargest_swapRows_iff {row : Fin n} (hrow : column ≤ row) (i : Fin n) :
    IsLargest (M.swapRows column row) column i ↔ IsLargest M column (exchanged column row i) := by
  rw [exchanged_eq_swap]
  refine isLargest_iff_of_entry (le_apply_iff_of_fixed fun k hk => ?_) (fun k => ?_) i
  · rw [← exchanged_eq_swap]
    exact exchanged_of_lt hrow hk
  · rw [DenseMatrix.entry_swapRows, exchanged_eq_swap]

/-! ## Scans of the same candidates -/

section Rearranged

variable {q : RowOrder n} {σ : Equiv.Perm (Fin n)} {s s' : State n (Binary F)}
  (h : Rearranged q column σ s s')

include h

/-- Scans of `Rearranged` states find the same magnitude. -/
theorem magnitude_scan_eq :
    (scan s'.matrix column).magnitude = (scan s.matrix column).magnitude := by
  have hle : below (scan s.matrix column).magnitude (scan s'.matrix column).magnitude = false :=
    strictComparison.not_below_scan_of_candidates fun i hi =>
      ⟨σ i, (h.le_apply_iff i).2 hi, h.entry i column⟩
  have hle' : below (scan s'.matrix column).magnitude (scan s.matrix column).magnitude = false := by
    refine strictComparison.not_below_scan_of_candidates fun i hi => ⟨σ.symm i, ?_, ?_⟩
    · rw [Fin.le_def, ← h.le_apply_iff, σ.apply_symm_apply]
      exact hi
    · rw [h.entry, σ.apply_symm_apply]
  -- neither magnitude is above the other, but a start that was kept is no magnitude of an entry
  rcases strictComparison.scan_cases s.matrix column with hstart | ⟨hfound, habove⟩
  · rcases strictComparison.scan_cases s'.matrix column with hstart' | ⟨-, habove'⟩
    · rw [hstart, hstart']
    · rw [hstart] at hle
      exact absurd (hle.symm.trans habove') Bool.false_ne_true
  · rcases strictComparison.scan_cases s'.matrix column with hstart' | ⟨hfound', habove'⟩
    · rw [hstart'] at hle'
      exact absurd (hle'.symm.trans habove) Bool.false_ne_true
    · rw [hfound] at habove hle hle' ⊢
      rw [hfound'] at habove' hle hle' ⊢
      exact abs_eq_of_not_below (isNaN_of_below_abs habove') (isNaN_of_below_abs habove) hle' hle

/-- If a single candidate `IsLargest`, the scans of `Rearranged` states find corresponding rows. -/
theorem apply_row_scan (habove : below 0 (scan s.matrix column).magnitude = true)
    (huntied : ∃! i,
      IsLargest (s.matrix.swapRows column (scan s.matrix column).row) column i) :
    σ (scan s'.matrix column).row = (scan s.matrix column).row := by
  have hrow := column_le_row_scan s.matrix column
  have hlargest := isLargest_scan habove
  have hlargest' : IsLargest s.matrix column (σ (scan s'.matrix column).row) := by
    rw [← isLargest_iff_of_entry h.le_apply_iff fun i => h.entry i column]
    refine isLargest_scan ?_
    rw [magnitude_scan_eq h]
    exact habove
  -- the snapshot in which the candidate is the only one has the two rows exchanged
  refine exchanged_injective (i := column) (j := (scan s.matrix column).row) ?_
  refine huntied.unique ?_ ?_
  · rwa [isLargest_swapRows_iff hrow, exchanged_exchanged]
  · rwa [isLargest_swapRows_iff hrow, exchanged_exchanged]

end Rearranged

/-! ## Runs on the same rows -/

variable {A : DenseMatrix n (Binary F)} {tolerance : Binary F}

/-- If each pivot on the way to `s` was the only `IsLargest` candidate, the run on the rows in the
order `q` reaches a state `s'` that is `Rearranged` by some `σ`. -/
theorem exists_rearranged_of_untied (ht : below 0 tolerance = true) (q : RowOrder n) {k : Nat}
    {s : State n (Binary F)} (h : Reached tolerance A k s)
    (huntied : ∀ record ∈ s.records, ∃! i, IsLargest record.snapshot record.column i) :
    ∃ s' σ, Reached tolerance (q.permuteRows A) k s' ∧ Rearranged q k σ s s' := by
  induction h with
  | initial => exact ⟨_, _, Reached.initial, Rearranged.initial _ _⟩
  | @eliminate s column before accepted ih =>
    rw [State.records_eliminate, List.forall_mem_append, List.forall_mem_singleton] at huntied
    obtain ⟨s', σ, hs', hrearranged⟩ := ih huntied.1
    have hmagnitude := magnitude_scan_eq hrearranged
    -- a pivot that is accepted under a positive tolerance was found above zero
    have habove : below 0 (scan s.matrix column).magnitude = true := by
      rcases strictComparison.scan_cases s.matrix column with hstart | ⟨-, habove⟩
      · exact absurd hstart (scan_ne_start_of_accepted ht accepted)
      · exact habove
    have hnext := hrearranged.eliminate (apply_row_scan hrearranged habove huntied.2)
      (column_le_row_scan s.matrix column) (column_le_row_scan s'.matrix column)
    exact ⟨_, _, hs'.eliminate (by rwa [hmagnitude]), hnext⟩

section Untied

variable (ht : below 0 tolerance = true)
  (huntied : ∀ record ∈ (decompose tolerance A).records,
    ∃! i, IsLargest record.snapshot record.column i)

include ht huntied

/-- If the run on `A` goes through all columns, so does the run on the rows in the order `q`, with
the same matrix, the same rows at the same places, and a counter whose parity differs by that of
`q`. -/
theorem exists_reached_of_untied (q : RowOrder n) {s : State n (Binary F)}
    (hs : Reached tolerance A n s) :
    ∃ s', Reached tolerance (q.permuteRows A) n s' ∧ s'.matrix = s.matrix ∧
      (∀ i, q.source (s'.order.source i) = s.order.source i) ∧
      (s'.order.isOdd ≠ s.order.isOdd ↔ Odd q.inversions) := by
  obtain ⟨s', σ, hs', hrearranged⟩ := exists_rearranged_of_untied ht q hs
    fun record hrecord => huntied record (hs.prefix_records.subset hrecord)
  exact ⟨s', hs', hrearranged.matrix_eq, hrearranged.source_eq,
    hs.countsParity.isOdd_ne_iff hs'.countsParity hrearranged.source_eq⟩

/-- If the run on `A` breaks down with `b`, so does the run on the rows in the order `q`. -/
theorem outcome_eq_error_of_untied (q : RowOrder n) {b : Breakdown n (Binary F)}
    (h : (decompose tolerance A).outcome = .error b) :
    (decompose tolerance (q.permuteRows A)).outcome = .error b := by
  rcases decompose_cases tolerance A with ⟨s, hs, -⟩ | ⟨column, s, hs, hlow, -⟩
  · rw [hs.outcome_eq_ok] at h
    cases h
  · obtain ⟨s', σ, hs', hrearranged⟩ := exists_rearranged_of_untied ht q hs
      fun record hrecord => huntied record (hs.prefix_records.subset hrecord)
    have hmagnitude := magnitude_scan_eq hrearranged
    rw [← h, hs.outcome_eq_error hlow, ← hmagnitude]
    exact hs'.outcome_eq_error (by rwa [hmagnitude])

end Untied

/-! ## The sign of the determinant -/

theorem neg_neg (x : Binary F) : - -x = x := by
  change neg (neg x) = x
  cases x <;> simp [neg]

/-- Row orders `p` and `p'` of different parity give determinants of different sign and the same
magnitude. -/
theorem determinant_eq_neg_of_isOdd_ne {lu : DenseMatrix n (Binary F)} {p p' : RowOrder n}
    (h : p'.isOdd ≠ p.isOdd) : determinant lu p' = -determinant lu p := by
  unfold determinant
  dsimp only
  by_cases hp : p.isOdd = true
  · rw [if_pos hp, if_neg fun hp' => h (hp'.trans hp.symm), neg_neg]
  · rw [if_neg hp]
    exact if_pos (by simpa [hp] using h)

/-- **Independence of the order of rows.** Let `tolerance` be above `0`, and suppose that in the
`snapshot` of every record of the run on `A` a single row `IsLargest`. The entries of `A` are
arbitrary. Then for every row order `q`:

- if the run on `A` returns `p`, the run on `q.permuteRows A` leaves the same matrix and returns a
  `p'` that brings the same rows to the same places, and whose counter differs in parity exactly if
  `q` is odd;
- one run breaks down with `b` exactly if the other does.

In particular, an exchange of rows `i` and `j` turns the sign of the determinant that is worked out,
without any difference in rounding. -/
theorem decompose_permuteRows_of_untied (A : DenseMatrix n (Binary F)) {tolerance : Binary F}
    (ht : below 0 tolerance = true)
    (huntied : ∀ record ∈ (decompose tolerance A).records,
      ∃! i, IsLargest record.snapshot record.column i) :
    (∀ q : RowOrder n,
      (∀ p, (decompose tolerance A).outcome = .ok p →
        ∃ p', (decompose tolerance (q.permuteRows A)).outcome = .ok p' ∧
          (decompose tolerance (q.permuteRows A)).matrix = (decompose tolerance A).matrix ∧
          (∀ i, q.source (p'.source i) = p.source i) ∧
          (p'.isOdd ≠ p.isOdd ↔ Odd q.inversions)) ∧
      ∀ b, (decompose tolerance A).outcome = .error b ↔
        (decompose tolerance (q.permuteRows A)).outcome = .error b) ∧
    ∀ i j, i ≠ j → ∀ f, Factorization.ofMatrix tolerance A = .ok f →
      ∃ g, Factorization.ofMatrix tolerance (A.swapRows i j) = .ok g ∧
        g.determinant = -f.determinant := by
  have hok : ∀ (q : RowOrder n) (p : RowOrder n), (decompose tolerance A).outcome = .ok p →
      ∃ p', (decompose tolerance (q.permuteRows A)).outcome = .ok p' ∧
        (decompose tolerance (q.permuteRows A)).matrix = (decompose tolerance A).matrix ∧
        (∀ i, q.source (p'.source i) = p.source i) ∧ (p'.isOdd ≠ p.isOdd ↔ Odd q.inversions) := by
    intro q p hp
    obtain ⟨s, hs, rfl, -⟩ := exists_reached_of_ok hp
    obtain ⟨s', hs', hmatrix, hsource, hparity⟩ := exists_reached_of_untied ht huntied q hs
    refine ⟨s'.order, hs'.outcome_eq_ok, ?_, hsource, hparity⟩
    rw [hs'.matrix_eq, hs.matrix_eq, hmatrix]
  refine ⟨fun q => ⟨hok q, fun b => ⟨outcome_eq_error_of_untied ht huntied q, fun hb => ?_⟩⟩,
    fun i j hij f hf => ?_⟩
  · -- the run on `A` succeeds or fails, and the other one tells which
    rcases outcome_eq_ok_or_error tolerance A with ⟨p, hp⟩ | ⟨b', hb'⟩
    · obtain ⟨p', hp', -⟩ := hok q p hp
      rw [hp'] at hb
      cases hb
    · rw [hb', ← hb, outcome_eq_error_of_untied ht huntied q hb']
  · obtain ⟨s, hs, rfl⟩ := Factorization.ofMatrix_eq_ok_iff.1 hf
    obtain ⟨s', hs', hmatrix, -, hparity⟩ :=
      exists_reached_of_untied ht huntied ((RowOrder.identity n).exchange i j) hs
    rw [RowOrder.permuteRows_exchange_identity] at hs'
    refine ⟨⟨s'.matrix, s'.order⟩, Factorization.ofMatrix_eq_ok_iff.2 ⟨s', hs', rfl⟩, ?_⟩
    rw [Factorization.determinant, Factorization.determinant, hmatrix]
    exact determinant_eq_neg_of_isOdd_ne (hparity.2 (RowOrder.odd_inversions_exchange hij))

/-- The run on `A` exchanges rows twice; the rows are also given in the cycle `q`, and with two
exchanged. -/
theorem decompose_permuteRows_of_untied_cycle :
    let A : DenseMatrix 3 Binary64 :=
      ⟨#v[#v[0, .ofNat 2, 1], #v[.ofNat 3, 0, 0], #v[.ofNat 9, 0, .ofNat 3]]⟩
    let p : RowOrder 3 := { sources := #v[2, 0, 1], distinct := by decide, exchanges := 2 }
    let q : RowOrder 3 := { sources := #v[1, 2, 0], distinct := by decide, exchanges := 0 }
    (decompose 1 A).outcome = .ok p ∧
      (∃ p', (decompose 1 (q.permuteRows A)).outcome = .ok p' ∧
        (decompose 1 (q.permuteRows A)).matrix = (decompose 1 A).matrix ∧
        (∀ i, q.source (p'.source i) = p.source i) ∧ (p'.isOdd ≠ p.isOdd ↔ Odd q.inversions)) ∧
      ∃ g, Factorization.ofMatrix 1 (A.swapRows 0 2) = .ok g ∧
        g.determinant = -(⟨(decompose 1 A).matrix, p⟩ : Factorization 3 Binary64).determinant := by
  intro A p q
  have hp : (decompose 1 A).outcome = .ok p := by decide +kernel
  have hfactors : Factorization.ofMatrix 1 A = .ok ⟨(decompose 1 A).matrix, p⟩ := by
    rw [Factorization.ofMatrix, hp]
    rfl
  have ht : below (0 : Binary64) 1 = true := by decide +kernel
  have huntied : ∀ record ∈ (decompose 1 A).records,
      ∃! i, IsLargest record.snapshot record.column i := by
    unfold ExistsUnique
    decide +kernel
  obtain ⟨horders, hexchange⟩ := decompose_permuteRows_of_untied A ht huntied
  exact ⟨hp, (horders q).1 p hp, hexchange 0 2 (by decide) _ hfactors⟩

end Binary

end PivotedLU
