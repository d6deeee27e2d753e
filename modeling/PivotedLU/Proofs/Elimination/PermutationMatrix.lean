import PivotedLU.Proofs.Binary.Laws
import PivotedLU.Proofs.Elimination.Records
import PivotedLU.Proofs.RowOrder.Cycles
import PivotedLU.Proofs.Substitution.Columns

/-!
# Permutation Matrices

The elimination of a permutation matrix sorts its rows. In every column there is a single one, which
is found, brought to the diagonal, and has nothing but zeros to be cleared below it. The rows are
sorted cycle by cycle, so every exchange makes one cycle more, and in the end the matrix is the
identity and the order is the inverse one. A substitution with the identity then only copies the
right-hand side. No step rounds: all that is met on the way are the simplest sums and products of
zeros and ones.

## Main definitions

* `UnitLaws`: what zeros and ones have to satisfy.
* `PartlySorted`: the rows of a permutation matrix, of which the first `k` stand at their goal.

## Main results

* `PartlySorted.eliminate`, `exists_partlySorted`: one column, and the columns up to the last.
* `UnitLaws.solve_identity`: what a substitution with the identity does.
* `decompose_toMatrix`: what a run makes of a permutation matrix.
-/

namespace PivotedLU

universe u

variable {α : Type u} [Scalar α] {n : Nat}

/-! ## Matrices of row orders -/

namespace RowOrder

variable {p q : RowOrder n}

/-- The entries of the matrix of `q`, with its rows in the order `p`. -/
theorem entry_permuteRows_toMatrix (p q : RowOrder n) (i j : Fin n) :
    (p.permuteRows (q.toMatrix : DenseMatrix n α)).entry i j =
      if q.source (p.source i) = j then 1 else 0 := by
  rw [entry_permuteRows, entry_toMatrix]

/-- If `q` undoes `p`, the matrix of `p` is the transpose of that of `q`. -/
theorem toMatrix_eq_transpose (h : ∀ i, q.source (p.source i) = i) :
    (p.toMatrix : DenseMatrix n α) = q.toMatrix.transpose := by
  ext i j
  rw [entry_toMatrix, DenseMatrix.entry_transpose, entry_toMatrix]
  refine if_congr ⟨?_, ?_⟩ rfl rfl
  · rintro rfl
    exact h i
  · rintro rfl
    exact q.source_injective (h (q.source j))

end RowOrder

/-! ## Zeros and ones -/

/-- Zeros and ones are exact, and one is above zero in magnitude. -/
structure UnitLaws (α : Type u) [Scalar α] : Prop where
  zero_div_one : (0 : α) / 1 = 0
  one_div_one : (1 : α) / 1 = 1
  zero_mul_zero : (0 : α) * 0 = 0
  zero_mul_one : (0 : α) * 1 = 0
  one_mul_one : (1 : α) * 1 = 1
  zero_sub_zero : (0 : α) - 0 = 0
  one_sub_zero : (1 : α) - 0 = 1
  magnitude_zero : Scalar.magnitude (0 : α) = 0
  magnitude_one : Scalar.magnitude (1 : α) = 1
  zero_below_one : Scalar.below (0 : α) 1 = true
  not_zero_below_zero : Scalar.below (0 : α) 0 = false
  not_one_below_zero : Scalar.below (1 : α) 0 = false

/-- Zeros and ones are exact in every format `F`. -/
theorem Binary.unitLaws {F : Format} : UnitLaws (Binary F) where
  zero_div_one := div_one 0
  one_div_one := div_one 1
  zero_mul_zero := zero_mul_finite false false F.represents_zero
  zero_mul_one := zero_mul_finite false false F.represents_one
  one_mul_one := one_mul 1
  zero_sub_zero := zero_sub_zero false false
  one_sub_zero := sub_zero F.represents_one (Nat.two_pow_pos _) false
  magnitude_zero := rfl
  magnitude_one := rfl
  zero_below_one := zero_below_one
  not_zero_below_zero := rfl
  not_one_below_zero := magnitudeLaws.not_below_zero 1

/-- The element `x` is zero or one. -/
def ZeroOrOne (x : α) : Prop :=
  x = 0 ∨ x = 1

theorem zeroOrOne_ite (P : Prop) [Decidable P] : ZeroOrOne (if P then 1 else 0 : α) := by
  split
  · exact Or.inr rfl
  · exact Or.inl rfl

namespace UnitLaws

variable {x y : α}

theorem div_one (hα : UnitLaws α) (hx : ZeroOrOne x) : x / 1 = x := by
  rcases hx with rfl | rfl
  · exact hα.zero_div_one
  · exact hα.one_div_one

/-- A product of `0` with zero or one takes nothing away from `x`. -/
theorem sub_zero_mul (hα : UnitLaws α) (hx : ZeroOrOne x) (hy : ZeroOrOne y) :
    x - 0 * y = x := by
  have hproduct : (0 : α) * y = 0 := by
    rcases hy with rfl | rfl
    · exact hα.zero_mul_zero
    · exact hα.zero_mul_one
  rw [hproduct]
  rcases hx with rfl | rfl
  · exact hα.zero_sub_zero
  · exact hα.one_sub_zero

/-! ## Substitution with the identity -/

open Substitution

/-- Terms whose coefficients in `r` are `0` take nothing away from `start`. -/
theorem subtractTerms_eq_start (hα : UnitLaws α) {selected : Fin n → Bool} {r b : Vector α n}
    {start : α} (hr : ∀ k, selected k = true → r.get k = 0) (hb : ∀ k, ZeroOrOne (b.get k))
    (hstart : ZeroOrOne start) : subtractTerms selected r b start = start := by
  refine foldl_invariant (fun _ acc => acc = start) rfl fun k acc hacc => ?_
  subst hacc
  split
  · next hk =>
    rw [hr k hk]
    exact hα.sub_zero_mul hstart (hb k)
  · rfl

/-- A substitution with the identity permutes the right-hand side `b`. -/
theorem solve_identity (hα : UnitLaws α) (p : RowOrder n) {b : Vector α n}
    (hb : ∀ i, ZeroOrOne (b.get i)) : solve (DenseMatrix.identity n) p b = p.permute b := by
  have hpermuted : ∀ i, ZeroOrOne ((p.permute b).get i) := by
    intro i
    rw [RowOrder.get_permute]
    exact hb (p.source i)
  have hzero : ∀ i k : Fin n, i ≠ k →
      ((DenseMatrix.identity n : DenseMatrix n α).row i).get k = 0 := by
    intro i k hik
    exact (DenseMatrix.entry_identity i k).trans (if_neg hik)
  -- the permuted right-hand side satisfies the equations of both passes
  have hforward : p.permute b = forward (DenseMatrix.identity n) p b (Vector.replicate n 0) := by
    rw [eq_forward_iff]
    intro i
    rw [hα.subtractTerms_eq_start (fun k hk => hzero i k (of_decide_eq_true hk).ne') hpermuted
      (hb (p.source i)), RowOrder.get_permute]
  have hbackward : p.permute b = backward (DenseMatrix.identity n) (p.permute b) := by
    rw [eq_backward_iff]
    intro i
    rw [hα.subtractTerms_eq_start (fun k hk => hzero i k (of_decide_eq_true hk).ne) hpermuted
      (hpermuted i), DenseMatrix.entry_identity, if_pos rfl, hα.div_one (hpermuted i)]
  rw [solve, solveInto, ← hforward, ← hbackward]

/-- The inverse by the identity under `p` is the matrix of `p`. -/
theorem invert_identity (hα : UnitLaws α) (p : RowOrder n) :
    invert (DenseMatrix.identity n) p = (p.toMatrix : DenseMatrix n α) := by
  refine DenseMatrix.ext_column fun j => ?_
  have hunit : ∀ i, ZeroOrOne ((unitVector j : Vector α n).get i) := by
    intro i
    rw [get_unitVector]
    exact zeroOrOne_ite _
  rw [column_invert, hα.solve_identity p hunit, vector_eq_iff]
  intro i
  rw [RowOrder.get_permute, get_unitVector, DenseMatrix.get_column, RowOrder.entry_toMatrix]

/-- The determinant of the identity under `p` is one, with the sign that the counter of `p`
gives. -/
theorem determinant_identity (hα : UnitLaws α) (p : RowOrder n) :
    determinant (DenseMatrix.identity n) p = (if p.isOdd then -1 else 1 : α) := by
  have hproduct :
      Fin.foldl n (fun acc i => acc * (DenseMatrix.identity n).entry i i) 1 = (1 : α) := by
    refine foldl_invariant (fun _ acc => acc = (1 : α)) rfl fun i acc hacc => ?_
    rw [hacc, DenseMatrix.entry_identity, if_pos rfl, hα.one_mul_one]
  rw [determinant, hproduct]

end UnitLaws

namespace Elimination

variable {tolerance : α} {k : Nat} {s : State n α}

/-! ## Sorting the rows -/

/-- The rows of a permutation matrix in the order of the state, of which the first `k` stand at
their goal, and every exchange has made one cycle more. -/
structure PartlySorted (q : RowOrder n) (k : Nat) (s : State n α) : Prop where
  matrix : s.matrix = s.order.permuteRows q.toMatrix
  finished : ∀ i : Fin n, i.val < k → q.source (s.order.source i) = i
  exchanges : s.order.exchanges + q.cycles = cycleCount (q.perm * s.order.perm)

/-- Before the first column no row has been brought to its goal. -/
theorem partlySorted_initial (q : RowOrder n) :
    PartlySorted q 0 (State.initial (q.toMatrix : DenseMatrix n α)) where
  matrix := (RowOrder.permuteRows_identity q.toMatrix).symm
  finished i hi := absurd hi (Nat.not_lt_zero _)
  exchanges := by
    show 0 + q.cycles = cycleCount (q.perm * (RowOrder.identity n).perm)
    rw [Nat.zero_add, RowOrder.perm_identity, mul_one]
    rfl

/-- If the one of `column` stands on the diagonal, the column is clear already: the multipliers are
zero. -/
theorem clearBelow_permuteRows_toMatrix (hα : UnitLaws α) {p q : RowOrder n} {column : Fin n}
    (h : q.source (p.source column) = column) :
    clearBelow (p.permuteRows (q.toMatrix : DenseMatrix n α)) column =
      p.permuteRows q.toMatrix := by
  have hentry := RowOrder.entry_permuteRows_toMatrix (α := α) p q
  generalize (p.permuteRows q.toMatrix : DenseMatrix n α) = M at hentry ⊢
  have hunit : ∀ i j, ZeroOrOne (M.entry i j) := by
    intro i j
    rw [hentry]
    exact zeroOrOne_ite _
  have hdiagonal : M.entry column column = 1 := by
    rw [hentry, if_pos h]
  -- a second one in the column would belong to a row with the same source
  have hbelow : ∀ i, column < i → M.entry i column = 0 := by
    intro i hi
    rw [hentry, if_neg]
    exact fun hi' => hi.ne' (p.source_injective (q.source_injective (hi'.trans h.symm)))
  refine DenseMatrix.ext (forall_entry_clearBelow (P := fun i j x => x = M.entry i j)
    (fun _ _ => rfl) (fun i hi => ?_) fun i j hi hj => ?_)
  · rw [hdiagonal, hbelow i hi, hα.zero_div_one]
  · rw [hdiagonal, hbelow i hi, hα.zero_div_one]
    exact hα.sub_zero_mul (hunit i j) (hunit column j)

namespace PartlySorted

variable {q : RowOrder n} {column : Fin n}

theorem entry (h : PartlySorted q k s) (i j : Fin n) :
    s.matrix.entry i j = if q.source (s.order.source i) = j then 1 else 0 := by
  rw [h.matrix, RowOrder.entry_permuteRows_toMatrix]

/-- The scan of the next `column` finds its one. -/
theorem exists_scan_eq (hα : UnitLaws α) (h : PartlySorted q column s) :
    ∃ r, q.source (s.order.source r) = column ∧ scan s.matrix column = ⟨r, 1⟩ := by
  obtain ⟨r, hr⟩ : ∃ r, q.source (s.order.source r) = column :=
    (q.source_bijective.comp s.order.source_bijective).2 column
  -- no other row has its one in this column
  have hmagnitude : ∀ i, Scalar.magnitude (s.matrix.entry i column) = if i = r then 1 else 0 := by
    intro i
    rw [h.entry]
    by_cases hi : i = r
    · rw [if_pos hi, hi, if_pos hr, hα.magnitude_one]
    · rw [if_neg hi, if_neg, hα.magnitude_zero]
      exact fun hi' => hi (s.order.source_injective (q.source_injective (hi'.trans hr.symm)))
  -- above the diagonal every row stands at its own goal
  have hle : column ≤ r := by
    refine not_lt.1 fun hlt => hlt.ne ?_
    rw [← hr, h.finished r hlt]
  refine ⟨r, hr, scan_eq_of_first hle ((hmagnitude r).trans (if_pos rfl)) hα.zero_below_one
    (fun i _ hi => ?_) fun i hi => ?_⟩
  · rw [hmagnitude, if_neg hi.ne]
    exact hα.not_zero_below_zero
  · rw [hmagnitude, if_neg hi.ne']
    exact hα.not_one_below_zero

/-- A step in `column` brings one row to its goal, and changes nothing else. -/
theorem eliminate (hα : UnitLaws α) (h : PartlySorted q column s) :
    PartlySorted q (column + 1) (s.eliminate column (scan s.matrix column)) := by
  obtain ⟨r, hr, hscan⟩ := h.exists_scan_eq hα
  have hle : column ≤ r := by
    have hle := column_le_row_scan s.matrix column
    rwa [hscan] at hle
  have hgoal : q.source ((s.order.exchange column r).source column) = column := by
    rw [RowOrder.source_exchange, exchanged_left, hr]
  rw [hscan]
  refine ⟨?_, fun i hi => ?_, ?_⟩
  · -- once the one is on the diagonal, there is nothing to clear
    rw [State.matrix_eliminate, State.order_eliminate, h.matrix, ← RowOrder.permuteRows_exchange,
      clearBelow_permuteRows_toMatrix hα hgoal]
  · rw [State.order_eliminate]
    rcases Nat.lt_or_eq_of_le (Nat.le_of_lt_succ hi) with hlt | heq
    · rw [RowOrder.source_exchange, exchanged_of_lt hle hlt]
      exact h.finished i hlt
    · obtain rfl : i = column := Fin.ext heq
      exact hgoal
  · rw [State.order_eliminate, RowOrder.perm_exchange, RowOrder.exchanges_exchange, ← mul_assoc]
    by_cases hne : column = r
    · rw [if_pos hne, hne, Equiv.swap_self]
      exact h.exchanges
    · -- the exchange cuts the diagonal place out of its cycle
      rw [if_neg hne, cycleCount_mul_swap hne hr, ← h.exchanges]
      omega

end PartlySorted

/-- Under a `tolerance` that does not refuse the pivot `1`, the run goes through all columns. -/
theorem exists_partlySorted (hα : UnitLaws α) (ht : Scalar.below 1 tolerance = false)
    (q : RowOrder n) (hk : k ≤ n) :
    ∃ s : State n α, Reached tolerance q.toMatrix k s ∧ PartlySorted q k s := by
  refine exists_reached_of_step (P := PartlySorted q) (partlySorted_initial q) ?_ hk
  intro s column hsorted
  obtain ⟨r, -, hscan⟩ := hsorted.exists_scan_eq hα
  refine ⟨?_, hsorted.eliminate hα⟩
  rw [hscan]
  exact ht

/-- **Permutation matrices.** Under `UnitLaws`, and with a `tolerance` that `1` is not below, the
run on the matrix of `q` returns a `p`.

- It leaves the identity, `p` undoes `q`, and the exchanges of `p` and the cycles of `q` add up to
  `n`.
- The inverse that is computed is the transpose of the matrix, and the determinant is `1` or `-1` by
  the parity of `q`, without any rounding. -/
theorem decompose_toMatrix (hα : UnitLaws α) (ht : Scalar.below 1 tolerance = false)
    (q : RowOrder n) :
    let r := decompose tolerance (q.toMatrix : DenseMatrix n α)
    ∃ p, r.outcome = .ok p ∧ r.matrix = DenseMatrix.identity n ∧
      (∀ i, q.source (p.source i) = i ∧ p.source (q.source i) = i) ∧
      p.exchanges + q.cycles = n ∧
      Substitution.invertAny r.matrix p = .ok q.toMatrix.transpose ∧
      determinant r.matrix p = if Odd q.inversions then -1 else 1 := by
  intro r
  obtain ⟨s, hs, hsorted⟩ := exists_partlySorted hα ht q le_rfl
  have hinverse : ∀ i, q.source (s.order.source i) = i := fun i => hsorted.finished i i.isLt
  have hinverse' : ∀ i, s.order.source (q.source i) = i := fun i =>
    q.source_injective (hinverse (q.source i))
  have hmatrix : r.matrix = DenseMatrix.identity n := by
    rw [show r.matrix = s.matrix from hs.matrix_eq]
    ext i j
    rw [hsorted.entry, hinverse, DenseMatrix.entry_identity]
  -- at the end nothing is left to exchange
  have hperm : q.perm * s.order.perm = 1 := Equiv.ext hinverse
  refine ⟨s.order, hs.outcome_eq_ok, hmatrix, fun i => ⟨hinverse i, hinverse' i⟩, ?_, ?_, ?_⟩
  · rw [hsorted.exchanges, hperm, cycleCount_one]
  · rw [hmatrix, Substitution.invertAny, Substitution.invertBuffer_eq_ok, hα.invert_identity,
      RowOrder.toMatrix_eq_transpose hinverse]
  · rw [hmatrix, hα.determinant_identity]
    refine if_congr ?_ rfl rfl
    rw [hs.countsParity.isOdd_iff, RowOrder.odd_inversions_iff_of_inverse hinverse]

/-- Here `q` has a cycle of three places and one that stays: two exchanges. -/
theorem decompose_toMatrix_threeCycle :
    let q := ((RowOrder.identity 4).exchange 0 1).exchange 1 3
    let A : DenseMatrix 4 Binary64 := q.toMatrix
    ∃ p, (decompose 1 A).outcome = .ok p ∧ p.exchanges = 2 ∧ q.cycles = 2 ∧
      Substitution.invertAny (decompose 1 A).matrix p = .ok A.transpose ∧
      determinant (decompose 1 A).matrix p = 1 := by
  intro q A
  have htolerance : Scalar.below 1 (1 : Binary64) = false := by decide +kernel
  obtain ⟨p, hp, -, -, hcycles, hinverse, hdeterminant⟩ :=
    decompose_toMatrix Binary.unitLaws htolerance q
  have hexchanges : p.exchanges = 2 := by
    have hcount : (decompose 1 A).outcome.map RowOrder.exchanges = .ok 2 := by decide +kernel
    rw [show (decompose 1 A).outcome = .ok p from hp] at hcount
    exact Except.ok.inj hcount
  have heven : ¬Odd q.inversions := by decide +kernel
  rw [if_neg heven] at hdeterminant
  exact ⟨p, hp, hexchanges, by omega, hinverse, hdeterminant⟩

end Elimination

end PivotedLU
