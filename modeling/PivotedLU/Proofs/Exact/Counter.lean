import PivotedLU.Proofs.Exact.Determinant
import PivotedLU.Proofs.RowOrder.History

/-!
# Counters and Determinants

A determinant takes its sign from the counter of the row order, not from the permutation. An order
that began as the identity has a counter of the right parity, and so has one that began with a list
in flat layout whose counter is right. The flat layout accepts every other counter too, and a
determinant that is worked out with such an order has the wrong sign.

## Main results

* `RowOrder.obtained`: every row order is obtained, with every counter.
* `counter_of_history`: how the order at the start decides on the parity and on the determinant.
* `counter_not_parity`: a counter of the wrong parity.
-/

namespace PivotedLU

variable {n : Nat}

/-- Every row order `p` is obtained from its flat form, whether its counter agrees or not. -/
theorem RowOrder.obtained (p : RowOrder n) : p.Obtained :=
  ⟨p, Start.ofFlat (ofFlat_toFlat p), Swapped.start⟩

/-- If `f` reconstructs what the matrix of its order makes of `A`, its triangles multiply to `A`
with the rows permuted. -/
theorem Factorization.mul_eq_permuteRows_of_reconstruct {f : Factorization n ℚ}
    {A : DenseMatrix n ℚ} (h : f.permutationMatrix.multiply A = .ok f.reconstruct) :
    f.lower.mul f.upper = f.order.permuteRows A := by
  rw [DenseMatrix.multiply_eq_ok, Factorization.permutationMatrix, RowOrder.toMatrix_mul,
    Factorization.reconstruct_eq_mul] at h
  exact (Except.ok.inj h).symm

/-- **What a counter is worth.** Let `p` come about from `start` by exchanges of places.

- The counter of `p` has the parity of its inversions exactly if that of `start` has, so it does if
  `start` is `RowOrder.identity n`.
- Let `f` be a factorization with the order `p`, over the rationals, whose reconstruction is the
  matrix of `p` times `A`. If the counter of `start` has the parity of its inversions,
  `f.determinant` is the determinant of `A`, and otherwise it is the negative. -/
theorem counter_of_history {start p : RowOrder n} (h : RowOrder.Swapped start p) :
    ((p.isOdd = true ↔ Odd p.inversions) ↔ (start.isOdd = true ↔ Odd start.inversions)) ∧
      (start = RowOrder.identity n → (p.isOdd = true ↔ Odd p.inversions)) ∧
      ∀ (f : Factorization n ℚ) (A : DenseMatrix n ℚ), f.order = p →
        f.permutationMatrix.multiply A = .ok f.reconstruct →
          ((start.isOdd = true ↔ Odd start.inversions) →
            f.determinant = cofactorDeterminant A) ∧
          (¬(start.isOdd = true ↔ Odd start.inversions) →
            f.determinant = -cofactorDeterminant A) := by
  rw [← RowOrder.countsParity_iff, ← RowOrder.countsParity_iff]
  refine ⟨h.countsParity_iff, ?_, ?_⟩
  · rintro rfl
    exact h.countsParity_iff.2 RowOrder.countsParity_identity
  · rintro f A rfl hf
    have hproduct := Factorization.mul_eq_permuteRows_of_reconstruct hf
    rw [cofactorDeterminant_eq_det, ← h.countsParity_iff]
    exact ⟨fun hparity => Factorization.determinant_eq_det hparity hproduct,
      fun hparity => Factorization.determinant_eq_neg_det hparity hproduct⟩

/-- The exchange that the list `[0, 1, 3]` counts has not happened, and one more keeps the
determinant wrong. -/
theorem counter_of_history_flat :
    ∃ start : RowOrder 2, RowOrder.ofFlat [0, 1, 3] = .ok ⟨2, start⟩ ∧
      let f : Factorization 2 ℚ := ⟨⟨#v[#v[1, 0], #v[0, 1]]⟩, start.exchange 0 1⟩
      ¬(f.order.isOdd = true ↔ Odd f.order.inversions) ∧
      f.determinant = -cofactorDeterminant (⟨#v[#v[0, 1], #v[1, 0]]⟩ : DenseMatrix 2 ℚ) := by
  let start : RowOrder 2 := ⟨#v[0, 1], by decide, 1⟩
  refine ⟨start, by decide +kernel, ?_⟩
  intro f
  have hstart : ¬(start.isOdd = true ↔ Odd start.inversions) := by
    decide +kernel
  have hswapped : RowOrder.Swapped start f.order :=
    RowOrder.Swapped.start.exchangeAt (i := 0) (j := 1) rfl
  obtain ⟨hparity, -, hdeterminant⟩ := counter_of_history hswapped
  refine ⟨fun h => hstart (hparity.1 h), ?_⟩
  exact (hdeterminant f _ rfl (by decide +kernel)).2 hstart

/-- The list `[0, 1, 3]` is accepted though it counts an exchange beside the identity: the counter
does not have the parity of the inversions, and the determinant of the identity is worked out as
minus one. -/
theorem counter_not_parity :
    ¬(∀ (n : Nat) (p : RowOrder n), p.Obtained → (p.isOdd = true ↔ Odd p.inversions)) ∧
      ¬(∀ (n : Nat) (f : Factorization n ℚ) (A : DenseMatrix n ℚ), f.order.Obtained →
        f.permutationMatrix.multiply A = .ok f.reconstruct →
          f.determinant = cofactorDeterminant A) := by
  let p : RowOrder 2 := ⟨#v[0, 1], by decide, 1⟩
  have hp : p.Obtained :=
    ⟨p, RowOrder.Start.ofFlat (show RowOrder.ofFlat [0, 1, 3] = .ok ⟨2, p⟩ by decide +kernel),
      RowOrder.Swapped.start⟩
  constructor
  · intro h
    have hodd := (h 2 p hp).1 rfl
    exact absurd hodd (by decide +kernel)
  · intro h
    have hdeterminant := h 2 ⟨DenseMatrix.identity 2, p⟩ (DenseMatrix.identity 2) hp
      (by decide +kernel)
    exact absurd hdeterminant (by decide +kernel)

end PivotedLU
