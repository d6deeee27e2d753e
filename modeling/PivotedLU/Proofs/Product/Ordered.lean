import PivotedLU.Proofs.Binary.Laws
import PivotedLU.Proofs.Exact.Basic
import PivotedLU.Proofs.Stored.Matrix
import PivotedLU.Proofs.Substitution.Columns

/-!
# Products as Ordered Sums

A product of two matrices is computed row by row: the rows of the right factor are added to a row of
zeros, each times its coefficient, so all entries of a row grow together. Seen from a single place
the loops are one ordered sum of products. The product of a matrix and a vector is written as such
sums directly, and agrees without any law of arithmetic. For transposes the two factors of every
product change sides. Only what brackets a product of three differently needs exact arithmetic.

## Main results

* `DenseMatrix.transpose_mul`: the transpose of a product.
* `DenseMatrix.mul_assoc`: exact products of three matrices.
* `DenseMatrix.product_ordered`: what a product is, what it is not, and which laws it has.
-/

namespace PivotedLU

universe u

namespace DenseMatrix

variable {n : Nat}

/-- The transpose of `A.mul B`, if the factors of a product of elements may change sides. Terms are
taken up in the same order on both sides, so nothing is asked of sums. -/
theorem transpose_mul {α : Type u} [Scalar α] (hcomm : ∀ x y : α, x * y = y * x)
    (A B : DenseMatrix n α) : (A.mul B).transpose = B.transpose.mul A.transpose := by
  ext i j
  rw [entry_transpose, entry_mul, entry_mul]
  refine foldl_congr_step (fun acc k => ?_) 0
  rw [entry_transpose, entry_transpose, hcomm]

/-- Over the rationals the product of `A`, `B` and `C` may be bracketed either way. -/
theorem mul_assoc (A B C : DenseMatrix n ℚ) : (A.mul B).mul C = A.mul (B.mul C) := by
  apply entries_injective
  rw [entries_mul, entries_mul, entries_mul, entries_mul, Matrix.mul_assoc]

/-- Matrices `A` and `B` of two sizes are not multiplied. -/
theorem multiply_of_ne {α : Type u} [Scalar α] {m : Nat} (h : n ≠ m) (A : DenseMatrix n α)
    (B : DenseMatrix m α) : A.multiply B = .error (.factorSizes n m) :=
  dif_neg h.symm

/-- **Products are ordered sums.** Let `A` and `B` be of size `n`.

- In any arithmetic they have a product, and `Stored.multiply`, the loops over stored rows, computes
  it. Its entries are the sums of the products of matching entries, taken up from `0` by ascending
  index, and column `j` of it is `A` applied to column `j` of `B`.
- If factors may change sides, as floats may, the transposes have the transposed product.
- Over the rationals products are associative, and a product acts as its factors do one after the
  other.
- Matrices of two sizes are refused. -/
theorem product_ordered :
    (∀ (α : Type) [Scalar α] (A B : DenseMatrix n α),
      A.multiply B = .ok (A.mul B) ∧
      Stored.multiply A.toLists B.toLists = .ok (.ok (A.mul B).toLists) ∧
      (∀ i j, (A.mul B).entry i j =
        (List.finRange n).foldl (fun sum k => sum + A.entry i k * B.entry k j) 0) ∧
      (∀ j, A.apply (B.column j).toList = .ok ((A.mul B).column j)) ∧
      ((∀ x y : α, x * y = y * x) →
        B.transpose.multiply A.transpose = .ok (A.mul B).transpose)) ∧
    (∀ (F : Format) (A B : DenseMatrix n (Binary F)),
      B.transpose.multiply A.transpose = .ok (A.mul B).transpose) ∧
    (∀ A B C : DenseMatrix n ℚ, (A.mul B).multiply C = A.multiply (B.mul C)) ∧
    (∀ (A B : DenseMatrix n ℚ) (x : Vector ℚ n), ∃ y : Vector ℚ n,
      B.apply x.toList = .ok y ∧ (A.mul B).apply x.toList = A.apply y.toList) ∧
    ∀ (α : Type) [Scalar α] (m : Nat) (A : DenseMatrix n α) (B : DenseMatrix m α), n ≠ m →
      A.multiply B = .error (.factorSizes n m) ∧
        Stored.multiply A.toLists B.toLists = .ok (.error (.factorSizes n m)) := by
  have htranspose : ∀ {α : Type} [Scalar α] (A B : DenseMatrix n α),
      (∀ x y : α, x * y = y * x) →
        B.transpose.multiply A.transpose = .ok (A.mul B).transpose := by
    intro α _ A B hcomm
    rw [multiply_eq_ok, transpose_mul hcomm]
  refine ⟨fun α _ A B => ⟨multiply_eq_ok A B, ?_, fun i j => ?_, fun j => ?_, htranspose A B⟩,
    fun F A B => htranspose A B Binary.mul_comm, fun A B C => ?_, fun A B x => ?_,
    fun α _ m A B h => ⟨multiply_of_ne h A B, ?_⟩⟩
  · rw [Stored.multiply_toLists, multiply_eq_ok]
    rfl
  · rw [entry_mul, Fin.foldl_eq_finRange_foldl]
  · rw [apply_toList, column_mul]
  · rw [multiply_eq_ok, multiply_eq_ok, mul_assoc]
  · refine ⟨B.mulVec x, apply_toList B x, ?_⟩
    rw [apply_toList, apply_toList, mulVec_mul]
  · rw [Stored.multiply_toLists, multiply_of_ne h]
    rfl

/-- The factors `A` and `B` do not commute, and their transposes have the product of the other
order. -/
theorem product_ordered_shear :
    let A : DenseMatrix 2 Binary64 := ⟨#v[#v[1, 1], #v[.zero false, 1]]⟩
    let B : DenseMatrix 2 Binary64 := ⟨#v[#v[1, .zero false], #v[1, 1]]⟩
    let row : DenseMatrix 1 Binary64 := ⟨#v[#v[1]]⟩
    (∀ x y : Binary64, x * y = y * x) ∧ A.mul B ≠ B.mul A ∧
      B.transpose.multiply A.transpose = .ok (A.mul B).transpose ∧
      2 ≠ 1 ∧ A.multiply row = .error (.factorSizes 2 1) ∧
      Stored.multiply A.toLists row.toLists = .ok (.error (.factorSizes 2 1)) := by
  intro A B row
  have hcomm : ∀ x y : Binary64, x * y = y * x := Binary.mul_comm
  have hsizes : 2 ≠ 1 := by decide
  have ⟨_, _, _, _, htranspose⟩ := (product_ordered (n := 2)).1 Binary64 A B
  have ⟨herror, hstored⟩ := (product_ordered (n := 2)).2.2.2.2 Binary64 1 A row hsizes
  exact ⟨hcomm, by decide +kernel, htranspose hcomm, hsizes, herror, hstored⟩

-- rounded products are not associative: here one bracketing overflows
example :
    let scaled (x : Binary64) : DenseMatrix 1 Binary64 := ⟨#v[#v[x]]⟩
    let A := scaled (.ofNat (2 ^ (1023 : Nat)))
    let B := scaled (.ofNat 2)
    let C := scaled (Binary.div 1 (.ofNat 2))
    ((A.mul B).mul C).entry 0 0 = .infinity false ∧
      (A.mul (B.mul C)).entry 0 0 = .ofNat (2 ^ (1023 : Nat)) := by
  decide +kernel

end DenseMatrix

end PivotedLU
