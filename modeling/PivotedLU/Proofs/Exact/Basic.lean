import Mathlib.Algebra.Order.Field.Rat
import Mathlib.LinearAlgebra.Matrix.NonsingularInverse
import PivotedLU.DenseMatrix.Product
import PivotedLU.Proofs.Fold
import PivotedLU.Proofs.RowOrder.Parity

/-!
# Exact Arithmetic

Over the rational numbers no operation rounds, and the ordered sums of the library are sums. This
module reads dense matrices and vectors of rationals as the matrices and functions of linear
algebra.

## Main definitions

* `DenseMatrix.entries`: a dense matrix as a matrix indexed by places.
* `coordinates`: a vector as a function of places.

## Main results

* `magnitude_eq_abs`, `below_eq_true_iff`: magnitude and comparison are those of the field.
* `DenseMatrix.entries_mul`, `DenseMatrix.coordinates_mulVec`: products are products.
* `RowOrder.toMatrix_mul`: the matrix of a row order permutes rows.
-/

namespace PivotedLU

universe u

variable {α : Type u} {n : Nat}

/-! ## Rational scalars -/

/-- Over the rationals the magnitude of `x` is `|x|`. -/
theorem magnitude_eq_abs (x : ℚ) : Scalar.magnitude x = |x| := by
  change (if x < 0 then -x else x) = |x|
  split
  · next h => exact (abs_of_neg h).symm
  · next h => exact (abs_of_nonneg (not_lt.1 h)).symm

theorem below_eq_true_iff (x y : ℚ) : Scalar.below x y = true ↔ x < y :=
  decide_eq_true_iff

theorem below_eq_false_iff (x y : ℚ) : Scalar.below x y = false ↔ y ≤ x :=
  decide_eq_false_iff_not.trans not_lt

/-! ## Vectors -/

/-- The vector `x` as a function of its places. -/
def coordinates (x : Vector α n) : Fin n → α :=
  x.get

@[simp]
theorem coordinates_apply (x : Vector α n) (i : Fin n) : coordinates x i = x.get i :=
  rfl

theorem coordinates_injective : Function.Injective (coordinates : Vector α n → Fin n → α) :=
  fun _ _ h => vector_eq_iff.2 (congrFun h)

/-! ## Matrices -/

namespace DenseMatrix

/-- The dense matrix `A` as one of Mathlib's. -/
def entries (A : DenseMatrix n α) : Matrix (Fin n) (Fin n) α :=
  Matrix.of A.entry

@[simp]
theorem entries_apply (A : DenseMatrix n α) (i j : Fin n) : A.entries i j = A.entry i j :=
  rfl

theorem entries_injective :
    Function.Injective (entries : DenseMatrix n α → Matrix (Fin n) (Fin n) α) := by
  intro A B h
  exact DenseMatrix.ext fun i j => congrFun (congrFun h i) j

@[simp]
theorem entries_identity : (identity n : DenseMatrix n ℚ).entries = 1 := by
  ext i j
  rw [entries_apply, entry_identity, Matrix.one_apply]

/-- Over the rationals the ordered sums in `A.mul B` are sums. -/
theorem entry_mul_eq_sum (A B : DenseMatrix n ℚ) (i j : Fin n) :
    (A.mul B).entry i j = ∑ k, A.entry i k * B.entry k j := by
  rw [entry_mul]
  exact (foldl_add (fun k => A.entry i k * B.entry k j) 0).trans (zero_add _)

theorem get_mulVec_eq_sum (A : DenseMatrix n ℚ) (x : Vector ℚ n) (i : Fin n) :
    (A.mulVec x).get i = ∑ k, A.entry i k * x.get k := by
  rw [get_mulVec, dot]
  exact (foldl_add (fun k => A.entry i k * x.get k) 0).trans (zero_add _)

/-- Over the rationals `A.mul B` is Mathlib's product of matrices. -/
@[simp]
theorem entries_mul (A B : DenseMatrix n ℚ) : (A.mul B).entries = A.entries * B.entries := by
  ext i j
  rw [entries_apply, entry_mul_eq_sum, Matrix.mul_apply]
  rfl

@[simp]
theorem coordinates_mulVec (A : DenseMatrix n ℚ) (x : Vector ℚ n) :
    coordinates (A.mulVec x) = A.entries.mulVec (coordinates x) := by
  ext i
  exact get_mulVec_eq_sum A x i

/-- The product of `A` and `B` acts on `x` as its factors do, one after the other. -/
theorem mulVec_mul (A B : DenseMatrix n ℚ) (x : Vector ℚ n) :
    (A.mul B).mulVec x = A.mulVec (B.mulVec x) := by
  apply coordinates_injective
  rw [coordinates_mulVec, coordinates_mulVec, coordinates_mulVec, entries_mul,
    Matrix.mulVec_mulVec]

/-- Matrices `A` and `B` of one size are always multiplied. -/
theorem multiply_eq_ok [Scalar α] (A B : DenseMatrix n α) : A.multiply B = .ok (A.mul B) :=
  dif_pos rfl

/-- A matrix `A` is always applied to a vector `x` of its size. -/
theorem apply_toList [Scalar α] (A : DenseMatrix n α) (x : Vector α n) :
    A.apply x.toList = .ok (A.mulVec x) := by
  rw [apply, dif_pos x.length_toList, vectorOfList_toList]

end DenseMatrix

/-! ## Row orders -/

namespace RowOrder

variable (p : RowOrder n)

@[simp]
theorem entries_permuteRows (A : DenseMatrix n α) :
    (p.permuteRows A).entries = A.entries.submatrix p.source id := by
  ext i j
  exact p.entry_permuteRows A i j

/-- Different vectors are permuted to different ones. -/
theorem permute_injective :
    Function.Injective (p.permute : Vector α n → Vector α n) := by
  intro b c h
  rw [vector_eq_iff]
  intro i
  -- every row is the source of some place
  obtain ⟨k, rfl⟩ := p.source_bijective.2 i
  rw [← get_permute, h, get_permute]

/-- A vector `b` is always permuted if its length is that of the order. -/
theorem permuteList_toList (b : Vector α n) : p.permuteList b.toList = .ok (p.permute b) := by
  rw [permuteList, dif_pos b.length_toList, vectorOfList_toList]

theorem mulVec_permuteRows [Scalar α] (A : DenseMatrix n α) (x : Vector α n) :
    (p.permuteRows A).mulVec x = p.permute (A.mulVec x) := by
  rw [vector_eq_iff]
  intro i
  rw [DenseMatrix.get_mulVec, get_permute, row_permuteRows, DenseMatrix.get_mulVec]

/-- Over the rationals the matrix of `p`, multiplied from the left, permutes the rows of `A`. -/
theorem toMatrix_mul (A : DenseMatrix n ℚ) :
    (p.toMatrix : DenseMatrix n ℚ).mul A = p.permuteRows A := by
  ext i j
  -- the one in row `i` selects a single term
  rw [DenseMatrix.entry_mul_eq_sum, entry_permuteRows, Finset.sum_eq_single (p.source i)]
  · rw [entry_toMatrix, if_pos rfl, one_mul]
  · intro k _ hk
    rw [entry_toMatrix, if_neg hk.symm, zero_mul]
  · exact fun h => absurd (Finset.mem_univ _) h

end RowOrder

end PivotedLU
