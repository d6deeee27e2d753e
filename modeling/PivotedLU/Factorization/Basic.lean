import PivotedLU.Determinant
import PivotedLU.Elimination.Run
import PivotedLU.RowOrder.Flat
import PivotedLU.Substitution.Invert
import PivotedLU.Substitution.Solve

/-!
# Factorizations

A combined matrix and a permutation of the same size. The lower triangle has ones on its
diagonal, which are not stored; the product of the two triangles is the matrix that was factored
with its rows permuted.

## Main definitions

* `Factorization`, `Factorization.ofParts`: the pair, refused if the sizes differ.
* `Factorization.ofMatrix`: the factorization that a run of elimination finds.
* `Factorization.lower`, `Factorization.upper`, `Factorization.reconstruct`: the triangles and
  their product, of which only the terms inside both triangles are added up.
* `Factorization.solve`, `Factorization.inverse`, `Factorization.determinant`.
* `validateRightHandSide`: the check of a right-hand side against the shape of a system.
-/

namespace PivotedLU

universe u

variable {α : Type u}

/-- A system is square and its right-hand side is as long as it has rows; `dims` are checked before
`length`. -/
def validateRightHandSide (dims : Nat × Nat) (length : Nat) : Except DimensionFault Unit :=
  if dims.1 ≠ dims.2 then .error (.notSquare dims.1 dims.2)
  else if dims.1 ≠ length then .error (.rightHandSide dims.1 length)
  else .ok ()

/-- Combined triangular factors and a permutation. -/
structure Factorization (n : Nat) (α : Type u) where
  /-- The unit lower triangle below the diagonal, the upper triangle on and above it. -/
  lu : DenseMatrix n α
  order : RowOrder n
deriving DecidableEq

/-- A factorization with its size. -/
abbrev SizedFactorization (α : Type u) := (n : Nat) × Factorization n α

namespace Factorization

variable {n m : Nat}

/-- A combined matrix `lu` with an order `p`, refused if the sizes differ. The numbers are not
looked at. -/
def ofParts (lu : DenseMatrix n α) (p : RowOrder m) :
    Except DimensionFault (Factorization n α) :=
  if h : m = n then .ok ⟨lu, h ▸ p⟩ else .error (.orderSize m n)

/-- The parts `A` and `p`, whose sizes are not known beforehand, put together by `ofParts`. -/
def ofPartsSized (A : SizedMatrix α) (p : SizedOrder) :
    Except DimensionFault (SizedFactorization α) :=
  (ofParts A.2 p.2).map fun f => ⟨A.1, f⟩

variable [Scalar α]

/-- The factorization of `A`, or the breakdown of the elimination. -/
def ofMatrix (tolerance : α) (A : DenseMatrix n α) :
    Except (Elimination.Breakdown n α) (Factorization n α) :=
  let run := Elimination.decompose tolerance A
  run.outcome.map fun order => ⟨run.matrix, order⟩

/-- The lower triangle of `f.lu` with ones on its diagonal. -/
def lower (f : Factorization n α) : DenseMatrix n α :=
  DenseMatrix.ofFn fun i j => if j < i then f.lu.entry i j else if i = j then 1 else 0

/-- The entries of `f.lower`: those of `f.lu` below the diagonal, `1` on it and `0` above it. -/
@[simp]
theorem entry_lower (f : Factorization n α) (i j : Fin n) :
    f.lower.entry i j = if j < i then f.lu.entry i j else if i = j then 1 else 0 :=
  DenseMatrix.entry_ofFn _ i j

theorem entry_lower_self (f : Factorization n α) (i : Fin n) : f.lower.entry i i = 1 := by
  rw [entry_lower, if_neg (Fin.lt_irrefl i), if_pos rfl]

/-- Above the diagonal `f.lower` is `0`. -/
theorem entry_lower_of_lt (f : Factorization n α) {i j : Fin n} (h : i < j) :
    f.lower.entry i j = 0 := by
  rw [entry_lower, if_neg (Fin.lt_asymm h), if_neg (Fin.ne_of_lt h)]

/-- The upper triangle of `f.lu`. -/
def upper (f : Factorization n α) : DenseMatrix n α :=
  DenseMatrix.ofFn fun i j => if i ≤ j then f.lu.entry i j else 0

/-- The entries of `f.upper`: those of `f.lu` on and above the diagonal and `0` below it. -/
@[simp]
theorem entry_upper (f : Factorization n α) (i j : Fin n) :
    f.upper.entry i j = if i ≤ j then f.lu.entry i j else 0 :=
  DenseMatrix.entry_ofFn _ i j

theorem entry_upper_self (f : Factorization n α) (i : Fin n) :
    f.upper.entry i i = f.lu.entry i i := by
  rw [entry_upper, if_pos (Fin.le_refl i)]

/-- Below the diagonal `f.upper` is `0`. -/
theorem entry_upper_of_lt (f : Factorization n α) {i j : Fin n} (h : j < i) :
    f.upper.entry i j = 0 := by
  rw [entry_upper, if_neg (Fin.not_le.2 h)]

/-- A property `P` of `0`, of `1` and of the entries of `f.lu` holds of the entries of `f.lower`. -/
theorem forall_entry_lower {P : α → Prop} (h0 : P 0) (h1 : P 1) {f : Factorization n α}
    (h : ∀ i j, P (f.lu.entry i j)) (i j : Fin n) : P (f.lower.entry i j) := by
  rw [entry_lower]
  split
  · exact h i j
  · split
    · exact h1
    · exact h0

/-- A property `P` of `0` and of the entries of `f.lu` holds of the entries of `f.upper`. -/
theorem forall_entry_upper {P : α → Prop} (h0 : P 0) {f : Factorization n α}
    (h : ∀ i j, P (f.lu.entry i j)) (i j : Fin n) : P (f.upper.entry i j) := by
  rw [entry_upper]
  split
  · exact h i j
  · exact h0

/-- The product of the triangles of `f`. A term outside one of them would be a product with zero,
and is left out. -/
def reconstruct (f : Factorization n α) : DenseMatrix n α :=
  let L := f.lower
  let U := f.upper
  DenseMatrix.ofFn fun i j =>
    Fin.foldl n
      (fun acc k => if k ≤ i ∧ k ≤ j then acc + L.entry i k * U.entry k j else acc) 0

/-- The permutation as a matrix. -/
def permutationMatrix (f : Factorization n α) : DenseMatrix n α :=
  f.order.toMatrix

/-- The inverse of the matrix that was factored into `f`. -/
def inverse (f : Factorization n α) : DenseMatrix n α :=
  Substitution.invert f.lu f.order

/-- The determinant of the matrix that was factored into `f`. -/
def determinant (f : Factorization n α) : α :=
  PivotedLU.determinant f.lu f.order

/-- The solution for the right-hand side `b`, refused if it has another length than the matrix. -/
def solve (f : Factorization n α) (b : List α) : Except DimensionFault (Vector α n) :=
  if h : b.length = n then .ok (Substitution.solve f.lu f.order (vectorOfList b h))
  else .error (.rightHandSide n b.length)

end Factorization

end PivotedLU
