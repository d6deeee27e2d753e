import PivotedLU.Error
import PivotedLU.Exchange
import PivotedLU.Scalar

/-!
# Dense Square Matrices

A matrix with `n` rows of `n` entries, stored by rows. The size is part of the type, so an
operation on two matrices of one size cannot meet rows of different lengths. Positions inside
the matrix are pairs of `Fin n`; the operations that take natural numbers check them first.

## Main definitions

* `DenseMatrix`: the matrix, with `DenseMatrix.entry`, `DenseMatrix.row` and
  `DenseMatrix.ofFn`.
* `DenseMatrix.set`, `DenseMatrix.swapRows`: a matrix with one entry replaced, or with two rows
  exchanged.
* `DenseMatrix.zeros`, `DenseMatrix.identity`, `DenseMatrix.diagonal`, `DenseMatrix.transpose`.
* `DenseMatrix.toLists`: the rows as lists.

## Main results

* `DenseMatrix.ext`: a matrix is given by its entries.
* `DenseMatrix.entry_ofFn`, `DenseMatrix.entry_set`, `DenseMatrix.entry_swapRows`: the entries
  after each operation.
-/

namespace PivotedLU

universe u

/-- A dense square matrix, row by row. -/
structure DenseMatrix (n : Nat) (α : Type u) where
  /-- The rows from top to bottom. -/
  rows : Vector (Vector α n) n
deriving DecidableEq

namespace DenseMatrix

variable {α : Type u} {n : Nat}

/-! ## Reading -/

/-- Row `i` from left to right. -/
def row (A : DenseMatrix n α) (i : Fin n) : Vector α n :=
  A.rows.get i

/-- The entry in row `i` and column `j`. -/
def entry (A : DenseMatrix n α) (i j : Fin n) : α :=
  (A.row i).get j

/-- The matrix with the entries `f i j`. -/
def ofFn (f : Fin n → Fin n → α) : DenseMatrix n α :=
  ⟨Vector.ofFn fun i => Vector.ofFn (f i)⟩

@[simp]
theorem entry_ofFn (f : Fin n → Fin n → α) (i j : Fin n) : (ofFn f).entry i j = f i j := by
  simp [ofFn, entry, row]

/-- A matrix is given by its `entry` at all places. -/
@[ext]
theorem ext {A B : DenseMatrix n α} (h : ∀ i j, A.entry i j = B.entry i j) : A = B := by
  obtain ⟨rows⟩ := A
  obtain ⟨rows'⟩ := B
  congr 1
  ext i hi j hj
  exact h ⟨i, hi⟩ ⟨j, hj⟩

/-- Matrices `A` and `B` are equal if their entries can be shown equal in the order in which an
elimination finishes them. At `(i, j)` with `i ≤ j` the rows and columns before `i` are settled; at
`(i, j)` with `j < i` those before `j` are, and the diagonal entry of `j`. -/
theorem ext_of_finished {A B : DenseMatrix n α}
    (upper : ∀ i j, i ≤ j →
      (∀ k, k < i → ∀ l, A.entry k l = B.entry k l ∧ A.entry l k = B.entry l k) →
        A.entry i j = B.entry i j)
    (lower : ∀ i j, j < i →
      (∀ k, k < j → ∀ l, A.entry k l = B.entry k l ∧ A.entry l k = B.entry l k) →
        A.entry j j = B.entry j j → A.entry i j = B.entry i j) : A = B := by
  -- the induction is on the number of rows and columns in which the matrices agree
  have settled : ∀ m : Nat, ∀ k : Fin n, k.val < m →
      ∀ l, A.entry k l = B.entry k l ∧ A.entry l k = B.entry l k := by
    intro m
    induction m with
    | zero => exact fun k hk => absurd hk (Nat.not_lt_zero _)
    | succ m ih =>
      intro k hk
      have hbefore := fun k' (h : k' < k) => ih k' (by omega)
      have hrow : ∀ l, k ≤ l → A.entry k l = B.entry k l := fun l hl => upper k l hl hbefore
      intro l
      rcases Nat.lt_or_ge l.val k.val with hl | hl
      · exact (ih l (by omega) k).symm
      · refine ⟨hrow l hl, ?_⟩
        rcases Nat.lt_or_eq_of_le hl with hkl | hkl
        · exact lower l k hkl hbefore (hrow k (Fin.le_refl k))
        · rw [← Fin.ext hkl]
          exact hrow k (Fin.le_refl k)
  exact ext fun i j => (settled n i i.isLt j).1

/-- The entry at `(i, j)`, if this is inside the matrix. -/
def entry? (A : DenseMatrix n α) (i j : Nat) : Option α :=
  if h : i < n ∧ j < n then some (A.entry ⟨i, h.1⟩ ⟨j, h.2⟩) else none

/-- The entry at `(i, j)`, which must be inside the matrix. -/
def entryAt (A : DenseMatrix n α) (i j : Nat) : Except Violation α :=
  match A.entry? i j with
  | some x => .ok x
  | none => .error .outOfBounds

/-- The rows of `A` as lists. -/
def toLists (A : DenseMatrix n α) : List (List α) :=
  A.rows.toList.map Vector.toList

/-- The entries of `A` on the main diagonal. -/
def diagonal (A : DenseMatrix n α) : Vector α n :=
  Vector.ofFn fun i => A.entry i i

@[simp]
theorem get_diagonal (A : DenseMatrix n α) (i : Fin n) : A.diagonal.get i = A.entry i i := by
  simp [diagonal]

/-! ## Changing -/

/-- The matrix `A` with its entry at `(i, j)` replaced by `x`. -/
def set (A : DenseMatrix n α) (i j : Fin n) (x : α) : DenseMatrix n α :=
  ⟨A.rows.set i ((A.row i).set j x j.isLt) i.isLt⟩

/-- Of the entries of `A.set i j x` only the one at `(i, j)` is `x`; the others are those of `A`. -/
theorem entry_set (A : DenseMatrix n α) (i j : Fin n) (x : α) (k l : Fin n) :
    (A.set i j x).entry k l = if i = k ∧ j = l then x else A.entry k l := by
  change ((A.rows.set i ((A.row i).set j x j.isLt) i.isLt).get k).get l = _
  by_cases hi : i = k
  · obtain rfl := hi
    rw [get_set_self]
    by_cases hj : j = l
    · obtain rfl := hj
      rw [get_set_self, if_pos ⟨rfl, rfl⟩]
    · rw [get_set_of_ne _ hj, if_neg fun h => hj h.2]
      rfl
  · rw [get_set_of_ne _ hi, if_neg fun h => hi h.1]
    rfl

/-- The matrix with rows `i` and `j` exchanged. -/
def swapRows (A : DenseMatrix n α) (i j : Fin n) : DenseMatrix n α :=
  ⟨A.rows.swap i j i.isLt j.isLt⟩

theorem row_swapRows (A : DenseMatrix n α) (i j k : Fin n) :
    (A.swapRows i j).row k = A.row (exchanged i j k) :=
  get_swap_exchanged A.rows i j k

theorem entry_swapRows (A : DenseMatrix n α) (i j k l : Fin n) :
    (A.swapRows i j).entry k l = A.entry (exchanged i j k) l := by
  rw [entry, row_swapRows, entry]

/-- An exchange of row `i` with itself leaves `A` as it is. -/
@[simp]
theorem swapRows_self (A : DenseMatrix n α) (i : Fin n) : A.swapRows i i = A := by
  ext k l
  rw [entry_swapRows, exchanged_self]

/-- The matrix `A` with its entry at `(i, j)` replaced by `x`, if this is inside. -/
def setAt (A : DenseMatrix n α) (i j : Nat) (x : α) : Except Violation (DenseMatrix n α) :=
  if h : i < n ∧ j < n then .ok (A.set ⟨i, h.1⟩ ⟨j, h.2⟩ x) else .error .outOfBounds

/-- The matrix `A` with rows `i` and `j` exchanged, if both are inside. -/
def swapRowsAt (A : DenseMatrix n α) (i j : Nat) : Except Violation (DenseMatrix n α) :=
  if h : i < n ∧ j < n then .ok (A.swapRows ⟨i, h.1⟩ ⟨j, h.2⟩) else .error .outOfBounds

/-- Row `i` of `A`, which must be inside. -/
def rowAt (A : DenseMatrix n α) (i : Nat) : Except Violation (Vector α n) :=
  if h : i < n then .ok (A.row ⟨i, h⟩) else .error .outOfBounds

/-- Row `i` of `A` together with the rows below it. -/
def rowAndBelow (A : DenseMatrix n α) (i : Nat) :
    Except Violation (Vector α n × List (Vector α n)) :=
  if h : i < n then .ok (A.row ⟨i, h⟩, A.rows.toList.drop (i + 1)) else .error .outOfBounds

/-! ## Special matrices -/

/-- The matrix whose entries are all zero. -/
def zeros [Zero α] (n : Nat) : DenseMatrix n α :=
  ofFn fun _ _ => 0

@[simp]
theorem entry_zeros [Zero α] (i j : Fin n) : (zeros n : DenseMatrix n α).entry i j = 0 :=
  entry_ofFn _ i j

/-- The matrix with ones on the diagonal and zeros elsewhere. -/
def identity [Zero α] [One α] (n : Nat) : DenseMatrix n α :=
  ofFn fun i j => if i = j then 1 else 0

@[simp]
theorem entry_identity [Zero α] [One α] (i j : Fin n) :
    (identity n : DenseMatrix n α).entry i j = if i = j then 1 else 0 :=
  entry_ofFn _ i j

/-- The matrix with rows and columns interchanged. -/
def transpose (A : DenseMatrix n α) : DenseMatrix n α :=
  ofFn fun i j => A.entry j i

@[simp]
theorem entry_transpose (A : DenseMatrix n α) (i j : Fin n) :
    A.transpose.entry i j = A.entry j i :=
  entry_ofFn _ i j

/-! ## Shape -/

/-- The numbers of rows and columns. -/
def dims (_ : DenseMatrix n α) : Nat × Nat := (n, n)

end DenseMatrix

end PivotedLU
