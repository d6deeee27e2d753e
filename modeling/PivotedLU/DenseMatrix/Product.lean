import PivotedLU.DenseMatrix.OfLists

/-!
# Products and Comparison of Matrices

Products are ordered sums: every entry starts from zero and takes up its terms by ascending
index, each product and each sum computed once. In rounded arithmetic the order is part of the
result.

A product of two matrices is computed by rows: a row of the left factor says how much of every
row of the right factor is added up.

## Main definitions

* `DenseMatrix.mul`, `DenseMatrix.mulVec`: the products of matching sizes.
* `DenseMatrix.multiply`, `DenseMatrix.apply`: the same for any sizes, refused if they differ.
* `DenseMatrix.maxAbsDiff`: the largest magnitude of a difference of entries.
* `DenseMatrix.equalsBy`, `DenseMatrix.sameBy`: equality of all entries under a given
  comparison, for one size and for any two.

## Main results

* `DenseMatrix.entry_mul`: the entries of a product, each an ordered sum.
-/

namespace PivotedLU

universe u

namespace DenseMatrix

variable {α : Type u} {n m : Nat}

/-! ## Products -/

/-- The sum of the rows of `B`, each times its coefficient, taken up from zeros by ascending
row. -/
def combineRows [Scalar α] (coefficients : Vector α n) (B : DenseMatrix n α) : Vector α n :=
  Fin.foldl n
    (fun acc k => Vector.ofFn fun j => acc.get j + coefficients.get k * B.entry k j)
    (Vector.ofFn fun _ => 0)

/-- Entry `j` of `combineRows coefficients B` is the ordered sum of the coefficients times the
entries of column `j`; no other column of `B` is looked at. -/
theorem get_combineRows [Scalar α] (coefficients : Vector α n) (B : DenseMatrix n α)
    (j : Fin n) :
    (combineRows coefficients B).get j =
      Fin.foldl n (fun acc k => acc + coefficients.get k * B.entry k j) 0 := by
  have hstart : (Vector.ofFn fun _ : Fin n => (0 : α)).get j = 0 := by simp
  rw [combineRows, Fin.foldl_eq_finRange_foldl, Fin.foldl_eq_finRange_foldl]
  -- reading place `j` commutes with every step of the fold over vectors
  refine Eq.trans (List.foldl_hom (fun acc : Vector α n => acc.get j) ?_).symm
    (congrArg (fun start => List.foldl _ start _) hstart)
  intro acc k
  simp

/-- The product of `A` and `B`, row by row. -/
def mul [Scalar α] (A B : DenseMatrix n α) : DenseMatrix n α :=
  ⟨Vector.ofFn fun i => combineRows (A.row i) B⟩

/-- Row `i` of `A.mul B` combines the rows of `B` with row `i` of `A` for coefficients. -/
@[simp]
theorem row_mul [Scalar α] (A B : DenseMatrix n α) (i : Fin n) :
    (A.mul B).row i = combineRows (A.row i) B := by
  simp [mul, row]

/-- The entry of `A.mul B` at `(i, j)` is an ordered sum, from zero, of the products of row `i` of
`A` with column `j` of `B`. -/
theorem entry_mul [Scalar α] (A B : DenseMatrix n α) (i j : Fin n) :
    (A.mul B).entry i j = Fin.foldl n (fun acc k => acc + A.entry i k * B.entry k j) 0 := by
  rw [entry, row_mul]
  exact get_combineRows (A.row i) B j

/-- The sum of the products of matching entries of `x` and `y`, taken up from zero by ascending
index. -/
def dot [Scalar α] (x y : Vector α n) : α :=
  Fin.foldl n (fun acc k => acc + x.get k * y.get k) 0

/-- The product of `A` and `x`, row by row. -/
def mulVec [Scalar α] (A : DenseMatrix n α) (x : Vector α n) : Vector α n :=
  Vector.ofFn fun i => dot (A.row i) x

@[simp]
theorem get_mulVec [Scalar α] (A : DenseMatrix n α) (x : Vector α n) (i : Fin n) :
    (A.mulVec x).get i = dot (A.row i) x := by
  simp [mulVec]

/-- The product of `A` and `B`, refused if their sizes differ. -/
def multiply [Scalar α] (A : DenseMatrix n α) (B : DenseMatrix m α) :
    Except DimensionFault (DenseMatrix n α) :=
  if h : m = n then .ok (A.mul (h ▸ B)) else .error (.factorSizes n m)

/-- The product of `A` and a list `x` of entries, refused if the sizes differ. -/
def apply [Scalar α] (A : DenseMatrix n α) (x : List α) :
    Except DimensionFault (Vector α n) :=
  if h : x.length = n then .ok (A.mulVec (vectorOfList x h))
  else .error (.vectorLength n x.length)

/-! ## Comparison -/

/-- The largest magnitude of a difference of matching entries of `A` and `B`, starting from zero. A
difference that is not a number does not count. -/
def maxAbsDiff [Scalar α] (A B : DenseMatrix n α) : α :=
  Fin.foldl n (fun acc i =>
    Fin.foldl n (fun acc j =>
      Scalar.larger acc (Scalar.magnitude (A.entry i j - B.entry i j))) acc) 0

/-- The `maxAbsDiff` of `A` and `B`, if the sizes agree. -/
def maxAbsDiff? [Scalar α] (A : DenseMatrix n α) (B : DenseMatrix m α) : Option α :=
  if h : m = n then some (A.maxAbsDiff (h ▸ B)) else none

/-- All entries of `A` and `B` are equal under `eq`. -/
def equalsBy (eq : α → α → Bool) (A B : DenseMatrix n α) : Bool :=
  (List.finRange n).all fun i => (List.finRange n).all fun j => eq (A.entry i j) (B.entry i j)

theorem equalsBy_iff {eq : α → α → Bool} {A B : DenseMatrix n α} :
    A.equalsBy eq B = true ↔ ∀ i j, eq (A.entry i j) (B.entry i j) = true := by
  simp [equalsBy]

/-- The sizes of `A` and `B` agree and all entries are equal under `eq`. -/
def sameBy (eq : α → α → Bool) (A : DenseMatrix n α) (B : DenseMatrix m α) : Bool :=
  if h : m = n then A.equalsBy eq (h ▸ B) else false

end DenseMatrix

end PivotedLU
