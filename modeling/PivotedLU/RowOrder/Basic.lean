import PivotedLU.DenseMatrix.OfLists

/-!
# Row Orders

A row order says, for every place, which row of a matrix came to stand there. It is a
permutation, and it carries the number of exchanges that led to it. The counter is not required
to have the parity of the permutation: it is what the caller recorded.

## Main definitions

* `RowOrder`: the permutation with its counter.
* `RowOrder.identity`, `RowOrder.exchange`: no exchange yet, and one more.
* `RowOrder.isOdd`, `RowOrder.sign`: the parity of the counter.
* `RowOrder.permute`, `RowOrder.permuteRows`: the order applied to a vector and to the rows of
  a matrix.
* `RowOrder.toMatrix`: the order as a matrix of zeros and ones.

## Main results

* `RowOrder.source_exchange`: the sources after an exchange.
* `RowOrder.row_permuteRows`: the rows of a matrix whose rows are permuted.
-/

namespace PivotedLU

universe u

/-- A permutation of rows and the number of exchanges that were counted for it. -/
structure RowOrder (n : Nat) where
  /-- The row that came to stand at each place. -/
  sources : Vector (Fin n) n
  /-- No row stands at two places. -/
  distinct : ∀ i j : Fin n, sources.get i = sources.get j → i = j
  /-- The number of exchanges. -/
  exchanges : Nat
deriving DecidableEq

namespace RowOrder

variable {α : Type u} {n m : Nat}

/-- The row that came to stand at place `i`. -/
def source (p : RowOrder n) (i : Fin n) : Fin n :=
  p.sources.get i

/-- Every row at its own place, no exchange counted. -/
def identity (n : Nat) : RowOrder n where
  sources := Vector.ofFn id
  distinct i j h := by simpa using h
  exchanges := 0

@[simp]
theorem source_identity (i : Fin n) : (identity n).source i = i := by
  simp [source, identity]

/-- The order after the rows at places `i` and `j` are exchanged. An exchange of a place with
itself is none and is not counted. -/
def exchange (p : RowOrder n) (i j : Fin n) : RowOrder n :=
  if i = j then p
  else
    { sources := p.sources.swap i j i.isLt j.isLt
      distinct := fun k l h => by
        rw [get_swap_exchanged, get_swap_exchanged] at h
        exact exchanged_injective (p.distinct _ _ h)
      exchanges := p.exchanges + 1 }

@[simp]
theorem exchange_self (p : RowOrder n) (i : Fin n) : p.exchange i i = p :=
  if_pos rfl

/-- After an exchange of `i` and `j`, the source of `k` is that of `exchanged i j k` before. -/
theorem source_exchange (p : RowOrder n) (i j k : Fin n) :
    (p.exchange i j).source k = p.source (exchanged i j k) := by
  unfold exchange
  split
  · next h =>
    subst h
    rw [exchanged_self]
  · exact get_swap_exchanged p.sources i j k

/-- The counter goes up by one in an exchange of two different places, and only then. -/
theorem exchanges_exchange (p : RowOrder n) (i j : Fin n) :
    (p.exchange i j).exchanges = if i = j then p.exchanges else p.exchanges + 1 := by
  unfold exchange
  split <;> rfl

/-- The order `p` after an exchange of places `i` and `j`, if both are inside. Equal places are left
alone wherever they are. -/
def exchangeAt (p : RowOrder n) (i j : Nat) : Except Violation (RowOrder n) :=
  if i = j then .ok p
  else if hi : i < n then
    if hj : j < n then .ok (p.exchange ⟨i, hi⟩ ⟨j, hj⟩) else .error .outOfBounds
  else .error .outOfBounds

/-! ## Views -/

/-- The sources of `p` as a list of naturals. -/
def indices (p : RowOrder n) : List Nat :=
  p.sources.toList.map Fin.val

theorem length_indices (p : RowOrder n) : p.indices.length = n := by
  simp [indices]

/-- The number of exchanges of `p` is odd. -/
def isOdd (p : RowOrder n) : Bool :=
  p.exchanges % 2 == 1

/-- Minus one after an odd number of exchanges, and one otherwise. -/
def sign [Scalar α] (p : RowOrder n) : α :=
  if p.isOdd then -1 else 1

/-- The sources and the counters of `p` and `q` agree. -/
def same (p : RowOrder n) (q : RowOrder m) : Bool :=
  p.indices == q.indices && p.exchanges == q.exchanges

/-- The one-line form. -/
def bracketed (p : RowOrder n) : String :=
  "Permutation \x7b indices: " ++ PivotedLU.bracketed p.indices ++ ", swaps: " ++
    Nat.repr p.exchanges ++ " \x7d"

/-! ## Action -/

/-- The vector whose entry at each place is the entry of `b` at the source of the place. -/
def permute (p : RowOrder n) (b : Vector α n) : Vector α n :=
  Vector.ofFn fun i => b.get (p.source i)

@[simp]
theorem get_permute (p : RowOrder n) (b : Vector α n) (i : Fin n) :
    (p.permute b).get i = b.get (p.source i) := by
  simp [permute]

/-- The matrix whose row at each place is the row of `A` at the source of the place. -/
def permuteRows (p : RowOrder n) (A : DenseMatrix n α) : DenseMatrix n α :=
  ⟨p.permute A.rows⟩

@[simp]
theorem row_permuteRows (p : RowOrder n) (A : DenseMatrix n α) (i : Fin n) :
    (p.permuteRows A).row i = A.row (p.source i) :=
  get_permute p A.rows i

theorem entry_permuteRows (p : RowOrder n) (A : DenseMatrix n α) (i j : Fin n) :
    (p.permuteRows A).entry i j = A.entry (p.source i) j := by
  rw [DenseMatrix.entry, row_permuteRows, DenseMatrix.entry]

@[simp]
theorem permuteRows_identity (A : DenseMatrix n α) : (identity n).permuteRows A = A := by
  ext i j
  rw [entry_permuteRows, source_identity]

/-- Rows permuted by `p.exchange i j` are those permuted by `p`, with rows `i` and `j` exchanged. -/
theorem permuteRows_exchange (p : RowOrder n) (A : DenseMatrix n α) (i j : Fin n) :
    (p.exchange i j).permuteRows A = (p.permuteRows A).swapRows i j := by
  ext k l
  rw [entry_permuteRows, source_exchange, DenseMatrix.entry_swapRows, entry_permuteRows]

/-- The order of the single exchange of `i` and `j` permutes the rows of `A` by it. -/
theorem permuteRows_exchange_identity (A : DenseMatrix n α) (i j : Fin n) :
    ((identity n).exchange i j).permuteRows A = A.swapRows i j := by
  rw [permuteRows_exchange, permuteRows_identity]

/-- The list `b` permuted, refused if its length is not that of the order. -/
def permuteList (p : RowOrder n) (b : List α) : Except DimensionFault (Vector α n) :=
  if h : b.length = n then .ok (p.permute (vectorOfList b h))
  else .error (.permutedLength n b.length)

/-- The matrix with a one in every row, at the source of its place in `p`. -/
def toMatrix [Scalar α] (p : RowOrder n) : DenseMatrix n α :=
  DenseMatrix.ofFn fun i j => if p.source i = j then 1 else 0

@[simp]
theorem entry_toMatrix [Scalar α] (p : RowOrder n) (i j : Fin n) :
    (p.toMatrix : DenseMatrix n α).entry i j = if p.source i = j then 1 else 0 :=
  DenseMatrix.entry_ofFn _ i j

end RowOrder

end PivotedLU
