import PivotedLU.DenseMatrix.Basic

/-!
# Matrices from Lists

A matrix is read from a list of rows or from one list of entries in row-major order. A list that
does not have the shape of a square is refused with the fault that it shows.

## Main definitions

* `SizedMatrix`: a matrix whose size is not known beforehand.
* `DenseMatrix.ofRows`: from a list of rows; the first row of a wrong length is named.
* `DenseMatrix.ofRowMajor`: from `n * n` entries, row after row.

## Main results

* `DenseMatrix.toLists_ofRows`: an accepted list of rows is read back.
-/

namespace PivotedLU

universe u

/-- A matrix with its size. -/
abbrev SizedMatrix (α : Type u) := (n : Nat) × DenseMatrix n α

namespace DenseMatrix

variable {α : Type u}

/-- The first of the `rows` that is not as long as there are rows, with its index. -/
def firstRagged? (rows : List (List α)) : Option (List α × Nat) :=
  rows.zipIdx.find? fun p => p.1.length != rows.length

/-- If `firstRagged?` finds nothing, every row `r` is as long as there are `rows`. -/
theorem length_of_firstRagged?_eq_none {rows : List (List α)} (h : firstRagged? rows = none)
    {r : List α} (hr : r ∈ rows) : r.length = rows.length := by
  obtain ⟨i, hi, rfl⟩ := List.getElem_of_mem hr
  have hmem : (rows[i], i) ∈ rows.zipIdx := by
    rw [List.mem_zipIdx_iff_getElem?]
    simp [hi]
  have := List.find?_eq_none.1 h _ hmem
  simpa using this

/-- The matrix with the given `rows`. -/
def ofRows (rows : List (List α)) : Except DimensionFault (DenseMatrix rows.length α) :=
  match h : firstRagged? rows with
  | some (r, i) => .error (.raggedRow i r.length rows.length)
  | none =>
    let vectors := rows.attach.map fun r =>
      vectorOfList r.1 (length_of_firstRagged?_eq_none h r.2)
    .ok ⟨vectorOfList vectors (by simp [vectors])⟩

/-- The matrix with the given `rows`, with its size. -/
def ofRowsSized (rows : List (List α)) : Except DimensionFault (SizedMatrix α) :=
  (ofRows rows).map fun A => ⟨rows.length, A⟩

/-- A matrix `A` that `ofRows` has read from `rows` has these rows. -/
theorem toLists_ofRows {rows : List (List α)} {A : DenseMatrix rows.length α}
    (h : ofRows rows = .ok A) : A.toLists = rows := by
  unfold ofRows at h
  split at h
  · cases h
  · cases h
    simp [toLists, List.map_map, Function.comp_def]

/-- In row-major order the entry at `(i, j)` stands at `i * n + j`, which is one of `n * n`
places. -/
theorem rowMajor_lt {n : Nat} (i j : Fin n) : i * n + j < n * n := by
  calc i * n + j < i * n + n := Nat.add_lt_add_left j.isLt _
    _ = (i + 1) * n := (Nat.succ_mul i n).symm
    _ ≤ n * n := Nat.mul_le_mul_right n i.isLt

/-- The matrix with `n` rows whose entries are given row after row. -/
def ofRowMajor (n : Nat) (data : List α) : Except DimensionFault (DenseMatrix n α) :=
  if h : data.length = n * n then
    let entries := vectorOfList data h
    .ok (ofFn fun i j => entries.get ⟨i * n + j, rowMajor_lt i j⟩)
  else
    .error (.dataLength data.length n)

end DenseMatrix

end PivotedLU
