import PivotedLU.RowOrder.Basic

/-!
# The Flat Layout of Row Orders

A row order of size `n` is written as a list of `n + 1` naturals: the sources, followed by `n`
plus the number of exchanges.

## Main definitions

* `SizedOrder`: a row order whose size is not known beforehand.
* `RowOrder.toFlat`: the order as a list.
* `RowOrder.ofIndices?`: the order with given sources, if they are a permutation.
* `RowOrder.ofFlat`: the order that a list describes. An empty list is refused first, then a
  counter below the number of indices, then indices that are no permutation.

## Main results

* `RowOrder.indices_of_ofIndices?`, `RowOrder.exchanges_of_ofIndices?`: the sources that were
  accepted and their counter are read back.
-/

namespace PivotedLU

/-- A row order with its size. -/
abbrev SizedOrder := (n : Nat) × RowOrder n

namespace RowOrder

variable {n : Nat}

/-- The sources of `p`, followed by the size plus the number of exchanges. -/
def toFlat (p : RowOrder n) : List Nat :=
  p.indices ++ [n + p.exchanges]

/-- The order with the sources `indices` and the counter `exchanges`, if every source is in range
and none occurs twice. -/
def ofIndices? (indices : List Nat) (exchanges : Nat) : Option (RowOrder indices.length) :=
  if h : (∀ i ∈ indices, i < indices.length) ∧ indices.Nodup then
    some
      { sources := Vector.ofFn fun i => ⟨indices[i], h.1 _ (List.getElem_mem _)⟩
        distinct := fun i j hij => by
          have hval : indices[i] = indices[j] := by simpa using hij
          exact Fin.ext ((List.getElem_inj h.2).1 hval)
        exchanges := exchanges }
  else
    none

/-- The sources of an order `p` that `ofIndices?` returns are the `indices` it was read from. -/
theorem indices_of_ofIndices? {indices : List Nat} {exchanges : Nat}
    {p : RowOrder indices.length} (h : ofIndices? indices exchanges = some p) :
    p.indices = indices := by
  unfold ofIndices? at h
  split at h
  · cases h
    apply List.ext_getElem
    · simp [RowOrder.indices]
    · intro i hi hi'
      simp [RowOrder.indices]
  · cases h

/-- The counter of an order `p` that `ofIndices?` returns is the one it was read with. -/
theorem exchanges_of_ofIndices? {indices : List Nat} {exchanges : Nat}
    {p : RowOrder indices.length} (h : ofIndices? indices exchanges = some p) :
    p.exchanges = exchanges := by
  unfold ofIndices? at h
  split at h
  · cases h
    rfl
  · cases h

/-- The order that a list `flat` in flat layout describes. -/
def ofFlat (flat : List Nat) : Except OrderFault SizedOrder :=
  match flat.getLast? with
  | none => .error .empty
  | some counter =>
    let indices := flat.dropLast
    if counter < indices.length then
      .error (.counterBelow counter indices.length)
    else
      match ofIndices? indices (counter - indices.length) with
      | some p => .ok ⟨indices.length, p⟩
      | none => .error (.notBijective indices)

end RowOrder

end PivotedLU
