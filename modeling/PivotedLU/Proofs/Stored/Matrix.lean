import PivotedLU.DenseMatrix.Product
import PivotedLU.Proofs.Stored.Access

/-!
# Stored Matrices

A matrix as it is stored: a list of rows, each a list of its own. Nothing in the type makes the
rows as long as there are rows. The operations below are written with checked accesses only, and
every one of them is shown to do what the operation of the library does with a dense matrix: if the
rows have the right lengths before, they have them afterwards, and no access leaves its list.

## Main definitions

* `Stored.Rows`: the rows.
* `Stored.fromRows`, `Stored.fromRowMajor`, `Stored.zeros`, `Stored.identity`: new matrices.
* `Stored.setEntry`, `Stored.replaceRow`, `Stored.swapAt`, `Stored.writeBelow`: changes in place.
* `Stored.transpose`, `Stored.multiply`: computed matrices.

## Main results

* `Stored.fromRows_eq`, `Stored.fromRowMajor_eq`, `Stored.identity_eq`: new matrices have the rows
  of dense ones.
* `Stored.run_setEntry`, `Stored.run_replaceRow`, `Stored.run_swapAt_toLists`,
  `Stored.run_writeBelow`: a change that is stopped leaves the rows as they were.
* `Stored.transpose_toLists`, `Stored.multiply_toLists`: computed matrices.
-/

namespace PivotedLU

/-! ## Dense matrices by rows -/

namespace DenseMatrix

variable {α : Type} {n : Nat}

/-- The matrix `A` with row `i` replaced by `r`. -/
def setRow (A : DenseMatrix n α) (i : Fin n) (r : Vector α n) : DenseMatrix n α :=
  ⟨A.rows.set i r i.isLt⟩

/-- Of the rows of `A.setRow i r` only row `i` is `r`; the others are those of `A`. -/
theorem row_setRow (A : DenseMatrix n α) (i : Fin n) (r : Vector α n) (k : Fin n) :
    (A.setRow i r).row k = if k = i then r else A.row k := by
  by_cases hk : k = i
  · subst hk
    rw [if_pos rfl]
    exact get_set_self A.rows k r
  · rw [if_neg hk]
    exact get_set_of_ne A.rows (Ne.symm hk) r

theorem row_set (A : DenseMatrix n α) (i j : Fin n) (x : α) (k : Fin n) :
    (A.set i j x).row k = if k = i then (A.row i).set j x j.isLt else A.row k :=
  A.row_setRow i _ k

theorem length_toLists (A : DenseMatrix n α) : A.toLists.length = n := by
  simp [toLists]

theorem getElem_toLists (A : DenseMatrix n α) (i : Fin n) (h : i.val < A.toLists.length) :
    A.toLists[i.val] = (A.row i).toList := by
  simp [toLists, row, Vector.get]

theorem toLists_eq_map (A : DenseMatrix n α) :
    A.toLists = (List.finRange n).map fun i => (A.row i).toList := by
  rw [toLists, Stored.toList_eq_map, List.map_map]
  rfl

theorem length_of_mem_toLists (A : DenseMatrix n α) {row : List α} (h : row ∈ A.toLists) :
    row.length = n := by
  rw [A.toLists_eq_map, List.mem_map] at h
  obtain ⟨i, -, rfl⟩ := h
  exact Vector.length_toList

theorem toLists_setRow (A : DenseMatrix n α) (i : Fin n) (r : Vector α n) :
    (A.setRow i r).toLists = A.toLists.set i r.toList := by
  rw [toLists, toLists, setRow, Vector.toList_set, List.map_set]

theorem lt_length_toLists (A : DenseMatrix n α) (i : Fin n) : i.val < A.toLists.length := by
  rw [A.length_toLists]
  exact i.isLt

/-- Among square `rows` none is ragged. -/
theorem firstRagged?_eq_none {rows : List (List α)}
    (h : ∀ row ∈ rows, row.length = rows.length) : firstRagged? rows = none := by
  rw [firstRagged?, List.find?_eq_none]
  intro row hrow
  rw [h _ (List.fst_mem_of_mem_zipIdx hrow), bne_self_eq_false]
  exact Bool.false_ne_true

end DenseMatrix

namespace Stored

open InPlace

variable {α : Type} {n m : Nat}

/-- The rows of a matrix. -/
abbrev Rows (α : Type) := List (List α)

/-! ## New matrices -/

/-- The given `rows`, refused if one is not as long as there are rows. -/
def fromRows (rows : Rows α) : Except DimensionFault (Rows α) :=
  match DenseMatrix.firstRagged? rows with
  | some (r, i) => .error (.raggedRow i r.length rows.length)
  | none => .ok rows

/-- A list cut into blocks of `n` elements; the last block has what is left. -/
def blocks (n : Nat) (data : List α) : Rows α :=
  if _h : n = 0 ∨ data.length = 0 then [] else data.take n :: blocks n (data.drop n)
termination_by data.length
decreasing_by
  rw [List.length_drop]
  omega

/-- The rows that a list `data` in row-major order is cut into, refused if it has not `n * n`
elements. -/
def fromRowMajor (n : Nat) (data : List α) : Except DimensionFault (Rows α) :=
  if data.length ≠ n * n then .error (.dataLength data.length n) else .ok (blocks n data)

/-- Rows of zeros. -/
def zeros [Zero α] (n : Nat) : Rows α :=
  List.replicate n (List.replicate n 0)

/-- The entry at `(i, j)`. -/
def entryAt (rows : Rows α) (i j : Nat) : Except Violation α := do
  readAt (← readAt rows i) j

/-! ## Changes in place -/

/-- The entry at `(i, j)` is replaced by `x`. -/
def setEntry (i j : Nat) (x : α) : InPlace (Rows α) Unit :=
  atPosition i (atPosition j (set x))

/-- Row `i` is overwritten with `xs`, which has to have as many elements. -/
def replaceRow (i : Nat) (xs : List α) : InPlace (Rows α) Unit :=
  atPosition i (overwrite xs)

/-- The rows are split behind row `i`, which has to be there, and an entry of the `k`-th row below
it is replaced. -/
def writeBelow (i k j : Nat) (x : α) : InPlace (Rows α) Unit := do
  let head ← check (firstOf (← get) (i + 1))
  let _ ← check (readAt head i)
  onRest (i + 1) (atPosition k (atPosition j (set x)))

/-- The unit matrix: zeros, into which the ones are written. -/
def identity [Zero α] [One α] (n : Nat) : Except Violation (Rows α) :=
  build (forM (List.range n) fun i => setEntry i i 1) (zeros n)

/-! ## Computed matrices -/

/-- The rows whose entries are the columns. -/
def transpose (rows : Rows α) : Except Violation (Rows α) :=
  (List.range rows.length).mapM fun c => rows.mapM fun row => readAt row c

/-- A row of a product: the rows of `right` are added up to `out`, each times its coefficient. -/
def multiplyRow [Scalar α] (right : Rows α) (out coefficients : List α) :
    Except Violation (List α) :=
  coefficients.zipIdx.foldlM
    (fun out a => do return zipInto (fun o b => o + a.1 * b) out (← readAt right a.2)) out

/-- The product of `left` and `right`, refused if the numbers of rows differ. -/
def multiply [Scalar α] (left right : Rows α) :
    Except Violation (Except DimensionFault (Rows α)) :=
  if left.length ≠ right.length then
    .ok (.error (.factorSizes left.length right.length))
  else do
    let out ← ((zeros left.length).zip left).mapM fun r => multiplyRow right r.1 r.2
    return .ok out

/-! ## Accesses to a dense matrix -/

section Access

variable (A : DenseMatrix n α)

@[simp]
theorem readAt_toLists (i : Fin n) : readAt A.toLists i = .ok (A.row i).toList := by
  have hi := A.lt_length_toLists i
  rw [readAt_of_lt hi, A.getElem_toLists i hi]

@[simp]
theorem entryAt_toLists (i j : Fin n) : entryAt A.toLists i j = .ok (A.entry i j) := by
  rw [entryAt, readAt_toLists]
  exact readAt_toList _ j

/-- An action `act` that makes `r` of row `i` of `A` sets this row. -/
theorem run_atPosition_toLists (i : Fin n) {act : InPlace (List α) Unit} {r : Vector α n}
    (hact : act.run (A.row i).toList = .ok () r.toList) :
    (atPosition i act).run A.toLists = .ok () (A.setRow i r).toLists := by
  rw [run_atPosition (A.lt_length_toLists i), A.getElem_toLists i, hact, A.toLists_setRow]
  rfl

theorem run_atPosition_toLists_of_error (i : Fin n) {act : InPlace (List α) Unit} {v : Violation}
    (hact : act.run (A.row i).toList = .error v (A.row i).toList) :
    (atPosition i act).run A.toLists = .error v A.toLists := by
  have hsame : A.toLists.set i (A.row i).toList = A.toLists := by
    rw [← A.getElem_toLists i (A.lt_length_toLists i), List.set_getElem_self]
  rw [run_atPosition (A.lt_length_toLists i), A.getElem_toLists i, hact, placed, hsame]

theorem run_atPosition_toLists_of_le {i : Nat} (h : ¬i < n) (act : InPlace (List α) Unit) :
    (atPosition i act).run A.toLists = .error .outOfBounds A.toLists := by
  refine run_atPosition_of_le ?_ act
  rw [A.length_toLists]
  exact Nat.not_lt.1 h

end Access

/-! ## Changes of a dense matrix -/

section Changes

variable (A : DenseMatrix n α)

/-- An entry at `(i, j)` inside `A` is replaced; a position outside leaves the rows as they were. -/
theorem run_setEntry (i j : Nat) (x : α) :
    (setEntry i j x).run A.toLists = settled DenseMatrix.toLists A.toLists (A.setAt i j x) := by
  unfold DenseMatrix.setAt
  by_cases hi : i < n
  · by_cases hj : j < n
    · rw [dif_pos ⟨hi, hj⟩]
      exact run_atPosition_toLists A ⟨i, hi⟩ (run_atPosition_set _ ⟨j, hj⟩ x)
    · rw [dif_neg fun h => hj h.2]
      refine run_atPosition_toLists_of_error A ⟨i, hi⟩ (run_atPosition_of_le ?_ _)
      simpa using hj
  · rw [dif_neg fun h => hi h.1]
    exact run_atPosition_toLists_of_le A hi _

theorem run_setEntry_inside (i j : Fin n) (x : α) :
    (setEntry i j x).run A.toLists = .ok () (A.set i j x).toLists := by
  rw [run_setEntry, DenseMatrix.setAt, dif_pos ⟨i.isLt, j.isLt⟩, settled]

/-- Rows `i` and `j` of `A` are exchanged; a position outside leaves the rows as they were. -/
theorem run_swapAt_toLists (i j : Nat) :
    (swapAt i j).run A.toLists = settled DenseMatrix.toLists A.toLists (A.swapRowsAt i j) := by
  unfold DenseMatrix.swapRowsAt
  split
  · next h => exact run_swapAt_map A.rows Vector.toList ⟨i, h.1⟩ ⟨j, h.2⟩
  · next h =>
    refine run_swapAt_of_not_lt ?_
    rwa [A.length_toLists]

/-- Row `i` of `A` is overwritten with `xs` if this has as many entries. -/
theorem run_replaceRow (i : Nat) (xs : List α) :
    (replaceRow i xs).run A.toLists =
      settled DenseMatrix.toLists A.toLists
        (if h : i < n ∧ xs.length = n then .ok (A.setRow ⟨i, h.1⟩ (vectorOfList xs h.2))
        else .error .outOfBounds) := by
  by_cases hi : i < n
  · by_cases hxs : xs.length = n
    · rw [dif_pos ⟨hi, hxs⟩]
      refine run_atPosition_toLists A ⟨i, hi⟩ ?_
      rw [toList_vectorOfList]
      exact if_pos (by simpa using hxs)
    · rw [dif_neg fun h => hxs h.2]
      exact run_atPosition_toLists_of_error A ⟨i, hi⟩ (if_neg (by simpa using hxs))
  · rw [dif_neg fun h => hi h.1]
    exact run_atPosition_toLists_of_le A hi _

/-- An entry below row `i` of `A` is replaced, as at its position in the whole matrix. -/
theorem run_writeBelow (i k j : Nat) (x : α) :
    (writeBelow i k j x).run A.toLists =
      settled DenseMatrix.toLists A.toLists
        (if i < n then A.setAt (i + 1 + k) j x else .error .outOfBounds) := by
  rw [writeBelow, run_get_bind]
  by_cases hi : i < n
  · -- row `i` is there, so the rows can be split behind it
    rw [if_pos hi, ← run_setEntry]
    have hlength : i + 1 ≤ A.toLists.length := by
      rw [A.length_toLists]
      exact hi
    have hrow : i < (A.toLists.take (i + 1)).length := by
      rw [List.length_take, Nat.min_eq_left hlength]
      exact Nat.lt_succ_self i
    rw [run_check_bind (firstOf_of_le hlength), run_check_bind (readAt_of_lt hrow)]
    exact run_onRest_atPosition hlength k _
  · -- the split is refused
    have hshort : ¬i + 1 ≤ n := hi
    rw [if_neg hi, firstOf, A.length_toLists, if_neg hshort]
    rfl

end Changes

/-! ## New dense matrices -/

/-- By `fromRows`, lists of `rows` are accepted exactly if they are those of a dense matrix. -/
theorem fromRows_eq (rows : Rows α) :
    fromRows rows = (DenseMatrix.ofRowsSized rows).map fun A => A.2.toLists := by
  -- both look for a ragged row, and refuse the first one
  cases hA : DenseMatrix.ofRows rows with
  | ok A =>
    rw [DenseMatrix.ofRowsSized, hA]
    show _ = Except.ok A.toLists
    rw [DenseMatrix.toLists_ofRows hA]
    unfold DenseMatrix.ofRows at hA
    split at hA
    · cases hA
    · next h => rw [fromRows, h]
  | error fault =>
    rw [DenseMatrix.ofRowsSized, hA]
    unfold DenseMatrix.ofRows at hA
    split at hA
    · next h =>
      cases hA
      rw [fromRows, h]
      rfl
    · cases hA

/-- The rows of `A` are accepted. -/
theorem fromRows_toLists (A : DenseMatrix n α) : fromRows A.toLists = .ok A.toLists := by
  have hragged : DenseMatrix.firstRagged? A.toLists = none := by
    refine DenseMatrix.firstRagged?_eq_none fun row hrow => ?_
    rw [A.length_of_mem_toLists hrow, A.length_toLists]
  rw [fromRows, hragged]

/-- A list of `k * n` elements is cut into `k` blocks of `n` elements each. -/
theorem blocks_eq_map (hn : 0 < n) {k : Nat} {data : List α} (h : data.length = k * n) :
    blocks n data = (List.range k).map fun i => (data.drop (i * n)).take n := by
  induction k generalizing data with
  | zero => rw [blocks, dif_pos (Or.inr (by simpa using h)), List.range_zero, List.map_nil]
  | succ k ih =>
    have hpos : 0 < data.length := by
      rw [h]
      exact Nat.mul_pos k.succ_pos hn
    have hrest : (data.drop n).length = k * n := by
      rw [List.length_drop, h, Nat.succ_mul, Nat.add_sub_cancel]
    rw [blocks, dif_neg (by omega), ih hrest, List.range_succ_eq_map, List.map_cons, List.map_map,
      Nat.zero_mul, List.drop_zero]
    congr 2
    funext i
    simp [List.drop_drop, Nat.succ_mul, Nat.add_comm]

/-- By `fromRowMajor`, a list `data` in row-major order is cut into the rows of a dense matrix. -/
theorem fromRowMajor_eq (n : Nat) (data : List α) :
    fromRowMajor n data = (DenseMatrix.ofRowMajor n data).map DenseMatrix.toLists := by
  unfold fromRowMajor DenseMatrix.ofRowMajor
  by_cases h : data.length = n * n
  · rw [if_neg (not_not_intro h), dif_pos h]
    refine congrArg Except.ok ?_
    rcases Nat.eq_zero_or_pos n with rfl | hn
    · -- blocks of no elements would never use up a list, so none is cut
      rw [blocks, dif_pos (Or.inl rfl), DenseMatrix.toLists_eq_map]
      rfl
    · rw [blocks_eq_map hn h, DenseMatrix.toLists_eq_map, range_eq_map_val, List.map_map]
      refine List.map_congr_left fun i _ => ?_
      have hlength : n ≤ n * n - i * n := by
        rw [← Nat.sub_mul]
        exact Nat.le_mul_of_pos_left n (Nat.sub_pos_of_lt i.isLt)
      apply List.ext_getElem
      · simp [h, hlength]
      · intro j hj hj'
        simp [DenseMatrix.row, DenseMatrix.ofFn, Vector.get, vectorOfList]
        rfl
  · rw [if_pos h, dif_neg h]
    rfl

theorem zeros_eq [Zero α] (n : Nat) : (zeros n : Rows α) = (DenseMatrix.zeros n).toLists := by
  rw [zeros, DenseMatrix.toLists_eq_map]
  apply List.ext_getElem
  · simp
  · intro i hi hi'
    apply List.ext_getElem
    · simp
    · intro j hj hj'
      simp [DenseMatrix.zeros, DenseMatrix.row, DenseMatrix.ofFn]

/-- Writing a one into column `c i` of every row `i` of zeros leaves a single one in each. -/
theorem entry_foldl_set_one [Zero α] [One α] (c : Fin n → Fin n) (i j : Fin n) :
    (Fin.foldl n (fun A k => A.set k (c k) 1) (DenseMatrix.zeros n : DenseMatrix n α)).entry i j =
      if c i = j then 1 else 0 := by
  have hrow := foldl_each DenseMatrix.row (fun k r => r.set (c k) (1 : α) (c k).isLt)
    (fun A k i => A.row_set k (c k) 1 i) (DenseMatrix.zeros n) i
  rw [DenseMatrix.entry, hrow]
  by_cases hj : c i = j
  · subst hj
    rw [get_set_self, if_pos rfl]
  · rw [get_set_of_ne _ hj, if_neg hj]
    exact DenseMatrix.entry_zeros i j

/-- Writing the ones into zeros never leaves the matrix and gives `DenseMatrix.identity n`. -/
theorem identity_eq [Zero α] [One α] (n : Nat) :
    (identity n : Except Violation (Rows α)) = .ok (DenseMatrix.identity n).toLists := by
  have hloop : (forM (List.range n) fun i => setEntry i i (1 : α)).run (zeros n) =
      .ok () (Fin.foldl n (fun A k => A.set k k 1) (DenseMatrix.zeros n)).toLists := by
    rw [range_eq_map_val, zeros_eq, Fin.foldl_eq_finRange_foldl]
    exact run_forM_map DenseMatrix.toLists (fun A k => run_setEntry_inside A k k 1) _ _
  have hidentity : Fin.foldl n (fun A k => A.set k k 1) (DenseMatrix.zeros n) =
      (DenseMatrix.identity n : DenseMatrix n α) := by
    ext i j
    rw [DenseMatrix.entry_identity]
    exact entry_foldl_set_one id i j
  rw [identity, build_of_ok hloop, hidentity]

/-! ## Computed dense matrices -/

/-- Writing the entries of `A` into its transpose is never stopped. -/
theorem transpose_toLists (A : DenseMatrix n α) :
    transpose A.toLists = .ok A.transpose.toLists := by
  have hcolumn : ∀ c : Fin n, (A.toLists.mapM fun row => readAt row c.val) =
      .ok (A.transpose.row c).toList := by
    intro c
    rw [A.toLists_eq_map, mapM_map (fun i => readAt_toList (A.row i) c), toList_eq_map]
    refine congrArg Except.ok (List.map_congr_left fun i _ => ?_)
    exact (A.entry_transpose c i).symm
  rw [transpose, A.length_toLists, range_eq_map_val, mapM_map hcolumn,
    A.transpose.toLists_eq_map]

/-- A row of the product with `B`, added to the row `out`. -/
theorem multiplyRow_toList [Scalar α] (B : DenseMatrix n α) (out coefficients : Vector α n) :
    multiplyRow B.toLists out.toList coefficients.toList =
      .ok (Fin.foldl n (fun acc k => Vector.ofFn fun j =>
        acc.get j + coefficients.get k * B.entry k j) out).toList := by
  have hstep : ∀ (acc : Vector α n) (k : Fin n),
      (do return zipInto (fun o b => o + coefficients.get k * b) acc.toList
            (← readAt B.toLists k.val) : Except Violation (List α)) =
        .ok (Vector.ofFn fun j => acc.get j + coefficients.get k * B.entry k j).toList := by
    intro acc k
    rw [readAt_toLists]
    exact congrArg Except.ok (zipInto_toList acc _ (B.row k))
  rw [multiplyRow, toList_eq_map coefficients, zipIdx_map_finRange,
    foldlM_map Vector.toList hstep, Fin.foldl_eq_finRange_foldl]

/-- The product of `A` and `B` is computed from their rows, or refused for the same reason. -/
theorem multiply_toLists [Scalar α] (A : DenseMatrix n α) (B : DenseMatrix m α) :
    multiply A.toLists B.toLists = .ok ((A.multiply B).map DenseMatrix.toLists) := by
  rw [multiply, DenseMatrix.multiply, A.length_toLists, B.length_toLists]
  by_cases h : m = n
  · subst h
    have hrow : ∀ i : Fin m, multiplyRow B.toLists ((DenseMatrix.zeros m).row i).toList
        (A.row i).toList = .ok ((A.mul B).row i).toList := by
      intro i
      -- the sums of a row begin with the zeros that are stored there
      rw [multiplyRow_toList, DenseMatrix.row_mul]
      have hzeros : (DenseMatrix.zeros m).row i = Vector.ofFn fun _ : Fin m => (0 : α) := by
        simp [DenseMatrix.zeros, DenseMatrix.row, DenseMatrix.ofFn]
      rw [hzeros]
      rfl
    have hzip : (zeros m : Rows α).zip A.toLists = (List.finRange m).map fun i =>
        (((DenseMatrix.zeros m).row i).toList, (A.row i).toList) := by
      rw [zeros_eq, DenseMatrix.toLists_eq_map, A.toLists_eq_map, List.zip_map']
    rw [if_neg (not_not_intro rfl), dif_pos rfl, hzip, mapM_map hrow, ← DenseMatrix.toLists_eq_map]
    rfl
  · rw [if_pos (Ne.symm h), dif_neg h]
    rfl

end Stored

end PivotedLU
