import Mathlib.Data.List.OfFn
import PivotedLU.Proofs.Stored.Matrix

/-!
# Rows and Row-Major Lists

A matrix can be read from its rows or from one list of its entries. The rows are those of a matrix
if none of them is ragged, and the first ragged one is what they are refused for. A list in
row-major order only needs the right length: it is the concatenation of the rows, so it can be cut
into them again, and the entry in row `i` and column `j` stands at place `i * n + j`.

## Main results

* `DenseMatrix.firstRagged?_eq_some_iff`: the first ragged row.
* `DenseMatrix.ofRowsSized_eq_ok_iff`, `DenseMatrix.exists_toLists_eq_iff`: the lists of rows that
  are accepted are the square ones.
* `DenseMatrix.ofRowsSized_eq_error_iff`: which lists of rows are refused, and for which row.
* `DenseMatrix.flatten_toLists`, `DenseMatrix.getElem?_flatten_toLists`: where the entries stand in
  row-major order.
* `DenseMatrix.ofRowMajor_eq_ok_iff`: a list is accepted as that of its matrix.
* `Stored.blocks_flatten_toLists`: cutting it into blocks gives the rows.
* `rowMajor_blocks`: both ways to read a matrix agree.
-/

namespace PivotedLU

namespace DenseMatrix

variable {α : Type} {n : Nat}

/-! ## Rows -/

/-- The first `row` that is not as long as there are `rows`. -/
theorem firstRagged?_eq_some_iff {rows : List (List α)} {row : List α} {i : Nat} :
    firstRagged? rows = some (row, i) ↔
      rows[i]? = some row ∧ row.length ≠ rows.length ∧
        ∀ k < i, ∀ row', rows[k]? = some row' → row'.length = rows.length := by
  rw [firstRagged?, List.find?_eq_some_iff_getElem]
  constructor
  · -- the index that is found is the one that stands beside the row
    rintro ⟨hragged, k, hk, hfound, hbefore⟩
    rw [List.getElem_zipIdx, Nat.zero_add, Prod.mk.injEq] at hfound
    obtain ⟨rfl, rfl⟩ := hfound
    rw [List.length_zipIdx] at hk
    refine ⟨List.getElem?_eq_getElem hk, by simpa using hragged, fun k' hk' row' hrow' => ?_⟩
    obtain ⟨_, rfl⟩ := List.getElem?_eq_some_iff.1 hrow'
    simpa using hbefore k' hk'
  · rintro ⟨hrow, hragged, hbefore⟩
    obtain ⟨hi, rfl⟩ := List.getElem?_eq_some_iff.1 hrow
    refine ⟨by simpa using hragged, i, by simpa using hi, by simp, fun k hk => ?_⟩
    simpa using hbefore k hk _ (List.getElem?_eq_getElem (hk.trans hi))

/-- A matrix is given by its `toLists`. -/
theorem sized_ext {A B : SizedMatrix α} (h : A.2.toLists = B.2.toLists) : A = B := by
  obtain ⟨n, A⟩ := A
  obtain ⟨m, B⟩ := B
  have hlength := congrArg List.length h
  rw [length_toLists, length_toLists] at hlength
  subst hlength
  have hrows : A.rows.toList = B.rows.toList :=
    List.map_injective_iff.2 (fun _ _ => Vector.toList_inj.1) h
  obtain ⟨rows⟩ := A
  obtain ⟨rows'⟩ := B
  obtain rfl : rows = rows' := Vector.toList_inj.1 hrows
  rfl

/-- By `ofRowsSized`, square `rows` are accepted. -/
theorem exists_ofRowsSized {rows : List (List α)} (h : ∀ row ∈ rows, row.length = rows.length) :
    ∃ A, ofRowsSized rows = .ok A := by
  unfold ofRowsSized ofRows
  split
  · next hsome =>
    rw [firstRagged?_eq_none h] at hsome
    cases hsome
  · exact ⟨_, rfl⟩

/-- A matrix `A` that `ofRowsSized` has read from `rows` has these rows. -/
theorem toLists_ofRowsSized {rows : List (List α)} {A : SizedMatrix α}
    (h : ofRowsSized rows = .ok A) : A.2.toLists = rows := by
  rw [ofRowsSized] at h
  cases hB : ofRows rows with
  | error fault =>
    rw [hB] at h
    cases h
  | ok B =>
    rw [hB] at h
    cases h
    exact toLists_ofRows hB

/-- By `toLists`, the `rows` of matrices are the square ones. -/
theorem exists_toLists_eq_iff {rows : List (List α)} :
    (∃ A : SizedMatrix α, A.2.toLists = rows) ↔ ∀ row ∈ rows, row.length = rows.length := by
  constructor
  · rintro ⟨A, rfl⟩ row hrow
    rw [A.2.length_of_mem_toLists hrow, A.2.length_toLists]
  · intro h
    obtain ⟨A, hA⟩ := exists_ofRowsSized h
    exact ⟨A, toLists_ofRowsSized hA⟩

/-- By `ofRowsSized`, exactly the rows of `A` are accepted as `A`. -/
theorem ofRowsSized_eq_ok_iff {rows : List (List α)} {A : SizedMatrix α} :
    ofRowsSized rows = .ok A ↔ A.2.toLists = rows := by
  constructor
  · exact toLists_ofRowsSized
  · intro h
    obtain ⟨B, hB⟩ := exists_ofRowsSized (exists_toLists_eq_iff.1 ⟨A, h⟩)
    rw [hB, sized_ext ((toLists_ofRowsSized hB).trans h.symm)]

/-- By `ofRowsSized`, `rows` are refused for the first ragged one. -/
theorem ofRowsSized_eq_error_iff {rows : List (List α)} {fault : DimensionFault} :
    ofRowsSized rows = .error fault ↔
      ∃ i row, rows[i]? = some row ∧ row.length ≠ rows.length ∧
        (∀ k < i, ∀ row', rows[k]? = some row' → row'.length = rows.length) ∧
        fault = .raggedRow i row.length rows.length := by
  -- on the rows as they are stored, the refusal does not depend on a proof that there is none
  have hstored : ofRowsSized rows = .error fault ↔ Stored.fromRows rows = .error fault := by
    rw [Stored.fromRows_eq]
    cases ofRowsSized rows <;> simp [Except.map]
  have hfirst : Stored.fromRows rows = .error fault ↔
      ∃ i row, firstRagged? rows = some (row, i) ∧ fault = .raggedRow i row.length rows.length := by
    unfold Stored.fromRows
    cases firstRagged? rows with
    | none => simp
    | some found => simp [Prod.ext_iff, eq_comm]
  rw [hstored, hfirst]
  simp only [firstRagged?_eq_some_iff, and_assoc]

/-! ## Row-major order -/

/-- The rows of a matrix whose entries are given by `f` in row-major order, one after the other. -/
theorem flatten_toLists_ofFn (f : Fin (n * n) → α) :
    (ofFn fun i j => f ⟨i * n + j, rowMajor_lt i j⟩).toLists.flatten = List.ofFn f := by
  have hrow : ∀ i : Fin n, ((ofFn fun i j => f ⟨i * n + j, rowMajor_lt i j⟩).row i).toList =
      List.ofFn fun j : Fin n => f ⟨i * n + j, rowMajor_lt i j⟩ := by
    intro i
    rw [row, ofFn, get_ofFn, Vector.toList_ofFn]
  rw [List.ofFn_mul, toLists_eq_map, List.ofFn_eq_map]
  simp only [hrow]

/-- Dividing the place `i * n + j` by the length of a row gives row `i` and column `j`. -/
theorem entry_divNat_modNat (A : DenseMatrix n α) (i j : Fin n) :
    A.entry (Fin.divNat ⟨i * n + j, rowMajor_lt i j⟩) (Fin.modNat ⟨i * n + j, rowMajor_lt i j⟩) =
      A.entry i j := by
  have hdiv : (i.val * n + j.val) / n = i.val := by
    rw [Nat.mul_comm, Nat.mul_add_div i.pos, Nat.div_eq_of_lt j.isLt, Nat.add_zero]
  have hmod : (i.val * n + j.val) % n = j.val := by
    rw [Nat.mul_add_mod_self_right, Nat.mod_eq_of_lt j.isLt]
  exact congrArg₂ A.entry (Fin.ext hdiv) (Fin.ext hmod)

/-- The rows of `A`, one after the other. -/
theorem flatten_toLists (A : DenseMatrix n α) :
    A.toLists.flatten = List.ofFn fun k : Fin (n * n) => A.entry k.divNat k.modNat := by
  -- the matrix is the one that is given by these entries in row-major order
  rw [← flatten_toLists_ofFn]
  congr 2
  ext i j
  rw [entry_ofFn, entry_divNat_modNat]

theorem length_flatten_toLists (A : DenseMatrix n α) : A.toLists.flatten.length = n * n := by
  rw [A.flatten_toLists, List.length_ofFn]

/-- The entry in row `i` and column `j` stands at place `i * n + j`. -/
theorem getElem?_flatten_toLists (A : DenseMatrix n α) (i j : Fin n) :
    A.toLists.flatten[i.val * n + j.val]? = some (A.entry i j) := by
  rw [A.flatten_toLists, List.getElem?_ofFn, dif_pos (rowMajor_lt i j), entry_divNat_modNat]

/-- A matrix is given by its rows, one after the other. -/
theorem flatten_toLists_injective :
    Function.Injective fun A : DenseMatrix n α => A.toLists.flatten := by
  intro A B h
  ext i j
  have hplace := congrArg (fun data : List α => data[i.val * n + j.val]?) h
  dsimp only at hplace
  rw [getElem?_flatten_toLists, getElem?_flatten_toLists] at hplace
  exact Option.some.inj hplace

/-- By `ofRowMajor`, a list `data` of the right length is accepted. -/
theorem exists_ofRowMajor {data : List α} (h : data.length = n * n) :
    ∃ A, ofRowMajor n data = .ok A ∧ A.toLists.flatten = data := by
  refine ⟨_, dif_pos h, ?_⟩
  rw [flatten_toLists_ofFn, List.ofFn_eq_map, ← Stored.toList_eq_map, toList_vectorOfList]

theorem ofRowMajor_of_ne {data : List α} (h : data.length ≠ n * n) :
    ofRowMajor n data = .error (.dataLength data.length n) :=
  dif_neg h

/-- By `ofRowMajor`, a list `data` is refused exactly for its length. -/
theorem ofRowMajor_eq_error_iff {data : List α} {fault : DimensionFault} :
    ofRowMajor n data = .error fault ↔
      data.length ≠ n * n ∧ fault = .dataLength data.length n := by
  by_cases h : data.length = n * n
  · obtain ⟨A, hA, -⟩ := exists_ofRowMajor h
    simp [hA, h]
  · simp [ofRowMajor_of_ne h, h, eq_comm]

/-- By `ofRowMajor`, a list `data` is accepted as `A` if it is the rows of `A`, one after the
other. -/
theorem ofRowMajor_eq_ok_iff {data : List α} {A : DenseMatrix n α} :
    ofRowMajor n data = .ok A ↔ A.toLists.flatten = data := by
  constructor
  · intro h
    by_cases hlength : data.length = n * n
    · obtain ⟨B, hB, hdata⟩ := exists_ofRowMajor hlength
      obtain rfl : A = B := Except.ok.inj (h.symm.trans hB)
      exact hdata
    · rw [ofRowMajor_of_ne hlength] at h
      cases h
  · -- what is accepted has the same rows, one after the other, so it is the same matrix
    rintro rfl
    obtain ⟨B, hB, hdata⟩ := exists_ofRowMajor A.length_flatten_toLists
    rw [hB, flatten_toLists_injective hdata]

end DenseMatrix

namespace Stored

variable {α : Type} {n : Nat}

/-- Cut into `blocks`, the concatenated rows of `A` are its rows again. -/
theorem blocks_flatten_toLists (A : DenseMatrix n α) : blocks n A.toLists.flatten = A.toLists := by
  -- the list is accepted, and cutting it into blocks is how it is stored
  have hstored := fromRowMajor_eq n A.toLists.flatten
  rw [DenseMatrix.ofRowMajor_eq_ok_iff.2 rfl, fromRowMajor,
    if_neg (not_not_intro A.length_flatten_toLists)] at hstored
  exact Except.ok.inj hstored

end Stored

open DenseMatrix

/-- **Rows and row-major lists.**

- By `ofRowMajor n`, a list `data` is accepted exactly if it has `n * n` elements, and otherwise its
  length is named. The matrix `A` is then the one that is read from the blocks of `n` elements of
  `data`, its entry in row `i` and column `j` is the element at place `i * n + j`, and its rows are
  `data` when they are put one after the other. Every matrix is read back from its rows in this way.
- By `ofRowsSized`, a list of `rows` is accepted exactly if every row is as long as there are rows,
  and then the matrix has these rows; otherwise the first row of another length is named.
- `Stored.fromRowMajor` and `Stored.fromRows` give the same answers. -/
theorem rowMajor_blocks {α : Type} (n : Nat) (data : List α) (rows : List (List α)) :
    ((∃ A, ofRowMajor n data = .ok A) ↔ data.length = n * n) ∧
    (∀ fault, ofRowMajor n data = .error fault ↔
      data.length ≠ n * n ∧ fault = .dataLength data.length n) ∧
    (∀ A, ofRowMajor n data = .ok A →
      ofRowsSized (Stored.blocks n data) = .ok ⟨n, A⟩ ∧
        (∀ i j : Fin n, data[i.val * n + j.val]? = some (A.entry i j)) ∧
        A.toLists.flatten = data) ∧
    (∀ A : DenseMatrix n α, ofRowMajor n A.toLists.flatten = .ok A) ∧
    ((∃ A, ofRowsSized rows = .ok A) ↔ ∀ row ∈ rows, row.length = rows.length) ∧
    (∀ A, ofRowsSized rows = .ok A → A.1 = rows.length ∧ A.2.toLists = rows) ∧
    (∀ fault, ofRowsSized rows = .error fault ↔
      ∃ i row, rows[i]? = some row ∧ row.length ≠ rows.length ∧
        (∀ k < i, ∀ row', rows[k]? = some row' → row'.length = rows.length) ∧
        fault = .raggedRow i row.length rows.length) ∧
    Stored.fromRowMajor n data = (ofRowMajor n data).map toLists ∧
    Stored.fromRows rows = (ofRowsSized rows).map fun A => A.2.toLists := by
  refine ⟨?_, fun fault => ofRowMajor_eq_error_iff, fun A hA => ?_,
    fun A => ofRowMajor_eq_ok_iff.2 rfl, ?_, fun A hA => ?_, fun fault => ofRowsSized_eq_error_iff,
    Stored.fromRowMajor_eq n data, Stored.fromRows_eq rows⟩
  · constructor
    · rintro ⟨A, hA⟩
      rw [← ofRowMajor_eq_ok_iff.1 hA]
      exact A.length_flatten_toLists
    · intro h
      obtain ⟨A, hA, -⟩ := exists_ofRowMajor h
      exact ⟨A, hA⟩
  · -- the list is the concatenation of the rows of `A`, from here on
    obtain rfl := ofRowMajor_eq_ok_iff.1 hA
    exact ⟨ofRowsSized_eq_ok_iff.2 (Stored.blocks_flatten_toLists A).symm,
      A.getElem?_flatten_toLists, rfl⟩
  · simp only [ofRowsSized_eq_ok_iff]
    exact exists_toLists_eq_iff
  · obtain rfl := ofRowsSized_eq_ok_iff.1 hA
    exact ⟨A.2.length_toLists.symm, rfl⟩

/-- Four entries of `A` in two blocks, and rows of which the second is too short. -/
theorem rowMajor_blocks_two :
    let A : DenseMatrix 2 Nat := ⟨#v[#v[5, 6], #v[7, 8]]⟩
    ofRowMajor 2 [5, 6, 7, 8] = .ok A ∧ ofRowsSized [[5, 6], [7, 8]] = .ok ⟨2, A⟩ ∧
      [5, 6, 7, 8][1 * 2 + 0]? = some (A.entry 1 0) ∧ A.toLists.flatten = [5, 6, 7, 8] ∧
      ofRowsSized [[5, 6], [7]] = .error (.raggedRow 1 1 2) := by
  intro A
  have hA : ofRowMajor 2 [5, 6, 7, 8] = .ok A := by decide +kernel
  have hblocks : Stored.blocks 2 [5, 6, 7, 8] = [[5, 6], [7, 8]] := by simp [Stored.blocks]
  obtain ⟨-, -, haccepted, -, -, -, hrefused, -⟩ := rowMajor_blocks 2 [5, 6, 7, 8] [[5, 6], [7]]
  obtain ⟨hrows, hentry, hdata⟩ := haccepted A hA
  rw [hblocks] at hrows
  refine ⟨hA, hrows, hentry 1 0, hdata, (hrefused _).2 ⟨1, [7], rfl, by decide, ?_, rfl⟩⟩
  intro k hk row hrow
  obtain rfl : k = 0 := Nat.lt_one_iff.1 hk
  cases hrow
  rfl

-- no entries are those of the matrix without rows, for which no block is cut
example : ofRowMajor 0 ([] : List Nat) = .ok (ofFn fun i _ => i.elim0) := by decide +kernel

end PivotedLU
