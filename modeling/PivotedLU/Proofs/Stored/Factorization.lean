import PivotedLU.Factorization.Basic
import PivotedLU.Proofs.Stored.Elimination
import PivotedLU.Proofs.Stored.Substitution

/-!
# Stored Factorizations

A combined matrix and an order as they are stored, with everything that is read off them. The only
check is made when the two are put together: their sizes have to agree. The copies of parts of rows,
the products inside both triangles and the substitutions rely on it, and on the invariants of the
two parts.

## Main definitions

* `Stored.Factors`, `Stored.Factors.fromParts`: the two parts.
* `Stored.Factors.lower`, `Stored.Factors.upper`, `Stored.Factors.reconstruct`: the triangles,
  copied into new matrices, and their product.
* `Stored.Factors.permutationMatrix`, `Stored.Factors.inverse`, `Stored.Factors.determinant`.
* `Stored.Factors.solve`: the solution, after the right-hand side has been looked at.

## Main results

* `Stored.fromParts_stored`: the parts are refused for the same reason.
* `Stored.lower_stored`, `Stored.upper_stored`, `Stored.reconstruct_stored`,
  `Stored.permutationMatrix_stored`, `Stored.inverse_stored`, `Stored.determinant_stored`,
  `Stored.solve_stored`: on the parts of a factorization of the library no access fails.
-/

namespace PivotedLU

namespace Stored

open InPlace

variable {α : Type} {n m : Nat}

/-- A combined matrix and an order. -/
structure Factors (α : Type) where
  lu : Rows α
  order : Order

namespace Factors

/-- The parts `lu` and `order`, refused if their sizes differ. -/
def fromParts (lu : Rows α) (order : Order) : Except DimensionFault (Factors α) :=
  if lu.length ≠ order.indices.length then .error (.orderSize order.indices.length lu.length)
  else .ok ⟨lu, order⟩

variable [Scalar α]

/-- The elements of row `i` of `lu` left of the diagonal are copied. -/
def copyLeft (lu : Rows α) (i : Nat) : InPlace (Rows α) Unit := do
  let left ← check (do firstOf (← readAt lu i) i)
  atPosition i (onFirst i (overwrite left))

/-- The elements of row `i` of `lu` from the diagonal on are copied. -/
def copyRight (lu : Rows α) (i : Nat) : InPlace (Rows α) Unit := do
  let right ← check (do restOf (← readAt lu i) i)
  atPosition i (onRest i (overwrite right))

/-- The rows of the unit matrix, with what is left of the diagonal copied into them. -/
def lower (f : Factors α) : Except Violation (Rows α) := do
  build (forM (List.range f.lu.length) (copyLeft f.lu)) (← identity f.lu.length)

/-- Rows of zeros, with what stands from the diagonal on copied into them. -/
def upper (f : Factors α) : Except Violation (Rows α) :=
  build (forM (List.range f.lu.length) (copyRight f.lu)) (zeros f.lu.length)

/-- The entry at `(i, j)` of the product of the triangles `l` and `u`: the terms up to the smaller
index are added up. -/
def productEntry (l u : Rows α) (i j : Nat) : Except Violation α :=
  (List.range (min i j + 1)).foldlM
    (fun acc k => do return acc + (← entryAt l i k) * (← entryAt u k j)) 0

/-- Row `i` of the product of the triangles `l` and `u` is written, entry by entry. -/
def writeProducts (l u : Rows α) (columns : List Nat) (i : Nat) : InPlace (Rows α) Unit :=
  forM columns fun j => do
    let x ← check (productEntry l u i j)
    setEntry i j x

/-- The product of the triangles. -/
def reconstruct (f : Factors α) : Except Violation (Rows α) := do
  let l ← f.lower
  let u ← f.upper
  let places := List.range f.lu.length
  build (forM places (writeProducts l u places)) (zeros f.lu.length)

/-- The order as a matrix. -/
def permutationMatrix (f : Factors α) : Except Violation (Rows α) :=
  orderMatrix f.order

/-- The inverse of the matrix that was factored. -/
def inverse (f : Factors α) : Except Violation (Rows α) :=
  invert f.lu f.order

/-- The determinant of the matrix that was factored. -/
def determinant (f : Factors α) : Except Violation α :=
  Stored.determinant f.lu f.order

/-- The solution for `b`, which has to fit the shape of `f`. -/
def solve (f : Factors α) (b : List α) : Except Violation (Except DimensionFault (List α)) :=
  match validateRightHandSide (f.lu.length, f.lu.length) b.length with
  | .error fault => .ok (.error fault)
  | .ok () => do return .ok (← Stored.solve f.lu f.order b)

end Factors

end Stored

/-- A factorization as it is stored. -/
def Factorization.stored {α : Type} {n : Nat} (f : Factorization n α) : Stored.Factors α :=
  ⟨f.lu.toLists, f.order.stored⟩

namespace Stored

open InPlace

variable {α : Type} {n m : Nat}

/-- The stored forms of `lu` and `p` are put together or refused as these are. -/
theorem fromParts_stored (lu : DenseMatrix n α) (p : RowOrder m) :
    Factors.fromParts lu.toLists p.stored =
      (Factorization.ofParts lu p).map Factorization.stored := by
  rw [Factors.fromParts, Factorization.ofParts, lu.length_toLists, length_indices_stored]
  by_cases h : m = n
  · subst h
    rw [if_neg (not_not_intro rfl), dif_pos rfl]
    rfl
  · rw [if_pos (Ne.symm h), dif_neg h]
    rfl

/-- The stored forms of `lu` and of an order `p` of its size fit together. -/
theorem fromParts_of_size (lu : DenseMatrix n α) (p : RowOrder n) :
    Factors.fromParts lu.toLists p.stored = .ok (Factorization.stored ⟨lu, p⟩) := by
  rw [fromParts_stored, Factorization.ofParts, dif_pos rfl]
  rfl

/-! ## Copies and loops over entries -/

/-- The list of `r` takes over the elements of `left` before `i`. -/
theorem run_onFirst_overwrite (r left : Vector α n) (i : Fin n) :
    (onFirst i (overwrite (left.toList.take i))).run r.toList =
      .ok () (Vector.ofFn fun j => if j < i then left.get j else r.get j).toList := by
  have hcopy : (overwrite (left.toList.take i)).run (r.toList.take i) =
      .ok () (left.toList.take i) := if_pos (by simp)
  rw [run_onFirst (by simp), hcopy, placed, take_append_drop_toList]
  rfl

/-- The list of `r` takes over the elements of `right` from `i` on. -/
theorem run_onRest_overwrite (r right : Vector α n) (i : Fin n) :
    (onRest i (overwrite (right.toList.drop i))).run r.toList =
      .ok () (Vector.ofFn fun j => if j < i then r.get j else right.get j).toList := by
  have hcopy : (overwrite (right.toList.drop i)).run (r.toList.drop i) =
      .ok () (right.toList.drop i) := if_pos (by simp)
  rw [run_onRest (by simp), hcopy, placed, take_append_drop_toList]
  rfl

/-- Row `i` takes over the entries of `lu` before the diagonal. -/
theorem run_copyLeft (lu A : DenseMatrix n α) (i : Fin n) :
    (Factors.copyLeft lu.toLists i).run A.toLists = .ok () (A.setRow i
      (Vector.ofFn fun j => if j < i then lu.entry i j else (A.row i).get j)).toLists := by
  have hleft : (do firstOf (← readAt lu.toLists i) i : Except Violation (List α)) =
      .ok ((lu.row i).toList.take i) := by
    rw [readAt_toLists]
    exact firstOf_of_le (by simp)
  rw [Factors.copyLeft, run_check_bind hleft]
  exact run_atPosition_toLists A i (run_onFirst_overwrite (A.row i) (lu.row i) i)

/-- Row `i` takes over the entries of `lu` from the diagonal on. -/
theorem run_copyRight (lu A : DenseMatrix n α) (i : Fin n) :
    (Factors.copyRight lu.toLists i).run A.toLists = .ok () (A.setRow i
      (Vector.ofFn fun j => if j < i then (A.row i).get j else lu.entry i j)).toLists := by
  have hright : (do restOf (← readAt lu.toLists i) i : Except Violation (List α)) =
      .ok ((lu.row i).toList.drop i) := by
    rw [readAt_toLists]
    exact restOf_of_le (by simp)
  rw [Factors.copyRight, run_check_bind hright]
  exact run_atPosition_toLists A i (run_onRest_overwrite (A.row i) (lu.row i) i)

/-- A row `i` that is written entry by entry holds the entries `x`. -/
theorem row_foldl_set (A : DenseMatrix n α) (x : Fin n → α) (i k : Fin n) :
    (Fin.foldl n (fun A j => A.set i j (x j)) A).row k =
      if k = i then Vector.ofFn x else A.row k := by
  by_cases hk : k = i
  · subst hk
    rw [if_pos rfl, vector_eq_iff]
    intro j
    have hset : ∀ (B : DenseMatrix n α) (c j : Fin n),
        (B.set k c (x c)).entry k j = if j = c then x c else B.entry k j := by
      intro B c j
      rw [B.entry_set]
      simp only [true_and, eq_comm]
    rw [get_ofFn]
    exact foldl_each (fun B j => B.entry k j) (fun c _ => x c) hset A j
  · rw [if_neg hk]
    refine foldl_invariant (fun _ (B : DenseMatrix n α) => B.row k = A.row k) rfl fun j B hB => ?_
    rw [B.row_set, if_neg hk, hB]

/-- A matrix that is written row by row holds the entries `x`. -/
theorem foldl_foldl_set (A : DenseMatrix n α) (x : Fin n → Fin n → α) :
    Fin.foldl n (fun A i => Fin.foldl n (fun A j => A.set i j (x i j)) A) A =
      DenseMatrix.ofFn x := by
  ext i j
  rw [DenseMatrix.entry, foldl_each DenseMatrix.row (fun i _ => Vector.ofFn (x i))
    (fun B k i => row_foldl_set B (x k) k i), get_ofFn, DenseMatrix.entry_ofFn]

variable [Scalar α] (f : Factorization n α)

/-! ## Triangles -/

/-- Copying the lower triangle of `f` is never stopped. -/
theorem lower_stored : f.stored.lower = .ok f.lower.toLists := by
  have hrows : Fin.foldl n (fun L i => L.setRow i
      (Vector.ofFn fun j => if j < i then f.lu.entry i j else (L.row i).get j))
        (DenseMatrix.identity n) = f.lower := by
    ext i j
    rw [DenseMatrix.entry, foldl_each DenseMatrix.row
      (fun i r => Vector.ofFn fun j => if j < i then f.lu.entry i j else r.get j)
      (fun L k i => L.row_setRow k _ i), get_ofFn, Factorization.entry_lower,
      ← DenseMatrix.entry_identity i j]
    rfl
  rw [Factors.lower, Factorization.stored, f.lu.length_toLists, identity_eq, ← hrows,
    range_eq_map_val, Fin.foldl_eq_finRange_foldl]
  exact build_of_ok (run_forM_map DenseMatrix.toLists (fun L i => run_copyLeft f.lu L i) _ _)

/-- Copying the upper triangle of `f` is never stopped. -/
theorem upper_stored : f.stored.upper = .ok f.upper.toLists := by
  have hrows : Fin.foldl n (fun U i => U.setRow i
      (Vector.ofFn fun j => if j < i then (U.row i).get j else f.lu.entry i j))
        (DenseMatrix.zeros n) = f.upper := by
    ext i j
    rw [DenseMatrix.entry, foldl_each DenseMatrix.row
      (fun i r => Vector.ofFn fun j => if j < i then r.get j else f.lu.entry i j)
      (fun U k i => U.row_setRow k _ i), get_ofFn, Factorization.entry_upper]
    by_cases hij : i ≤ j
    · rw [if_neg (not_lt.2 hij), if_pos hij]
    · -- left of the diagonal the zeros are left
      rw [if_pos (not_le.1 hij), if_neg hij]
      exact DenseMatrix.entry_zeros i j
  rw [Factors.upper, Factorization.stored, f.lu.length_toLists, zeros_eq, ← hrows,
    range_eq_map_val, Fin.foldl_eq_finRange_foldl]
  exact build_of_ok (run_forM_map DenseMatrix.toLists (fun U i => run_copyRight f.lu U i) _ _)

/-! ## The product of the triangles -/

/-- On the rows of `L` and `U`, the loop takes up the products up to row `i` and column `j`. -/
theorem productEntry_toLists (L U : DenseMatrix n α) (i j : Fin n) :
    Factors.productEntry L.toLists U.toLists i j =
      .ok (Fin.foldl n
        (fun acc k => if k ≤ i ∧ k ≤ j then acc + L.entry i k * U.entry k j else acc) 0) := by
  -- an index up to the smaller of two is up to both
  have hterms : ((List.finRange n).take (min i.val j + 1)).foldl
      (fun acc k => acc + L.entry i k * U.entry k j) 0 =
        Fin.foldl n
          (fun acc k => if k ≤ i ∧ k ≤ j then acc + L.entry i k * U.entry k j else acc) 0 := by
    rw [foldl_take_finRange]
    refine foldl_guard_congr (fun k => ?_) (fun _ _ _ => rfl) 0
    rw [Nat.lt_succ_iff, le_min_iff]
    rfl
  rw [Factors.productEntry, range_eq_map_take (by omega : min i.val j + 1 ≤ n), ← hterms]
  refine foldlM_map id (fun acc k => ?_) _ _
  rw [entryAt_toLists, entryAt_toLists]
  rfl

/-- Row `i` of the product of the triangles of `f` is written into the rows of `A`. -/
theorem run_writeProducts (A : DenseMatrix n α) (i : Fin n) :
    (Factors.writeProducts f.lower.toLists f.upper.toLists (List.range n) i).run A.toLists =
      .ok () (Fin.foldl n (fun A j => A.set i j (f.reconstruct.entry i j)) A).toLists := by
  have hwrite : ∀ (A : DenseMatrix n α) (j : Fin n), (do
      let x ← check (Factors.productEntry f.lower.toLists f.upper.toLists i j)
      setEntry i j x : InPlace (Rows α) Unit).run A.toLists =
        .ok () (A.set i j (f.reconstruct.entry i j)).toLists := by
    intro A j
    rw [run_check_bind (productEntry_toLists f.lower f.upper i j), run_setEntry_inside,
      Factorization.reconstruct, DenseMatrix.entry_ofFn]
  rw [Factors.writeProducts, range_eq_map_val, Fin.foldl_eq_finRange_foldl]
  exact run_forM_map DenseMatrix.toLists hwrite _ _

/-- The reconstruction of `f` is never stopped. -/
theorem reconstruct_stored : f.stored.reconstruct = .ok f.reconstruct.toLists := by
  have hloop : (forM (List.range n) (Factors.writeProducts f.lower.toLists f.upper.toLists
      (List.range n))).run (zeros n) = .ok () (Fin.foldl n (fun A i => Fin.foldl n
        (fun A j => A.set i j (f.reconstruct.entry i j)) A) (DenseMatrix.zeros n)).toLists := by
    -- only the outer loop is read as one over places
    conv_lhs => arg 1; arg 1; rw [range_eq_map_val]
    rw [zeros_eq, Fin.foldl_eq_finRange_foldl]
    exact run_forM_map DenseMatrix.toLists (fun A i => run_writeProducts f A i) _ _
  have hmatrix : DenseMatrix.ofFn f.reconstruct.entry = f.reconstruct := by
    ext i j
    rw [DenseMatrix.entry_ofFn]
  rw [foldl_foldl_set, hmatrix] at hloop
  rw [Factors.reconstruct, lower_stored, upper_stored, Factorization.stored, f.lu.length_toLists]
  exact build_of_ok hloop

/-! ## The other results -/

theorem permutationMatrix_stored :
    f.stored.permutationMatrix = .ok f.permutationMatrix.toLists :=
  orderMatrix_stored f.order

/-- The inverse of `f` is never stopped. -/
theorem inverse_stored : f.stored.inverse = .ok f.inverse.toLists := by
  have hsizes : Substitution.invertAny f.lu f.order = .ok f.inverse := by
    rw [Substitution.invertAny, Substitution.invertBuffer, dif_pos rfl, dif_pos rfl]
    rfl
  rw [Factors.inverse, Factorization.stored, invert_toLists, hsizes]
  rfl

theorem determinant_stored : f.stored.determinant = .ok f.determinant :=
  determinant_toLists f.lu f.order

/-- A right-hand side `b` is refused for its length, and nothing stops the substitution after. -/
theorem solve_stored (b : List α) : f.stored.solve b = .ok ((f.solve b).map Vector.toList) := by
  rw [Factors.solve, Factorization.solve, Factorization.stored, f.lu.length_toLists,
    validateRightHandSide, if_neg (not_not_intro rfl)]
  by_cases hb : b.length = n
  · have hsizes : Substitution.solveList f.lu f.order b =
        .ok (Substitution.solve f.lu f.order (vectorOfList b hb)) := by
      rw [Substitution.solveList, Substitution.solveBuffer, dif_pos rfl, dif_pos hb,
        dif_pos (List.length_replicate ..)]
      rfl
    rw [if_neg (not_not_intro hb.symm), dif_pos hb]
    dsimp only
    rw [solve_toLists, hsizes]
    rfl
  · rw [if_pos (Ne.symm hb), dif_neg hb]
    rfl

end Stored

end PivotedLU
