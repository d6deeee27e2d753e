import PivotedLU.Determinant
import PivotedLU.Proofs.Stored.Order
import PivotedLU.Substitution.Invert
import PivotedLU.Substitution.Solve

/-!
# Substitution in Stored Rows

Solving and inverting in place, written with checked accesses. The sizes are asserted first, before
anything is written; after that every access lies inside, because the rows are as long as there are
rows and the indices of the order are positions of the right-hand side.

## Main definitions

* `Stored.solveInto`, `Stored.solve`: the solution, in a given buffer or a new one.
* `Stored.invertInto`, `Stored.invert`: the inverse, in a given buffer or a new one.
* `Stored.determinant`: the determinant from a combined matrix.

## Main results

* `Stored.run_solveInto`, `Stored.run_invertInto`: a wrong size stops them before they write, and
  nothing else stops them.
* `Stored.solve_toLists`, `Stored.invert_toLists`, `Stored.determinant_toLists`.
-/

namespace PivotedLU

namespace Stored

open InPlace

variable {α β : Type} [Scalar α] {n m l : Nat}

/-! ## Solving -/

/-- The value `start`, less the products of the elements of `us` and `xs` that stand beside each
other, subtracted one by one. -/
def subtractZip (start : α) (us xs : List α) : α :=
  (us.zip xs).foldl (fun acc t => acc - t.1 * t.2) start

/-- Place `i` is solved with the unit lower triangle. -/
def forwardStep (lu : Rows α) (p : Order) (b : List α) (i : Nat) : InPlace (List α) Unit := do
  let solved ← check (firstOf (← get) i)
  let ls ← check (do firstOf (← readAt lu i) i)
  let start ← check (do readAt b (← readAt p.indices i))
  onRest i (atPosition 0 (set (subtractZip start ls solved)))

/-- Place `i` is solved with the upper triangle. -/
def backwardStep (lu : Rows α) (i : Nat) : InPlace (List α) Unit := do
  let row ← check (readAt lu i)
  let x ← get
  let head ← check (firstOf x (i + 1))
  let solved ← check (restOf x (i + 1))
  let us ← check (restOf row (i + 1))
  let start ← check (readAt head i)
  let pivot ← check (readAt row i)
  onFirst (i + 1) (atPosition i (set (subtractZip start us solved / pivot)))

/-- The solution for `b`, written into the buffer. -/
def solveInto (lu : Rows α) (p : Order) (b : List α) : InPlace (List α) Unit := do
  ensure (p.indices.length = lu.length) .orderLength
  ensure (b.length = lu.length) .rightHandSideLength
  ensure ((← get).length = lu.length) .solutionLength
  forM (List.range lu.length) (forwardStep lu p b)
  forM (List.range lu.length).reverse (backwardStep lu)

/-- The solution for `b` in a new buffer. -/
def solve (lu : Rows α) (p : Order) (b : List α) : Except Violation (List α) :=
  build (solveInto lu p b) (List.replicate lu.length 0)

/-! ## Inverting -/

/-- The start value, less the products of entries of row `i` and column `j` at the given positions,
subtracted one by one. -/
def subtractEntries (lu X : Rows α) (i j : Nat) (ks : List Nat) (start : α) : Except Violation α :=
  ks.foldlM (fun acc k => do return acc - (← entryAt lu i k) * (← entryAt X k j)) start

/-- Entry `(i, j)` is solved with the unit lower triangle. -/
def invertForwardStep (lu : Rows α) (p : Order) (j i : Nat) : InPlace (Rows α) Unit := do
  let source ← check (readAt p.indices i)
  let start : α := if source = j then 1 else 0
  let solved ← check (subtractEntries lu (← get) i j (List.range i) start)
  setEntry i j solved

/-- Entry `(i, j)` is solved with the upper triangle. -/
def invertBackwardStep (lu : Rows α) (j i : Nat) : InPlace (Rows α) Unit := do
  let X ← get
  let start ← check (entryAt X i j)
  let solved ← check (subtractEntries lu X i j (List.range' (i + 1) (lu.length - (i + 1))) start)
  let pivot ← check (entryAt lu i i)
  setEntry i j (solved / pivot)

/-- Column `j` is solved, downwards and then upwards. -/
def invertColumn (lu : Rows α) (p : Order) (j : Nat) : InPlace (Rows α) Unit := do
  forM (List.range lu.length) (invertForwardStep lu p j)
  forM (List.range lu.length).reverse (invertBackwardStep lu j)

/-- The inverse from `lu` and `p`, written into the buffer. -/
def invertInto (lu : Rows α) (p : Order) : InPlace (Rows α) Unit := do
  ensure (p.indices.length = lu.length) .orderLength
  ensure ((← get).length = lu.length) .inverseDimension
  forM (List.range lu.length) (invertColumn lu p)

/-- The inverse in a new buffer. -/
def invert (lu : Rows α) (p : Order) : Except Violation (Rows α) :=
  build (invertInto lu p) (zeros lu.length)

/-! ## Determinants -/

/-- The product of the diagonal of `lu`, negated if the counter of `p` is odd. -/
def determinant (lu : Rows α) (p : Order) : Except Violation α := do
  let product ← lu.zipIdx.foldlM (fun acc row => do return acc * (← readAt row.1 row.2)) 1
  return if p.exchanges % 2 == 1 then -product else product

/-! ## Sizes -/

omit [Scalar α] in
/-- The comparison of the length of the indices of `p` with the number of rows is one of sizes. -/
theorem length_indices_eq_iff (lu : DenseMatrix n α) (p : RowOrder m) :
    p.stored.indices.length = lu.toLists.length ↔ m = n := by
  rw [length_indices_stored, lu.length_toLists]

omit [Scalar α] in
theorem length_eq_iff (lu : DenseMatrix n α) (xs : List β) :
    xs.length = lu.toLists.length ↔ xs.length = n := by
  rw [lu.length_toLists]

/-! ## Solving with dense matrices -/

section Solve

variable (lu : DenseMatrix n α) (p : RowOrder n)

/-- The terms of the places of `r` before `i`. -/
theorem subtractZip_take (r x : Vector α n) (start : α) (i : Fin n) :
    subtractZip start (r.toList.take i) (x.toList.take i) =
      Substitution.subtractTerms (fun k => k < i) r x start := by
  have hzip : (r.toList.take i).zip (x.toList.take i) =
      ((List.finRange n).take i).map fun k => (r.get k, x.get k) := by
    rw [toList_eq_map r, toList_eq_map x, ← List.map_take, ← List.map_take, List.zip_map']
  rw [subtractZip, hzip, List.foldl_map, foldl_take_finRange, Substitution.subtractTerms]
  exact foldl_guard_congr (fun k => decide_eq_true_iff.symm) (fun _ _ _ => rfl) start

/-- The terms of the places of `r` behind `i`. -/
theorem subtractZip_drop (r x : Vector α n) (start : α) (i : Fin n) :
    subtractZip start (r.toList.drop (i + 1)) (x.toList.drop (i + 1)) =
      Substitution.subtractTerms (fun k => i < k) r x start := by
  have hzip : (r.toList.drop (i + 1)).zip (x.toList.drop (i + 1)) =
      ((List.finRange n).drop (i + 1)).map fun k => (r.get k, x.get k) := by
    rw [toList_eq_map r, toList_eq_map x, ← List.map_drop, ← List.map_drop, List.zip_map']
  rw [subtractZip, hzip, List.foldl_map, foldl_drop_finRange, Substitution.subtractTerms]
  exact foldl_guard_congr (fun k => decide_eq_true_iff.symm) (fun _ _ _ => rfl) start

/-- Place `i` of the pass from top to bottom, on the list of `x`. -/
theorem run_forwardStep (b x : Vector α n) (i : Fin n) :
    (forwardStep lu.toLists p.stored b.toList i).run x.toList =
      .ok () (Substitution.forwardAt lu p b x i).toList := by
  have hle : ∀ v : Vector α n, i.val ≤ v.toList.length := by
    intro v
    simp
  have hrow : (do firstOf (← readAt lu.toLists i) i : Except Violation (List α)) =
      .ok ((lu.row i).toList.take i) := by
    rw [readAt_toLists]
    exact firstOf_of_le (hle _)
  -- the index of a place is a position of the right-hand side
  have hstart : (do readAt b.toList (← readAt p.stored.indices i) : Except Violation α) =
      .ok (b.get (p.source i)) := by
    rw [readAt_indices_stored]
    exact readAt_toList b (p.source i)
  rw [forwardStep, run_get_bind, run_check_bind (firstOf_of_le (hle x)), run_check_bind hrow,
    run_check_bind hstart, run_onRest_atPosition (hle x), Nat.add_zero, run_atPosition_set,
    subtractZip_take]
  rfl

/-- Place `i` of the pass from bottom to top, on the list of `x`. -/
theorem run_backwardStep (x : Vector α n) (i : Fin n) :
    (backwardStep lu.toLists i).run x.toList =
      .ok () (Substitution.backwardAt lu x i).toList := by
  have hle : ∀ v : Vector α n, i.val + 1 ≤ v.toList.length := by
    intro v
    simp
  have hstart : readAt (x.toList.take (i + 1)) i = .ok (x.get i) := by
    rw [readAt, List.getElem?_take_of_lt (Nat.lt_succ_self _)]
    exact readAt_toList x i
  rw [backwardStep, run_check_bind (readAt_toLists lu i), run_get_bind,
    run_check_bind (firstOf_of_le (hle x)), run_check_bind (restOf_of_le (hle x)),
    run_check_bind (restOf_of_le (hle _)), run_check_bind hstart,
    run_check_bind (readAt_toList _ i), run_onFirst_atPosition (hle x) (Nat.lt_succ_self _),
    run_atPosition_set, subtractZip_drop]
  rfl

/-- The two passes over a buffer `x` of the right size. -/
theorem run_solveInto_inside (b x : Vector α n) :
    (solveInto lu.toLists p.stored b.toList).run x.toList =
      .ok () (Substitution.solveInto lu p b x).toList := by
  have hforward : (forM (List.range n) (forwardStep lu.toLists p.stored b.toList)).run x.toList =
      .ok () (Substitution.forward lu p b x).toList := by
    rw [range_eq_map_val, Substitution.forward, Fin.foldl_eq_finRange_foldl]
    exact run_forM_map Vector.toList (fun x i => run_forwardStep lu p b x i) _ _
  have hbackward : ∀ y : Vector α n, (forM (List.range n).reverse (backwardStep lu.toLists)).run
      y.toList = .ok () (Substitution.backward lu y).toList := by
    intro y
    rw [reverse_range_eq_map_val, Substitution.backward, Fin.foldl_eq_finRange_foldl, List.map_map]
    exact run_forM_map Vector.toList (fun x i => run_backwardStep lu x i.rev) _ _
  rw [solveInto, run_ensure_bind ((length_indices_eq_iff lu p).2 rfl),
    run_ensure_bind ((length_eq_iff lu _).2 b.length_toList), run_get_bind,
    run_ensure_bind ((length_eq_iff lu _).2 x.length_toList), lu.length_toLists,
    run_bind_of_ok hforward, hbackward]
  rfl

/-- **Solving in place.** The first size that does not fit stops it before anything is written into
`x`, and no access stops it later. -/
theorem run_solveInto (p : RowOrder m) (b x : List α) :
    (solveInto lu.toLists p.stored b).run x =
      settled Vector.toList x (Substitution.solveBuffer lu p b x) := by
  unfold Substitution.solveBuffer
  by_cases hp : m = n
  · subst hp
    have horder := (length_indices_eq_iff lu p).2 rfl
    by_cases hb : b.length = m
    · by_cases hx : x.length = m
      · have hrun := run_solveInto_inside lu p (vectorOfList b hb) (vectorOfList x hx)
        rw [toList_vectorOfList, toList_vectorOfList] at hrun
        rw [dif_pos rfl, dif_pos hb, dif_pos hx]
        exact hrun
      · -- the buffer is looked at last
        rw [dif_pos rfl, dif_pos hb, dif_neg hx, solveInto, run_ensure_bind horder,
          run_ensure_bind ((length_eq_iff lu b).2 hb), run_get_bind]
        exact run_ensure_bind_of_not (mt (length_eq_iff lu x).1 hx) _ _
    · rw [dif_pos rfl, dif_neg hb, solveInto, run_ensure_bind horder]
      exact run_ensure_bind_of_not (mt (length_eq_iff lu b).1 hb) _ _
  · -- the order is looked at first
    rw [dif_neg hp, solveInto]
    exact run_ensure_bind_of_not (mt (length_indices_eq_iff lu p).1 hp) _ _

theorem solve_toLists (p : RowOrder m) (b : List α) :
    solve lu.toLists p.stored b = (Substitution.solveList lu p b).map Vector.toList := by
  rw [solve, lu.length_toLists]
  exact build_of_settled (run_solveInto lu p b _)

end Solve

/-! ## Inverting dense matrices -/

section Invert

variable (lu : DenseMatrix n α) (p : RowOrder n) (X : DenseMatrix n α)

/-- Terms at the positions `ks`, each inside. -/
theorem subtractEntries_map (i j : Fin n) (ks : List (Fin n)) (start : α) :
    subtractEntries lu.toLists X.toLists i j (ks.map Fin.val) start =
      .ok (ks.foldl (fun acc k => acc - lu.entry i k * X.entry k j) start) := by
  refine foldlM_map id (fun acc k => ?_) ks start
  rw [entryAt_toLists, entryAt_toLists]
  rfl

/-- Terms at the positions before `i`. -/
theorem subtractEntries_below (i j : Fin n) (start : α) :
    subtractEntries lu.toLists X.toLists i j (List.range i) start =
      .ok (Fin.foldl n
        (fun acc k => if k < i then acc - lu.entry i k * X.entry k j else acc) start) := by
  rw [range_eq_map_take i.isLt.le, subtractEntries_map, foldl_take_finRange]
  rfl

/-- Terms at the positions behind `i`. -/
theorem subtractEntries_above (i j : Fin n) (start : α) :
    subtractEntries lu.toLists X.toLists i j (List.range' (i + 1) (n - (i + 1))) start =
      .ok (Fin.foldl n
        (fun acc k => if i < k then acc - lu.entry i k * X.entry k j else acc) start) := by
  rw [range'_eq_map_drop, subtractEntries_map, foldl_drop_finRange]
  rfl

/-- Place `(i, j)` of the pass from top to bottom, on the rows of `X`. -/
theorem run_invertForwardStep (j i : Fin n) :
    (invertForwardStep lu.toLists p.stored j i).run X.toLists =
      .ok () (Substitution.invertForwardAt lu p j X i).toLists := by
  have hstart : (if (p.source i).val = j.val then 1 else 0 : α) =
      if p.source i = j then 1 else 0 := by
    simp only [Fin.ext_iff]
  rw [invertForwardStep, run_check_bind (readAt_indices_stored p i), run_get_bind,
    run_check_bind (subtractEntries_below lu X i j _), run_setEntry_inside, hstart]
  rfl

/-- Place `(i, j)` of the pass from bottom to top, on the rows of `X`. -/
theorem run_invertBackwardStep (j i : Fin n) :
    (invertBackwardStep lu.toLists j i).run X.toLists =
      .ok () (Substitution.invertBackwardAt lu j X i).toLists := by
  rw [invertBackwardStep, run_get_bind, run_check_bind (entryAt_toLists X i j), lu.length_toLists,
    run_check_bind (subtractEntries_above lu X i j _), run_check_bind (entryAt_toLists lu i i),
    run_setEntry_inside]
  rfl

/-- The two passes over column `j` of `X`. -/
theorem run_invertColumn (j : Fin n) :
    (invertColumn lu.toLists p.stored j).run X.toLists =
      .ok () (Substitution.invertColumn lu p X j).toLists := by
  have hforward : (forM (List.range n) (invertForwardStep lu.toLists p.stored j)).run X.toLists =
      .ok () (Fin.foldl n (Substitution.invertForwardAt lu p j) X).toLists := by
    rw [range_eq_map_val, Fin.foldl_eq_finRange_foldl]
    exact run_forM_map DenseMatrix.toLists (fun X i => run_invertForwardStep lu p X j i) _ _
  have hbackward : ∀ Y : DenseMatrix n α,
      (forM (List.range n).reverse (invertBackwardStep lu.toLists j)).run Y.toLists =
        .ok () (Fin.foldl n (fun X k => Substitution.invertBackwardAt lu j X k.rev) Y).toLists := by
    intro Y
    rw [reverse_range_eq_map_val, Fin.foldl_eq_finRange_foldl, List.map_map]
    exact run_forM_map DenseMatrix.toLists (fun X i => run_invertBackwardStep lu X j i.rev) _ _
  rw [invertColumn, lu.length_toLists, run_bind_of_ok hforward, hbackward]
  rfl

/-- The passes over all columns of a buffer `X` of the right size. -/
theorem run_invertInto_inside :
    (invertInto lu.toLists p.stored).run X.toLists =
      .ok () (Substitution.invertInto lu p X).toLists := by
  rw [invertInto, run_ensure_bind ((length_indices_eq_iff lu p).2 rfl), run_get_bind,
    run_ensure_bind ((length_eq_iff lu _).2 X.length_toLists), lu.length_toLists, range_eq_map_val,
    Substitution.invertInto, Fin.foldl_eq_finRange_foldl]
  exact run_forM_map DenseMatrix.toLists (fun X j => run_invertColumn lu p X j) _ _

/-- **Inverting in place.** A size that does not fit stops it before anything is written into `X`,
and no access stops it later. -/
theorem run_invertInto (p : RowOrder m) (X : DenseMatrix l α) :
    (invertInto lu.toLists p.stored).run X.toLists =
      settled DenseMatrix.toLists X.toLists (Substitution.invertBuffer lu p X) := by
  unfold Substitution.invertBuffer
  by_cases hp : m = n
  · subst hp
    by_cases hX : l = m
    · subst hX
      rw [dif_pos rfl, dif_pos rfl, run_invertInto_inside]
      rfl
    · rw [dif_pos rfl, dif_neg hX, invertInto,
        run_ensure_bind ((length_indices_eq_iff lu p).2 rfl), run_get_bind]
      refine run_ensure_bind_of_not (fun h => hX ?_) _ _
      rwa [X.length_toLists, lu.length_toLists] at h
  · rw [dif_neg hp, invertInto]
    exact run_ensure_bind_of_not (mt (length_indices_eq_iff lu p).1 hp) _ _

theorem invert_toLists (p : RowOrder m) :
    invert lu.toLists p.stored = (Substitution.invertAny lu p).map DenseMatrix.toLists := by
  rw [invert, lu.length_toLists, zeros_eq]
  exact build_of_settled (run_invertInto lu p _)

/-- The determinant from the lists of `lu` and `p` is never stopped. -/
theorem determinant_toLists :
    determinant lu.toLists p.stored = .ok (PivotedLU.determinant lu p) := by
  have hproduct : lu.toLists.zipIdx.foldlM
      (fun acc row => do return acc * (← readAt row.1 row.2)) (1 : α) =
        Except.ok (ε := Violation) (Fin.foldl n (fun acc i => acc * lu.entry i i) 1) := by
    rw [lu.toLists_eq_map, zipIdx_map_finRange, Fin.foldl_eq_finRange_foldl]
    refine foldlM_map id (fun acc i => ?_) _ _
    rw [readAt_toList]
    rfl
  rw [determinant, hproduct]
  rfl

end Invert

end Stored

end PivotedLU
