import PivotedLU.Proofs.Exact.Basic
import PivotedLU.Proofs.RowOrder.Parity
import PivotedLU.Proofs.Substitution.Columns

/-!
# Permuted Right-Hand Sides

The direction of a row order enters at three places, each with code of its own: a solve starts a
place from the entry of the right-hand side at the source of the place, an inversion starts it from
one if that source is the column, and an order that is applied to a vector gathers from the sources.
All three mean the same. A substitution with an order is the substitution without one for the
permuted right-hand side, and the columns of an inverse are those without an order, moved to the
sources.

## Main results

* `Substitution.solve_identity_permute`: solving for a permuted right-hand side.
* `Substitution.column_source_invert`: where the columns of an inverse are found.
* `Substitution.solve_congr`, `Substitution.invert_congr`: the counter of an order does not matter.
* `Substitution.rightHandSide_permuted`: the same for the operations that check their sizes.
-/

namespace PivotedLU

universe u

variable {α : Type u} {n : Nat}

/-! ## Orders applied to vectors -/

namespace RowOrder

variable {p q : RowOrder n}

/-- What an order does to `b` depends on its sources only, so `p` and `q` do the same. -/
theorem permute_congr (h : ∀ i, q.source i = p.source i) (b : Vector α n) :
    q.permute b = p.permute b := by
  rw [vector_eq_iff]
  intro i
  rw [get_permute, get_permute, h i]

/-- The one at the source of `i` comes to stand at place `i`, and nowhere else: no other place has
this source. -/
theorem permute_unitVector [Zero α] [One α] (p : RowOrder n) (i : Fin n) :
    p.permute (unitVector (p.source i) : Vector α n) = unitVector i := by
  rw [vector_eq_iff]
  intro k
  rw [get_permute, get_unitVector, get_unitVector]
  exact if_congr p.source_injective.eq_iff rfl rfl

end RowOrder

/-! ## Substitution -/

namespace Substitution

variable [Scalar α] (lu : DenseMatrix n α) (p : RowOrder n)

/-- The pass from top to bottom meets the right-hand side `b` at the sources of `p` only. -/
theorem forward_identity_permute (b x : Vector α n) :
    forward lu (RowOrder.identity n) (p.permute b) x = forward lu p b x := by
  refine foldl_congr_step (fun y i => ?_) x
  rw [forwardAt, forwardAt, RowOrder.source_identity, RowOrder.get_permute]

/-- Solving for `b` under `p` is solving without an order for the permuted `b`. -/
theorem solve_identity_permute (b : Vector α n) :
    solve lu (RowOrder.identity n) (p.permute b) = solve lu p b := by
  -- the pass from bottom to top does not look at the right-hand side any more
  rw [solve, solve, solveInto, solveInto, forward_identity_permute]

variable {p} in
/-- Solving for `b` does not look at the counter of `p`. -/
theorem solve_congr {q : RowOrder n} (h : ∀ i, q.source i = p.source i) (b : Vector α n) :
    solve lu q b = solve lu p b := by
  rw [← solve_identity_permute lu q, ← solve_identity_permute lu p, RowOrder.permute_congr h]

/-- The column of an inverse at the source of `i` is column `i` without an order. -/
theorem column_source_invert (i : Fin n) :
    (invert lu p).column (p.source i) = (invert lu (RowOrder.identity n)).column i := by
  rw [column_invert, column_invert, ← solve_identity_permute lu p, RowOrder.permute_unitVector]

variable {p} in
/-- Inverting does not look at the counter of `p`. -/
theorem invert_congr {q : RowOrder n} (h : ∀ i, q.source i = p.source i) :
    invert lu q = invert lu p := by
  refine DenseMatrix.ext_column fun l => ?_
  rw [column_invert, column_invert, solve_congr lu h]

/-- **The order acts on the right-hand side.** In any arithmetic and for any `lu`:

- the solution `x` for `b` under `p` is the solution for the permuted `b` under
  `RowOrder.identity n`, operation by operation;
- the inverse `X` under `p` has, at the source of every place `i`, column `i` of the inverse `Y`
  under `RowOrder.identity n`;
- neither depends on the number of exchanges that `p` has counted. -/
theorem rightHandSide_permuted :
    (∀ b : Vector α n, ∃ c x : Vector α n, p.permuteList b.toList = .ok c ∧
      solveList lu p b.toList = .ok x ∧
      solveList lu (RowOrder.identity n) c.toList = .ok x) ∧
    (∃ X Y : DenseMatrix n α, invertAny lu p = .ok X ∧
      invertAny lu (RowOrder.identity n) = .ok Y ∧
      ∀ i, X.column (p.source i) = Y.column i) ∧
    ∀ k : Nat, let q : RowOrder n := { p with exchanges := k }
      (∀ b : Vector α n, solveList lu q b.toList = solveList lu p b.toList) ∧
        invertAny lu q = invertAny lu p := by
  refine ⟨fun b => ⟨p.permute b, solve lu p b, ?_, solveList_toList lu p b, ?_⟩,
    ⟨invert lu p, invert lu (RowOrder.identity n), invertBuffer_eq_ok lu p _,
      invertBuffer_eq_ok lu _ _, column_source_invert lu p⟩, fun k => ?_⟩
  · exact p.permuteList_toList b
  · rw [solveList_toList, solve_identity_permute]
  · intro q
    have hsources : ∀ i, q.source i = p.source i := fun i => rfl
    refine ⟨fun b => ?_, ?_⟩
    · rw [solveList_toList, solveList_toList, solve_congr lu hsources]
    · rw [invertAny, invertAny, invertBuffer_eq_ok, invertBuffer_eq_ok, invert_congr lu hsources]

-- a cycle of three places, which is not its own inverse: entries are gathered, not scattered
example :
    let p := ((RowOrder.identity 3).exchange 0 1).exchange 1 2
    let b : List Binary64 := [.ofNat 5, .ofNat 6, .ofNat 7]
    p.indices = [1, 2, 0] ∧
      solveList (DenseMatrix.identity 3) p b = .ok #v[.ofNat 6, .ofNat 7, .ofNat 5] := by
  decide +kernel

end Substitution

end PivotedLU
