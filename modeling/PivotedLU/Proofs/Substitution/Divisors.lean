import PivotedLU.Proofs.Fold
import PivotedLU.Substitution.Invert
import PivotedLU.Substitution.Solve

/-!
# What Substitutions Divide By

A solve and an inversion divide by the diagonal entries of the combined matrix and by nothing else.
This is stated without a trace of the divisions: the results stay the same under any other division
that agrees with the given one for these divisors, so whatever a quotient by another element would
be, it is never asked for.

## Main definitions

* `Scalar.withDivision`: the arithmetic with another division.

## Main results

* `solve_withDivision`, `invert_withDivision`: only quotients by diagonal entries matter.
-/

namespace PivotedLU

universe u

variable {α : Type u} [Scalar α] {n : Nat}

/-- The arithmetic with `divide` for its division. -/
@[reducible]
def Scalar.withDivision (divide : α → α → α) : Scalar α :=
  { (inferInstance : Scalar α) with div := divide }

namespace Substitution

variable {lu : DenseMatrix n α} {divide : α → α → α}

/-- The pass from bottom to top divides by diagonal entries of `lu` only. -/
theorem backward_withDivision (h : ∀ i x, divide x (lu.entry i i) = x / lu.entry i i)
    (x : Vector α n) : @backward α (Scalar.withDivision divide) n lu x = backward lu x := by
  refine foldl_congr_step (fun x k => ?_) x
  exact congrArg (fun y => x.set k.rev y k.rev.isLt) (h k.rev _)

/-- A solve divides by diagonal entries of `lu` only, so it does not matter what `divide` does
elsewhere. -/
theorem solve_withDivision (h : ∀ i x, divide x (lu.entry i i) = x / lu.entry i i)
    (p : RowOrder n) (b : Vector α n) :
    @solve α (Scalar.withDivision divide) n lu p b = solve lu p b :=
  -- the pass from top to bottom does not divide at all
  backward_withDivision h (forward lu p b (Vector.replicate n 0))

theorem invertColumn_withDivision (h : ∀ i x, divide x (lu.entry i i) = x / lu.entry i i)
    (p : RowOrder n) (X : DenseMatrix n α) (j : Fin n) :
    @invertColumn α (Scalar.withDivision divide) n lu p X j = invertColumn lu p X j := by
  refine foldl_congr_step (fun X k => ?_) (Fin.foldl n (invertForwardAt lu p j) X)
  exact congrArg (X.set k.rev j) (h k.rev _)

/-- An inversion divides by diagonal entries of `lu` only, so it does not matter what `divide` does
elsewhere. -/
theorem invert_withDivision (h : ∀ i x, divide x (lu.entry i i) = x / lu.entry i i)
    (p : RowOrder n) : @invert α (Scalar.withDivision divide) n lu p = invert lu p :=
  foldl_congr_step (fun X j => invertColumn_withDivision h p X j) (DenseMatrix.zeros n)

end Substitution

end PivotedLU
