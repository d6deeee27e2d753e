import PivotedLU.RowOrder.Basic

/-!
# Solving by Substitution

A combined matrix holds a unit lower triangle below its diagonal and an upper triangle on and
above it. A system with the permuted product of the two is solved in one buffer: first from top
to bottom with the lower triangle, then from bottom to top with the upper one. Nothing is
assumed of the numbers; a zero on the diagonal is divided by.

The buffer may hold anything before. Every entry is written before it is read.

## Main definitions

* `Substitution.subtractTerms`: a value less the products of matching entries at some indices.
* `Substitution.forward`, `Substitution.backward`: the two passes, place by place.
* `Substitution.solveInto`, `Substitution.solve`: the solution, in a given buffer or a new one.
* `Substitution.solveBuffer`, `Substitution.solveList`: the same for buffers of any lengths.
  The sizes are checked, in a fixed order, before anything is written.
-/

namespace PivotedLU

universe u

namespace Substitution

variable {α : Type u} [Scalar α] {n m : Nat}

/-- The start value, less the products of the entries of `r` and `x` at the indices that are
selected, subtracted one by one by ascending index. -/
def subtractTerms (selected : Fin n → Bool) (r x : Vector α n) (start : α) : α :=
  Fin.foldl n (fun acc k => if selected k then acc - r.get k * x.get k else acc) start

/-- The buffer after place `i` has been solved with the unit lower triangle. -/
def forwardAt (lu : DenseMatrix n α) (p : RowOrder n) (b x : Vector α n) (i : Fin n) :
    Vector α n :=
  x.set i (subtractTerms (fun k => k < i) (lu.row i) x (b.get (p.source i))) i.isLt

/-- The buffer `x` after the first pass over the places from top to bottom. -/
def forward (lu : DenseMatrix n α) (p : RowOrder n) (b x : Vector α n) : Vector α n :=
  Fin.foldl n (forwardAt lu p b) x

/-- The buffer after place `i` has been solved with the upper triangle. -/
def backwardAt (lu : DenseMatrix n α) (x : Vector α n) (i : Fin n) : Vector α n :=
  x.set i (subtractTerms (fun k => i < k) (lu.row i) x (x.get i) / lu.entry i i) i.isLt

/-- The buffer `x` after the second pass over the places from bottom to top. -/
def backward (lu : DenseMatrix n α) (x : Vector α n) : Vector α n :=
  Fin.foldl n (fun x k => backwardAt lu x k.rev) x

/-- The solution, written into the buffer `x`. -/
def solveInto (lu : DenseMatrix n α) (p : RowOrder n) (b x : Vector α n) : Vector α n :=
  backward lu (forward lu p b x)

/-- The solution for `b` in a new buffer. -/
def solve (lu : DenseMatrix n α) (p : RowOrder n) (b : Vector α n) : Vector α n :=
  solveInto lu p b (Vector.replicate n 0)

/-- The solution for an order `p`, a right-hand side `b` and a buffer `x` of any lengths. The first
length that is not that of `lu` is the violation. -/
def solveBuffer (lu : DenseMatrix n α) (p : RowOrder m) (b x : List α) :
    Except Violation (Vector α n) :=
  if hp : m = n then
    if hb : b.length = n then
      if hx : x.length = n then
        .ok (solveInto lu (hp ▸ p) (vectorOfList b hb) (vectorOfList x hx))
      else .error .solutionLength
    else .error .rightHandSideLength
  else .error .orderLength

/-- The solution for an order `p` and a right-hand side `b` of any lengths, in a new buffer. -/
def solveList (lu : DenseMatrix n α) (p : RowOrder m) (b : List α) :
    Except Violation (Vector α n) :=
  solveBuffer lu p b (List.replicate n 0)

end Substitution

end PivotedLU
