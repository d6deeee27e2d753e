import PivotedLU.DenseMatrix.Basic

/-!
# Text of Matrices

Two layouts: a listing with one line for each row, and a one-line form that names the type and
brackets the rows.

## Main definitions

* `DenseMatrix.listing`: entries joined by a blank, every row ended by a line break.
* `DenseMatrix.bracketed`: the one-line form.
-/

namespace PivotedLU

namespace DenseMatrix

variable {F : Format} {n : Nat}

/-- One line for each row of `A`, its entries written with the given number of places, or shortest
if `places?` is `none`. -/
def listing (places? : Option Nat) (A : DenseMatrix n (Binary F)) : String :=
  let write (x : Binary F) : String :=
    match places? with
    | some places => x.fixed places
    | none => x.plain
  String.join (A.toLists.map fun r => " ".intercalate (r.map write) ++ "\n")

/-- The `texts` in brackets, separated by commas. -/
private def inBrackets (texts : List String) : String :=
  "[" ++ ", ".intercalate texts ++ "]"

/-- The one-line form of `A`, in which every entry is recognisable as a float. -/
def bracketed (A : DenseMatrix n (Binary F)) : String :=
  "SquareMatrix \x7b rows: " ++
    inBrackets (A.toLists.map fun r => inBrackets (r.map Binary.literal)) ++ " \x7d"

end DenseMatrix

end PivotedLU
