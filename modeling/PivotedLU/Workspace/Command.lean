import PivotedLU.Factorization.Report

/-!
# Commands and Answers of a Workspace

A workspace holds one matrix and one row order, of any two sizes. A command reads or changes
them; an answer says what came of it. The answer to a command that failed says why, and shows
what it left behind where that is of interest.

## Main definitions

* `Workspace`: the state.
* `Command`: what can be asked.
* `Answer`: what is answered, with `Failure` and `Remains` for a command that failed.
* `Answer.Shows`: what an answer says of a workspace is true of it.
-/

namespace PivotedLU

/-- A matrix and a row order, which need not be of one size. -/
structure Workspace (F : Format) where
  matrix : SizedMatrix (Binary F)
  order : SizedOrder

/-- What can be asked of a workspace. A command that computes a matrix may `keep` it, so that
it replaces the one in the workspace. -/
inductive Command (F : Format) where
  /-- Shape, diagonal and entries. -/
  | describeMatrix
  /-- An entry, if the position is inside the matrix. -/
  | lookUp (row col : Nat)
  /-- An entry at a position that must be inside the matrix. -/
  | readEntry (row col : Nat)
  | writeEntry (row col : Nat) (value : Binary F)
  | readRow (row : Nat)
  | swapRows (i j : Nat)
  | rowAndBelow (row : Nat)
  | transpose (keep : Bool)
  | multiply (right : List (List (Binary F))) (keep : Bool)
  | square (keep : Bool)
  | apply (x : List (Binary F))
  | maxAbsDiff (other : List (List (Binary F)))
  | equals (other : List (List (Binary F)))
  | list (places? : Option Nat)
  | bracket
  | encode
  | loadRows (rows : List (List (Binary F)))
  | loadRowMajor (n : Nat) (data : List (Binary F))
  | loadZeros (n : Nat)
  | loadIdentity (n : Nat)
  | decompose (tolerance : Binary F)
  | determinant
  | solve (b : List (Binary F))
  /-- A solution written into a given buffer. -/
  | solveInto (b x : List (Binary F))
  | invert (keep : Bool)
  /-- An inverse written into a given buffer. -/
  | invertInto (buffer : List (List (Binary F)))
  | report (rightHandSides : List (List (Binary F)))
  | exchange (i j : Nat)
  | loadOrder (flat : List Nat)
  | loadIdentityOrder (n : Nat)
  | describeOrder
  | sign
  | permute (x : List (Binary F))
  | orderMatrix (keep : Bool)
  | orderEquals (flat : List Nat)
  | bracketOrder
  | encodeOrder

/-- Why a command failed. -/
inductive Failure where
  | refused (error : Error)
  | violated (violation : Violation)

/-- What a failed command left behind, where it is shown. -/
inductive Remains (F : Format) where
  | nothing
  | matrix (A : SizedMatrix (Binary F))
  | order (p : SizedOrder)
  | vector (x : List (Binary F))
  | buffer (A : SizedMatrix (Binary F))

/-- What is answered. -/
inductive Answer (F : Format) where
  | matrixInfo (A : SizedMatrix (Binary F))
  | orderInfo (p : SizedOrder)
  | number (x : Binary F)
  | number? (x? : Option (Binary F))
  | vector (x : List (Binary F))
  | matrix (A : SizedMatrix (Binary F))
  | flag (b : Bool)
  | text (s : String)
  | tree (t : Json.Tree (Json.Leaf F))
  | rowAndBelow (row : List (Binary F)) (below : List (List (Binary F)))
  /-- The matrix of the workspace was changed to this one. -/
  | matrixNow (A : SizedMatrix (Binary F))
  /-- The order of the workspace was changed to this one. -/
  | orderNow (p : SizedOrder)
  /-- Both were changed. -/
  | decomposed (A : SizedMatrix (Binary F)) (p : SizedOrder)
  | solution (x : List (Binary F))
  | inverse (A : SizedMatrix (Binary F))
  | report {n : Nat} (r : FactorizationReport n F)
  | failed (why : Failure) (remains : Remains F)

/-- What `answer` says of a workspace is true of `w`: a matrix or an order that it shows as that of
the workspace is the one that `w` holds. -/
def Answer.Shows {F : Format} (answer : Answer F) (w : Workspace F) : Prop :=
  match answer with
  | .matrixInfo A | .matrixNow A | .failed _ (.matrix A) => A = w.matrix
  | .orderInfo p | .orderNow p | .failed _ (.order p) => p = w.order
  | .decomposed A p => A = w.matrix ∧ p = w.order
  | _ => True

end PivotedLU
