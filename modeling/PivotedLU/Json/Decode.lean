import PivotedLU.Factorization.Basic
import PivotedLU.Json.Document
import PivotedLU.RowOrder.Flat

/-!
# Matrices, Row Orders and Factorizations from JSON

A matrix is an array of arrays of numbers, a row order is an array of naturals in flat layout,
and a factorization is an object with a matrix `lu` and a row order `permutation`, or an array
of exactly the two.

A tree is decoded from left to right and the first fault is the answer. A value of the wrong
kind is refused where it starts; a matrix, a row order and a factorization are checked when they
are complete.

## Main definitions

* `Json.DecodeError`: the first fault of a tree.
* `Json.Decoder`: how number leaves are read.
* `Json.Decoder.matrix`, `Json.Decoder.rowOrder`, `Json.Decoder.factorization`.
* `Json.decodeText`: a text decoded as one of them.
-/

namespace PivotedLU

namespace Json

universe u

/-- Why a tree or a text is not decoded. -/
inductive DecodeError where
  /-- It is not JSON. -/
  | notJson (reason : Stop)
  /-- A value is of the wrong kind, or a field is missing or repeated. -/
  | wrongShape
  /-- The values have the right kinds, but what they describe is refused. -/
  | refused (error : Error)
deriving DecidableEq

/-- How the number leaves `ν` of a tree are read in a format. -/
structure Decoder (ν : Type u) (F : Format) where
  /-- The leaf as a number. -/
  leaf : ν → Except Stop (Leaf F)

/-- Numbers as they were written. -/
def Decoder.literals (F : Format) : Decoder Literal F := ⟨Literal.read⟩

/-- Numbers that have been read. -/
def Decoder.leaves (F : Format) : Decoder (Leaf F) F := ⟨.ok⟩

/-- A fault in the text is the answer. -/
def liftStop {β : Type u} : Except Stop β → Except DecodeError β
  | .ok x => .ok x
  | .error reason => .error (.notJson reason)

/-- The end of a list of items or fields. -/
def closed : Option Fault → Except DecodeError Unit
  | some fault => .error (.notJson fault.whenRead)
  | none => .ok ()

namespace Decoder

variable {ν : Type u} {F : Format}

/-- The fault of a value where a value of another kind is wanted. A number or a string is read to
its end first, an array or an object is refused where it starts: this is `wrongShape`. -/
def wrongKind (d : Decoder ν F) : Tree ν → DecodeError
  | .cut fault => .notJson fault.whenRead
  | .number x =>
    match d.leaf x with
    | .ok _ => .wrongShape
    | .error reason => .notJson reason
  | .string text =>
    match text.read with
    | .ok _ => .wrongShape
    | .error reason => .notJson reason
  | _ => .wrongShape

/-- A number. -/
def number (d : Decoder ν F) : Tree ν → Except DecodeError (Leaf F)
  | .number x => liftStop (d.leaf x)
  | t => .error (d.wrongKind t)

/-- A float. -/
def float (d : Decoder ν F) (t : Tree ν) : Except DecodeError (Binary F) :=
  (d.number t).map Leaf.value

/-- A natural number. -/
def natural (d : Decoder ν F) (t : Tree ν) : Except DecodeError Nat :=
  (d.number t).bind fun leaf =>
    match leaf.natural? with
    | some n => .ok n
    | none => .error .wrongShape

/-- An array of items, each decoded by `item`. -/
def list {β : Type} (d : Decoder ν F) (item : Tree ν → Except DecodeError β) :
    Tree ν → Except DecodeError (List β)
  | .array items cut? => do
    let xs ← items.mapM item
    closed cut?
    .ok xs
  | t => .error (d.wrongKind t)

/-- A matrix. -/
def matrix (d : Decoder ν F) (t : Tree ν) : Except DecodeError (SizedMatrix (Binary F)) := do
  let rows ← d.list (d.list d.float) t
  (DenseMatrix.ofRowsSized rows).mapError fun fault => .refused (.dimensions fault)

/-- A row order. -/
def rowOrder (d : Decoder ν F) (t : Tree ν) : Except DecodeError SizedOrder := do
  let flat ← d.list d.natural t
  (RowOrder.ofFlat flat).mapError fun fault => .refused (.permutation fault)

/-- A matrix `A` and a row order `p`, which must agree in size. -/
def paired (A : SizedMatrix (Binary F)) (p : SizedOrder) :
    Except DecodeError (SizedFactorization (Binary F)) :=
  (Factorization.ofPartsSized A p).mapError fun fault => .refused (.dimensions fault)

/-- What has been found of a factorization. -/
structure Found (F : Format) where
  lu? : Option (SizedMatrix (Binary F))
  order? : Option SizedOrder

/-- One `entry`. A field that is known may not be repeated; its value is not looked at then. A field
that is not known is passed over. -/
def field (d : Decoder ν F) (found : Found F) (entry : Text × Tree ν) :
    Except DecodeError (Found F) := do
  let name ← liftStop entry.1.read
  if name = "lu" then
    if found.lu?.isSome then .error .wrongShape
    else
      let A ← d.matrix entry.2
      .ok { found with lu? := some A }
  else if name = "permutation" then
    if found.order?.isSome then .error .wrongShape
    else
      let p ← d.rowOrder entry.2
      .ok { found with order? := some p }
  else
    liftStop entry.2.skip
    .ok found

/-- A factorization. In the array form an item behind the two is malformed, whatever it is; the
sizes are compared at the end. -/
def factorization (d : Decoder ν F) :
    Tree ν → Except DecodeError (SizedFactorization (Binary F))
  | .object fields cut? => do
    let found ← fields.foldlM d.field ⟨none, none⟩
    closed cut?
    match found.lu?, found.order? with
    | some A, some p => paired A p
    | _, _ => .error .wrongShape
  | .array [] cut? => do
    closed cut?
    .error .wrongShape
  | .array (first :: rest) cut? => do
    let A ← d.matrix first
    match rest with
    | [] =>
      closed cut?
      .error .wrongShape
    | second :: rest =>
      let p ← d.rowOrder second
      match rest with
      | [] =>
        closed cut?
        paired A p
      | _ :: _ => .error (.notJson .malformed)
  | t => .error (d.wrongKind t)

end Decoder

/-- A `text` decoded by `decode`. What follows the value is looked at last. -/
def decodeText {β : Type} (decode : Tree Literal → Except DecodeError β) (text : String) :
    Except DecodeError β := do
  let document := Document.ofString text
  let x ← decode document.value
  if document.trailing then .error (.notJson .malformed) else .ok x

end Json

end PivotedLU
