import PivotedLU.DenseMatrix.Text
import PivotedLU.Factorization.Settings
import PivotedLU.Workspace.Command

/-!
# Running Commands

Every command gives an answer and a workspace. A command that fails leaves the workspace as it
is, with one exception: a decomposition that breaks down leaves the matrix as far as it came.

## Main definitions

* `Workspace.run`: one command.
* `Workspace.runAll`: a list of commands, each on the workspace that the one before left.

## Main results

* `Workspace.shows_run`: the answer to a command shows the workspace that the command leaves.
* `Workspace.run_of_failed`: what a command that failed leaves.
-/

namespace PivotedLU

namespace Workspace

variable {F : Format}

/-- The computed matrix `A` is the answer, and replaces that of `w` if this is to `keep` it. -/
private def computed (w : Workspace F) (keep : Bool) (A : SizedMatrix (Binary F)) :
    Answer F × Workspace F :=
  (.matrix A, if keep then { w with matrix := A } else w)

/-- The matrix of `w` is replaced by `A`. -/
private def load (w : Workspace F) (A : SizedMatrix (Binary F)) : Answer F × Workspace F :=
  (.matrixNow A, { w with matrix := A })

/-- A refusal for sizes that do not fit. -/
private def misfit (fault : DimensionFault) : Answer F :=
  .failed (.refused (.dimensions fault)) .nothing

/-- A change of the matrix of `w`, or the violation together with the matrix as it is. -/
private def changed (w : Workspace F) {n : Nat} :
    Except Violation (DenseMatrix n (Binary F)) → Answer F × Workspace F
  | .ok A => w.load ⟨n, A⟩
  | .error v => (.failed (.violated v) (.matrix w.matrix), w)

/-- An `answer` that only reads, or the violation. -/
private def answered {β : Type} (answer : β → Answer F) : Except Violation β → Answer F
  | .ok x => answer x
  | .error v => .failed (.violated v) .nothing

/-- An `answer` that only reads, or the refusal. -/
private def unlessMisfit {β : Type} (answer : β → Answer F) : Except DimensionFault β → Answer F
  | .ok x => answer x
  | .error fault => misfit fault

/-- An `answer` that needs another matrix with the given `rows`, or their refusal. -/
private def withRows (rows : List (List (Binary F)))
    (answer : SizedMatrix (Binary F) → Answer F) : Answer F :=
  unlessMisfit answer (DenseMatrix.ofRowsSized rows)

/-- One `command` on `w`: the answer, and the workspace that it leaves. -/
def run (w : Workspace F) (command : Command F) : Answer F × Workspace F :=
  let n := w.matrix.1
  let A := w.matrix.2
  let p := w.order.2
  match command with
  | .describeMatrix => (.matrixInfo w.matrix, w)
  | .lookUp i j => (.number? (A.entry? i j), w)
  | .readEntry i j => (answered .number (A.entryAt i j), w)
  | .writeEntry i j x => w.changed (A.setAt i j x)
  | .readRow i => (answered (fun r => .vector r.toList) (A.rowAt i), w)
  | .swapRows i j => w.changed (A.swapRowsAt i j)
  | .rowAndBelow i =>
    (answered (fun (r, below) => .rowAndBelow r.toList (below.map Vector.toList))
      (A.rowAndBelow i), w)
  | .transpose keep => w.computed keep ⟨n, A.transpose⟩
  | .multiply right keep =>
    match DenseMatrix.ofRowsSized right with
    | .error fault => (misfit fault, w)
    | .ok B =>
      match A.multiply B.2 with
      | .error fault => (misfit fault, w)
      | .ok C => w.computed keep ⟨n, C⟩
  | .square keep => w.computed keep ⟨n, A.mul A⟩
  | .apply x => (unlessMisfit (fun y => .vector y.toList) (A.apply x), w)
  | .maxAbsDiff other => (withRows other fun B => .number? (A.maxAbsDiff? B.2), w)
  | .equals other => (withRows other fun B => .flag (A.sameBy Binary.equals B.2), w)
  | .list places? => (.text (A.listing places?), w)
  | .bracket => (.text A.bracketed, w)
  | .encode => (.tree (Json.ofMatrix A), w)
  | .loadRows rows =>
    match DenseMatrix.ofRowsSized rows with
    | .ok B => w.load B
    | .error fault => (misfit fault, w)
  | .loadRowMajor k data =>
    match DenseMatrix.ofRowMajor k data with
    | .ok B => w.load ⟨k, B⟩
    | .error fault => (misfit fault, w)
  | .loadZeros k => w.load ⟨k, DenseMatrix.zeros k⟩
  | .loadIdentity k => w.load ⟨k, DenseMatrix.identity k⟩
  | .decompose tolerance =>
    let r := Elimination.decompose tolerance A
    let left : SizedMatrix (Binary F) := ⟨n, r.matrix⟩
    match r.outcome with
    | .ok q => (.decomposed left ⟨n, q⟩, ⟨left, ⟨n, q⟩⟩)
    | .error b =>
      (.failed (.refused (Error.ofBreakdown b)) (.matrix left), { w with matrix := left })
  | .determinant => (.number (PivotedLU.determinant A p), w)
  | .solve b => (answered (fun x => .vector x.toList) (Substitution.solveList A p b), w)
  | .solveInto b x =>
    match Substitution.solveBuffer A p b x with
    | .ok y => (.solution y.toList, w)
    | .error v => (.failed (.violated v) (.vector x), w)
  | .invert keep =>
    match Substitution.invertAny A p with
    | .ok B => w.computed keep ⟨n, B⟩
    | .error v => (.failed (.violated v) .nothing, w)
  | .invertInto buffer =>
    (withRows buffer fun X =>
      match Substitution.invertBuffer A p X.2 with
      | .ok B => .inverse ⟨n, B⟩
      | .error v => .failed (.violated v) (.buffer X), w)
  | .report rightHandSides =>
    (unlessMisfit (fun f => .report (f.report rightHandSides)) (Factorization.ofParts A p), w)
  | .exchange i j =>
    match p.exchangeAt i j with
    | .ok q => (.orderNow ⟨w.order.1, q⟩, { w with order := ⟨w.order.1, q⟩ })
    | .error v => (.failed (.violated v) (.order w.order), w)
  | .loadOrder flat =>
    match RowOrder.ofFlat flat with
    | .ok q => (.orderInfo q, { w with order := q })
    | .error fault => (.failed (.refused (.permutation fault)) .nothing, w)
  | .loadIdentityOrder k =>
    let q : SizedOrder := ⟨k, RowOrder.identity k⟩
    (.orderInfo q, { w with order := q })
  | .describeOrder => (.orderInfo w.order, w)
  | .sign => (.number p.sign, w)
  | .permute x => (unlessMisfit (fun y => .vector y.toList) (p.permuteList x), w)
  | .orderMatrix keep => w.computed keep ⟨w.order.1, p.toMatrix⟩
  | .orderEquals flat =>
    match RowOrder.ofFlat flat with
    | .ok q => (.flag (p.same q.2), w)
    | .error fault => (.failed (.refused (.permutation fault)) .nothing, w)
  | .bracketOrder => (.text p.bracketed, w)
  | .encodeOrder => (.tree (Json.ofRowOrder p), w)

/-! ## What an answer shows -/

section Shows

variable {w : Workspace F} {β : Type}

/-- A change of the matrix answers with the workspace that it leaves. -/
private theorem shows_changed {n : Nat} (change : Except Violation (DenseMatrix n (Binary F))) :
    (w.changed change).1.Shows (w.changed change).2 := by
  cases change <;> rfl

/-- An `answered` result shows `w` if every proper `answer` does. -/
private theorem shows_answered {answer : β → Answer F} (h : ∀ x, (answer x).Shows w)
    (result : Except Violation β) : (answered answer result).Shows w := by
  cases result with
  | ok x => exact h x
  | error v => trivial

/-- A result `unlessMisfit` shows `w` if every proper `answer` does. -/
private theorem shows_unlessMisfit {answer : β → Answer F} (h : ∀ x, (answer x).Shows w)
    (result : Except DimensionFault β) : (unlessMisfit answer result).Shows w := by
  cases result with
  | ok x => exact h x
  | error fault => trivial

/-- The answer to `command` shows the workspace that `command` leaves. -/
theorem shows_run (w : Workspace F) (command : Command F) :
    (w.run command).1.Shows (w.run command).2 := by
  cases command with
  | readEntry i j => exact shows_answered (fun _ => by trivial) _
  | readRow i => exact shows_answered (fun _ => by trivial) _
  | rowAndBelow i => exact shows_answered (fun _ => by trivial) _
  | solve b => exact shows_answered (fun _ => by trivial) _
  | apply x => exact shows_unlessMisfit (fun _ => by trivial) _
  | permute x => exact shows_unlessMisfit (fun _ => by trivial) _
  | report rightHandSides => exact shows_unlessMisfit (fun _ => by trivial) _
  | maxAbsDiff other => exact shows_unlessMisfit (fun _ => by trivial) _
  | equals other => exact shows_unlessMisfit (fun _ => by trivial) _
  | invertInto buffer =>
    refine shows_unlessMisfit (fun X => ?_) _
    cases Substitution.invertBuffer w.matrix.2 w.order.2 X.2 <;> trivial
  | solveInto b x =>
    simp only [run]
    cases Substitution.solveBuffer w.matrix.2 w.order.2 b x <;> trivial
  | orderEquals flat =>
    simp only [run]
    cases RowOrder.ofFlat flat <;> trivial
  | writeEntry i j x => exact shows_changed _
  | swapRows i j => exact shows_changed _
  | multiply right keep =>
    simp only [run]
    cases DenseMatrix.ofRowsSized right with
    | error fault => trivial
    | ok B =>
      dsimp only
      cases w.matrix.2.multiply B.2 <;> trivial
  | loadRows rows =>
    simp only [run]
    cases DenseMatrix.ofRowsSized rows <;> trivial
  | loadRowMajor n data =>
    simp only [run]
    cases DenseMatrix.ofRowMajor n data <;> trivial
  | decompose tolerance =>
    simp only [run]
    cases (Elimination.decompose tolerance w.matrix.2).outcome <;> trivial
  | invert keep =>
    simp only [run]
    cases Substitution.invertAny w.matrix.2 w.order.2 <;> trivial
  | exchange i j =>
    simp only [run]
    cases w.order.2.exchangeAt i j <;> rfl
  | loadOrder flat =>
    simp only [run]
    cases RowOrder.ofFlat flat <;> trivial
  | _ => trivial

end Shows

/-! ## What a failure leaves -/

section Failed

variable {w : Workspace F} {command : Command F} {why : Failure} {remains : Remains F}

/-- A change of the matrix that fails leaves `w` as it was. -/
private theorem eq_self_of_changed {n : Nat} {change : Except Violation (DenseMatrix n (Binary F))}
    (h : (w.changed change).1 = .failed why remains) : (w.changed change).2 = w := by
  cases change with
  | ok A => cases h
  | error v => rfl

/-- A `command` with a failure for an answer leaves `w` as it was, unless it is a decomposition that
broke down with some `b`. This one leaves the order of `w` and the matrix of the run. -/
theorem run_of_failed (h : (w.run command).1 = .failed why remains) :
    (w.run command).2 = w ∨
      ∃ (tolerance : Binary F) (b : Elimination.Breakdown w.matrix.1 (Binary F)),
        command = .decompose tolerance ∧
        (Elimination.decompose tolerance w.matrix.2).outcome = .error b ∧
        why = .refused (Error.ofBreakdown b) ∧
        (w.run command).2 =
          { w with
            matrix := ⟨w.matrix.1, (Elimination.decompose tolerance w.matrix.2).matrix⟩ } := by
  cases command with
  | writeEntry i j x => exact Or.inl (eq_self_of_changed h)
  | swapRows i j => exact Or.inl (eq_self_of_changed h)
  | transpose keep => cases h
  | multiply right keep =>
    revert h
    simp only [run]
    cases DenseMatrix.ofRowsSized right with
    | error fault => exact fun _ => Or.inl rfl
    | ok B =>
      dsimp only
      cases w.matrix.2.multiply B.2 with
      | error fault => exact fun _ => Or.inl rfl
      | ok C => exact fun h => nomatch h
  | square keep => cases h
  | loadRows rows =>
    revert h
    simp only [run]
    cases DenseMatrix.ofRowsSized rows with
    | error fault => exact fun _ => Or.inl rfl
    | ok B => exact fun h => nomatch h
  | loadRowMajor n data =>
    revert h
    simp only [run]
    cases DenseMatrix.ofRowMajor n data with
    | error fault => exact fun _ => Or.inl rfl
    | ok B => exact fun h => nomatch h
  | loadZeros n => cases h
  | loadIdentity n => cases h
  | decompose tolerance =>
    revert h
    simp only [run]
    cases hrun : (Elimination.decompose tolerance w.matrix.2).outcome with
    | ok q => exact fun h => nomatch h
    | error b =>
      intro h
      cases h
      exact Or.inr ⟨tolerance, b, rfl, hrun, rfl, rfl⟩
  | solveInto b x =>
    simp only [run]
    cases Substitution.solveBuffer w.matrix.2 w.order.2 b x <;> exact Or.inl rfl
  | invert keep =>
    revert h
    simp only [run]
    cases Substitution.invertAny w.matrix.2 w.order.2 with
    | ok B => exact fun h => nomatch h
    | error v => exact fun _ => Or.inl rfl
  | exchange i j =>
    revert h
    simp only [run]
    cases w.order.2.exchangeAt i j with
    | ok q => exact fun h => nomatch h
    | error v => exact fun _ => Or.inl rfl
  | loadOrder flat =>
    revert h
    simp only [run]
    cases RowOrder.ofFlat flat with
    | ok q => exact fun h => nomatch h
    | error fault => exact fun _ => Or.inl rfl
  | loadIdentityOrder n => cases h
  | orderMatrix keep => cases h
  | orderEquals flat =>
    simp only [run]
    cases RowOrder.ofFlat flat <;> exact Or.inl rfl
  -- the other commands only read
  | _ => exact Or.inl rfl

end Failed

/-- A list of commands on `w`: the answers in order, and the workspace at the end. -/
def runAll (w : Workspace F) : List (Command F) → List (Answer F) × Workspace F
  | [] => ([], w)
  | command :: rest =>
    let (answer, w) := w.run command
    let (answers, w) := runAll w rest
    (answer :: answers, w)

/-- The commands of `rest` are carried out on the workspace that `command` leaves. -/
theorem runAll_cons (w : Workspace F) (command : Command F) (rest : List (Command F)) :
    w.runAll (command :: rest) =
      ((w.run command).1 :: ((w.run command).2.runAll rest).1,
        ((w.run command).2.runAll rest).2) :=
  rfl

end Workspace

end PivotedLU
