import PivotedLU.Proofs.RowOrder.History
import PivotedLU.Proofs.Stored.Obtained
import PivotedLU.Workspace.Run

/-!
# Sessions

A session is a list of commands, each carried out by `Workspace.run` on the workspace that the one
before left. What one command does is followed through the whole list by induction: a session in
which every command failed changes the matrix only, and only by decompositions that broke down; and
a session leaves what the operations of `Stored` leave of the lists in which matrix and order are
kept, so that the results on `Stored.Obtained` are results on sessions.

## Main definitions

* `Stored.Held`, `Stored.Held.after`: a matrix and an order as lists, and what a command makes of
  them with the operations of `Stored` alone.
* `Workspace.stored`: the lists of a workspace.

## Main results

* `Workspace.runAll_append`: a session in two parts.
* `Workspace.runAll_of_failed`, `Workspace.runAll_eq_self_of_failed`: sessions of failures.
* `Workspace.stored_run`, `Workspace.stored_runAll`: `run` and `runAll` follow `Stored.Held.after`.
* `Stored.Held.Obtained.foldl_after`: the operations on lists lead to `Stored.Obtained` values.
* `Workspace.sound_runAll`: what a session leaves has square rows and a permutation for its order.
-/

namespace PivotedLU

variable {F : Format}

/-! ## Commands on lists -/

namespace Stored

/-- A matrix and an order in stored form, side by side. -/
structure Held (F : Format) where
  rows : Rows (Binary F)
  order : Order

namespace Held

/-- Both parts of `s` are `Stored.Obtained`. -/
structure Obtained (s : Held F) : Prop where
  rows : Stored.Obtained (.matrix s.rows)
  order : Stored.Obtained (.order s.order : Value (Binary F))

/-- The rows of `result?` in the place of those of `s`, if there is a result and it is `kept`. -/
def keep (s : Held F) (kept : Bool) (result? : Option (Rows (Binary F))) : Held F :=
  match kept, result? with
  | true, some rows => { s with rows }
  | _, _ => s

/-- The product of the rows of `s` with `right`, unless `multiply` refuses it. -/
def product? (s : Held F) (right : Rows (Binary F)) : Option (Rows (Binary F)) :=
  (multiply s.rows right).toOption.bind Except.toOption

/-- What `command` leaves of the lists of `s`. -/
def after (s : Held F) (command : Command F) : Held F :=
  match command with
  | .writeEntry i j x => { s with rows := (setEntry i j x).left s.rows }
  | .swapRows i j => { s with rows := (swapAt i j).left s.rows }
  | .transpose kept => s.keep kept (transpose s.rows).toOption
  | .multiply right kept => s.keep kept ((fromRows right).toOption.bind s.product?)
  | .square kept => s.keep kept (s.product? s.rows)
  | .loadRows given => s.keep true (fromRows given).toOption
  | .loadRowMajor n data => s.keep true (fromRowMajor n data).toOption
  | .loadZeros n => { s with rows := zeros n }
  | .loadIdentity n => s.keep true (identity n).toOption
  | .decompose tolerance =>
    match (Stored.decompose tolerance).run s.rows with
    | .ok (.ok p) rows => ⟨rows, p⟩
    | .ok (.error _) rows => { s with rows }
    | .error _ rows => { s with rows }
  | .invert kept => s.keep kept (invert s.rows s.order).toOption
  | .exchange i j => { s with order := (exchange i j).left s.order }
  | .loadOrder flat =>
    match fromFlat flat with
    | .ok (.ok p) => { s with order := p }
    | _ => s
  | .loadIdentityOrder n => { s with order := Order.identity n }
  | .orderMatrix kept => s.keep kept (orderMatrix s.order).toOption
  -- the other commands only read
  | _ => s

variable {s : Held F}

/-- A result that is `kept` is a matrix like those it was computed from. -/
theorem Obtained.keep (h : s.Obtained) (kept : Bool) {result? : Option (Rows (Binary F))}
    (hresult : ∀ rows, result? = some rows → Stored.Obtained (.matrix rows)) :
    (s.keep kept result?).Obtained := by
  cases kept with
  | false => exact h
  | true =>
    cases result? with
    | none => exact h
    | some rows => exact ⟨hresult rows rfl, h.order⟩

/-- A product with rows `right` that are obtained is obtained. -/
theorem Obtained.product? (h : s.Obtained) {right result : Rows (Binary F)}
    (hright : Stored.Obtained (.matrix right)) (hresult : s.product? right = some result) :
    Stored.Obtained (.matrix result) := by
  obtain ⟨x, hx, hresult⟩ := Option.bind_eq_some_iff.1 hresult
  rw [eq_ok_of_toOption hresult] at hx
  exact .multiply h.rows hright (eq_ok_of_toOption hx)

/-- **A command keeps `Held.Obtained`**: each constructor of `Stored.Obtained` is one of the ways in
which `after` changes a part of `s`. -/
theorem Obtained.after (h : s.Obtained) (command : Command F) : (s.after command).Obtained := by
  cases command with
  | writeEntry i j x => exact ⟨.setEntry h.rows i j x, h.order⟩
  | swapRows i j => exact ⟨.swapRows h.rows i j, h.order⟩
  | transpose kept => exact h.keep kept fun _ hrows => .transpose h.rows (eq_ok_of_toOption hrows)
  | multiply right kept =>
    refine h.keep kept fun rows hrows => ?_
    obtain ⟨B, hB, hrows⟩ := Option.bind_eq_some_iff.1 hrows
    exact h.product? (.fromRows (eq_ok_of_toOption hB)) hrows
  | square kept => exact h.keep kept fun _ hrows => h.product? h.rows hrows
  | loadRows given => exact h.keep true fun _ hrows => .fromRows (eq_ok_of_toOption hrows)
  | loadRowMajor n data => exact h.keep true fun _ hrows => .fromRowMajor (eq_ok_of_toOption hrows)
  | loadZeros n => exact ⟨.zeros n, h.order⟩
  | loadIdentity n => exact h.keep true fun _ hrows => .identity (eq_ok_of_toOption hrows)
  | decompose tolerance =>
    have hleft := Stored.Obtained.decompose h.rows tolerance
    -- the rows are obtained whatever the outcome is, the order only if there is one
    simp only [Held.after]
    rw [InPlace.left] at hleft
    cases hrun : (Stored.decompose tolerance).run s.rows with
    | ok outcome rows =>
      rw [hrun] at hleft
      cases outcome with
      | ok p => exact ⟨hleft, .decomposed h.rows hrun⟩
      | error b => exact ⟨hleft, h.order⟩
    | error v rows =>
      rw [hrun] at hleft
      exact ⟨hleft, h.order⟩
  | invert kept => exact h.keep kept fun _ hrows => .invert h.rows h.order (eq_ok_of_toOption hrows)
  | exchange i j => exact ⟨h.rows, .exchange h.order i j⟩
  | loadOrder flat =>
    simp only [Held.after]
    cases hflat : fromFlat flat with
    | ok result =>
      cases result with
      | ok p => exact ⟨h.rows, .fromFlat hflat⟩
      | error fault => exact h
    | error v => exact h
  | loadIdentityOrder n => exact ⟨h.rows, .identityOrder n⟩
  | orderMatrix kept =>
    exact h.keep kept fun _ hrows => .orderMatrix h.order (eq_ok_of_toOption hrows)
  | _ => exact h

/-- The lists that `commands` leave are obtained, if those were that they began with. -/
theorem Obtained.foldl_after (h : s.Obtained) (commands : List (Command F)) :
    (commands.foldl Held.after s).Obtained := by
  induction commands generalizing s with
  | nil => exact h
  | cons command rest ih => exact ih (h.after command)

/-- The rows of `s` are square and its indices are a permutation, if both parts are obtained. -/
theorem Obtained.sound (h : s.Obtained) : SoundRows s.rows ∧ SoundOrder s.order := by
  obtain ⟨n, A, hrows⟩ := h.rows.wellFormed
  obtain ⟨m, p, horder⟩ := h.order.wellFormed
  rw [hrows, horder]
  exact ⟨soundRows_toLists A, soundOrder_stored p⟩

/-- Without a result, `keep` changes nothing. -/
theorem keep_none (s : Held F) (kept : Bool) : s.keep kept none = s := by
  cases kept <;> rfl

end Held

end Stored

namespace Workspace

variable {w : Workspace F}

/-- The lists in which `w` keeps its matrix and its order. -/
def stored (w : Workspace F) : Stored.Held F where
  rows := w.matrix.2.toLists
  order := w.order.2.stored

/-- The lists of every workspace are obtained: `Stored.fromRows` gives the rows back, and
`Stored.fromFlat` the order. -/
theorem obtained_stored (w : Workspace F) : w.stored.Obtained where
  rows := Stored.obtained_toLists w.matrix.2
  order := by
    have hflat : Stored.fromFlat w.order.2.toFlat = .ok (.ok w.order.2.stored) := by
      rw [Stored.fromFlat_eq, RowOrder.ofFlat_toFlat]
      rfl
    exact .fromFlat hflat

/-! ## One command -/

/-- The product of the lists of `w` with those of `B` is the stored form of their product. -/
theorem product?_stored (w : Workspace F) {n : Nat} (B : DenseMatrix n (Binary F)) :
    w.stored.product? B.toLists = ((w.matrix.2.multiply B).map DenseMatrix.toLists).toOption := by
  rw [Stored.Held.product?, stored, Stored.multiply_toLists]
  rfl

/-- If `result?` has the rows of `A`, keeping them is keeping `A`. -/
theorem stored_keep {kept : Bool} {A : SizedMatrix (Binary F)}
    {result? : Option (Stored.Rows (Binary F))} (h : result? = some A.2.toLists) :
    (if kept then { w with matrix := A } else w).stored = w.stored.keep kept result? := by
  subst h
  cases kept <;> rfl

/-- **A `command` on a workspace is a command on its lists.** -/
theorem stored_run (w : Workspace F) (command : Command F) :
    (w.run command).2.stored = w.stored.after command := by
  cases command with
  | writeEntry i j x =>
    have hleft := Stored.left_eq_of_settled (Stored.run_setEntry w.matrix.2 i j x)
    simp only [run, Stored.Held.after, stored, hleft]
    cases w.matrix.2.setAt i j x <;> rfl
  | swapRows i j =>
    have hleft := Stored.left_eq_of_settled (Stored.run_swapAt_toLists w.matrix.2 i j)
    simp only [run, Stored.Held.after, stored, hleft]
    cases w.matrix.2.swapRowsAt i j <;> rfl
  | transpose kept =>
    exact stored_keep (congrArg Except.toOption (Stored.transpose_toLists w.matrix.2))
  | multiply right kept =>
    simp only [run, Stored.Held.after, Stored.fromRows_eq]
    cases DenseMatrix.ofRowsSized right with
    | error fault => exact (Stored.Held.keep_none w.stored kept).symm
    | ok B =>
      -- on lists, the product is that with the rows of `B`
      change _ = w.stored.keep kept (w.stored.product? B.2.toLists)
      dsimp only
      rw [product?_stored]
      cases w.matrix.2.multiply B.2 with
      | error fault => exact (Stored.Held.keep_none w.stored kept).symm
      | ok C => exact stored_keep rfl
  | square kept =>
    refine stored_keep ?_
    refine (product?_stored w w.matrix.2).trans ?_
    -- a matrix has the size of itself, and `multiply` does not refuse it
    rw [DenseMatrix.multiply, dif_pos rfl]
    rfl
  | loadRows rows =>
    simp only [run, Stored.Held.after, Stored.fromRows_eq]
    cases DenseMatrix.ofRowsSized rows <;> rfl
  | loadRowMajor n data =>
    simp only [run, Stored.Held.after, Stored.fromRowMajor_eq]
    cases DenseMatrix.ofRowMajor n data <;> rfl
  | loadZeros n =>
    simp only [run, Stored.Held.after, Stored.zeros_eq]
    rfl
  | loadIdentity n =>
    simp only [run, Stored.Held.after, Stored.identity_eq]
    rfl
  | decompose tolerance =>
    have hrun := Stored.run_decompose tolerance w.matrix.2
    simp only [run, Stored.Held.after, stored, hrun, Elimination.Run.storedOutcome]
    cases (Elimination.decompose tolerance w.matrix.2).outcome <;> rfl
  | solveInto b x =>
    simp only [run]
    cases Substitution.solveBuffer w.matrix.2 w.order.2 b x <;> rfl
  | invert kept =>
    have hresult := Stored.invert_toLists w.matrix.2 w.order.2
    simp only [run, Stored.Held.after]
    change _ = w.stored.keep kept (Stored.invert w.matrix.2.toLists w.order.2.stored).toOption
    rw [hresult]
    cases Substitution.invertAny w.matrix.2 w.order.2 with
    | error v => exact (Stored.Held.keep_none w.stored kept).symm
    | ok B => exact stored_keep rfl
  | exchange i j =>
    have hleft := Stored.left_eq_of_settled (Stored.run_exchange w.order.2 i j)
    simp only [run, Stored.Held.after, stored, hleft]
    cases w.order.2.exchangeAt i j <;> rfl
  | loadOrder flat =>
    simp only [run, Stored.Held.after, Stored.fromFlat_eq]
    cases RowOrder.ofFlat flat <;> rfl
  | loadIdentityOrder n =>
    simp only [run, Stored.Held.after, ← Stored.stored_identity]
    rfl
  | orderMatrix kept =>
    exact stored_keep (congrArg Except.toOption (Stored.orderMatrix_stored w.order.2))
  | orderEquals flat =>
    simp only [run]
    cases RowOrder.ofFlat flat <;> rfl
  | _ => rfl

/-! ## Sessions -/

variable {commands : List (Command F)}

/-- The commands of `second` are carried out on the workspace that `first` leaves. -/
theorem runAll_append (w : Workspace F) (first second : List (Command F)) :
    w.runAll (first ++ second) =
      ((w.runAll first).1 ++ ((w.runAll first).2.runAll second).1,
        ((w.runAll first).2.runAll second).2) := by
  induction first generalizing w with
  | nil => rfl
  | cons command rest ih =>
    simp only [List.cons_append, runAll_cons, ih]

/-- There is one answer for each of the `commands`. -/
theorem length_answers (w : Workspace F) (commands : List (Command F)) :
    (w.runAll commands).1.length = commands.length := by
  induction commands generalizing w with
  | nil => rfl
  | cons command rest ih => exact congrArg Nat.succ (ih (w.run command).2)

/-- A session of failures leaves the order of `w` and the size of its matrix: the only command that
fails with an effect is a decomposition, which overwrites entries. -/
theorem runAll_of_failed
    (h : ∀ answer ∈ (w.runAll commands).1, ∃ why remains, answer = .failed why remains) :
    (w.runAll commands).2.order = w.order ∧
      (w.runAll commands).2.matrix.1 = w.matrix.1 := by
  induction commands generalizing w with
  | nil => exact ⟨rfl, rfl⟩
  | cons command rest ih =>
    rw [runAll_cons] at h ⊢
    obtain ⟨why, remains, hfailed⟩ := h _ List.mem_cons_self
    obtain ⟨horder, hsize⟩ := ih fun answer hanswer => h answer (List.mem_cons_of_mem _ hanswer)
    have hkept : (w.run command).2.order = w.order ∧ (w.run command).2.matrix.1 = w.matrix.1 := by
      obtain hleft | ⟨tolerance, b, -, -, -, hleft⟩ := run_of_failed hfailed
      · simp only [hleft, and_self]
      · simp only [hleft, and_self]
    exact ⟨horder.trans hkept.1, hsize.trans hkept.2⟩

/-- A session of failures without a decomposition leaves `w` as it was. -/
theorem runAll_eq_self_of_failed
    (h : ∀ answer ∈ (w.runAll commands).1, ∃ why remains, answer = .failed why remains)
    (hcommands : ∀ tolerance, .decompose tolerance ∉ commands) :
    (w.runAll commands).2 = w := by
  induction commands generalizing w with
  | nil => rfl
  | cons command rest ih =>
    rw [runAll_cons] at h ⊢
    obtain ⟨why, remains, hfailed⟩ := h _ List.mem_cons_self
    have hrest := ih (fun answer hanswer => h answer (List.mem_cons_of_mem _ hanswer))
      fun tolerance hmem => hcommands tolerance (List.mem_cons_of_mem _ hmem)
    obtain hleft | ⟨tolerance, b, rfl, -⟩ := run_of_failed hfailed
    · exact hrest.trans hleft
    · exact absurd List.mem_cons_self (hcommands tolerance)

/-- The lists that `commands` leave are those of the operations on lists. -/
theorem stored_runAll (w : Workspace F) (commands : List (Command F)) :
    (w.runAll commands).2.stored = commands.foldl Stored.Held.after w.stored := by
  induction commands generalizing w with
  | nil => rfl
  | cons command rest ih =>
    rw [runAll_cons, List.foldl_cons, ← stored_run]
    exact ih (w.run command).2

/-- **What a session leaves can be relied on.** Whatever the `commands` are and whichever of them
fail, the matrix and the order that are left are `Stored.Obtained` by the operations on lists; the
rows are square and the indices a permutation. -/
theorem sound_runAll (w : Workspace F) (commands : List (Command F)) :
    (w.runAll commands).2.stored.Obtained ∧
      Stored.SoundRows (w.runAll commands).2.stored.rows ∧
      Stored.SoundOrder (w.runAll commands).2.stored.order := by
  have hobtained : (w.runAll commands).2.stored.Obtained := by
    rw [stored_runAll]
    exact w.obtained_stored.foldl_after commands
  exact ⟨hobtained, hobtained.sound⟩

end Workspace

end PivotedLU
