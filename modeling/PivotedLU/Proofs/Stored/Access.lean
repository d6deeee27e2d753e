import Mathlib.Data.List.FinRange
import PivotedLU.Error
import PivotedLU.Exchange
import PivotedLU.Proofs.Fold

/-!
# Checked Access to Stored Data

The types of the library say how long a vector is and which positions it has. A stored buffer is a
plain list: every access names a position by a natural number and is checked when it happens. An
access outside the buffer stops the computation there and leaves the data as they are at that
moment.

Programs over stored data are written with these accesses alone. The lemmas of this module say what
an access does to a list that is a vector of the library; with them a program is followed step by
step.

## Main definitions

* `Stored.InPlace`: a computation that changes data in place and may be stopped.
* `Stored.readAt`, `Stored.firstOf`, `Stored.restOf`: an element, and the elements before or from a
  position.
* `Stored.atPosition`, `Stored.onFirst`, `Stored.onRest`, `Stored.eachOf`: an action on one element,
  on a part of a list, and on every element in turn.
* `Stored.swapAt`, `Stored.overwrite`, `Stored.zipInto`: exchange, copy and elementwise update.

## Main results

* `Stored.left_of_settled`, `Stored.run_eq_error_iff_of_settled`: what a change leaves that is all
  or nothing, and when it is stopped.
* `Stored.run_atPosition`, `Stored.run_onFirst`, `Stored.run_onRest`: accesses that are inside.
* `Stored.run_forM_map`, `Stored.run_eachOf_map`, `Stored.foldlM_map`, `Stored.mapM_map`: loops
  without a stop.
-/

namespace PivotedLU

namespace Stored

variable {σ τ β γ : Type}

/-! ## Computations in place -/

/-- A computation that changes data in place. Where it breaks a precondition it stops, and leaves
the data as they are then. -/
abbrev InPlace (σ β : Type) := EStateM Violation σ β

namespace InPlace

/-- The data that `act` leaves, whether it came to its end or was stopped. -/
def left (act : InPlace σ β) (s : σ) : σ :=
  match act.run s with
  | .ok _ s' => s'
  | .error _ s' => s'

/-- A computation `x` that only reads. -/
def check (x : Except Violation β) : InPlace σ β := fun s =>
  match x with
  | .ok a => .ok a s
  | .error v => .error v s

/-- A `condition` that the caller has to meet, or else violates `v`. -/
def ensure (condition : Prop) [Decidable condition] (v : Violation) : InPlace σ Unit :=
  if condition then pure () else check (.error v)

/-- New data, built from `start` in place. Nothing is left of them if `act` is stopped. -/
def build (act : InPlace σ Unit) (start : σ) : Except Violation σ :=
  match act.run start with
  | .ok _ s => .ok s
  | .error v _ => .error v

/-- What an action on a part of the data means for the whole: however it ends, the part that it
leaves is put back in its place by `put`. -/
def placed (put : β → σ) : EStateM.Result Violation β γ → EStateM.Result Violation σ γ
  | .ok r x => .ok r (put x)
  | .error v x => .error v (put x)

/-- What an action gives that changes the data to the `view` of what a checked operation gives, or
leaves them as they were `before` to its violation. -/
def settled (view : τ → σ) (before : σ) : Except Violation τ → EStateM.Result Violation σ Unit
  | .ok after => .ok () (view after)
  | .error v => .error v before

end InPlace

open InPlace

/-! ## Accesses -/

/-- The element at position `i`. -/
def readAt (xs : List β) (i : Nat) : Except Violation β :=
  match xs[i]? with
  | some x => .ok x
  | none => .error .outOfBounds

/-- The elements before position `k`. -/
def firstOf (xs : List β) (k : Nat) : Except Violation (List β) :=
  if k ≤ xs.length then .ok (xs.take k) else .error .outOfBounds

/-- The elements from position `k` on. -/
def restOf (xs : List β) (k : Nat) : Except Violation (List β) :=
  if k ≤ xs.length then .ok (xs.drop k) else .error .outOfBounds

/-- The action `act` on the element at position `i`. -/
def atPosition (i : Nat) (act : InPlace β γ) : InPlace (List β) γ := fun xs =>
  match xs[i]? with
  | some x => placed (xs.set i) (act.run x)
  | none => .error .outOfBounds xs

/-- The action `act` on the elements before position `k`. -/
def onFirst (k : Nat) (act : InPlace (List β) γ) : InPlace (List β) γ := fun xs =>
  if k ≤ xs.length then placed (· ++ xs.drop k) (act.run (xs.take k))
  else .error .outOfBounds xs

/-- The action `act` on the elements from position `k` on. -/
def onRest (k : Nat) (act : InPlace (List β) γ) : InPlace (List β) γ := fun xs =>
  if k ≤ xs.length then placed (xs.take k ++ ·) (act.run (xs.drop k))
  else .error .outOfBounds xs

/-- The action `act` on every element, one after the other. -/
def eachOf (act : InPlace β Unit) : InPlace (List β) Unit
  | [] => .ok () []
  | x :: xs =>
    match act.run x with
    | .ok _ x' => placed (x' :: ·) (eachOf act xs)
    -- the elements behind it are not reached
    | .error v x' => .error v (x' :: xs)

/-- The elements at positions `i` and `j` are exchanged. -/
def swapAt (i j : Nat) : InPlace (List β) Unit := fun xs =>
  match xs[i]?, xs[j]? with
  | some x, some y => .ok () ((xs.set i y).set j x)
  | _, _ => .error .outOfBounds xs

/-- All elements are replaced by those of `ys`, which has to have as many. -/
def overwrite (ys : List β) : InPlace (List β) Unit := fun xs =>
  if ys.length = xs.length then .ok () ys else .error .outOfBounds xs

/-- Every element is updated by `f` with the one that stands beside it; elements without one
stay. -/
def zipInto (f : β → γ → β) : List β → List γ → List β
  | x :: xs, y :: ys => f x y :: zipInto f xs ys
  | xs, _ => xs

/-! ## Running computations -/

section Running

variable {x : InPlace σ β} {s s' : σ} {a : β}

theorem run_bind_of_ok (h : x.run s = .ok a s') (f : β → InPlace σ γ) :
    (x >>= f).run s = (f a).run s' := by
  rw [EStateM.run_bind, h]

theorem run_check_bind {e : Except Violation β} (h : e = .ok a) (f : β → InPlace σ γ) :
    (check e >>= f).run s = (f a).run s := by
  subst h
  rfl

theorem run_get_bind (f : σ → InPlace σ γ) : (get >>= f).run s = (f s).run s :=
  rfl

theorem run_ensure_bind {condition : Prop} [Decidable condition] (h : condition) (v : Violation)
    (f : Unit → InPlace σ γ) : (ensure condition v >>= f).run s = (f ()).run s := by
  rw [ensure, if_pos h]
  rfl

theorem run_ensure_bind_of_not {condition : Prop} [Decidable condition] (h : ¬condition)
    (v : Violation) (f : Unit → InPlace σ γ) : (ensure condition v >>= f).run s = .error v s := by
  rw [ensure, if_neg h]
  rfl

theorem left_of_ok (h : x.run s = .ok a s') : x.left s = s' := by
  rw [left, h]

theorem build_of_ok {act : InPlace σ Unit} (h : act.run s = .ok () s') :
    build act s = .ok s' := by
  rw [build, h]

theorem build_of_settled {act : InPlace σ Unit} {view : τ → σ} {e : Except Violation τ}
    (h : act.run s = settled view s e) : build act s = e.map view := by
  rw [build, h]
  cases e <;> rfl

/-- A change `act` that is all or nothing leaves what the operation `e` gives, or the data `s`. -/
theorem left_eq_of_settled {act : InPlace σ Unit} {view : τ → σ} {e : Except Violation τ}
    (h : act.run s = settled view s e) :
    act.left s = (e.toOption.map view).getD s := by
  rw [left, h]
  cases e <;> rfl

/-- A change `act` that is `settled` leaves the data `s`, or the view of a result. -/
theorem left_of_settled {act : InPlace σ Unit} {view : τ → σ} {e : Except Violation τ}
    (h : act.run s = settled view s e) : act.left s = s ∨ ∃ t, act.left s = view t := by
  have hleft := left_eq_of_settled h
  cases e with
  | ok t => exact Or.inr ⟨t, hleft⟩
  | error v => exact Or.inl hleft

/-- A change `act` that is `settled` by `e` is stopped by what `e` is refused for, and leaves the
data `s` as they were. -/
theorem run_eq_error_iff_of_settled {act : InPlace σ Unit} {view : τ → σ} {e : Except Violation τ}
    (h : act.run s = settled view s e) {v : Violation} :
    act.run s = .error v s' ↔ s' = s ∧ e = .error v := by
  rw [h]
  cases e with
  | ok t => simp [settled]
  | error w => simp [settled, and_comm, eq_comm]

/-- Placing a part of a part is placing the part, by `put` after `putInner`. -/
theorem placed_placed (put : β → σ) (putInner : τ → β) (r : EStateM.Result Violation τ γ) :
    placed put (placed putInner r) = placed (fun t => put (putInner t)) r := by
  cases r <;> rfl

end Running

/-! ## Accesses inside a list -/

theorem readAt_of_lt {xs : List β} {i : Nat} (h : i < xs.length) : readAt xs i = .ok xs[i] := by
  rw [readAt, List.getElem?_eq_getElem h]

theorem firstOf_of_le {xs : List β} {k : Nat} (h : k ≤ xs.length) :
    firstOf xs k = .ok (xs.take k) :=
  if_pos h

theorem restOf_of_le {xs : List β} {k : Nat} (h : k ≤ xs.length) :
    restOf xs k = .ok (xs.drop k) :=
  if_pos h

/-- A position `i` inside is acted on in its place. -/
theorem run_atPosition {xs : List β} {i : Nat} (h : i < xs.length) (act : InPlace β γ) :
    (atPosition i act).run xs = placed (xs.set i) (act.run xs[i]) := by
  show (match xs[i]? with | some x => placed (xs.set i) (act.run x) | none => _) = _
  rw [List.getElem?_eq_getElem h]

/-- A position `i` outside stops the program and leaves the list as it was. -/
theorem run_atPosition_of_le {xs : List β} {i : Nat} (h : xs.length ≤ i) (act : InPlace β γ) :
    (atPosition i act).run xs = .error .outOfBounds xs := by
  show (match xs[i]? with | some x => placed (xs.set i) (act.run x) | none => _) = _
  rw [List.getElem?_eq_none h]

theorem run_onFirst {xs : List β} {k : Nat} (h : k ≤ xs.length) (act : InPlace (List β) γ) :
    (onFirst k act).run xs = placed (· ++ xs.drop k) (act.run (xs.take k)) :=
  if_pos h

theorem run_onRest {xs : List β} {k : Nat} (h : k ≤ xs.length) (act : InPlace (List β) γ) :
    (onRest k act).run xs = placed (xs.take k ++ ·) (act.run (xs.drop k)) :=
  if_pos h

/-- The elements at `i` and `j` are exchanged only if both positions are inside. -/
theorem run_swapAt_of_not_lt {xs : List β} {i j : Nat}
    (h : ¬(i < xs.length ∧ j < xs.length)) :
    (swapAt i j).run xs = .error .outOfBounds xs := by
  show (match xs[i]?, xs[j]? with
    | some x, some y => EStateM.Result.ok () ((xs.set i y).set j x)
    | _, _ => .error Violation.outOfBounds xs) = _
  by_cases hi : i < xs.length
  · rw [List.getElem?_eq_none (Nat.not_lt.1 fun hj => h ⟨hi, hj⟩)]
    cases xs[i]? <;> rfl
  · rw [List.getElem?_eq_none (Nat.not_lt.1 hi)]

/-- Element `k` of the first `m` is element `k` of the whole list. -/
theorem run_onFirst_atPosition {xs : List β} {m k : Nat} (h : m ≤ xs.length) (hk : k < m)
    (act : InPlace β γ) :
    (onFirst m (atPosition k act)).run xs = (atPosition k act).run xs := by
  -- replaced in the first part, with the rest behind it again, is replaced in the whole list
  have hk' : k < (xs.take m).length := by
    rw [List.length_take, Nat.min_eq_left h]
    exact hk
  have hset : ∀ x, (xs.take m).set k x ++ xs.drop m = xs.set k x := by
    intro x
    conv_rhs => rw [← List.take_append_drop m xs]
    rw [List.set_append_left _ _ hk']
  rw [run_onFirst h, run_atPosition hk', run_atPosition (Nat.lt_of_lt_of_le hk h), placed_placed,
    List.getElem_take]
  exact congrArg (fun put => placed put _) (funext hset)

/-- Element `k` from position `m` on is element `m + k` of the whole list. -/
theorem run_onRest_atPosition {xs : List β} {m : Nat} (h : m ≤ xs.length) (k : Nat)
    (act : InPlace β γ) :
    (onRest m (atPosition k act)).run xs = (atPosition (m + k) act).run xs := by
  have hset : ∀ x, xs.take m ++ (xs.drop m).set k x = xs.set (m + k) x := by
    intro x
    conv_rhs => rw [← List.take_append_drop m xs]
    rw [List.set_append_right _ _ (by simp), List.length_take, Nat.min_eq_left h,
      Nat.add_sub_cancel_left]
  rw [run_onRest h]
  rcases Nat.lt_or_ge (m + k) xs.length with hk | hk
  · have hk' : k < (xs.drop m).length := by
      rw [List.length_drop]
      omega
    rw [run_atPosition hk, run_atPosition hk', placed_placed, List.getElem_drop]
    exact congrArg (fun put => placed put _) (funext hset)
  · -- behind the end of the part is behind the end of the list
    have hk' : (xs.drop m).length ≤ k := by
      rw [List.length_drop]
      omega
    rw [run_atPosition_of_le hk, run_atPosition_of_le hk', placed, List.take_append_drop]

/-- On lists of one length `zipInto` is `List.zipWith`. -/
theorem zipInto_eq_zipWith (f : β → γ → β) {xs : List β} {ys : List γ}
    (h : xs.length = ys.length) : zipInto f xs ys = List.zipWith f xs ys := by
  induction xs generalizing ys with
  | nil => rw [zipInto, List.zipWith_nil_left]; simp
  | cons x xs ih =>
    cases ys with
    | nil => cases h
    | cons y ys => rw [zipInto, List.zipWith_cons_cons, ih (Nat.succ.inj h)]

/-! ## Accesses to vectors -/

section Vectors

variable {n : Nat} (v : Vector β n)

theorem toList_eq_map : v.toList = (List.finRange n).map v.get := by
  apply List.ext_getElem
  · simp
  · intro i hi hi'
    simp [Vector.get]

theorem getElem_toList_eq_get {i : Nat} (hi : i < n) (h : i < v.toList.length) :
    v.toList[i] = v.get ⟨i, hi⟩ := by
  simp [Vector.get]

@[simp]
theorem readAt_toList (i : Fin n) : readAt v.toList i = .ok (v.get i) := by
  have hi : i.val < v.toList.length := by simp
  rw [readAt_of_lt hi, getElem_toList_eq_get v i.isLt]

/-- An exchange in the list of `v` is that of the vector, under every `view` of its elements. -/
@[simp]
theorem run_swapAt_map (view : β → γ) (i j : Fin n) :
    (swapAt i j).run (v.toList.map view) =
      .ok () ((v.swap i j i.isLt j.isLt).toList.map view) := by
  have hi : i.val < (v.toList.map view).length := by simp
  have hj : j.val < (v.toList.map view).length := by simp
  show (match (v.toList.map view)[i.val]?, (v.toList.map view)[j.val]? with
    | some x, some y => EStateM.Result.ok () (((v.toList.map view).set i y).set j x)
    | _, _ => .error Violation.outOfBounds (v.toList.map view)) = _
  rw [List.getElem?_eq_getElem hi, List.getElem?_eq_getElem hj]
  simp [Vector.toList_swap, List.map_set]

theorem zipInto_toList (f : β → γ → β) (w : Vector γ n) :
    zipInto f v.toList w.toList = (Vector.ofFn fun j => f (v.get j) (w.get j)).toList := by
  rw [zipInto_eq_zipWith f (by simp), toList_eq_map, toList_eq_map, toList_eq_map,
    List.zipWith_map, List.zipWith_self]
  simp

theorem run_atPosition_set (i : Fin n) (x : β) :
    (atPosition i (set x)).run v.toList = .ok () (v.set i x i.isLt).toList := by
  have hi : i.val < v.toList.length := by simp
  rw [run_atPosition hi, Vector.toList_set]
  rfl

end Vectors

/-! ## Loops -/

section Loops

variable {κ ι : Type} {n : Nat} {pos : κ → ι}

/-- If `body` acts as `f` on the views, a loop over the positions `pos k` acts as the fold of `f`
over `ks`. -/
theorem run_forM_map (view : τ → σ) {body : ι → InPlace σ Unit} {f : τ → κ → τ}
    (h : ∀ t k, (body (pos k)).run (view t) = .ok () (view (f t k))) (ks : List κ) (t : τ) :
    (forM (ks.map pos) body).run (view t) = .ok () (view (ks.foldl f t)) := by
  induction ks generalizing t with
  | nil => rfl
  | cons k ks ih =>
    rw [List.map_cons, List.forM_cons, run_bind_of_ok (h t k), ih, List.foldl_cons]

/-- If `step` acts as `f` on the views, a loop over the positions `pos k` computes the fold of `f`
over `ks`. -/
theorem foldlM_map (view : τ → β) {step : β → ι → Except Violation β} {f : τ → κ → τ}
    (h : ∀ t k, step (view t) (pos k) = .ok (view (f t k))) (ks : List κ) (t : τ) :
    (ks.map pos).foldlM step (view t) = .ok (view (ks.foldl f t)) := by
  induction ks generalizing t with
  | nil => rfl
  | cons k ks ih =>
    rw [List.map_cons, List.foldlM_cons, h, List.foldl_cons]
    exact ih (f t k)

/-- If `f` finds `g k` at the position `pos k`, a loop over the positions collects these values. -/
theorem mapM_map {f : ι → Except Violation γ} {g : κ → γ} (h : ∀ k, f (pos k) = .ok (g k))
    (ks : List κ) : (ks.map pos).mapM f = .ok (ks.map g) := by
  induction ks with
  | nil => rfl
  | cons k ks ih =>
    rw [List.map_cons, List.mapM_cons, h, ih]
    rfl

/-- If `act` makes `elem' k` of `elem k`, a loop over the elements changes all of them. -/
theorem run_eachOf_map {act : InPlace β Unit} {elem elem' : κ → β}
    (h : ∀ k, act.run (elem k) = .ok () (elem' k)) (ks : List κ) :
    (eachOf act).run (ks.map elem) = .ok () (ks.map elem') := by
  induction ks with
  | nil => rfl
  | cons k ks ih =>
    show (match act.run (elem k) with
      | .ok _ x => placed (x :: ·) ((eachOf act).run (ks.map elem))
      | .error v x => _) = _
    rw [h, ih]
    rfl

/-- The elements `g k`, each with its index. -/
theorem zipIdx_map_finRange (g : Fin n → β) :
    ((List.finRange n).map g).zipIdx = (List.finRange n).map fun k => (g k, k.val) := by
  apply List.ext_getElem
  · simp
  · intro i hi hi'
    simp

/-- A list that is `g` before position `m` and `h` from there on. -/
theorem take_append_drop_finRange (g h : Fin n → β) (m : Nat) :
    ((List.finRange n).map g).take m ++ ((List.finRange n).map h).drop m =
      (List.finRange n).map fun i => if i.val < m then g i else h i := by
  apply List.ext_getElem
  · simp
    omega
  · intro i hi hi'
    by_cases him : i < m
    · rw [List.getElem_append_left (by simp at hi' ⊢; omega)]
      simp [him]
    · rw [List.getElem_append_right (by simp; omega)]
      simp at hi'
      simp [him, Nat.min_eq_left (Nat.le_of_lt (Nat.lt_of_le_of_lt (Nat.not_lt.1 him) hi')),
        Nat.add_sub_cancel' (Nat.not_lt.1 him)]

theorem take_append_drop_toList (v w : Vector β n) (m : Nat) :
    v.toList.take m ++ w.toList.drop m =
      (Vector.ofFn fun i => if i.val < m then v.get i else w.get i).toList := by
  rw [toList_eq_map v, toList_eq_map w, take_append_drop_finRange, toList_eq_map]
  exact List.map_congr_left fun i _ => by rw [get_ofFn]

theorem range_eq_map_val (n : Nat) : List.range n = (List.finRange n).map Fin.val :=
  List.map_coe_finRange_eq_range.symm

/-- The positions before `m`. -/
theorem range_eq_map_take {m : Nat} (h : m ≤ n) :
    List.range m = ((List.finRange n).take m).map Fin.val := by
  rw [List.map_take, ← range_eq_map_val, List.take_range, Nat.min_eq_left h]

/-- The positions from `m` on. -/
theorem range'_eq_map_drop (m : Nat) :
    List.range' m (n - m) = ((List.finRange n).drop m).map Fin.val := by
  rw [List.map_drop, ← range_eq_map_val, List.range_eq_range', List.drop_range']
  simp

/-- All `n` positions from the last to the first. -/
theorem reverse_range_eq_map_val (n : Nat) :
    (List.range n).reverse = ((List.finRange n).map Fin.rev).map Fin.val := by
  rw [range_eq_map_val, ← List.map_reverse, List.finRange_reverse]

end Loops

end Stored

end PivotedLU
