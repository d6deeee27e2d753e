import Mathlib.Data.Fin.Rev
import PivotedLU.Proofs.Fold
import PivotedLU.Substitution.Solve

/-!
# Passes over a Buffer

Both passes of a triangular solve overwrite a buffer place by place, each place from places that
are already solved. Such a pass is described by one equation for each place, in which only the
finished buffer occurs: the order of the writes is gone, and so are the previous contents. The
equations hold for any arithmetic, operation by operation.

## Main definitions

* `sequential`: a pass that visits the places in a given order.
* `ReadsEarlier`: a place is computed from the places visited before it.
* `Settled`: what holds of the buffer after some steps of a pass.

## Main results

* `Settled.set`, `settled_sequential`: one step and a whole pass.
* `eq_sequential_iff`: the equations of a pass in which every place reads earlier places only.
* `eq_forward_iff`, `eq_backward_iff`: the equations of the two passes of a solve.
* `solveInto_eq_solve`: the previous contents of the buffer do not matter.
-/

namespace PivotedLU

universe u

namespace Substitution

variable {α : Type u} {n : Nat}

/-! ## Passes in general -/

/-- The buffer after its places have been overwritten in the order `visit`, each with a value
computed from the buffer at that moment and the previous contents of the place. -/
def sequential (visit : Fin n → Fin n) (value : Vector α n → α → Fin n → α)
    (start : Vector α n) : Vector α n :=
  Fin.foldl n (fun x k => x.set (visit k) (value x (x.get (visit k)) (visit k)) (visit k).isLt)
    start

/-- The `value` for a place depends on the buffer only through the places that `visit` comes to
before it. -/
def ReadsEarlier (visit : Fin n → Fin n) (value : Vector α n → α → Fin n → α) : Prop :=
  ∀ k x y a, (∀ l, l < k → x.get (visit l) = y.get (visit l)) →
    value x a (visit k) = value y a (visit k)

/-- The places visited in the first `m` steps satisfy their equations, and the others hold what
they held at the start. -/
def Settled (visit : Fin n → Fin n) (value : Vector α n → α → Fin n → α) (start : Vector α n)
    (m : Nat) (x : Vector α n) : Prop :=
  (∀ l : Fin n, l.val < m → x.get (visit l) = value x (start.get (visit l)) (visit l)) ∧
    ∀ l : Fin n, m ≤ l.val → x.get (visit l) = start.get (visit l)

variable {visit : Fin n → Fin n} {value : Vector α n → α → Fin n → α}

/-- The visit of place `visit m` keeps the places visited before it `Settled`. -/
theorem Settled.set (hvisit : Function.Injective visit) (hlocal : ReadsEarlier visit value)
    {start : Vector α n} {m : Fin n} {x : Vector α n} (h : Settled visit value start m x) :
    Settled visit value start (m + 1)
      (x.set (visit m) (value x (x.get (visit m)) (visit m)) (visit m).isLt) := by
  obtain ⟨hdone, hrest⟩ := h
  have hother : ∀ (v : α) (l : Fin n), l ≠ m →
      (x.set (visit m) v (visit m).isLt).get (visit l) = x.get (visit l) :=
    fun v l hl => get_set_of_ne x (fun h => hl (hvisit h).symm) v
  -- a place visited by now does not read the place that is overwritten
  have hearlier : ∀ (v a : α) (l : Fin n), l ≤ m →
      value (x.set (visit m) v (visit m).isLt) a (visit l) = value x a (visit l) := by
    intro v a l hl
    refine hlocal l _ _ a fun k hk => hother v k ?_
    exact (hk.trans_le hl).ne
  refine ⟨fun l hl => ?_, fun l hl => ?_⟩
  · rw [hearlier _ _ l (Nat.le_of_lt_succ hl)]
    rcases Nat.lt_or_eq_of_le (Nat.le_of_lt_succ hl) with hlt | heq
    · rw [hother _ l (Fin.ne_of_lt hlt)]
      exact hdone l hlt
    · obtain rfl : l = m := Fin.ext heq
      rw [← hrest l (Nat.le_refl _)]
      exact get_set_self x _ _
  · rw [hother _ l (Fin.ne_of_gt hl)]
    exact hrest l (Nat.le_of_lt hl)

/-- After all visits all places are `Settled`. -/
theorem settled_sequential (hvisit : Function.Injective visit) (hlocal : ReadsEarlier visit value)
    (start : Vector α n) : Settled visit value start n (sequential visit value start) :=
  foldl_invariant (Settled visit value start)
    ⟨fun _ hl => absurd hl (Nat.not_lt_zero _), fun _ _ => rfl⟩
    fun _ _ hx => hx.set hvisit hlocal

/-- In the end the place `visit k` has the `value` that its equation asks for. -/
theorem get_sequential (hvisit : Function.Injective visit) (hlocal : ReadsEarlier visit value)
    (start : Vector α n) (k : Fin n) :
    (sequential visit value start).get (visit k) =
      value (sequential visit value start) (start.get (visit k)) (visit k) :=
  (settled_sequential hvisit hlocal start).1 k k.isLt

/-- A pass that visits every place once, by `visit`, and in which a `value` reads the places visited
before it only, is the one solution `y` of its equations. -/
theorem eq_sequential_iff (visit : Fin n → Fin n) (value : Vector α n → α → Fin n → α)
    (hvisit : Function.Bijective visit) (hlocal : ReadsEarlier visit value)
    (start y : Vector α n) :
    y = sequential visit value start ↔
      ∀ k, y.get (visit k) = value y (start.get (visit k)) (visit k) := by
  constructor
  · rintro rfl k
    exact get_sequential hvisit.1 hlocal start k
  · intro hy
    -- by the order of the visits: a place is determined by the places visited before it
    have hagree : ∀ k : Fin n, y.get (visit k) = (sequential visit value start).get (visit k) := by
      intro k
      induction k using WellFoundedLT.induction with
      | ind k ih =>
        rw [hy k, get_sequential hvisit.1 hlocal start k]
        exact hlocal k _ _ _ ih
    rw [vector_eq_iff]
    intro i
    obtain ⟨k, rfl⟩ := hvisit.2 i
    exact hagree k

/-! ## The passes of a solve -/

variable [Scalar α]

theorem subtractTerms_congr {selected : Fin n → Bool} {r x y : Vector α n} {start : α}
    (h : ∀ k, selected k = true → x.get k = y.get k) :
    subtractTerms selected r x start = subtractTerms selected r y start := by
  rw [subtractTerms, subtractTerms]
  refine foldl_guard_congr (fun _ => Iff.rfl) (fun acc k hk => ?_) start
  rw [h k hk]

/-- The equations of the pass from top to bottom: place `i` is the permuted right-hand side `b` less
the products of the places above it. -/
theorem eq_forward_iff (lu : DenseMatrix n α) (p : RowOrder n) (b x y : Vector α n) :
    y = forward lu p b x ↔
      ∀ i, y.get i = subtractTerms (fun k => k < i) (lu.row i) y (b.get (p.source i)) := by
  refine eq_sequential_iff id
    (fun y _ i => subtractTerms (fun k => k < i) (lu.row i) y (b.get (p.source i)))
    Function.bijective_id (fun i y z _ h => ?_) x y
  exact subtractTerms_congr fun k hk => h k (of_decide_eq_true hk)

/-- The equations of the pass from bottom to top: place `i` is what the buffer `x` held there, less
the products of the places below it, divided by the diagonal. -/
theorem eq_backward_iff (lu : DenseMatrix n α) (x y : Vector α n) :
    y = backward lu x ↔
      ∀ i, y.get i = subtractTerms (fun k => i < k) (lu.row i) y (x.get i) / lu.entry i i := by
  have hpass := eq_sequential_iff Fin.rev
    (fun y a i => subtractTerms (fun k => i < k) (lu.row i) y a / lu.entry i i)
    Fin.rev_bijective (fun k y z a h => ?_) x y
  · refine hpass.trans ⟨fun hy i => ?_, fun hy k => hy k.rev⟩
    obtain ⟨k, rfl⟩ := Fin.rev_surjective i
    exact hy k
  · -- the places below `k.rev` are visited before step `k`
    refine congrArg (· / lu.entry k.rev k.rev) (subtractTerms_congr fun i hi => ?_)
    obtain ⟨l, rfl⟩ := Fin.rev_surjective i
    exact h l (Fin.rev_lt_rev.1 (of_decide_eq_true hi))

/-- A solve overwrites its buffer `x` completely. -/
theorem solveInto_eq_solve (lu : DenseMatrix n α) (p : RowOrder n) (b x : Vector α n) :
    solveInto lu p b x = solve lu p b := by
  have hforward : forward lu p b x = forward lu p b (Vector.replicate n 0) := by
    rw [eq_forward_iff, ← eq_forward_iff lu p b x]
  rw [solve, solveInto, solveInto, hforward]

/-- A right-hand side `b` and a buffer `x` of the size of `lu` always lead to a solution. -/
theorem solveBuffer_toList (lu : DenseMatrix n α) (p : RowOrder n) (b x : Vector α n) :
    solveBuffer lu p b.toList x.toList = .ok (solve lu p b) := by
  rw [solveBuffer, dif_pos rfl, dif_pos b.length_toList, dif_pos x.length_toList,
    vectorOfList_toList, vectorOfList_toList, solveInto_eq_solve]

/-- A right-hand side `b` of the size of `lu` is always solved for. -/
theorem solveList_toList (lu : DenseMatrix n α) (p : RowOrder n) (b : Vector α n) :
    solveList lu p b.toList = .ok (solve lu p b) := by
  rw [solveList, ← Vector.toList_replicate, solveBuffer_toList]

end Substitution

end PivotedLU
