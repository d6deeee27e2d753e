import PivotedLU.Proofs.RowOrder.Parity
import PivotedLU.Proofs.Stored.Matrix
import PivotedLU.RowOrder.Flat

/-!
# Stored Row Orders

A row order as it is stored: a list of indices and a counter beside it. That the indices are a
permutation is checked once, with a list of marks, when the order is read from its flat layout; an
exchange relies on it later without a check.

## Main definitions

* `Stored.Order`, `RowOrder.stored`: the indices with the counter.
* `Stored.fromFlat`: an order from its flat layout.
* `Stored.exchange`: two indices are exchanged, then the exchange is counted.
* `Stored.orderMatrix`: the order as a matrix.

## Main results

* `Stored.markAll_eq`: the marks find a repeated index and an index out of range.
* `Stored.fromFlat_eq`: the same lists are accepted as for the orders of the library.
* `Stored.run_exchange`: an exchange that is stopped leaves indices and counter as they were.
* `Stored.orderMatrix_stored`: the matrix of an order.
-/

namespace PivotedLU

namespace Stored

open InPlace

variable {α γ : Type} {n : Nat}

/-- Indices and the number of exchanges. -/
structure Order where
  indices : List Nat
  exchanges : Nat

/-! ## New orders -/

/-- All indices in their places, no exchange counted. -/
def Order.identity (n : Nat) : Order where
  indices := List.range n
  exchanges := 0

/-- Whether indices below `dim` can be marked one after the other, where each has to be in range and
not marked yet. -/
def markAll (dim : Nat) : List Nat → List Bool → Except Violation Bool
  | [], _ => .ok true
  | i :: is, seen =>
    if dim ≤ i then .ok false
    else do
      if ← readAt seen i then return false
      markAll dim is (← build (atPosition i (set true)) seen)

/-- The order that a list `flat` in flat layout describes. -/
def fromFlat (flat : List Nat) : Except Violation (Except OrderFault Order) :=
  match flat.getLast? with
  | none => .ok (.error .empty)
  | some counter =>
    let indices := flat.dropLast
    if counter < indices.length then .ok (.error (.counterBelow counter indices.length))
    else do
      if ← markAll indices.length indices (List.replicate indices.length false) then
        return .ok ⟨indices, counter - indices.length⟩
      return .error (.notBijective indices)

/-! ## Changes and views -/

/-- An action on the indices. -/
def onIndices (act : InPlace (List Nat) γ) : InPlace Order γ := fun p =>
  placed (fun indices => { p with indices := indices }) (act.run p.indices)

/-- The indices at `i` and `j` are exchanged and the exchange is counted; equal positions are left
alone. -/
def exchange (i j : Nat) : InPlace Order Unit :=
  if i = j then pure ()
  else do
    onIndices (swapAt i j)
    -- counted only if the indices have been exchanged
    modify fun p => { p with exchanges := p.exchanges + 1 }

/-- The order `p` as a matrix: zeros, into which a one is written in every row. -/
def orderMatrix [Zero α] [One α] (p : Order) : Except Violation (Rows α) :=
  build (forM p.indices.zipIdx fun c => setEntry c.2 c.1 1) (zeros p.indices.length)

end Stored

/-- The row order `p` as it is stored. -/
def RowOrder.stored {n : Nat} (p : RowOrder n) : Stored.Order :=
  ⟨p.indices, p.exchanges⟩

namespace Stored

open InPlace

variable {α : Type} {n : Nat}

theorem length_indices_stored (p : RowOrder n) : p.stored.indices.length = n :=
  p.length_indices

/-- Index `i` of the stored form of `p` is the source of `i`. -/
@[simp]
theorem readAt_indices_stored (p : RowOrder n) (i : Fin n) :
    readAt p.stored.indices i = .ok (p.source i).val := by
  have hi : i.val < p.stored.indices.length := by
    rw [length_indices_stored]
    exact i.isLt
  rw [readAt_of_lt hi]
  simp [RowOrder.stored, RowOrder.indices, RowOrder.source, Vector.get]

theorem stored_identity (n : Nat) : (RowOrder.identity n).stored = Order.identity n := by
  have hindices : (RowOrder.identity n).indices = List.range n := by
    rw [RowOrder.indices_eq_map, range_eq_map_val]
    exact List.map_congr_left fun i _ => by rw [RowOrder.source_identity]
  rw [RowOrder.stored, hindices]
  rfl

/-! ## The flat layout -/

/-- The indices `is` are in range of `seen`, unmarked and not repeated. -/
def Unmarked (seen : List Bool) (is : List Nat) : Prop :=
  (∀ i ∈ is, i < seen.length ∧ seen[i]? = some false) ∧ is.Nodup

instance (seen : List Bool) (is : List Nat) : Decidable (Unmarked seen is) :=
  inferInstanceAs (Decidable (_ ∧ _))

/-- After `i` has been marked, the others are still `Unmarked`. -/
theorem unmarked_cons_iff {seen : List Bool} {i : Nat} {is : List Nat} (hi : i < seen.length)
    (hseen : seen[i] = false) : Unmarked seen (i :: is) ↔ Unmarked (seen.set i true) is := by
  have hmarked : ∀ k : Nat, (seen.set i true)[k]? = some false ↔ i ≠ k ∧ seen[k]? = some false := by
    intro k
    rw [List.getElem?_set]
    by_cases hk : i = k
    · subst hk
      simp [hi]
    · simp [hk]
  unfold Unmarked
  rw [List.length_set, List.forall_mem_cons, List.nodup_cons, List.getElem?_eq_getElem hi, hseen]
  constructor
  · rintro ⟨⟨-, hall⟩, hfresh, hnodup⟩
    exact ⟨fun k hk => ⟨(hall k hk).1, (hmarked k).2 ⟨fun h => hfresh (h ▸ hk), (hall k hk).2⟩⟩,
      hnodup⟩
  · rintro ⟨hall, hnodup⟩
    exact ⟨⟨⟨hi, rfl⟩, fun k hk => ⟨(hall k hk).1, ((hmarked k).1 (hall k hk).2).2⟩⟩,
      fun h => ((hmarked i).1 (hall i h).2).1 rfl, hnodup⟩

/-- The marks find every index of `is` that is out of range or occurs twice, and are never looked up
out of range themselves. -/
theorem markAll_eq (is : List Nat) (seen : List Bool) :
    markAll seen.length is seen = .ok (decide (Unmarked seen is)) := by
  induction is generalizing seen with
  | nil => simp [markAll, Unmarked]
  | cons i is ih =>
    rw [markAll]
    by_cases hi : i < seen.length
    · rw [if_neg (Nat.not_le.2 hi), readAt_of_lt hi]
      cases hseen : seen[i] with
      | true =>
        -- the index occurred before
        have hmarked : ¬Unmarked seen (i :: is) := by
          intro h
          have hfree := (h.1 i List.mem_cons_self).2
          rw [List.getElem?_eq_getElem hi, hseen] at hfree
          exact absurd hfree (by decide)
        rw [decide_eq_false hmarked]
        rfl
      | false =>
        -- the others are looked up in the marks that now include this one
        have hwrite : build (atPosition i (set true)) seen = .ok (seen.set i true) := by
          refine build_of_ok ?_
          rw [run_atPosition hi]
          rfl
        have hrest := ih (seen.set i true)
        rw [List.length_set] at hrest
        show (do markAll seen.length is (← build (atPosition i (set true)) seen)) = _
        rw [hwrite, decide_eq_decide.2 (unmarked_cons_iff hi hseen)]
        exact hrest
    · -- an index out of range is refused before the marks are looked at
      have hout : ¬Unmarked seen (i :: is) := fun h => hi (h.1 i List.mem_cons_self).1
      rw [if_pos (Nat.not_lt.1 hi), decide_eq_false hout]

/-- While nothing is marked, indices only have to be below `dim` and not repeated. -/
theorem unmarked_replicate_iff {dim : Nat} {is : List Nat} :
    Unmarked (List.replicate dim false) is ↔ (∀ i ∈ is, i < dim) ∧ is.Nodup := by
  unfold Unmarked
  refine and_congr_left' (forall₂_congr fun i _ => ?_)
  rw [List.length_replicate, List.getElem?_replicate]
  by_cases hi : i < dim <;> simp [hi]

/-- By `fromFlat`, a list `flat` is accepted exactly if it describes a row order of the library, and
refused for the same reason. -/
theorem fromFlat_eq (flat : List Nat) :
    fromFlat flat = .ok ((RowOrder.ofFlat flat).map fun p => p.2.stored) := by
  unfold fromFlat RowOrder.ofFlat
  cases flat.getLast? with
  | none => rfl
  | some counter =>
    dsimp only
    split
    · rfl
    · -- the marks tell whether the indices are in bounds and different
      have hmarks := markAll_eq flat.dropLast (List.replicate flat.dropLast.length false)
      rw [List.length_replicate, decide_eq_decide.2 unmarked_replicate_iff] at hmarks
      rw [hmarks]
      by_cases h : (∀ i ∈ flat.dropLast, i < flat.dropLast.length) ∧ flat.dropLast.Nodup
      · obtain ⟨p, hp⟩ : ∃ p, RowOrder.ofIndices? flat.dropLast (counter - flat.dropLast.length) =
            some p := ⟨_, dif_pos h⟩
        have hstored : p.stored = ⟨flat.dropLast, counter - flat.dropLast.length⟩ := by
          rw [RowOrder.stored, RowOrder.indices_of_ofIndices? hp,
            RowOrder.exchanges_of_ofIndices? hp]
        rw [decide_eq_true h, hp, ← hstored]
        rfl
      · have hp : RowOrder.ofIndices? flat.dropLast (counter - flat.dropLast.length) = none :=
          dif_neg h
        rw [decide_eq_false h, hp]
        rfl

/-! ## Exchanges -/

/-- The indices of `p` at `i` and `j` are exchanged and counted; a position outside leaves both the
indices and the counter as they were. -/
theorem run_exchange (p : RowOrder n) (i j : Nat) :
    (exchange i j).run p.stored = settled RowOrder.stored p.stored (p.exchangeAt i j) := by
  unfold exchange RowOrder.exchangeAt
  by_cases hij : i = j
  · rw [if_pos hij, if_pos hij]
    rfl
  · rw [if_neg hij, if_neg hij]
    have hrun : (onIndices (swapAt i j)).run p.stored =
        placed (fun indices => ⟨indices, p.exchanges⟩) ((swapAt i j).run p.indices) := rfl
    by_cases h : i < n ∧ j < n
    · have hne : ¬(⟨i, h.1⟩ : Fin n) = ⟨j, h.2⟩ := fun heq => hij (congrArg Fin.val heq)
      have hswap := run_swapAt_map p.sources Fin.val ⟨i, h.1⟩ ⟨j, h.2⟩
      rw [dif_pos h.1, dif_pos h.2, RowOrder.exchange, if_neg hne]
      rw [RowOrder.indices, hswap] at hrun
      rw [run_bind_of_ok hrun]
      rfl
    · have hswap : (swapAt i j).run p.indices = .error .outOfBounds p.indices :=
        run_swapAt_of_not_lt ((length_indices_stored p).symm ▸ h)
      rw [hswap] at hrun
      -- the count is never reached
      rw [EStateM.run_bind, hrun]
      by_cases hi : i < n
      · rw [dif_pos hi, dif_neg fun hj => h ⟨hi, hj⟩]
        rfl
      · rw [dif_neg hi]
        rfl

/-- The indices of `p` at `i` and `j` are exchanged and counted. -/
theorem run_exchange_inside (p : RowOrder n) (i j : Fin n) :
    (exchange i j).run p.stored = .ok () (p.exchange i j).stored := by
  rw [run_exchange, RowOrder.exchangeAt]
  by_cases hij : i = j
  · rw [if_pos (congrArg Fin.val hij), RowOrder.exchange, if_pos hij, settled]
  · rw [if_neg fun h => hij (Fin.ext h), dif_pos i.isLt, dif_pos j.isLt, settled]

/-! ## The matrix of an order -/

/-- Writing the ones of the matrix of `p` is never stopped. -/
theorem orderMatrix_stored [Scalar α] (p : RowOrder n) :
    orderMatrix p.stored = .ok (p.toMatrix : DenseMatrix n α).toLists := by
  have hindices : p.stored.indices.zipIdx =
      (List.finRange n).map fun k => ((p.source k).val, k.val) := by
    rw [RowOrder.stored, RowOrder.indices_eq_map, zipIdx_map_finRange]
  have hloop : (forM p.stored.indices.zipIdx fun c => setEntry c.2 c.1 (1 : α)).run (zeros n) =
      .ok () (Fin.foldl n (fun A k => A.set k (p.source k) 1) (DenseMatrix.zeros n)).toLists := by
    rw [hindices, zeros_eq, Fin.foldl_eq_finRange_foldl]
    exact run_forM_map DenseMatrix.toLists (fun A k => run_setEntry_inside A k (p.source k) 1) _ _
  have hmatrix : Fin.foldl n (fun A k => A.set k (p.source k) 1) (DenseMatrix.zeros n) =
      (p.toMatrix : DenseMatrix n α) := by
    ext i j
    rw [RowOrder.entry_toMatrix]
    exact entry_foldl_set_one p.source i j
  rw [orderMatrix, length_indices_stored, build_of_ok hloop, hmatrix]

end Stored

end PivotedLU
