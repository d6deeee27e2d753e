import Mathlib.GroupTheory.Perm.Cycle.Type
import PivotedLU.Proofs.RowOrder.Parity

/-!
# The Cycles of a Row Order

Following the sources of a row order from place to place leads round in cycles, and a place that is
its own source is a cycle of its own. An exchange that brings a place to its goal cuts it out of its
cycle, so there is one cycle more, and the exchanges that it takes to bring every place to its goal
are as many as places less cycles.

## Main definitions

* `cycleCount`: the number of cycles of a permutation of places, `RowOrder.cycles` of a row order.

## Main results

* `cycleCount_mul_swap`: an exchange that brings a place to its goal makes one cycle more.
* `cycleCount_one`: in the end there are as many cycles as places.
-/

namespace PivotedLU

open Equiv (swap)
open Equiv.Perm

variable {n : Nat}

/-- The number of cycles of `σ`, the places that stay counted as cycles. -/
def cycleCount (σ : Equiv.Perm (Fin n)) : Nat :=
  Multiset.card σ.partition.parts

/-- Places that `σ` moves are counted by cycles, the others one by one. -/
theorem cycleCount_add_card_support (σ : Equiv.Perm (Fin n)) :
    cycleCount σ + σ.support.card = Multiset.card σ.cycleType + n := by
  have hle : σ.support.card ≤ n := by
    simpa using σ.support.card_le_univ
  rw [cycleCount, parts_partition, Multiset.card_add, Multiset.card_replicate, Fintype.card_fin]
  omega

theorem cycleCount_one : cycleCount (1 : Equiv.Perm (Fin n)) = n := by
  simpa using cycleCount_add_card_support (1 : Equiv.Perm (Fin n))

/-- A place `x` of the cycle `c` that is brought to its goal is cut out of the cycle; a cycle of two
places falls apart. -/
theorem card_cycleType_swap_mul_of_isCycle {c : Equiv.Perm (Fin n)} (hc : c.IsCycle) {x : Fin n}
    (hx : c x ≠ x) :
    Multiset.card (swap x (c x) * c).cycleType + c.support.card =
      Multiset.card c.cycleType + (swap x (c x) * c).support.card + 1 := by
  rw [card_cycleType_eq_one.2 hc]
  -- a cycle of two places falls apart, a longer one loses a place
  by_cases htwo : c (c x) = x
  · have hswap : c = swap x (c x) := hc.eq_swap_of_apply_apply_eq_self hx htwo
    have hone : swap x (c x) * c = 1 := by
      nth_rewrite 2 [hswap]
      exact Equiv.swap_mul_self x (c x)
    have hsupport : c.support.card = 2 := by
      rw [hswap]
      exact card_support_swap hx.symm
    rw [hone, hsupport]
    simp
  · have hmem : x ∈ c.support := mem_support.2 hx
    have hpos : 0 < c.support.card := Finset.card_pos.2 ⟨x, hmem⟩
    have hsupport : (swap x (c x) * c).support.card = c.support.card - 1 := by
      rw [support_swap_mul_eq c x htwo, Finset.card_sdiff_of_subset (by simpa using hx),
        Finset.card_singleton]
    rw [card_cycleType_eq_one.2 (hc.swap_mul hx htwo), hsupport]
    omega

/-- A place `x` that is brought to its goal becomes a cycle of its own, and the others stay as
many. -/
theorem cycleCount_swap_mul {σ : Equiv.Perm (Fin n)} {x : Fin n} (hx : σ x ≠ x) :
    cycleCount (swap x (σ x) * σ) = cycleCount σ + 1 := by
  -- the exchange acts on the cycle of `x` and leaves the rest of the permutation alone
  let c := σ.cycleOf x
  let rest := σ * c⁻¹
  have hcx : c x = σ x := cycleOf_apply_self σ x
  have hcycle : c.IsCycle := isCycle_cycleOf σ hx
  have hdisjoint : Disjoint rest c := by
    refine disjoint_mul_inv_of_mem_cycleFactorsFinset ?_
    rw [cycleOf_mem_cycleFactorsFinset_iff, mem_support]
    exact hx
  have hσ : σ = c * rest := by
    rw [← hdisjoint.commute.eq]
    exact (inv_mul_cancel_right σ c).symm
  have hsupport : (swap x (c x) * c).support ≤ c.support :=
    fun y hy => (mem_support_swap_mul_imp_mem_support_ne hy).1
  have hdisjoint' : Disjoint (swap x (c x) * c) rest :=
    hdisjoint.symm.mono hsupport le_rfl
  have hcut : swap x (σ x) * σ = swap x (c x) * c * rest := by
    rw [hcx, mul_assoc, ← hσ]
  have hcycles := card_cycleType_swap_mul_of_isCycle hcycle (hcx.trans_ne hx)
  have hbefore := cycleCount_add_card_support σ
  have hafter := cycleCount_add_card_support (swap x (σ x) * σ)
  rw [hcut, hdisjoint'.cycleType_mul, hdisjoint'.card_support_mul, Multiset.card_add] at hafter
  rw [hσ, hdisjoint.symm.cycleType_mul, hdisjoint.symm.card_support_mul, Multiset.card_add,
    ← hσ] at hbefore
  rw [hcut]
  omega

/-- An exchange of `x` and `y` that brings `y` to its goal `x` makes one cycle more. -/
theorem cycleCount_mul_swap {σ : Equiv.Perm (Fin n)} {x y : Fin n} (hxy : x ≠ y)
    (hy : σ y = x) : cycleCount (σ * swap x y) = cycleCount σ + 1 := by
  have hx : σ x ≠ x := fun h => hxy (σ.injective (h.trans hy.symm))
  rw [← cycleCount_swap_mul hx, Equiv.mul_swap_eq_swap_mul, hy, Equiv.swap_comm]

namespace RowOrder

/-- The number of cycles of the permutation of `p`, the places that stay counted as cycles. -/
noncomputable def cycles (p : RowOrder n) : Nat :=
  cycleCount p.perm

end RowOrder

end PivotedLU
