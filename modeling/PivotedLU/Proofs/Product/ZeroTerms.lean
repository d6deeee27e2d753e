import PivotedLU.DenseMatrix.Product
import PivotedLU.Factorization.Basic
import PivotedLU.Proofs.Fold

/-!
# Products with Zero in Ordered Sums

The product of the triangles of a factorization is added up in two ways. A product of matrices takes
up all terms; a reconstruction takes up those inside both triangles only, since every other term is
a product with zero. Whether such a term can be left out depends on the arithmetic: rounded sums
have to be looked at one by one, and a zero times an infinity is no zero.

## Main definitions

* `ZeroTermLaws`: which factors make a product with zero drop out, and of which sums.

## Main results

* `ZeroTermLaws.foldl_eq_guard`: an ordered sum without its products with zero.
* `ZeroTermLaws.foldl_eq_single`: an ordered sum in which a single coefficient is one.
* `Factorization.reconstruct_eq_mul_of`: the two ways to add up the product of the triangles agree.
-/

namespace PivotedLU

universe u

variable {α : Type u} [Scalar α] {n : Nat}

/-- A product of `0` and a `usable` factor drops out of every sum that is `reachable` from `0`. -/
structure ZeroTermLaws (usable reachable : α → Prop) : Prop where
  usable_zero : usable 0
  usable_one : usable 1
  reachable_zero : reachable 0
  reachable_add : ∀ {s : α} (x : α), reachable s → reachable (s + x)
  add_zero_mul : ∀ {s x : α}, reachable s → usable x → s + 0 * x = s
  add_mul_zero : ∀ {s x : α}, reachable s → usable x → s + x * 0 = s

namespace ZeroTermLaws

variable {usable reachable : α → Prop}

/-- Terms with a factor `0` can be left out of an ordered sum of products of `usable` factors. -/
theorem foldl_eq_guard (h : ZeroTermLaws usable reachable) {x y : Fin n → α} {p : Fin n → Prop}
    [DecidablePred p] (hx : ∀ k, usable (x k)) (hy : ∀ k, usable (y k))
    (hzero : ∀ k, ¬p k → x k = 0 ∨ y k = 0) :
    Fin.foldl n (fun acc k => acc + x k * y k) 0 =
      Fin.foldl n (fun acc k => if p k then acc + x k * y k else acc) 0 := by
  -- what carries the induction is that the sum so far has been reached from zero
  refine PivotedLU.foldl_eq_guard reachable h.reachable_zero (fun s k => h.reachable_add _)
    fun s k hk hs => ?_
  rcases hzero k hk with hxk | hyk
  · rw [hxk]
    exact h.add_zero_mul hs (hy k)
  · rw [hyk]
    exact h.add_mul_zero hs (hx k)

/-- If the coefficient at `s` is `1` and all others are `0`, one product is added to `0`. -/
theorem foldl_eq_single (h : ZeroTermLaws usable reachable) {y : Fin n → α}
    (hy : ∀ k, usable (y k)) (s : Fin n) :
    Fin.foldl n (fun acc k => acc + (if s = k then 1 else 0) * y k) 0 = 0 + 1 * y s := by
  have hcoefficient : ∀ k : Fin n, usable (if s = k then 1 else 0 : α) := by
    intro k
    split
    · exact h.usable_one
    · exact h.usable_zero
  rw [h.foldl_eq_guard (p := fun k => k = s) hcoefficient hy
    fun k hk => Or.inl (if_neg (Ne.symm hk)), foldl_guard_eq, if_pos rfl]

end ZeroTermLaws

/-- The terms that `f.reconstruct` leaves out have a factor outside its triangle, which is `0`. -/
theorem Factorization.reconstruct_eq_mul_of {usable reachable : α → Prop}
    (h : ZeroTermLaws usable reachable) {f : Factorization n α}
    (hf : ∀ i j, usable (f.lu.entry i j)) : f.reconstruct = f.lower.mul f.upper := by
  have hlower := forall_entry_lower h.usable_zero h.usable_one hf
  have hupper := forall_entry_upper h.usable_zero hf
  ext i j
  rw [reconstruct, DenseMatrix.entry_ofFn, DenseMatrix.entry_mul]
  refine (h.foldl_eq_guard (hlower i) (fun k => hupper k j) fun k hk => ?_).symm
  rcases not_and_or.1 hk with hki | hkj
  · exact Or.inl (f.entry_lower_of_lt (not_le.1 hki))
  · exact Or.inr (f.entry_upper_of_lt (not_le.1 hkj))

end PivotedLU
