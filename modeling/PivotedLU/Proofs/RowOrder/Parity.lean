import Mathlib.Data.List.FinRange
import Mathlib.Data.ZMod.IntUnitsPower
import Mathlib.GroupTheory.Perm.Fin
import PivotedLU.RowOrder.Basic

/-!
# The Parity of a Row Order

A row order holds a permutation and, apart from it, a counter of exchanges. This module reads the
sources as a permutation of the places and says what it means that the counter agrees with it: an
exchange that is counted is a transposition, so both change their parity together.

## Main definitions

* `RowOrder.perm`: the sources as a permutation.
* `RowOrder.inversions`: the number of pairs of places whose sources stand the other way round.
* `RowOrder.CountsParity`: the counter has the parity of the permutation.

## Main results

* `RowOrder.perm_exchange`: an exchange of two places is a transposition.
* `RowOrder.indices_perm_range`: as a list, the sources are a rearrangement of `0, 1, …`.
* `RowOrder.countsParity_exchange`: an exchange keeps the counter in agreement.
* `RowOrder.odd_inversions_add_iff`: inversions of an order that is made of two others.
* `RowOrder.sign_perm`: the sign of the permutation is that of the number of inversions.
* `RowOrder.countsParity_iff`: a counter in agreement is odd exactly if the number of inversions
  is.
-/

namespace PivotedLU

variable {n : Nat}

/-- The place `exchanged i j k` is where the transposition of `i` and `j` takes `k`. -/
theorem exchanged_eq_swap (i j k : Fin n) : exchanged i j k = Equiv.swap i j k :=
  (Equiv.swap_apply_def i j k).symm

namespace RowOrder

variable (p : RowOrder n)

/-! ## The permutation -/

theorem source_injective : Function.Injective p.source :=
  fun i j h => p.distinct i j h

/-- The sources of the places in `p` are all rows. -/
theorem source_bijective : Function.Bijective p.source :=
  Finite.injective_iff_bijective.1 p.source_injective

/-- The sources of `p` as a permutation of the places. -/
noncomputable def perm : Equiv.Perm (Fin n) :=
  Equiv.ofBijective p.source p.source_bijective

@[simp]
theorem perm_apply (i : Fin n) : p.perm i = p.source i :=
  rfl

@[simp]
theorem perm_identity : (identity n).perm = 1 := by
  ext i
  simp

/-- An exchange of `i` and `j` is a transposition, made before the sources are looked up. -/
theorem perm_exchange (i j : Fin n) : (p.exchange i j).perm = p.perm * Equiv.swap i j := by
  ext k
  rw [perm_apply, source_exchange, exchanged_eq_swap]
  rfl

theorem indices_eq_map : p.indices = (List.finRange n).map fun i => (p.source i).val := by
  apply List.ext_getElem
  · simp [indices]
  · intro i hi hi'
    simp [indices, source, Vector.get]

/-- The indices of `p` are a rearrangement of `0, 1, …`. -/
theorem indices_perm_range : p.indices.Perm (List.range n) := by
  have hmap := p.perm.map_finRange_perm.map Fin.val
  rw [List.map_map, List.map_coe_finRange_eq_range] at hmap
  rw [indices_eq_map]
  exact hmap

/-! ## Inversions -/

/-- The number of pairs of places of which the later one has the earlier source in `p`. -/
def inversions : Nat :=
  (Finset.univ.filter fun x : Fin n × Fin n =>
    x.1 < x.2 ∧ p.source x.2 < p.source x.1).card

/-- The sign of `p.perm` is that of the number of inversions. -/
theorem sign_perm : Equiv.Perm.sign p.perm = (-1) ^ p.inversions := by
  -- a pair of places contributes a factor `-1` exactly if it is an inversion
  have hpair : ∀ i j : Fin n,
      (if i < j then (if p.perm i < p.perm j then 1 else -1) else 1 : ℤˣ) =
        if i < j ∧ p.source j < p.source i then -1 else 1 := by
    intro i j
    by_cases hij : i < j
    · have hne : p.source i ≠ p.source j := fun h => hij.ne (p.source_injective h)
      rcases lt_or_gt_of_ne hne with h | h
      · simp [hij, h, h.not_gt]
      · simp [hij, h, h.not_gt]
    · simp [hij]
  calc Equiv.Perm.sign p.perm
      = ∏ j, ∏ i, if i < j then (if p.perm i < p.perm j then 1 else -1) else 1 := by
        rw [Equiv.Perm.sign_eq_prod_prod_Iio]
        refine Finset.prod_congr rfl fun j _ => ?_
        rw [← Finset.prod_filter]
        congr 1
        ext i
        simp
    _ = ∏ x : Fin n × Fin n, if x.1 < x.2 ∧ p.source x.2 < p.source x.1 then -1 else 1 := by
        simp only [hpair]
        rw [Finset.prod_comm, Fintype.prod_prod_type]
    _ = (-1) ^ p.inversions := by
        rw [← Finset.prod_filter, Finset.prod_const]
        rfl

/-- If `p` is made of `q` and `p'`, its inversions are those of the two, up to an even number. -/
theorem odd_inversions_add_iff {p p' q : RowOrder n}
    (h : ∀ i, q.source (p'.source i) = p.source i) :
    Odd (q.inversions + p'.inversions) ↔ Odd p.inversions := by
  have hperm : q.perm * p'.perm = p.perm := Equiv.ext h
  have hsign : (-1 : ℤˣ) ^ (q.inversions + p'.inversions) = (-1) ^ p.inversions := by
    rw [pow_add, ← sign_perm, ← sign_perm, ← Equiv.Perm.sign_mul, hperm, sign_perm]
  have hne : (-1 : ℤˣ) ≠ 1 := by decide
  rw [← neg_one_pow_eq_neg_one_iff_odd hne, hsign, neg_one_pow_eq_neg_one_iff_odd hne]

/-- The exchange of two places `i` and `j` has an odd number of inversions. -/
theorem odd_inversions_exchange {i j : Fin n} (hij : i ≠ j) :
    Odd ((identity n).exchange i j).inversions := by
  have hne : (-1 : ℤˣ) ≠ 1 := by decide
  rw [← neg_one_pow_eq_neg_one_iff_odd hne, ← sign_perm, perm_exchange, perm_identity, one_mul,
    Equiv.Perm.sign_swap hij]

/-! ## The counter -/

/-- The number of exchanges that were counted for `p` has the parity of its permutation. -/
def CountsParity : Prop :=
  Equiv.Perm.sign p.perm = (-1) ^ p.exchanges

/-- The order `identity n` counts no exchange. -/
theorem countsParity_identity : (identity n).CountsParity := by
  rw [CountsParity, perm_identity, Equiv.Perm.sign_one]
  exact (pow_zero _).symm

variable {p}

/-- An exchange keeps `CountsParity`, and its failure: of two places it changes both parities, of
one place with itself neither. -/
theorem countsParity_exchange (i j : Fin n) : (p.exchange i j).CountsParity ↔ p.CountsParity := by
  unfold CountsParity
  rw [perm_exchange, Equiv.Perm.sign_mul, exchanges_exchange]
  by_cases hij : i = j
  · simp [hij]
  · rw [Equiv.Perm.sign_swap hij, if_neg hij, pow_succ, mul_left_inj]

/-- After an exchange of `i` and `j` the counter is still in agreement. -/
theorem CountsParity.exchange (h : p.CountsParity) (i j : Fin n) :
    (p.exchange i j).CountsParity :=
  (countsParity_exchange i j).2 h

/-- The counter of `p` is in agreement exactly if it is odd when the number of inversions is. -/
theorem countsParity_iff : p.CountsParity ↔ (p.isOdd = true ↔ Odd p.inversions) := by
  rw [CountsParity, sign_perm, isOdd, beq_iff_eq, ← Nat.odd_iff]
  constructor
  · intro h
    -- the parity of an exponent can be read off a power of `-1`
    have hne : (-1 : ℤˣ) ≠ 1 := by decide
    rw [← neg_one_pow_eq_neg_one_iff_odd hne, ← h, neg_one_pow_eq_neg_one_iff_odd hne]
  · intro h
    refine neg_one_pow_congr ?_
    rw [← Nat.not_odd_iff_even, ← Nat.not_odd_iff_even, h]

theorem CountsParity.isOdd_iff (h : p.CountsParity) : p.isOdd = true ↔ Odd p.inversions :=
  countsParity_iff.1 h

/-- If `q` undoes `p`, both have the same parity. -/
theorem odd_inversions_iff_of_inverse {p q : RowOrder n} (h : ∀ i, q.source (p.source i) = i) :
    Odd q.inversions ↔ Odd p.inversions := by
  have hidentity : ¬Odd (identity n).inversions := by
    rw [← countsParity_identity.isOdd_iff]
    exact Bool.false_ne_true
  have hsum := odd_inversions_add_iff fun i => (h i).trans (source_identity i).symm
  rw [← hsum, Nat.odd_add, ← Nat.not_odd_iff_even] at hidentity
  tauto

/-- Under `CountsParity` the counters of `p` and `p'` have different parities exactly if `p` is made
of `p'` by an odd `q`. -/
theorem CountsParity.isOdd_ne_iff {p' q : RowOrder n} (hp : p.CountsParity) (hp' : p'.CountsParity)
    (h : ∀ i, q.source (p'.source i) = p.source i) :
    p'.isOdd ≠ p.isOdd ↔ Odd q.inversions := by
  have hsum := odd_inversions_add_iff h
  rw [← hp.isOdd_iff, Nat.odd_add, ← Nat.not_odd_iff_even, ← hp'.isOdd_iff] at hsum
  revert hsum
  cases p.isOdd <;> cases p'.isOdd <;> simp

end RowOrder

end PivotedLU
