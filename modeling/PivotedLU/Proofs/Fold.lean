import Mathlib.Algebra.BigOperators.Fin

/-!
# Ordered Folds

Every loop over the places of a row or a vector is a fold over `Fin n` by ascending index, often
one in which only some indices act. This module relates such folds to each other, for any steps
whatsoever, and to sums and products where the steps add, subtract or multiply.

## Main results

* `foldl_invariant`: a property that every step carries on holds at the end.
* `foldl_each`: steps that change one place each.
* `foldl_hom`: a view under which the steps correspond.
* `foldl_eq_guard`: indices that change no value that is reached need not act.
* `foldl_guard_eq`: a single index that acts.
* `foldl_guard_le`: the indices up to `m` act as the indices below `m` and then `m`.
* `foldl_take_finRange`, `foldl_drop_finRange`: folds over the first and the last indices.
* `foldl_add_guard`, `foldl_sub_guard`: guarded folds that add or subtract are sums.
* `foldl_mul`: a fold that multiplies is a product.
* `sum_eq_guard_add`: a sum all of whose terms are zero but for those that count and one more.
-/

namespace PivotedLU

universe u v

section Steps

variable {β : Type u} {γ : Type v} {n : Nat}

/-- A `motive` of the number of steps taken and the value reached, true at the start and carried on
by every step, is true at the end. -/
theorem foldl_invariant {f : β → Fin n → β} (motive : Nat → β → Prop) {start : β}
    (h0 : motive 0 start)
    (hstep : ∀ (k : Fin n) (b : β), motive k b → motive (k + 1) (f b k)) :
    motive n (Fin.foldl n f start) := by
  induction n with
  | zero =>
    rw [Fin.foldl_zero]
    exact h0
  | succ n ih =>
    rw [Fin.foldl_succ_last]
    exact hstep (Fin.last n) _ (ih fun k b hb => hstep k.castSucc b hb)

/-- A fold whose step `k` changes only place `k` changes every place once. -/
theorem foldl_each {f : β → Fin n → β} (place : β → Fin n → γ) (change : Fin n → γ → γ)
    (h : ∀ b k j, place (f b k) j = if j = k then change k (place b k) else place b j) (start : β)
    (j : Fin n) : place (Fin.foldl n f start) j = change j (place start j) := by
  -- after `m` steps the places before `m` are changed
  have hplaces : ∀ j : Fin n, place (Fin.foldl n f start) j =
      if j.val < n then change j (place start j) else place start j := by
    refine foldl_invariant (fun m b => ∀ j : Fin n, place b j =
      if j.val < m then change j (place start j) else place start j)
      (fun j => (if_neg (Nat.not_lt_zero _)).symm) fun k b hb j => ?_
    rw [h]
    by_cases hj : j = k
    · subst hj
      rw [if_pos rfl, hb, if_neg (lt_irrefl _), if_pos (Nat.lt_succ_self _)]
    · have hlt : j.val < k.val + 1 ↔ j.val < k.val := by omega
      rw [if_neg hj, hb]
      simp only [hlt]
  rw [hplaces, if_pos j.isLt]

/-- If `view` turns every step of `f` into a step of `f'` on the views, it turns the fold into the
fold of `f'`. -/
theorem foldl_hom {f : β → Fin n → β} {f' : γ → Fin n → γ} (view : β → γ)
    (h : ∀ b k, view (f b k) = f' (view b) k) (start : β) :
    view (Fin.foldl n f start) = Fin.foldl n f' (view start) := by
  rw [Fin.foldl_eq_finRange_foldl, Fin.foldl_eq_finRange_foldl]
  exact (List.foldl_hom view fun b k => (h b k).symm).symm

/-- Folds agree if their steps `f` and `f'` agree. -/
theorem foldl_congr_step {f f' : β → Fin n → β} (h : ∀ b k, f b k = f' b k) (start : β) :
    Fin.foldl n f start = Fin.foldl n f' start :=
  foldl_hom id h start

/-- Guarded folds agree if the same indices act, by `p` and by `p'`, and act in the same way. -/
theorem foldl_guard_congr {f f' : β → Fin n → β} {p p' : Fin n → Prop} [DecidablePred p]
    [DecidablePred p'] (hp : ∀ k, p k ↔ p' k) (h : ∀ b k, p k → f b k = f' b k) (start : β) :
    Fin.foldl n (fun b k => if p k then f b k else b) start =
      Fin.foldl n (fun b k => if p' k then f' b k else b) start := by
  refine foldl_congr_step (fun b k => ?_) start
  by_cases hk : p k
  · rw [if_pos hk, if_pos ((hp k).1 hk), h b k hk]
  · rw [if_neg hk, if_neg fun hk' => hk ((hp k).2 hk')]

/-- A fold in which no index acts stays at `start`. -/
theorem foldl_guard_false {f : β → Fin n → β} {p : Fin n → Prop} [DecidablePred p]
    (hp : ∀ k, ¬p k) (start : β) :
    Fin.foldl n (fun b k => if p k then f b k else b) start = start := by
  refine foldl_invariant (fun _ b => b = start) rfl fun k b hb => ?_
  rw [if_neg (hp k)]
  exact hb

/-- The indices outside `p` can be left out if they change none of the values that are reached,
which have the property `motive`. -/
theorem foldl_eq_guard {f : β → Fin n → β} {p : Fin n → Prop} [DecidablePred p]
    (motive : β → Prop) {start : β} (h0 : motive start)
    (hstep : ∀ b k, motive b → motive (f b k)) (hskip : ∀ b k, ¬p k → motive b → f b k = b) :
    Fin.foldl n f start = Fin.foldl n (fun b k => if p k then f b k else b) start := by
  induction n with
  | zero => rw [Fin.foldl_zero, Fin.foldl_zero]
  | succ n ih =>
    have hreached : motive (Fin.foldl n (fun b k => f b k.castSucc) start) :=
      foldl_invariant (fun _ => motive) h0 fun k b hb => hstep b k.castSucc hb
    rw [Fin.foldl_succ_last, Fin.foldl_succ_last,
      ← ih (fun b k => hstep b k.castSucc) (fun b k => hskip b k.castSucc)]
    split
    · rfl
    · next hlast => exact hskip _ _ hlast hreached

/-- If the index `m` alone acts, the fold is its step. -/
theorem foldl_guard_eq (f : β → Fin n → β) (m : Fin n) (start : β) :
    Fin.foldl n (fun b k => if k = m then f b k else b) start = f start m := by
  -- the step has been made once the fold is past `m`
  have hsteps : Fin.foldl n (fun b k => if k = m then f b k else b) start =
      if m.val < n then f start m else start := by
    refine foldl_invariant (fun j b => b = if m.val < j then f start m else start)
      (if_neg (Nat.not_lt_zero _)).symm fun k b hb => ?_
    by_cases hk : k = m
    · subst hk
      rw [if_pos rfl, hb, if_neg (lt_irrefl _), if_pos (Nat.lt_succ_self _)]
    · have hlt : m.val < k.val + 1 ↔ m.val < k.val := by omega
      rw [if_neg hk, hb]
      simp only [hlt]
  rw [hsteps, if_pos m.isLt]

/-- If the indices up to `m` act, `m` acts last, after the indices below it. -/
theorem foldl_guard_le (f : β → Fin n → β) (m : Fin n) (start : β) :
    Fin.foldl n (fun b k => if k ≤ m then f b k else b) start =
      f (Fin.foldl n (fun b k => if k < m then f b k else b) start) m := by
  induction n with
  | zero => exact m.elim0
  | succ n ih =>
    rw [Fin.foldl_succ_last, Fin.foldl_succ_last]
    cases m using Fin.lastCases with
    | last =>
      -- every index before the last is below it
      have hle : ∀ k : Fin n, k.castSucc ≤ Fin.last n := fun k => Fin.le_last _
      have hlt : ∀ k : Fin n, k.castSucc < Fin.last n := fun k => Fin.castSucc_lt_last k
      simp only [hle, hlt, le_refl, lt_irrefl, if_true, if_false]
    | cast m =>
      have hlast : ¬Fin.last n ≤ m.castSucc := not_le.2 (Fin.castSucc_lt_last m)
      have hlast' : ¬Fin.last n < m.castSucc := fun h => hlast h.le
      rw [if_neg hlast, if_neg hlast']
      exact ih (fun b k => f b k.castSucc) m

/-- A fold over the first `m` indices is a fold in which only they act. -/
theorem foldl_take_finRange (f : β → Fin n → β) (m : Nat) (start : β) :
    ((List.finRange n).take m).foldl f start =
      Fin.foldl n (fun b k => if k.val < m then f b k else b) start := by
  induction n generalizing m start with
  | zero => simp
  | succ n ih =>
    rw [List.finRange_succ, Fin.foldl_succ]
    cases m with
    | zero =>
      rw [List.take_zero, if_neg (Nat.not_lt_zero _)]
      exact (foldl_guard_false (fun k hk => Nat.not_lt_zero _ hk) start).symm
    | succ m =>
      rw [List.take_succ_cons, List.foldl_cons, ← List.map_take, List.foldl_map, ih]
      simp only [Fin.val_zero, Fin.val_succ, Nat.add_lt_add_iff_right, Nat.zero_lt_succ, if_true]

/-- A fold over the indices from `m` on is a fold in which only they act. -/
theorem foldl_drop_finRange (f : β → Fin n → β) (m : Nat) (start : β) :
    ((List.finRange n).drop m).foldl f start =
      Fin.foldl n (fun b k => if m ≤ k.val then f b k else b) start := by
  induction n generalizing m start with
  | zero => simp
  | succ n ih =>
    rw [List.finRange_succ, Fin.foldl_succ]
    cases m with
    | zero =>
      rw [List.drop_zero, List.foldl_cons, List.foldl_map, if_pos (Nat.zero_le _),
        Fin.foldl_eq_finRange_foldl]
      simp only [Nat.zero_le, if_true]
    | succ m =>
      rw [List.drop_succ_cons, ← List.map_drop, List.foldl_map, ih]
      have hfirst : ¬m + 1 ≤ (0 : Fin (n + 1)).val := Nat.not_succ_le_zero m
      rw [if_neg hfirst]
      simp only [Fin.val_succ, Nat.add_le_add_iff_right]

end Steps

/-! ## Folds that are sums or products -/

section Sums

variable {M : Type u} {n : Nat}

/-- A guarded fold that adds is `start` and the sum of the terms that count by `p`. -/
theorem foldl_add_guard [AddCommMonoid M] (p : Fin n → Prop) [DecidablePred p] (f : Fin n → M)
    (start : M) :
    Fin.foldl n (fun acc k => if p k then acc + f k else acc) start =
      start + ∑ k, if p k then f k else 0 := by
  induction n with
  | zero => rw [Fin.foldl_zero, Fin.sum_univ_zero, add_zero]
  | succ n ih =>
    rw [Fin.foldl_succ_last, Fin.sum_univ_castSucc, ih fun k => p k.castSucc, ← add_assoc]
    split
    · rfl
    · rw [add_zero]

/-- A guarded fold that subtracts is `start` less the sum of the terms that count by `p`. -/
theorem foldl_sub_guard [AddCommGroup M] (p : Fin n → Prop) [DecidablePred p] (f : Fin n → M)
    (start : M) :
    Fin.foldl n (fun acc k => if p k then acc - f k else acc) start =
      start - ∑ k, if p k then f k else 0 := by
  have hneg : (∑ k, if p k then -f k else 0) = -∑ k, if p k then f k else 0 := by
    rw [← Finset.sum_neg_distrib]
    refine Finset.sum_congr rfl fun k _ => ?_
    rw [neg_ite, neg_zero]
  rw [sub_eq_add_neg, ← hneg, ← foldl_add_guard]
  exact foldl_congr_step (fun acc k => by simp only [sub_eq_add_neg]) start

/-- A fold that adds is `start` and the sum of the terms `f k`. -/
theorem foldl_add [AddCommMonoid M] (f : Fin n → M) (start : M) :
    Fin.foldl n (fun acc k => acc + f k) start = start + ∑ k, f k := by
  simpa using foldl_add_guard (fun _ => True) f start

/-- A fold that multiplies is `start` times the product of the factors `f k`. -/
theorem foldl_mul [CommMonoid M] (f : Fin n → M) (start : M) :
    Fin.foldl n (fun acc k => acc * f k) start = start * ∏ k, f k := by
  induction n with
  | zero => rw [Fin.foldl_zero, Fin.prod_univ_zero, mul_one]
  | succ n ih => rw [Fin.foldl_succ_last, Fin.prod_univ_castSucc, ih, mul_assoc]

/-- A sum without the terms that are zero: those that count by `p`, and the one at `i`. -/
theorem sum_eq_guard_add [AddCommMonoid M] {p : Fin n → Prop} [DecidablePred p] {i : Fin n}
    {f g : Fin n → M} (hi : ¬p i) (hcount : ∀ k, p k → f k = g k)
    (hzero : ∀ k, ¬p k → k ≠ i → f k = 0) :
    ∑ k, f k = (∑ k, if p k then g k else 0) + f i := by
  have hterm : ∀ k, f k = (if p k then g k else 0) + if k = i then f i else 0 := by
    intro k
    by_cases hk : p k
    · have hki : k ≠ i := by
        rintro rfl
        exact hi hk
      rw [if_pos hk, if_neg hki, add_zero, hcount k hk]
    · rw [if_neg hk, zero_add]
      by_cases hki : k = i
      · rw [if_pos hki, hki]
      · rw [if_neg hki, hzero k hk hki]
  rw [Finset.sum_congr rfl fun k _ => hterm k, Finset.sum_add_distrib,
    Finset.sum_ite_eq' Finset.univ i, if_pos (Finset.mem_univ i)]

end Sums

end PivotedLU
