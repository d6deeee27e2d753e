import PivotedLU.Decimal.Shortest

/-!
# The Coarsest Grid

`RoundingWindow.shortest` tries the decimal grids from the coarsest to the finest and takes the
first with a point in the window. Its answer is such a point, and no coarser grid has one: a grid
that misses the window next to its value misses it everywhere, because the window is an interval.

## Main definitions

* `RoundingWindow.Proper`: the value of a window is strictly inside, and zero is outside.

## Main results

* `RoundingWindow.Proper.not_contains_of_nearestOn?`: a grid on which nothing is found.
* `RoundingWindow.Proper.contains_shortest`: the chosen point lies in the window.
* `RoundingWindow.Proper.not_contains_of_shortest_lt`: the points of a coarser grid do not.
-/

namespace PivotedLU

open scoped StructuralPowers

namespace RoundingWindow

variable {w : RoundingWindow} {grid unit x y : Nat}

/-- The value of `w` is strictly inside, and zero is outside. -/
structure Proper (w : RoundingWindow) : Prop where
  low_pos : 0 < w.low
  low_lt : w.low < w.value
  lt_high : w.value < w.high

/-- What lies between the value of `w` and a number `x` of the window lies in the window. -/
theorem Proper.contains_of_between (h : w.Proper) (hx : w.contains x = true)
    (hy : x ≤ y ∧ y ≤ w.value ∨ w.value ≤ y ∧ y ≤ x) : w.contains y = true := by
  have hlow := h.low_lt
  have hhigh := h.lt_high
  unfold contains at hx ⊢
  split
  · next hclosed =>
    rw [if_pos hclosed, decide_eq_true_eq] at hx
    rw [decide_eq_true_eq]
    omega
  · next hopen =>
    rw [if_neg hopen, decide_eq_true_eq] at hx
    rw [decide_eq_true_eq]
    omega

/-- Zero is outside a `Proper` window. -/
theorem Proper.not_contains_zero (h : w.Proper) : w.contains 0 = false := by
  have hlow := h.low_pos
  unfold contains
  split
  · exact decide_eq_false (by omega)
  · exact decide_eq_false (by omega)

/-- The value of a `Proper` window is inside. -/
theorem Proper.contains_value (h : w.Proper) : w.contains w.value = true := by
  have hlow := h.low_lt
  have hhigh := h.lt_high
  unfold contains
  split
  · exact decide_eq_true (by omega)
  · exact decide_eq_true (by omega)

/-- A number `x` of `w` is at most `w.high`. -/
theorem le_high_of_contains (h : w.contains x = true) : x ≤ w.high := by
  unfold contains at h
  split at h
  · exact (of_decide_eq_true h).2
  · exact Nat.le_of_lt (of_decide_eq_true h).2

/-- A `grid` on which `nearestOn?` finds nothing has no point in the window: the two points next to
the value of `w` are outside, and a point further off would have them between it and the value. -/
theorem Proper.not_contains_of_nearestOn? (h : w.Proper) (hnone : w.nearestOn? grid = none)
    (steps : Nat) : w.contains (steps * grid) = false := by
  refine Bool.eq_false_iff.2 fun hsteps => ?_
  unfold nearestOn? at hnone
  dsimp only at hnone
  split at hnone
  · cases hnone
  · split at hnone
    · cases hnone
    · next hdown =>
      split at hnone
      · cases hnone
      · next hup =>
        -- the grid points next to the value are `w.value / grid` steps from zero and one more
        rcases Nat.lt_or_ge (w.value / grid) steps with hlt | hge
        · refine hup (h.contains_of_between hsteps (Or.inr ⟨?_, Nat.mul_le_mul_right grid hlt⟩))
          rcases Nat.eq_zero_or_pos grid with hzero | hpos
          · -- a grid without extent has zero only
            rw [hzero, Nat.mul_zero, h.not_contains_zero] at hsteps
            cases hsteps
          · exact Nat.le_of_lt (Nat.lt_mul_of_div_lt (Nat.lt_succ_self _) hpos)
        · exact hdown (h.contains_of_between hsteps
            (Or.inl ⟨Nat.mul_le_mul_right grid hge, Nat.div_mul_le_self w.value grid⟩))

/-- What `shortestFrom` returns was found by `nearestOn?`, or is the value itself on the last grid;
on the coarser grids that were tried before, `nearestOn?` found nothing. -/
theorem shortestFrom_cases (w : RoundingWindow) (unit power : Nat) :
    ((w.shortestFrom unit power).1 = 0 ∧ (w.shortestFrom unit power).2 = w.value / unit ∨
      w.nearestOn? (unit * 10 ^ (w.shortestFrom unit power).1) =
        some (w.shortestFrom unit power).2) ∧
      ∀ k, (w.shortestFrom unit power).1 < k → k ≤ power →
        w.nearestOn? (unit * 10 ^ k) = none := by
  induction power with
  | zero => exact ⟨Or.inl ⟨rfl, rfl⟩, fun k hlt hle => absurd hlt (by rw [shortestFrom]; omega)⟩
  | succ power ih =>
    rw [shortestFrom]
    cases hnearest : w.nearestOn? (unit * 10 ^ (power + 1)) with
    | some steps => exact ⟨Or.inr hnearest, fun k hlt hle => absurd hlt (Nat.not_lt.2 hle)⟩
    | none =>
      refine ⟨ih.1, fun k hlt hle => ?_⟩
      rcases Nat.lt_or_eq_of_le hle with hle | rfl
      · exact ih.2 k hlt (Nat.le_of_lt_succ hle)
      · exact hnearest

/-- **The chosen point lies in the window**, if the finest grid, that of the multiples of `unit`,
has the value of `w`. -/
theorem Proper.contains_shortest (h : w.Proper) (hunit : unit ∣ w.value) :
    w.contains ((w.shortest unit).2 * (unit * 10 ^ (w.shortest unit).1)) = true := by
  obtain ⟨⟨hpower, hsteps⟩ | hnearest, -⟩ :=
    w.shortestFrom_cases unit (Nat.toDigits 10 (w.high / unit)).length
  · rw [shortest, hpower, hsteps, Nat.pow_zero, Nat.mul_one, Nat.div_mul_cancel hunit]
    exact h.contains_value
  · exact contains_of_nearestOn? hnearest

/-- **No coarser grid has a point in the window**: a multiple of `unit * 10 ^ k` is outside if `k`
is greater than the power that `w.shortest unit` returns. -/
theorem Proper.not_contains_of_shortest_lt (h : w.Proper) (hunit : 0 < unit) {k : Nat}
    (hk : (w.shortest unit).1 < k) (steps : Nat) :
    w.contains (steps * (unit * 10 ^ k)) = false := by
  rcases Nat.lt_or_ge (Nat.toDigits 10 (w.high / unit)).length k with hlt | hle
  · -- one step leads beyond the window
    rcases Nat.eq_zero_or_pos steps with rfl | hpos
    · rw [Nat.zero_mul, h.not_contains_zero]
    · refine Bool.eq_false_iff.2 fun hcontains => ?_
      have hhigh : w.high / unit < 10 ^ k :=
        (Nat.length_toDigits_le_iff (by decide) (by omega)).1 (Nat.le_of_lt hlt)
      have hbound := le_high_of_contains hcontains
      have hstep : unit * 10 ^ k ≤ steps * (unit * 10 ^ k) := Nat.le_mul_of_pos_left _ hpos
      rw [Nat.div_lt_iff_lt_mul hunit, Nat.mul_comm] at hhigh
      omega
  · exact h.not_contains_of_nearestOn? ((w.shortestFrom_cases unit _).2 k hk hle) steps

end RoundingWindow

end PivotedLU
