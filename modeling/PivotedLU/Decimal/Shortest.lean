import PivotedLU.Binary.Format

/-!
# Shortest Decimals

A rounded value is recovered from every number in a window around it. The shortest decimal of
the value is the point of the coarsest decimal grid that meets the window. Decimal grids are
nested, so this is the decimal with the fewest digits, and it ends in no zero.

Everything is a natural number in one common unit, so no rounding takes place.

## Main definitions

* `Decimal`: a coefficient and a power of ten.
* `RoundingWindow`: a value and the numbers that round to it.
* `RoundingWindow.nearestOn?`: the point of a grid in the window that is nearest to the value.
* `RoundingWindow.shortest`: the coarsest grid that has such a point, and that point.

## Main results

* `RoundingWindow.contains_of_nearestOn?`: the chosen point lies in the window.
-/

namespace PivotedLU

open scoped StructuralPowers

/-- The number `coefficient * 10 ^ exponent`. -/
structure Decimal where
  coefficient : Nat
  exponent : Int
deriving DecidableEq, Repr

/-- A value and the interval of numbers that round to it, in a common unit. -/
structure RoundingWindow where
  /-- The lower end of the interval. -/
  low : Nat
  /-- The value itself. -/
  value : Nat
  /-- The upper end of the interval. -/
  high : Nat
  /-- The ends belong to the interval. -/
  closed : Bool

namespace RoundingWindow

/-- The number `x` rounds to the value of `w`. -/
def contains (w : RoundingWindow) (x : Nat) : Bool :=
  if w.closed then decide (w.low ≤ x ∧ x ≤ w.high) else decide (w.low < x ∧ x < w.high)

/-- The multiple of `grid` in the window that is nearest to the value, as a number of grid
steps. Of two equally near ones the upper is taken. -/
def nearestOn? (w : RoundingWindow) (grid : Nat) : Option Nat :=
  let steps := w.value / grid
  if w.contains ((steps + 1) * grid) && decide (grid ≤ 2 * (w.value % grid)) then
    some (steps + 1)
  else if w.contains (steps * grid) then
    some steps
  else if w.contains ((steps + 1) * grid) then
    some (steps + 1)
  else
    none

/-- If `nearestOn?` finds `steps` steps of `grid`, then `steps * grid` lies in the window. -/
theorem contains_of_nearestOn? {w : RoundingWindow} {grid steps : Nat}
    (h : w.nearestOn? grid = some steps) : w.contains (steps * grid) = true := by
  -- above if that is nearer, below, or above after all: each time the point was found inside
  unfold nearestOn? at h
  dsimp only at h
  split at h
  · next hup =>
    cases h
    exact (Bool.and_eq_true _ _ ▸ hup).1
  · split at h
    · next hdown =>
      cases h
      exact hdown
    · split at h
      · next hup =>
        cases h
        exact hup
      · cases h

/-- The first of the grids `unit * 10 ^ power, …, unit * 10, unit` with a point in the window:
the power of ten and the number of steps. On the last grid the value counts as hit. -/
def shortestFrom (w : RoundingWindow) (unit : Nat) : Nat → Nat × Nat
  | 0 => (0, w.value / unit)
  | power + 1 =>
    match w.nearestOn? (unit * 10 ^ (power + 1)) with
    | some steps => (power + 1, steps)
    | none => shortestFrom w unit power

/-- The shortest decimal of the value: the power of ten of the coarsest grid that meets the
window and the number of its steps. `unit` is the length of one step of the finest grid. -/
def shortest (w : RoundingWindow) (unit : Nat) : Nat × Nat :=
  w.shortestFrom unit (Nat.toDigits 10 (w.high / unit)).length

end RoundingWindow

end PivotedLU
