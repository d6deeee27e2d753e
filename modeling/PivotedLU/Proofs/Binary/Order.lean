import PivotedLU.Proofs.Binary.Rounding
import PivotedLU.Proofs.Elimination.Scan

/-!
# The Order of Floats

The floats that are numbers stand in one line, the infinities at its ends and the two zeros at one
place. This module gives the place of a float as an integer number of quanta, with one more than
the largest magnitude for the infinities, so that every fact about comparisons is a fact about
integers.

## Main definitions

* `Binary.rank`: the place of a number in the line.
* `Binary.atMost`: at most, as numbers.

## Main results

* `Binary.below_iff`, `Binary.atMost_iff`, `Binary.equals_iff`: comparisons are those of the
  places, and false if one of the two is not a number.
* `Binary.strictComparison`, `Binary.linearComparison`: the comparison of floats is a strict order,
  and the floats that compare with anything, which are the numbers, stand in one line.
* `Binary.abs_eq_of_not_below`: magnitudes at one place are the same.
* `Binary.magnitudeLaws`: so the largest magnitude of a column is unique.
-/

namespace PivotedLU

namespace Binary

variable {F : Format}

/-- At most, as numbers: `x` is `below` `y` or `equals` it. This is false as soon as one of the two
is `nan`. -/
def atMost (x y : Binary F) : Bool :=
  below x y || equals x y

/-- The place of a number: its signed magnitude in quanta, and one step beyond the largest finite
magnitude for an infinity. What is `nan` has no place, and gets that of zero. -/
def rank : Binary F → Int
  | .nan => 0
  | .infinity negative => signed negative (F.largest + 1)
  | .finite negative quanta _ => signed negative quanta

/-! ## Comparisons -/

/-- By `below`, numbers stand in the order of their `rank`, and `nan` is below and above nothing. -/
theorem below_iff (x y : Binary F) :
    below x y = true ↔ x.isNaN = false ∧ y.isNaN = false ∧ x.rank < y.rank := by
  cases x with
  | nan => simp [below, isNaN]
  | infinity a =>
    cases y with
    | nan => simp [below, isNaN]
    | infinity b => cases a <;> cases b <;> simp [below, isNaN, rank, signed] <;> omega
    | finite b y hy =>
      have hle : y ≤ F.largest := hy.1
      cases a <;> cases b <;> simp [below, isNaN, rank, signed] <;> omega
  | finite a x hx =>
    have hle : x ≤ F.largest := hx.1
    cases y with
    | nan => simp [below, isNaN]
    | infinity b => cases a <;> cases b <;> simp [below, isNaN, rank, signed] <;> omega
    | finite b y hy => simp [below, isNaN, rank]

/-- By `equals`, numbers of one `rank` are the same, and `nan` is the same as nothing. -/
theorem equals_iff (x y : Binary F) :
    equals x y = true ↔ x.isNaN = false ∧ y.isNaN = false ∧ x.rank = y.rank := by
  cases x with
  | nan => simp [equals, isNaN]
  | infinity a =>
    cases y with
    | nan => simp [equals, isNaN]
    | infinity b => cases a <;> cases b <;> simp [equals, isNaN, rank, signed] <;> omega
    | finite b y hy =>
      have hle : y ≤ F.largest := hy.1
      cases a <;> cases b <;> simp [equals, isNaN, rank, signed] <;> omega
  | finite a x hx =>
    have hle : x ≤ F.largest := hx.1
    cases y with
    | nan => simp [equals, isNaN]
    | infinity b => cases a <;> cases b <;> simp [equals, isNaN, rank, signed] <;> omega
    | finite b y hy => simp [equals, isNaN, rank]

theorem atMost_iff (x y : Binary F) :
    atMost x y = true ↔ x.isNaN = false ∧ y.isNaN = false ∧ x.rank ≤ y.rank := by
  rw [atMost, Bool.or_eq_true, below_iff, equals_iff, ← and_or_left, ← and_or_left,
    ← Int.le_iff_lt_or_eq]

theorem atMost_trans {x y z : Binary F} (h : atMost x y = true) (h' : atMost y z = true) :
    atMost x z = true := by
  obtain ⟨hx, -, hxy⟩ := (atMost_iff x y).1 h
  obtain ⟨-, hz, hyz⟩ := (atMost_iff y z).1 h'
  exact (atMost_iff x z).2 ⟨hx, hz, Int.le_trans hxy hyz⟩

theorem equals_self {x : Binary F} (h : x.isFinite) : x.equals x := by
  cases x with
  | finite negative quanta _ => exact beq_self_eq_true _
  | _ => cases h

theorem equals_trans {x y z : Binary F} (h : equals x y = true) (h' : equals y z = true) :
    equals x z = true := by
  obtain ⟨hx, -, hxy⟩ := (equals_iff x y).1 h
  obtain ⟨-, hz, hyz⟩ := (equals_iff y z).1 h'
  exact (equals_iff x z).2 ⟨hx, hz, hxy.trans hyz⟩

/-- By `below`, floats are in a strict order, in which `nan` compares with nothing. -/
theorem strictComparison : Elimination.StrictComparison (Binary F) where
  irrefl x := by
    refine Bool.eq_false_iff.2 fun h => ?_
    obtain ⟨-, -, hlt⟩ := (below_iff x x).1 h
    exact Int.lt_irrefl _ hlt
  trans x y z hxy hyz := by
    obtain ⟨hx, -, hlt⟩ := (below_iff x y).1 hxy
    obtain ⟨-, hz, hlt'⟩ := (below_iff y z).1 hyz
    exact (below_iff x z).2 ⟨hx, hz, Int.lt_trans hlt hlt'⟩

/-- A float `x` is `Unordered` exactly if it is not a number. -/
theorem unordered_iff (x : Binary F) : Scalar.Unordered x ↔ x.isNaN = true := by
  constructor
  · intro h
    cases x with
    | nan => rfl
    | infinity a =>
      -- an infinity compares with the finite numbers, and these with the infinities
      cases a with
      | false => exact absurd (h 0).2 Bool.false_ne_true.symm
      | true => exact absurd (h 0).1 Bool.false_ne_true.symm
    | finite a q hq => exact absurd (h (infinity false)).1 Bool.false_ne_true.symm
  · intro hx y
    cases x with
    | nan => cases y <;> exact ⟨rfl, rfl⟩
    | infinity a => cases hx
    | finite a q hq => cases hx

/-- By `below`, the floats that compare with anything stand in one line. -/
theorem linearComparison : Elimination.LinearComparison (Binary F) where
  toStrictComparison := strictComparison
  between x y z hxy hz := by
    obtain ⟨hx, hy, hlt⟩ := (below_iff x y).1 hxy
    rw [unordered_iff, Bool.not_eq_true] at hz
    rcases Int.lt_or_le x.rank z.rank with hxz | hzx
    · exact Or.inl ((below_iff x z).2 ⟨hx, hz, hxz⟩)
    · exact Or.inr ((below_iff z y).2 ⟨hz, hy, Int.lt_of_le_of_lt hzx hlt⟩)

/-- Of two numbers, `x` is at most `y` exactly if `y` is not below `x`. -/
theorem atMost_iff_not_below {x y : Binary F} (hx : x.isNaN = false) (hy : y.isNaN = false) :
    atMost x y = true ↔ below y x = false := by
  have hbelow : below y x = true ↔ y.rank < x.rank := by simp [below_iff, hx, hy]
  rw [atMost_iff, ← Int.not_lt, ← hbelow, Bool.not_eq_true]
  simp [hx, hy]

/-! ## Magnitudes -/

@[simp]
theorem isNaN_abs (x : Binary F) : x.abs.isNaN = x.isNaN := by
  cases x <;> rfl

/-- Under either sign, `quanta` have their own magnitude. -/
theorem natAbs_signed (negative : Bool) (quanta : Nat) :
    (signed negative quanta).natAbs = quanta := by
  cases negative with
  | false => rfl
  | true =>
    show (-(quanta : Int)).natAbs = quanta
    rw [Int.natAbs_neg]
    rfl

/-- The `rank` of `x.abs` is the magnitude of that of `x`. -/
@[simp]
theorem rank_abs (x : Binary F) : x.abs.rank = x.rank.natAbs := by
  cases x with
  | nan => rfl
  | infinity a =>
    show ((F.largest + 1 : Nat) : Int) = (signed a (F.largest + 1)).natAbs
    rw [natAbs_signed]
  | finite a x hx =>
    show (x : Int) = (signed a x).natAbs
    rw [natAbs_signed]

/-- Floats `x` and `y` that are equal as numbers are the same, or both are zeros. -/
theorem eq_or_zeros_of_equals {x y : Binary F} (h : equals x y = true) :
    x = y ∨ ∃ negative negative', x = zero negative ∧ y = zero negative' := by
  cases x with
  | nan => cases h
  | infinity a =>
    cases y with
    | infinity b => exact Or.inl (congrArg infinity (eq_of_beq h))
    | _ => cases h
  | finite a x hx =>
    cases y with
    | finite b y hy =>
      have hsigned : signed a x = signed b y := eq_of_beq h
      obtain rfl : x = y := by simpa only [natAbs_signed] using congrArg Int.natAbs hsigned
      rcases Nat.eq_zero_or_pos x with rfl | hpos
      · exact Or.inr ⟨a, b, rfl, rfl⟩
      · -- a magnitude above zero has two signs, which are at two places
        have hsign : a = b := by
          cases a <;> cases b <;> simp [signed] at hsigned ⊢ <;> omega
        exact Or.inl (by rw [hsign])
    | _ => cases h

/-- Zeros of either sign are equal as numbers. -/
theorem equals_zeros (negative negative' : Bool) :
    equals (zero negative : Binary F) (zero negative') = true := by
  cases negative <;> cases negative' <;> rfl

/-- What `equals` `0` is the zero of a sign. -/
theorem equals_zero_iff {x : Binary F} : equals x 0 = true ↔ ∃ negative, x = zero negative := by
  constructor
  · intro h
    rcases eq_or_zeros_of_equals h with rfl | ⟨negative, -, hx, -⟩
    · exact ⟨false, rfl⟩
    · exact ⟨negative, hx⟩
  · rintro ⟨negative, rfl⟩
    exact equals_zeros negative false

theorem abs_eq_of_equals {x y : Binary F} (h : equals x y = true) : x.abs = y.abs := by
  rcases eq_or_zeros_of_equals h with rfl | ⟨a, b, rfl, rfl⟩ <;> rfl

/-- Numbers `x` and `y`, neither of them above the other in magnitude, have the same magnitude. -/
theorem abs_eq_of_not_below {x y : Binary F} (hx : x.isNaN = false) (hy : y.isNaN = false)
    (h : below x.abs y.abs = false) (h' : below y.abs x.abs = false) : x.abs = y.abs := by
  cases x with
  | nan => cases hx
  | infinity a =>
    cases y with
    | nan => cases hy
    | infinity b => rfl
    | finite b y hy => cases h'
  | finite a x hx =>
    cases y with
    | nan => cases hy
    | infinity b => cases h
    | finite b y hy =>
      have hle : y ≤ x := Int.ofNat_le.1 (Int.not_lt.1 (of_decide_eq_false h))
      have hle' : x ≤ y := Int.ofNat_le.1 (Int.not_lt.1 (of_decide_eq_false h'))
      obtain rfl : x = y := Nat.le_antisymm hle' hle
      rfl

/-- Floats have the `MagnitudeLaws` that make a largest magnitude unique. -/
theorem magnitudeLaws : Elimination.MagnitudeLaws (Binary F) where
  toStrictComparison := strictComparison
  unordered x hx := by
    rw [unordered_iff] at hx ⊢
    exact (isNaN_abs x).trans hx
  ordered_zero h := Bool.false_ne_true ((unordered_iff _).1 h)
  magnitude_zero := rfl
  not_below_zero x := by
    cases x with
    | nan => rfl
    | infinity a => rfl
    | finite a q hq => exact decide_eq_false (Int.not_lt.2 (Int.natCast_nonneg q))
  eq_of_not_below x y hx hy h h' := by
    rw [unordered_iff, Bool.not_eq_true] at hx hy
    exact abs_eq_of_not_below hx hy h h'

end Binary

end PivotedLU
