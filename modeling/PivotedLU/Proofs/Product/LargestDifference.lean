import PivotedLU.DenseMatrix.Product
import PivotedLU.Proofs.Binary.Laws

/-!
# What the Largest Difference Tells

The largest difference of two matrices is a fold that starts from zero and takes up the magnitude
of a difference only if the value so far is below it. Whatever the comparison, if only it is a
strict order, no difference is above the result, and the result is zero or one of the differences.

Floats that are not numbers are below nothing and above nothing. A difference that is not a number
is therefore passed over, wherever it stands: the largest difference bounds the differences of the
numbers, and says nothing about entries that are not numbers.

## Main definitions

* `DenseMatrix.differences`: the magnitudes of the differences of matching entries.

## Main results

* `StrictComparison.not_below_maxAbsDiff`, `StrictComparison.maxAbsDiff_cases`: no difference is
  above the largest one, which is zero or attained.
* `StrictComparison.maxAbsDiff_eq_zero_iff`: when it is zero.
* `DenseMatrix.maxAbsDiff_comm`: it is symmetric if the magnitude of every difference is.
* `Binary.abs_sub_comm`: this is so for floats.
* `Binary.negligible_sub_iff`: which differences are zeros or not numbers.
* `maxAbsDiff_bounds`: what the largest difference of two matrices of floats bounds.
* `maxAbsDiff_not_bound`: it is no bound where an entry is not a number.
-/

namespace PivotedLU

universe u

open Scalar (Negligible below larger magnitude)

variable {α : Type u} [Scalar α] {n m : Nat}

/-! ## The larger of many -/

namespace Elimination.StrictComparison

/-- No `x` among the candidates is above the value that is left. -/
theorem not_below_foldl_larger (hα : StrictComparison α) {xs : List α} {x : α} (hx : x ∈ xs)
    (start : α) : below (xs.foldl larger start) x = false := by
  -- once `x` is taken up, the candidates that follow it keep the property
  obtain ⟨before, after, rfl⟩ := List.append_of_mem hx
  rw [List.foldl_append, List.foldl_cons]
  exact List.foldlRecOn after larger (motive := fun running => below running x = false)
    (hα.not_below_larger_self _ x) fun running hrunning y _ => hα.not_below_larger hrunning y

/-- The value that is left is the one at the `start`, or a candidate above it. -/
theorem foldl_larger_cases (hα : StrictComparison α) (xs : List α) (start : α) :
    xs.foldl larger start = start ∨
      (xs.foldl larger start ∈ xs ∧ below start (xs.foldl larger start) = true) := by
  refine List.foldlRecOn xs larger
    (motive := fun running => running = start ∨ (running ∈ xs ∧ below start running = true))
    (Or.inl rfl) ?_
  intro running hrunning x hx
  unfold larger
  split
  · next hcandidate =>
    refine Or.inr ⟨hx, ?_⟩
    rcases hrunning with rfl | ⟨-, habove⟩
    · exact hcandidate
    · exact hα.trans _ _ _ habove hcandidate
  · exact hrunning

end Elimination.StrictComparison

/-! ## The largest difference -/

namespace DenseMatrix

/-- The magnitudes of the differences of matching entries of `A` and `B`, row by row. -/
def differences (A B : DenseMatrix n α) : List α :=
  (List.finRange n).flatMap fun i =>
    (List.finRange n).map fun j => magnitude (A.entry i j - B.entry i j)

theorem mem_differences {A B : DenseMatrix n α} {x : α} :
    x ∈ A.differences B ↔ ∃ i j, magnitude (A.entry i j - B.entry i j) = x := by
  simp [differences]

theorem maxAbsDiff_eq_foldl (A B : DenseMatrix n α) :
    A.maxAbsDiff B = (A.differences B).foldl larger 0 := by
  simp only [maxAbsDiff, differences, Fin.foldl_eq_finRange_foldl, List.foldl_flatMap,
    List.foldl_map]

theorem maxAbsDiff?_self_size (A B : DenseMatrix n α) :
    A.maxAbsDiff? B = some (A.maxAbsDiff B) :=
  dif_pos rfl

/-- Matrices `A` and `B` of two sizes have no largest difference. -/
theorem maxAbsDiff?_of_ne (A : DenseMatrix n α) (B : DenseMatrix m α) (h : m ≠ n) :
    A.maxAbsDiff? B = none :=
  dif_neg h

/-- The largest difference is symmetric if the magnitude of every difference is. -/
theorem maxAbsDiff_comm (h : ∀ x y : α, magnitude (x - y) = magnitude (y - x))
    (A B : DenseMatrix n α) : A.maxAbsDiff B = B.maxAbsDiff A := by
  have hdifferences : A.differences B = B.differences A := by
    unfold differences
    simp only [h (A.entry _ _)]
  rw [maxAbsDiff_eq_foldl, maxAbsDiff_eq_foldl, hdifferences]

end DenseMatrix

namespace Elimination.StrictComparison

variable (A B : DenseMatrix n α)

/-- No difference is above `A.maxAbsDiff B`. -/
theorem not_below_maxAbsDiff (hα : StrictComparison α) (i j : Fin n) :
    below (A.maxAbsDiff B) (magnitude (A.entry i j - B.entry i j)) = false := by
  rw [DenseMatrix.maxAbsDiff_eq_foldl]
  exact hα.not_below_foldl_larger (DenseMatrix.mem_differences.2 ⟨i, j, rfl⟩) 0

/-- The value of `A.maxAbsDiff B` is `0`, or the difference of two entries and above `0`. -/
theorem maxAbsDiff_cases (hα : StrictComparison α) :
    A.maxAbsDiff B = 0 ∨
      ((∃ i j, magnitude (A.entry i j - B.entry i j) = A.maxAbsDiff B) ∧
        below 0 (A.maxAbsDiff B) = true) := by
  rw [← DenseMatrix.mem_differences, DenseMatrix.maxAbsDiff_eq_foldl]
  exact hα.foldl_larger_cases _ 0

/-- The value of `A.maxAbsDiff B` is `0` exactly if all differences are `Negligible`. -/
theorem maxAbsDiff_eq_zero_iff (hα : StrictComparison α) :
    A.maxAbsDiff B = 0 ↔ ∀ i j, Negligible (A.entry i j - B.entry i j) := by
  constructor
  · intro h i j
    have hlargest := hα.not_below_maxAbsDiff A B i j
    rwa [h] at hlargest
  · intro h
    rcases hα.maxAbsDiff_cases A B with hzero | ⟨⟨i, j, hij⟩, habove⟩
    · exact hzero
    · rw [← hij] at habove
      exact absurd ((h i j).symm.trans habove) Bool.false_ne_true

end Elimination.StrictComparison

/-! ## Differences of floats -/

namespace Binary

variable {F : Format}

theorem signed_not (negative : Bool) (quanta : Nat) :
    signed (!negative) quanta = -signed negative quanta := by
  cases negative
  · rfl
  · exact (Int.neg_neg _).symm

/-- The difference of `x` and `y` has the same magnitude both ways, since rounding does not look at
signs. -/
theorem abs_sub_comm (x y : Binary F) : (sub x y).abs = (sub y x).abs := by
  cases x with
  | nan => cases y <;> rfl
  | infinity a =>
    cases y with
    | infinity b => cases a <;> cases b <;> rfl
    | _ => rfl
  | finite a x hx =>
    cases y with
    | finite b y hy =>
      -- the exact differences are opposite, and rounding looks at their magnitude
      have hsum : signed b y + signed (!a) x = -(signed a x + signed (!b) y) := by
        rw [signed_not, signed_not]
        omega
      show (ofQuotient _ (signed a x + signed (!b) y).natAbs 1).abs =
        (ofQuotient _ (signed b y + signed (!a) x).natAbs 1).abs
      rw [abs_ofQuotient, abs_ofQuotient, hsum, Int.natAbs_neg]
    | _ => rfl

/-- The difference of finite values is a zero exactly if they are equal: none other is rounded to
zero. -/
theorem negligible_sub_finite_iff {a b : Bool} {x y : Nat} (hx : F.Represents x)
    (hy : F.Represents y) :
    Negligible (sub (finite a x hx) (finite b y hy)) ↔ signed a x = signed b y := by
  have hexact : signed a x + signed (!b) y = 0 ↔ signed a x = signed b y := by
    rw [signed_not]
    omega
  rw [← hexact]
  refine ⟨fun h => ?_, negligible_add_of_sum_eq_zero hx hy⟩
  by_contra hsum
  have hpos : 0 < (signed a x + signed (!b) y).natAbs := Int.natAbs_pos.2 hsum
  rcases (negligible_iff _).1 h with hnan | ⟨negative, hzero⟩
  · exact absurd ((isNaN_ofQuotient _ _ 1).symm.trans (congrArg isNaN hnan)) Bool.false_ne_true
  · exact ofQuotient_ne_zero _ hpos negative hzero

/-- The difference of `x` and `y` is `Negligible` exactly if they are equal, or one of them is not a
number. -/
theorem negligible_sub_iff (x y : Binary F) :
    Negligible (sub x y) ↔ equals x y = true ∨ x.isNaN = true ∨ y.isNaN = true := by
  cases x with
  | nan => simp [sub, add, isNaN, negligible_nan]
  | infinity a =>
    cases y with
    | nan => simp [sub, neg, add, isNaN, negligible_nan]
    | infinity b =>
      cases a <;> cases b <;> simp [sub, neg, add, isNaN, equals, negligible_iff, zero]
    | finite b y hy => simp [sub, neg, add, isNaN, equals, negligible_iff, zero]
  | finite a x hx =>
    cases y with
    | nan => simp [sub, neg, add, isNaN, negligible_nan]
    | infinity b => simp [sub, neg, add, isNaN, equals, negligible_iff, zero]
    | finite b y hy => simp [negligible_sub_finite_iff, isNaN, equals]

/-- The value of `A.maxAbsDiff B` is a number: `nan` is passed over. -/
theorem isNaN_maxAbsDiff (A B : DenseMatrix n (Binary F)) : (A.maxAbsDiff B).isNaN = false := by
  rcases strictComparison.maxAbsDiff_cases A B with hzero | ⟨-, habove⟩
  · rw [hzero]
    rfl
  · exact ((below_iff _ _).1 habove).2.1

end Binary

/-- **What the largest difference bounds.** For matrices `A` and `B` of floats:

- `maxAbsDiff?` is `none` exactly if the sizes differ, and it is the same both ways.
- `A.maxAbsDiff B` is a number, namely `0` or the magnitude of the difference of two entries.
- If it is at most `eps`, so is the difference of any two entries that are not equal, unless one of
  the two is not a number.
- It is `0` exactly if any two entries are equal or one of the two is not a number. -/
theorem maxAbsDiff_bounds {F : Format} (A B : DenseMatrix n (Binary F)) :
    (∀ (m : Nat) (C : DenseMatrix m (Binary F)), A.maxAbsDiff? C = none ↔ m ≠ n) ∧
    A.maxAbsDiff? B = some (A.maxAbsDiff B) ∧ B.maxAbsDiff? A = some (A.maxAbsDiff B) ∧
    (A.maxAbsDiff B).isNaN = false ∧
    (A.maxAbsDiff B = 0 ∨ ∃ i j, (A.entry i j - B.entry i j).abs = A.maxAbsDiff B) ∧
    (∀ eps, Binary.atMost (A.maxAbsDiff B) eps = true → ∀ i j,
      Binary.atMost (A.entry i j - B.entry i j).abs eps = true ∨
        Binary.equals (A.entry i j) (B.entry i j) = true ∨
        (A.entry i j).isNaN = true ∨ (B.entry i j).isNaN = true) ∧
    (A.maxAbsDiff B = 0 ↔ ∀ i j, Binary.equals (A.entry i j) (B.entry i j) = true ∨
      (A.entry i j).isNaN = true ∨ (B.entry i j).isNaN = true) := by
  have hα := Binary.strictComparison (F := F)
  refine ⟨fun m C => ?_, A.maxAbsDiff?_self_size B, ?_, Binary.isNaN_maxAbsDiff A B, ?_, ?_, ?_⟩
  · refine ⟨?_, A.maxAbsDiff?_of_ne C⟩
    rintro hnone rfl
    rw [A.maxAbsDiff?_self_size C] at hnone
    cases hnone
  · rw [B.maxAbsDiff?_self_size A, DenseMatrix.maxAbsDiff_comm Binary.abs_sub_comm]
  · exact (hα.maxAbsDiff_cases A B).imp_right And.left
  · intro eps heps i j
    rcases hnumber : (A.entry i j - B.entry i j).isNaN with _ | _
    · -- a difference that is a number is at most the largest one
      refine Or.inl (Binary.atMost_trans ?_ heps)
      rw [Binary.atMost_iff_not_below ((Binary.isNaN_abs _).trans hnumber)
        (Binary.isNaN_maxAbsDiff A B)]
      exact hα.not_below_maxAbsDiff A B i j
    · -- one that is not a number is of equal infinities, or of what is not a number itself
      exact Or.inr ((Binary.negligible_sub_iff _ _).1 (Binary.negligible_of_isNaN hnumber))
  · rw [hα.maxAbsDiff_eq_zero_iff]
    exact forall_congr' fun i => forall_congr' fun j => Binary.negligible_sub_iff _ _

/-- Equal infinities, whose difference is `nan`, and entries that differ by one. -/
theorem maxAbsDiff_bounds_infinity :
    let A : DenseMatrix 2 Binary64 := ⟨#v[#v[.infinity true, 1], #v[.ofNat 3, .zero true]]⟩
    let B : DenseMatrix 2 Binary64 := ⟨#v[#v[.infinity true, 1], #v[.ofNat 2, .zero false]]⟩
    A.maxAbsDiff B = 1 ∧ Binary.atMost (A.maxAbsDiff B) (.ofNat 2) = true ∧
      (A.entry 0 0 - B.entry 0 0).isNaN = true ∧
      ∀ i j, Binary.atMost (A.entry i j - B.entry i j).abs (.ofNat 2) = true ∨
        Binary.equals (A.entry i j) (B.entry i j) = true ∨
        (A.entry i j).isNaN = true ∨ (B.entry i j).isNaN = true := by
  intro A B
  have heps : Binary.atMost (A.maxAbsDiff B) (.ofNat 2) = true := by decide +kernel
  obtain ⟨-, -, -, -, -, hbound, -⟩ := maxAbsDiff_bounds A B
  exact ⟨by decide +kernel, heps, by decide +kernel, hbound _ heps⟩

/-- A matrix that holds `nan` has the largest difference `0` to a matrix that holds `1`, although
neither is their difference at most `0` nor are they equal. -/
theorem maxAbsDiff_not_bound :
    ¬(∀ (n : Nat) (A B : DenseMatrix n Binary64) (d eps : Binary64), A.maxAbsDiff? B = some d →
        Binary.atMost d eps = true → ∀ i j,
          Binary.atMost (A.entry i j - B.entry i j).abs eps = true ∨
            Binary.equals (A.entry i j) (B.entry i j) = true) ∧
      ¬(∀ (n : Nat) (A B : DenseMatrix n Binary64), A.maxAbsDiff? B = some 0 →
        ∀ i j, Binary.equals (A.entry i j) (B.entry i j) = true) := by
  let A : DenseMatrix 1 Binary64 := ⟨#v[#v[.nan]]⟩
  let B : DenseMatrix 1 Binary64 := ⟨#v[#v[1]]⟩
  have hdiff : A.maxAbsDiff? B = some 0 := by decide +kernel
  constructor
  · intro h
    have hbound := h 1 A B 0 0 hdiff (by decide +kernel) 0 0
    exact absurd hbound (by decide +kernel)
  · intro h
    exact absurd (h 1 A B hdiff 0 0) (by decide +kernel)

end PivotedLU
