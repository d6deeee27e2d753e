import Mathlib.Algebra.Order.Field.Basic
import PivotedLU.Proofs.Binary.Laws
import PivotedLU.Proofs.Exact.Basic
import PivotedLU.Proofs.Stored.Elimination

/-!
# Which Row a Scan Chooses

The scan of a column keeps the best row so far and replaces it only if a candidate is strictly above
it. When a row replaces the best one, no candidate before it is above the magnitude that it
replaces, so none of them has the magnitude of the new row: among equal candidates the first one
stays. A candidate that is not above zero replaces nothing, so zeros and what compares with nothing
may take each other's place.

Together these facts leave a single answer, for floats and for an ordered field alike.

## Main definitions

* `Elimination.ScannedTo`: what is known of the best row after some of the rows.
* `Elimination.Chosen`: the pivot of a column, whatever finds it.
* `Scalar.ofField`: the arithmetic of an ordered field.

## Main results

* `ScannedTo.consider`, `StrictComparison.scannedTo_scan`: no candidate before the row that is found
  has the magnitude that is found.
* `StrictComparison.scan_congr_negligible`: candidates that are not above zero do not matter.
* `StrictComparison.chosen_scan`, `Chosen.unique`: a scan finds the pivot, and there is only one.
* `Scalar.ofField_rat`: the arithmetic of the rationals is of this kind.
* `Binary.scan_eq_iff`, `scan_ofField_eq_iff`: the same for floats and for ordered fields.
* `scan_chooses_first_largest`: both, with what the scan does not read.
-/

namespace PivotedLU

universe u

open Scalar (Negligible below magnitude)

namespace Elimination

variable {α : Type u} [Scalar α] {n : Nat} {A B : DenseMatrix n α} {column r : Fin n} {m : α}

/-! ## The first of equal candidates -/

/-- What is known of the best row after the first `k` rows: no candidate among them is above its
magnitude, and no candidate before it has this magnitude. -/
structure ScannedTo (A : DenseMatrix n α) (column : Fin n) (k : Nat) (best : Pivot n α) : Prop where
  largest : ∀ i, column ≤ i → i.val < k →
    below best.magnitude (magnitude (A.entry i column)) = false
  first : ∀ i, column ≤ i → i < best.row → magnitude (A.entry i column) ≠ best.magnitude

/-- Before the first row, the best pivot so far is the start. -/
theorem ScannedTo.start : ScannedTo A column 0 ⟨column, 0⟩ where
  largest _ _ hik := absurd hik (Nat.not_lt_zero _)
  first _ hi hlt := absurd hi (not_le.2 hlt)

/-- The invariant `ScannedTo` after row `k`. -/
theorem ScannedTo.consider (hα : StrictComparison α) {k : Fin n} {best : Pivot n α}
    (h : ScannedTo A column k best) : ScannedTo A column (k + 1) (consider A column best k) where
  largest i hi hik := by
    rcases Nat.lt_or_eq_of_le (Nat.le_of_lt_succ hik) with hik | hik
    · exact hα.not_below_consider (h.largest i hi hik) k
    · obtain rfl : i = k := Fin.ext hik
      exact hα.not_below_consider_self best hi
  first i hi := by
    unfold Elimination.consider
    dsimp only
    split
    · next hk =>
      -- the new row is above the best magnitude so far, and the rows before it are not
      intro hik heq
      have hnot := h.largest i hi hik
      rw [heq] at hnot
      exact Bool.false_ne_true (hnot.symm.trans hk.2)
    · exact h.first i hi

/-- The invariant `ScannedTo` after all rows. -/
theorem StrictComparison.scannedTo_scan (hα : StrictComparison α) (A : DenseMatrix n α)
    (column : Fin n) : ScannedTo A column n (scan A column) := by
  rw [scan, ← Fin.foldl_eq_finRange_foldl]
  exact foldl_invariant (ScannedTo A column) ScannedTo.start fun _ _ h => h.consider hα

/-! ## Candidates that are not above zero -/

/-- Scans of `A` and `B` agree if their candidates agree, apart from those that are `Negligible` in
both. -/
theorem StrictComparison.scan_congr_negligible (hα : StrictComparison α)
    (h : ∀ i, column ≤ i → B.entry i column = A.entry i column ∨
      (Negligible (A.entry i column) ∧ Negligible (B.entry i column))) :
    scan B column = scan A column := by
  -- the best magnitude is not below what is not above zero, throughout
  suffices hfold : ∀ (rows : List (Fin n)) (best : Pivot n α),
      (∀ x, below 0 x = false → below best.magnitude x = false) →
        rows.foldl (consider B column) best = rows.foldl (consider A column) best from
    hfold (List.finRange n) ⟨column, 0⟩ fun _ hx => hx
  intro rows
  induction rows with
  | nil => exact fun _ _ => rfl
  | cons k rows ih =>
    intro best hbest
    have hstep : consider B column best k = consider A column best k := by
      by_cases hk : column ≤ k
      · rcases h k hk with heq | ⟨hA, hB⟩
        · unfold consider
          rw [heq]
        · -- neither of the two candidates is taken
          rw [consider_eq_self fun _ => hbest _ hA, consider_eq_self fun _ => hbest _ hB]
      · rw [consider_eq_self fun h => absurd h hk, consider_eq_self fun h => absurd h hk]
    rw [List.foldl_cons, List.foldl_cons, hstep]
    exact ih _ fun x hx => hα.not_below_consider (hbest x hx) k

/-! ## The pivot that is chosen -/

/-- The pivot of `column`: the largest magnitude and the first row that has it, if this is above
`0`, and the diagonal with the magnitude `0` if no candidate is above it. -/
inductive Chosen (A : DenseMatrix n α) (column : Fin n) : Pivot n α → Prop where
  | found {r : Fin n} {m : α} (above : below 0 m = true)
      (largest : ∀ i, column ≤ i → below m (magnitude (A.entry i column)) = false)
      (first : IsLeast {i | column ≤ i ∧ magnitude (A.entry i column) = m} r) :
      Chosen A column ⟨r, m⟩
  | start (negligible : ∀ i, column ≤ i → Negligible (A.entry i column)) :
      Chosen A column ⟨column, 0⟩

/-- A row `r` and a magnitude `m` are `Chosen` exactly if `m` is above `0`, no candidate is above
`m`, and `r` is the first row with this magnitude; or if they are the start, and all candidates are
`Negligible`. -/
theorem chosen_iff :
    Chosen A column ⟨r, m⟩ ↔
      (below 0 m = true ∧ (∀ i, column ≤ i → below m (magnitude (A.entry i column)) = false) ∧
        IsLeast {i | column ≤ i ∧ magnitude (A.entry i column) = m} r) ∨
      (r = column ∧ m = 0 ∧ ∀ i, column ≤ i → Negligible (A.entry i column)) := by
  constructor
  · rintro (⟨above, largest, first⟩ | ⟨negligible⟩)
    · exact Or.inl ⟨above, largest, first⟩
    · exact Or.inr ⟨rfl, rfl, negligible⟩
  · rintro (⟨above, largest, first⟩ | ⟨rfl, rfl, negligible⟩)
    · exact Chosen.found above largest first
    · exact Chosen.start negligible

/-- The scan of `column` returns a pivot that is `Chosen`. -/
theorem StrictComparison.chosen_scan (hα : StrictComparison α) (A : DenseMatrix n α)
    (column : Fin n) : Chosen A column (scan A column) := by
  have hlargest := fun i (hi : column ≤ i) => hα.not_below_scan (A := A) hi
  rcases hα.scan_cases A column with hstart | ⟨hfound, habove⟩
  · rw [hstart] at hlargest ⊢
    exact Chosen.start hlargest
  · refine Chosen.found habove hlargest ⟨⟨column_le_row_scan A column, hfound.symm⟩, ?_⟩
    rintro i ⟨hi, heq⟩
    by_contra hlt
    exact (hα.scannedTo_scan A column).first i hi (not_le.1 hlt) heq

/-- In one column, pivots `p` and `q` that are `Chosen` are the same. -/
theorem Chosen.unique (hα : MagnitudeLaws α) {p q : Pivot n α} (hp : Chosen A column p)
    (hq : Chosen A column q) : p = q := by
  cases hp with
  | @found r m above largest first =>
    obtain ⟨hr, rfl⟩ := first.1
    cases hq with
    | @found r' m' above' largest' first' =>
      obtain ⟨hr', rfl⟩ := first'.1
      -- neither magnitude is above the other, and the first rows of equal magnitudes are the same
      have hm := hα.eq_of_not_below _ _ (hα.not_unordered above) (hα.not_unordered above')
        (largest r' hr') (largest' r hr)
      rw [← hm] at first' ⊢
      rw [first.unique first']
    | start negligible => exact absurd ((negligible r hr).symm.trans above) Bool.false_ne_true
  | start negligible =>
    cases hq with
    | @found r m above largest first =>
      obtain ⟨hr, rfl⟩ := first.1
      exact absurd ((negligible r hr).symm.trans above) Bool.false_ne_true
    | start => rfl

/-- The scan of `column` returns the `Chosen` pivot and nothing else. -/
theorem MagnitudeLaws.scan_eq_iff (hα : MagnitudeLaws α) {p : Pivot n α} :
    scan A column = p ↔ Chosen A column p := by
  constructor
  · rintro rfl
    exact hα.chosen_scan A column
  · exact (hα.chosen_scan A column).unique hα

end Elimination

/-! ## Floats -/

namespace Binary

open Elimination

variable {F : Format} {n : Nat} {A B : DenseMatrix n (Binary F)} {column r : Fin n} {m : Binary F}

/-- The magnitude that the scan of `column` finds is a number. -/
theorem isNaN_scan (A : DenseMatrix n (Binary F)) (column : Fin n) :
    (scan A column).magnitude.isNaN = false := by
  rcases strictComparison.scan_cases A column with hstart | ⟨-, habove⟩
  · rw [hstart]
    rfl
  · exact ((below_iff _ _).1 habove).2.1

/-- Among floats, the scan returns `r` and `m` if `m` is above `0`, candidates that are numbers are
at most `m`, and `r` is the first row with this magnitude; or if it stays at the start, and every
candidate is a zero or not a number. -/
theorem scan_eq_iff :
    scan A column = ⟨r, m⟩ ↔
      (below 0 m = true ∧
        (∀ i, column ≤ i → (A.entry i column).isNaN = false →
          atMost (A.entry i column).abs m = true) ∧
        IsLeast {i | column ≤ i ∧ (A.entry i column).abs = m} r) ∨
      (r = column ∧ m = 0 ∧ ∀ i, column ≤ i → (A.entry i column).isNaN = true ∨
        ∃ negative, A.entry i column = zero negative) := by
  have hnegligible : ∀ x : Binary F,
      Negligible x ↔ x.isNaN = true ∨ ∃ negative, x = zero negative := by
    intro x
    rw [negligible_iff]
    cases x <;> simp [isNaN]
  rw [magnitudeLaws.scan_eq_iff, chosen_iff]
  simp only [hnegligible]
  refine or_congr_left (and_congr_right fun habove => and_congr_left fun _ => ?_)
  refine forall₂_congr fun i _ => ?_
  have hm : m.isNaN = false := ((below_iff _ _).1 habove).2.1
  rcases hnumber : (A.entry i column).isNaN with _ | _
  · rw [atMost_iff_not_below ((isNaN_abs _).trans hnumber) hm]
    exact ⟨fun h _ => h, fun h => h rfl⟩
  · -- what is not a number is above nothing
    have hunordered := magnitudeLaws.unordered _ ((unordered_iff _).2 hnumber)
    exact iff_of_true (hunordered m).2 fun h => absurd h Bool.false_ne_true.symm

/-- Nothing but the candidates of `A` is read, and in `B` those that are not numbers may be
zeros. -/
theorem scan_congr_isNaN
    (h : ∀ i, column ≤ i → B.entry i column = A.entry i column ∨
      ((A.entry i column).isNaN = true ∧ ∃ negative, B.entry i column = zero negative)) :
    scan B column = scan A column := by
  refine strictComparison.scan_congr_negligible fun i hi => (h i hi).imp_right ?_
  rintro ⟨hnan, hzero⟩
  exact ⟨negligible_of_isNaN hnan, (negligible_iff _).2 (Or.inr hzero)⟩

end Binary

/-! ## Ordered fields -/

/-- The arithmetic of an ordered field `K`. -/
abbrev Scalar.ofField (K : Type u) [Field K] [LinearOrder K] : Scalar K where
  zero := 0
  one := 1
  add x y := x + y
  sub x y := x - y
  mul x y := x * y
  div x y := x / y
  neg x := -x
  magnitude x := |x|
  below x y := decide (x < y)

/-- The exact arithmetic of the library is `Scalar.ofField` of the rationals. -/
theorem Scalar.ofField_rat : Scalar.ofField ℚ = (inferInstance : Scalar ℚ) := by
  have hmagnitude : (fun x : ℚ => |x|) = magnitude := funext fun x => (magnitude_eq_abs x).symm
  unfold Scalar.ofField
  rw [hmagnitude]
  rfl

namespace Elimination

variable {K : Type u} [Field K] [LinearOrder K] [IsStrictOrderedRing K] {n : Nat}

theorem magnitudeLaws_ofField : @MagnitudeLaws K (Scalar.ofField K) :=
  @magnitudeLaws_of_lt K (Scalar.ofField K) _ _ (fun _ _ => decide_eq_true_iff) abs_nonneg abs_zero

/-- In an ordered field `K` every candidate counts. -/
theorem scan_ofField_eq_iff {A : DenseMatrix n K} {column r : Fin n} {m : K} :
    @scan K (Scalar.ofField K) n A column = ⟨r, m⟩ ↔
      (0 < m ∧ (∀ i, column ≤ i → |A.entry i column| ≤ m) ∧
        IsLeast {i | column ≤ i ∧ |A.entry i column| = m} r) ∨
      (r = column ∧ m = 0 ∧ ∀ i, column ≤ i → A.entry i column = 0) := by
  let _ := Scalar.ofField K
  have hbelow : ∀ x y : K, below x y = true ↔ x < y := fun _ _ => decide_eq_true_iff
  have hnot : ∀ x y : K, below x y = false ↔ y ≤ x := fun x y => by
    rw [← Bool.not_eq_true, hbelow, not_lt]
  have hnegligible : ∀ x : K, Negligible x ↔ x = 0 := fun x =>
    (hnot _ _).trans abs_nonpos_iff
  rw [magnitudeLaws_ofField.scan_eq_iff, chosen_iff]
  simp only [hbelow, hnot, hnegligible]
  exact Iff.rfl

end Elimination

/-! ## What a scan chooses -/

open Elimination

/-- **The pivot scan.** For floats, `scan A column` returns `⟨r, m⟩` in exactly two cases:

- `m` is above `0`, the candidates that are numbers are at most `m` in magnitude, and `r` is the
  first row from `column` downwards with the magnitude `m`;
- `r` is `column`, `m` is `0`, and every candidate is not a number, or a zero.

So the row is never above the diagonal, and the magnitude is always a number. Nothing but the
candidates is read, and where one is not a number, `B` may have a zero of either sign.
`Stored.selectPivot`, the loop over the stored rows that counts all rows from the top, returns the
same. In an ordered field `K` the answer is the same, and every candidate counts. -/
theorem scan_chooses_first_largest {F : Format} {K : Type u} [Field K] [LinearOrder K]
    [IsStrictOrderedRing K] {n : Nat} (A : DenseMatrix n (Binary F)) (C : DenseMatrix n K)
    (column : Fin n) :
    ((∀ r m, scan A column = ⟨r, m⟩ ↔
        (Binary.below 0 m = true ∧
          (∀ i, column ≤ i → (A.entry i column).isNaN = false →
            Binary.atMost (A.entry i column).abs m = true) ∧
          IsLeast {i | column ≤ i ∧ (A.entry i column).abs = m} r) ∨
        (r = column ∧ m = 0 ∧ ∀ i, column ≤ i → (A.entry i column).isNaN = true ∨
          ∃ negative, A.entry i column = Binary.zero negative)) ∧
      column ≤ (scan A column).row ∧ (scan A column).magnitude.isNaN = false ∧
      (∀ B : DenseMatrix n (Binary F),
        (∀ i, column ≤ i → B.entry i column = A.entry i column ∨
          ((A.entry i column).isNaN = true ∧
            ∃ negative, B.entry i column = Binary.zero negative)) →
          scan B column = scan A column) ∧
      Stored.selectPivot A.toLists column =
        .ok ((scan A column).row.val, (scan A column).magnitude)) ∧
    let pivot := fun M : DenseMatrix n K => @scan K (Scalar.ofField K) n M column
    (∀ r m, pivot C = ⟨r, m⟩ ↔
      (0 < m ∧ (∀ i, column ≤ i → |C.entry i column| ≤ m) ∧
        IsLeast {i | column ≤ i ∧ |C.entry i column| = m} r) ∨
      (r = column ∧ m = 0 ∧ ∀ i, column ≤ i → C.entry i column = 0)) ∧
    column ≤ (pivot C).row ∧
    ∀ D : DenseMatrix n K, (∀ i, column ≤ i → D.entry i column = C.entry i column) →
      pivot D = pivot C := by
  refine ⟨⟨fun r m => Binary.scan_eq_iff, column_le_row_scan A column, Binary.isNaN_scan A column,
    fun B => Binary.scan_congr_isNaN, Stored.selectPivot_toLists A column⟩, ?_⟩
  let _ := Scalar.ofField K
  exact ⟨fun r m => scan_ofField_eq_iff, column_le_row_scan C column, fun D hD => scan_congr hD⟩

/-- Above the diagonal of `A` stands the largest entry of the column, and on it `nan`, or in `B` a
negative zero; of two entries of one magnitude the upper one is taken. -/
theorem scan_chooses_first_largest_column :
    let A : DenseMatrix 3 Binary64 := ⟨#v[#v[1, .ofNat 9, 1], #v[0, .nan, 1], #v[0, -.ofNat 3, 1]]⟩
    let B : DenseMatrix 3 Binary64 :=
      ⟨#v[#v[1, .nan, 1], #v[0, .zero true, 1], #v[0, -.ofNat 3, 1]]⟩
    let C : DenseMatrix 3 ℚ := ⟨#v[#v[1, 9, 1], #v[0, -2, 1], #v[0, 2, 1]]⟩
    scan A 1 = ⟨2, .ofNat 3⟩ ∧ scan B 1 = ⟨2, .ofNat 3⟩ ∧ scan C 1 = ⟨1, 2⟩ := by
  intro A B C
  obtain ⟨⟨hfloat, -, -, hsame, -⟩, hexact, -, -⟩ := scan_chooses_first_largest A C 1
  have hA : scan A 1 = ⟨2, .ofNat 3⟩ := by
    refine (hfloat 2 (.ofNat 3)).2 (Or.inl ⟨by decide +kernel, by decide +kernel, ?_, ?_⟩)
    · exact ⟨by decide, by decide +kernel⟩
    · have hfirst : ∀ i : Fin 3, 1 ≤ i → (A.entry i 1).abs = .ofNat 3 → 2 ≤ i := by decide +kernel
      exact fun i hi => hfirst i hi.1 hi.2
  have hB : ∀ i : Fin 3, 1 ≤ i → B.entry i 1 = A.entry i 1 ∨
      ((A.entry i 1).isNaN = true ∧ ∃ negative, B.entry i 1 = .zero negative) := by
    decide +kernel
  have hC : @scan ℚ (Scalar.ofField ℚ) 3 C 1 = ⟨1, 2⟩ := by
    refine (hexact 1 2).2 (Or.inl ⟨by norm_num, by decide +kernel, ?_, fun i hi => hi.1⟩)
    exact ⟨by decide, by decide +kernel⟩
  rw [Scalar.ofField_rat] at hC
  exact ⟨hA, (hsame B hB).trans hA, hC⟩

end PivotedLU
