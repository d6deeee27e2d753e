import Mathlib.Data.List.FinRange
import PivotedLU.Elimination.Pivot
import PivotedLU.Proofs.Fold

/-!
# What a Scan Finds

The scan of a column returns a row from the diagonal downwards and a magnitude. Where the pivot
comes from needs no law of arithmetic; that no candidate is above it needs a comparison that is a
strict order, which the comparison of floats is as much as that of exact numbers.

## Main definitions

* `Scalar.Unordered`: an element that compares with nothing.
* `StrictComparison`: the comparison is irreflexive and transitive.
* `LinearComparison`: moreover, the elements that compare with anything stand in one line.
* `LargestMagnitude`: the largest magnitude among the candidates of a column.
* `MagnitudeLaws`: what makes this magnitude unique.

## Main results

* `scan_congr`, `scan_congr_magnitude`: a scan reads nothing but the magnitudes of its candidates.
* `scan_map_magnitude`: what it makes of magnitudes that are changed without changing their order.
* `scan_cases`: where a pivot can come from.
* `column_le_row_scan`: never from above the diagonal.
* `StrictComparison.not_below_larger`, `StrictComparison.not_below_larger_self`: neither of two
  values is above the larger one.
* `StrictComparison.not_below_scan`: no candidate is above the magnitude found.
* `StrictComparison.scan_cases`: a magnitude that is found is above zero.
* `StrictComparison.not_below_scan_of_candidates`: scans with candidates in common.
* `scan_eq_of_first`: when a scan returns the first candidate above zero.
* `scan_eq_diagonal`: when a scan stays at the diagonal.
* `MagnitudeLaws.largestMagnitude_iff`: the magnitude that a scan finds is the largest one.
-/

namespace PivotedLU

universe u

/-- The element `x` compares with nothing, as what is not a number does. -/
def Scalar.Unordered {α : Type u} [Scalar α] (x : α) : Prop :=
  ∀ y : α, Scalar.below x y = false ∧ Scalar.below y x = false

namespace Elimination

variable {α : Type u} [Scalar α] {n : Nat}

/-! ## Where a pivot comes from -/

/-- A row `k` from `column` downwards leaves the larger one of the two magnitudes. -/
theorem magnitude_consider (A : DenseMatrix n α) (column : Fin n) (best : Pivot n α) (k : Fin n) :
    (consider A column best k).magnitude =
      if column ≤ k then Scalar.larger best.magnitude (Scalar.magnitude (A.entry k column))
      else best.magnitude := by
  unfold consider Scalar.larger
  by_cases hk : column ≤ k
  · simp only [hk, true_and, if_true]
    split <;> rfl
  · simp only [hk, false_and, if_false]

/-- A row `k` whose candidate is not above the magnitude of `best` leaves `best` as it is. -/
theorem consider_eq_self {A : DenseMatrix n α} {column k : Fin n} {best : Pivot n α}
    (h : column ≤ k →
      Scalar.below best.magnitude (Scalar.magnitude (A.entry k column)) = false) :
    consider A column best k = best :=
  if_neg fun hk => Bool.false_ne_true ((h hk.1).symm.trans hk.2)

/-- A map `φ` of magnitudes that keeps `0` and the order commutes with the scan: the same row is
found. -/
theorem scan_map_magnitude {A B : DenseMatrix n α} {column : Fin n} (φ : α → α) (hzero : φ 0 = 0)
    (hbelow : ∀ x y, Scalar.below (φ x) (φ y) = Scalar.below x y)
    (h : ∀ i, column ≤ i →
      Scalar.magnitude (B.entry i column) = φ (Scalar.magnitude (A.entry i column))) :
    scan B column = ⟨(scan A column).row, φ (scan A column).magnitude⟩ := by
  let mapped (best : Pivot n α) : Pivot n α := ⟨best.row, φ best.magnitude⟩
  have hstart : mapped ⟨column, 0⟩ = ⟨column, 0⟩ := congrArg (Pivot.mk column) hzero
  have hconsider :
      ∀ best k, consider B column (mapped best) k = mapped (consider A column best k) := by
    intro best k
    unfold consider
    dsimp only [mapped]
    by_cases hk : column ≤ k
    · rw [h k hk, hbelow]
      split <;> rfl
    · simp only [hk, false_and, if_false]
  rw [scan, ← hstart]
  exact List.foldl_hom mapped hconsider

/-- A scan depends on the magnitudes in `column` from the diagonal downwards only. -/
theorem scan_congr_magnitude {A B : DenseMatrix n α} {column : Fin n}
    (h : ∀ i, column ≤ i →
      Scalar.magnitude (A.entry i column) = Scalar.magnitude (B.entry i column)) :
    scan A column = scan B column :=
  scan_map_magnitude id rfl (fun _ _ => rfl) h

/-- A scan depends on the entries of `column` from the diagonal downwards only. -/
theorem scan_congr {A B : DenseMatrix n α} {column : Fin n}
    (h : ∀ i, column ≤ i → A.entry i column = B.entry i column) :
    scan A column = scan B column :=
  scan_congr_magnitude fun i hi => congrArg Scalar.magnitude (h i hi)

/-- The scan returns its start `⟨column, 0⟩`, or a row from `column` downwards with the magnitude
that is found there. -/
theorem scan_cases (A : DenseMatrix n α) (column : Fin n) :
    scan A column = ⟨column, 0⟩ ∨
      (column ≤ (scan A column).row ∧
        (scan A column).magnitude = Scalar.magnitude (A.entry (scan A column).row column)) := by
  unfold scan
  generalize List.finRange n = rows
  -- the best row so far satisfies the same alternative
  refine List.foldlRecOn rows (consider A column)
    (motive := fun best => best = ⟨column, 0⟩ ∨
      (column ≤ best.row ∧ best.magnitude = Scalar.magnitude (A.entry best.row column)))
    (Or.inl rfl) ?_
  intro best hbest k _
  unfold consider
  dsimp only
  split
  · next hk => exact Or.inr ⟨hk.1, rfl⟩
  · exact hbest

/-- A pivot is never taken from a row before `column`. -/
theorem column_le_row_scan (A : DenseMatrix n α) (column : Fin n) :
    column ≤ (scan A column).row := by
  rcases scan_cases A column with h | h
  · rw [h]
  · exact h.1

/-! ## No candidate is above it -/

/-- The comparison `below` is a strict order. Elements may be `Unordered`. -/
structure StrictComparison (α : Type u) [Scalar α] : Prop where
  irrefl : ∀ x : α, Scalar.below x x = false
  trans : ∀ x y z : α, Scalar.below x y = true → Scalar.below y z = true →
    Scalar.below x z = true

namespace StrictComparison

variable {A : DenseMatrix n α} {column : Fin n}

/-- If `x` is not above `running`, it is not above the larger one of `running` and `candidate`
either. -/
theorem not_below_larger (hα : StrictComparison α) {running x : α}
    (h : Scalar.below running x = false) (candidate : α) :
    Scalar.below (Scalar.larger running candidate) x = false := by
  unfold Scalar.larger
  split
  · next hcandidate =>
    -- an `x` above the candidate would be above the running value
    by_contra hx
    rw [Bool.not_eq_false] at hx
    exact Bool.false_ne_true (h.symm.trans (hα.trans _ _ _ hcandidate hx))
  · exact h

/-- The `candidate` is not above the larger one of `running` and itself. -/
theorem not_below_larger_self (hα : StrictComparison α) (running candidate : α) :
    Scalar.below (Scalar.larger running candidate) candidate = false := by
  unfold Scalar.larger
  split
  · exact hα.irrefl candidate
  · next hcandidate => exact Bool.eq_false_iff.2 hcandidate

/-- If `x` is not above the magnitude of `best`, it is not above the one after row `k`, which is the
same or larger. -/
theorem not_below_consider (hα : StrictComparison α) {best : Pivot n α} {x : α}
    (h : Scalar.below best.magnitude x = false) (k : Fin n) :
    Scalar.below (consider A column best k).magnitude x = false := by
  rw [magnitude_consider]
  split
  · exact hα.not_below_larger h _
  · exact h

/-- The candidate of row `k` is not above the best magnitude once the row has been considered. -/
theorem not_below_consider_self (hα : StrictComparison α) (best : Pivot n α) {k : Fin n}
    (hk : column ≤ k) :
    Scalar.below (consider A column best k).magnitude (Scalar.magnitude (A.entry k column)) =
      false := by
  rw [magnitude_consider, if_pos hk]
  exact hα.not_below_larger_self _ _

/-- No candidate of `column` is above the magnitude that the scan finds. -/
theorem not_below_scan (hα : StrictComparison α) {i : Fin n} (hi : column ≤ i) :
    Scalar.below (scan A column).magnitude (Scalar.magnitude (A.entry i column)) = false := by
  -- after row `i` itself, the rows that follow it keep the property
  obtain ⟨before, after, hrows⟩ := List.append_of_mem (List.mem_finRange i)
  rw [scan, hrows, List.foldl_append, List.foldl_cons]
  refine List.foldlRecOn after (consider A column)
    (motive := fun best =>
      Scalar.below best.magnitude (Scalar.magnitude (A.entry i column)) = false)
    (hα.not_below_consider_self _ hi) ?_
  exact fun best hbest k _ => hα.not_below_consider hbest k

/-- Under a `StrictComparison`, the magnitude that the scan finds in a row is above `0`. -/
theorem scan_cases (hα : StrictComparison α) (A : DenseMatrix n α) (column : Fin n) :
    scan A column = ⟨column, 0⟩ ∨
      ((scan A column).magnitude = Scalar.magnitude (A.entry (scan A column).row column) ∧
        Scalar.below 0 (scan A column).magnitude = true) := by
  unfold scan
  generalize List.finRange n = rows
  refine List.foldlRecOn rows (consider A column)
    (motive := fun best => best = ⟨column, 0⟩ ∨
      (best.magnitude = Scalar.magnitude (A.entry best.row column) ∧
        Scalar.below 0 best.magnitude = true))
    (Or.inl rfl) ?_
  intro best hbest k _
  unfold consider
  dsimp only
  split
  · next hk =>
    -- a candidate that is taken is above the best magnitude so far, which is zero or above zero
    refine Or.inr ⟨rfl, ?_⟩
    rcases hbest with rfl | ⟨-, habove⟩
    · exact hk.2
    · exact hα.trans _ _ _ habove hk.2
  · exact hbest

/-- The scan of `M` finds no more than the scan of `A` if its candidates are among those of `A`. -/
theorem not_below_scan_of_candidates (hα : StrictComparison α) {M : DenseMatrix n α}
    (h : ∀ i, column ≤ i → ∃ k, column ≤ k ∧ M.entry i column = A.entry k column) :
    Scalar.below (scan A column).magnitude (scan M column).magnitude = false := by
  rcases hα.scan_cases M column with hstart | ⟨hfound, -⟩
  · -- nothing is found below zero
    rw [hstart]
    rcases hα.scan_cases A column with hstart' | ⟨-, habove⟩
    · rw [hstart']
      exact hα.irrefl 0
    · by_contra hbelow
      rw [Bool.not_eq_false] at hbelow
      exact Bool.false_ne_true ((hα.irrefl 0).symm.trans (hα.trans _ _ _ habove hbelow))
  · obtain ⟨k, hk, hentry⟩ := h _ (column_le_row_scan M column)
    rw [hfound, hentry]
    exact hα.not_below_scan hk

end StrictComparison

/-! ## Scans that end where they can be seen to -/

section Found

variable {A : DenseMatrix n α} {column r : Fin n} {m : α}

/-- Rows without a candidate above the magnitude of `best` leave `best` as it is. -/
theorem foldl_consider_eq_self {rows : List (Fin n)} {best : Pivot n α}
    (h : ∀ k ∈ rows, column ≤ k →
      Scalar.below best.magnitude (Scalar.magnitude (A.entry k column)) = false) :
    rows.foldl (consider A column) best = best := by
  induction rows with
  | nil => rfl
  | cons k rows ih =>
    rw [List.foldl_cons, consider_eq_self (h k List.mem_cons_self)]
    exact ih fun l hl => h l (List.mem_cons_of_mem k hl)

/-- A scan without a candidate above `0` returns its start. -/
theorem scan_eq_start
    (h : ∀ i, column ≤ i → Scalar.below 0 (Scalar.magnitude (A.entry i column)) = false) :
    scan A column = ⟨column, 0⟩ :=
  foldl_consider_eq_self fun i _ hi => h i hi

/-- A scan returns the first row `r` with a candidate `m` above `0` if no later candidate is above
`m`. -/
theorem scan_eq_of_first (hr : column ≤ r) (hm : Scalar.magnitude (A.entry r column) = m)
    (habove : Scalar.below 0 m = true)
    (hfirst : ∀ i, column ≤ i → i < r →
      Scalar.below 0 (Scalar.magnitude (A.entry i column)) = false)
    (hmax : ∀ i, r < i → Scalar.below m (Scalar.magnitude (A.entry i column)) = false) :
    scan A column = ⟨r, m⟩ := by
  obtain ⟨before, after, hrows⟩ := List.append_of_mem (List.mem_finRange r)
  have hsorted := List.pairwise_lt_finRange n
  rw [hrows, List.pairwise_append, List.pairwise_cons] at hsorted
  obtain ⟨-, ⟨hafter, -⟩, hbefore⟩ := hsorted
  have htaken : consider A column ⟨column, 0⟩ r = ⟨r, m⟩ := by
    rw [← hm] at habove ⊢
    exact if_pos ⟨hr, habove⟩
  -- the scan stays at its start up to row `r`, and from there on at what it finds in it
  rw [scan, hrows, List.foldl_append, List.foldl_cons,
    foldl_consider_eq_self fun i hi hle => hfirst i hle (hbefore i hi r List.mem_cons_self), htaken]
  exact foldl_consider_eq_self fun i hi _ => hmax i (hafter i hi)

/-- The scan returns the diagonal row with a magnitude `m` that no candidate is above, if `m` is the
one found there and above `0`, or else the `0` that the scan starts from. -/
theorem scan_eq_diagonal
    (hdiagonal : m = 0 ∨
      (m = Scalar.magnitude (A.entry column column) ∧ Scalar.below 0 m = true))
    (hmax : ∀ i, column ≤ i → Scalar.below m (Scalar.magnitude (A.entry i column)) = false) :
    scan A column = ⟨column, m⟩ := by
  rcases hdiagonal with rfl | ⟨hm, habove⟩
  · exact scan_eq_start hmax
  · exact scan_eq_of_first le_rfl hm.symm habove (fun i hi hlt => absurd hi (not_le.2 hlt))
      fun i hi => hmax i hi.le

end Found

/-! ## Elements in one line -/

/-- The comparison `below` is a strict order in which all elements that compare with anything stand
in one line, some of them possibly at one place. -/
structure LinearComparison (α : Type u) [Scalar α] : Prop extends StrictComparison α where
  between : ∀ x y z : α, Scalar.below x y = true → ¬Scalar.Unordered z →
    Scalar.below x z = true ∨ Scalar.below z y = true

/-- A comparison that is the `<` of a linear order. -/
theorem linearComparison_of_lt [LinearOrder α] (h : ∀ x y : α, Scalar.below x y = true ↔ x < y) :
    LinearComparison α where
  irrefl x := Bool.eq_false_iff.2 fun hx => lt_irrefl x ((h x x).1 hx)
  trans x y z hxy hyz := (h x z).2 (((h x y).1 hxy).trans ((h y z).1 hyz))
  between x y z hxy _ := by
    rw [h x z, h z y]
    exact (lt_or_ge x z).imp_right fun hzx => hzx.trans_lt ((h x y).1 hxy)

/-! ## The largest magnitude -/

/-- The largest magnitude `m` among the candidates of `column`, which are its entries from the
diagonal downwards, as far as they are not `Unordered`; zero if all of them are. -/
def LargestMagnitude (A : DenseMatrix n α) (column : Fin n) (m : α) : Prop :=
  (∃ i, column ≤ i ∧ ¬Scalar.Unordered (A.entry i column) ∧
      Scalar.magnitude (A.entry i column) = m ∧
      ∀ k, column ≤ k → Scalar.below m (Scalar.magnitude (A.entry k column)) = false) ∨
    (m = 0 ∧ ∀ i, column ≤ i → Scalar.Unordered (A.entry i column))

/-- Magnitudes are not below zero, and those at one place in the order are the same. An `Unordered`
element has such a magnitude too. -/
structure MagnitudeLaws (α : Type u) [Scalar α] : Prop extends StrictComparison α where
  unordered : ∀ x : α, Scalar.Unordered x → Scalar.Unordered (Scalar.magnitude x)
  ordered_zero : ¬Scalar.Unordered (0 : α)
  magnitude_zero : Scalar.magnitude (0 : α) = 0
  not_below_zero : ∀ x : α, Scalar.below (Scalar.magnitude x) 0 = false
  eq_of_not_below : ∀ x y : α, ¬Scalar.Unordered x → ¬Scalar.Unordered y →
    Scalar.below (Scalar.magnitude x) (Scalar.magnitude y) = false →
      Scalar.below (Scalar.magnitude y) (Scalar.magnitude x) = false →
        Scalar.magnitude x = Scalar.magnitude y

/-- The magnitudes of a linear order without a largest element have the `MagnitudeLaws`. -/
theorem magnitudeLaws_of_lt [LinearOrder α] [NoMaxOrder α]
    (hbelow : ∀ x y : α, Scalar.below x y = true ↔ x < y)
    (hnonneg : ∀ x : α, 0 ≤ Scalar.magnitude x) (hzero : Scalar.magnitude (0 : α) = 0) :
    MagnitudeLaws α := by
  have hnot : ∀ x y : α, Scalar.below x y = false ↔ y ≤ x := fun x y => by
    rw [← Bool.not_eq_true, hbelow, not_lt]
  have hordered : ∀ x : α, ¬Scalar.Unordered x := fun x h => by
    obtain ⟨y, hy⟩ := exists_gt x
    exact not_lt.2 ((hnot x y).1 (h y).1) hy
  exact
    { toStrictComparison := (linearComparison_of_lt hbelow).toStrictComparison
      unordered := fun x h => absurd h (hordered x)
      ordered_zero := hordered 0
      magnitude_zero := hzero
      not_below_zero := fun x => (hnot _ _).2 (hnonneg x)
      eq_of_not_below := fun x y _ _ h h' => le_antisymm ((hnot _ _).1 h') ((hnot _ _).1 h) }

namespace MagnitudeLaws

variable {A : DenseMatrix n α} {column : Fin n} {m m' : α}

/-- An `x` with a magnitude above `0` is not `Unordered`. -/
theorem not_unordered (hα : MagnitudeLaws α) {x : α}
    (h : Scalar.below 0 (Scalar.magnitude x) = true) : ¬Scalar.Unordered x :=
  fun hx => Bool.false_ne_true ((hα.unordered x hx 0).2.symm.trans h)

/-- The scan of `column` finds its `LargestMagnitude`. -/
theorem largestMagnitude_scan (hα : MagnitudeLaws α) (A : DenseMatrix n α) (column : Fin n) :
    LargestMagnitude A column (scan A column).magnitude := by
  rcases hα.scan_cases A column with hstart | ⟨hfound, habove⟩
  · have hmax : ∀ k, column ≤ k → Scalar.below 0 (Scalar.magnitude (A.entry k column)) = false := by
      intro k hk
      have hk := hα.not_below_scan (A := A) hk
      rwa [hstart] at hk
    rw [hstart]
    by_cases hordered : ∃ i, column ≤ i ∧ ¬Scalar.Unordered (A.entry i column)
    · -- nothing is above zero, so a candidate that compares has the magnitude zero
      obtain ⟨i, hi, hordered⟩ := hordered
      have hzero : Scalar.magnitude (A.entry i column) = Scalar.magnitude 0 := by
        refine hα.eq_of_not_below _ _ hordered hα.ordered_zero ?_ ?_
        · rw [hα.magnitude_zero]
          exact hα.not_below_zero _
        · rw [hα.magnitude_zero]
          exact hmax i hi
      exact Or.inl ⟨i, hi, hordered, hzero.trans hα.magnitude_zero, hmax⟩
    · refine Or.inr ⟨rfl, fun i hi => ?_⟩
      by_contra hi'
      exact hordered ⟨i, hi, hi'⟩
  · have hmax := fun k (hk : column ≤ k) => hα.not_below_scan (A := A) hk
    rw [hfound] at habove
    exact Or.inl ⟨_, column_le_row_scan A column, hα.not_unordered habove, hfound.symm, hmax⟩

/-- A `column` has one `LargestMagnitude`. -/
theorem largestMagnitude_unique (hα : MagnitudeLaws α) (h : LargestMagnitude A column m)
    (h' : LargestMagnitude A column m') : m = m' := by
  rcases h with ⟨i, hi, hordered, rfl, hmax⟩ | ⟨rfl, hnone⟩
  · rcases h' with ⟨i', hi', hordered', rfl, hmax'⟩ | ⟨-, hnone'⟩
    · exact hα.eq_of_not_below _ _ hordered hordered' (hmax i' hi') (hmax' i hi)
    · exact absurd (hnone' i hi) hordered
  · rcases h' with ⟨i', hi', hordered', -, -⟩ | ⟨rfl, -⟩
    · exact absurd (hnone i' hi') hordered'
    · rfl

/-- The `LargestMagnitude` of `column` is the magnitude that the scan finds. -/
theorem largestMagnitude_iff (hα : MagnitudeLaws α) :
    LargestMagnitude A column m ↔ m = (scan A column).magnitude := by
  constructor
  · exact fun h => hα.largestMagnitude_unique h (hα.largestMagnitude_scan A column)
  · rintro rfl
    exact hα.largestMagnitude_scan A column

end MagnitudeLaws

end Elimination

end PivotedLU
