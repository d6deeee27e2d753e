import PivotedLU.Proofs.Binary.Order
import PivotedLU.Proofs.Elimination.Reached
import PivotedLU.Proofs.Exact.Basic

/-!
# What the Tolerance Decides

A run compares the tolerance with the pivot of every column, and with nothing else. Under a smaller
tolerance it therefore makes the same steps and stops later or not at all. The comparison is strict,
so a pivot that equals the tolerance is used, and a tolerance that is not above zero stops no run,
because no scan finds a magnitude below zero.

## Main results

* `LinearComparison.accepted_of_not_below`, `StrictComparison.accepted_of_not_positive`: pivots that
  are accepted under another tolerance.
* `prefix_records_of_accepted`, `outcome_eq_ok_of_accepted`: runs under a tolerance that accepts
  more.
* `decompose_tolerance`: the runs under all tolerances.
-/

namespace PivotedLU

universe u

namespace Elimination

open Scalar (Unordered)

variable {α : Type u} [Scalar α] {n : Nat}

/-! ## Pivots that are accepted -/

/-- A pivot `m` that is not below `t` is not below a smaller `t'`. -/
theorem LinearComparison.accepted_of_not_below (hα : LinearComparison α) {t t' m : α}
    (ht : ¬Unordered t) (hle : Scalar.below t t' = false) (h : Scalar.below m t = false) :
    Scalar.below m t' = false := by
  by_contra hbelow
  rw [Bool.not_eq_false] at hbelow
  rcases hα.between m t' t hbelow ht with hm | ht'
  · exact Bool.false_ne_true (h.symm.trans hm)
  · exact Bool.false_ne_true (hle.symm.trans ht')

/-- A pivot is never below a tolerance `t` that is not above `0`. -/
theorem StrictComparison.accepted_of_not_positive (hα : StrictComparison α) {t : α}
    (ht : Scalar.below 0 t = false) (M : DenseMatrix n α) (column : Fin n) :
    Scalar.below (scan M column).magnitude t = false := by
  rcases hα.scan_cases M column with hstart | ⟨-, habove⟩
  · rw [hstart]
    exact ht
  · by_contra hbelow
    rw [Bool.not_eq_false] at hbelow
    exact Bool.false_ne_true (ht.symm.trans (hα.trans _ _ _ habove hbelow))

/-! ## Runs under a tolerance that accepts more -/

section Accepted

variable {t t' : α} {A : DenseMatrix n α}
  (haccepted : ∀ (M : DenseMatrix n α) (column : Fin n),
    Scalar.below (scan M column).magnitude t = false →
      Scalar.below (scan M column).magnitude t' = false)

include haccepted

/-- The records of the run under `t` are the first ones of a run under a `t'` that accepts more. -/
theorem prefix_records_of_accepted : (decompose t A).records <+: (decompose t' A).records := by
  obtain ⟨s, hs, -, hrecords⟩ := exists_reached_left t A
  rw [hrecords]
  exact (hs.mono haccepted).prefix_records

/-- If the run under `t` succeeds, the run under a `t'` that accepts more has the same result. -/
theorem outcome_eq_ok_of_accepted {p : RowOrder n} (h : (decompose t A).outcome = .ok p) :
    (decompose t' A).outcome = .ok p ∧ (decompose t' A).matrix = (decompose t A).matrix := by
  obtain ⟨s, hs, rfl, -⟩ := exists_reached_of_ok h
  have hs' := hs.mono haccepted
  exact ⟨hs'.outcome_eq_ok, hs'.matrix_eq.trans hs.matrix_eq.symm⟩

/-- If the run under `t'` fails, the run under a `t` that accepts less fails in the same column or
before. -/
theorem exists_error_of_accepted {b' : Breakdown n α} (h : (decompose t' A).outcome = .error b') :
    ∃ b, (decompose t A).outcome = .error b ∧ b.column ≤ b'.column := by
  rcases outcome_eq_ok_or_error t A with ⟨p, hp⟩ | ⟨b, hb⟩
  · rw [(outcome_eq_ok_of_accepted haccepted hp).1] at h
    cases h
  · obtain ⟨s, hs, -, -⟩ := exists_reached_of_error hb
    have hle := (hs.mono haccepted).le_finishedColumns
    rw [Run.finishedColumns_of_error h] at hle
    exact ⟨b, hb, hle⟩

/-- If the run under `t` fails with `b`, the run under a `t'` that accepts more fails there too
exactly if `b.pivot` is below `t'`. -/
theorem error_iff_of_accepted {b : Breakdown n α} (h : (decompose t A).outcome = .error b) :
    (∃ b', (decompose t' A).outcome = .error b' ∧ b'.column = b.column ∧ b'.pivot = b.pivot) ↔
      Scalar.below b.pivot t' = true := by
  constructor
  · rintro ⟨b', hb', -, hpivot⟩
    obtain ⟨-, -, -, hlow⟩ := exists_reached_of_error hb'
    rwa [← hpivot]
  · intro hlow
    obtain ⟨s, hs, hpivot, -⟩ := exists_reached_of_error h
    rw [hpivot] at hlow
    exact ⟨_, (hs.mono haccepted).outcome_eq_error hlow, rfl, hpivot.symm⟩

end Accepted

/-! ## All tolerances -/

/-- **The tolerance decides only where a run stops.** Under a `LinearComparison`, whatever the
operations, let `t₂` not be `Unordered` and not be below `t₁`.

- The records under `t₂` are the first ones of those under `t₁`.
- If the run under `t₂` returns `p`, the run under `t₁` returns `p` and leaves the same matrix.
- If the run under `t₁` fails, the run under `t₂` fails in the same column or before.
- If the run under `t₂` fails with `b₂`, the run under `t₁` fails in the same column with the same
  pivot exactly if this is below `t₁` too.

Under a tolerance `t` that is not above `0`, be it zero, negative or unordered, the run succeeds,
and its records extend those of the run under any `t'`. -/
theorem decompose_tolerance (hα : LinearComparison α) (A : DenseMatrix n α) :
    (∀ t₁ t₂ : α, ¬Unordered t₂ → Scalar.below t₂ t₁ = false →
      (decompose t₂ A).records <+: (decompose t₁ A).records ∧
      (∀ p, (decompose t₂ A).outcome = .ok p →
        (decompose t₁ A).outcome = .ok p ∧ (decompose t₁ A).matrix = (decompose t₂ A).matrix) ∧
      (∀ b₁, (decompose t₁ A).outcome = .error b₁ →
        ∃ b₂, (decompose t₂ A).outcome = .error b₂ ∧ b₂.column ≤ b₁.column) ∧
      ∀ b₂, (decompose t₂ A).outcome = .error b₂ →
        ((∃ b₁, (decompose t₁ A).outcome = .error b₁ ∧ b₁.column = b₂.column ∧
          b₁.pivot = b₂.pivot) ↔ Scalar.below b₂.pivot t₁ = true)) ∧
    ∀ t : α, Scalar.below 0 t = false →
      (∃ p, (decompose t A).outcome = .ok p) ∧
        ∀ t', (decompose t' A).records <+: (decompose t A).records := by
  constructor
  · intro t₁ t₂ ht hle
    have haccepted := fun (M : DenseMatrix n α) (column : Fin n) =>
      hα.accepted_of_not_below (m := (scan M column).magnitude) ht hle
    exact ⟨prefix_records_of_accepted haccepted, fun _ => outcome_eq_ok_of_accepted haccepted,
      fun _ => exists_error_of_accepted haccepted, fun _ => error_iff_of_accepted haccepted⟩
  · intro t ht
    have haccepted := hα.accepted_of_not_positive (n := n) ht
    refine ⟨?_, fun t' => prefix_records_of_accepted fun M column _ => haccepted M column⟩
    rcases outcome_eq_ok_or_error t A with hok | ⟨b, hb⟩
    · exact hok
    · obtain ⟨s, -, hpivot, hlow⟩ := exists_reached_of_error hb
      rw [hpivot, haccepted s.matrix b.column] at hlow
      cases hlow

/-- A matrix whose pivots are four and two. -/
def evenMatrix : DenseMatrix 2 Binary64 :=
  ⟨#v[#v[.ofNat 2, .ofNat 4], #v[.ofNat 4, .ofNat 4]]⟩

/-- Under the tolerance `3` the run on `evenMatrix` fails with its last pivot. -/
theorem outcome_evenMatrix :
    (decompose (.ofNat 3) evenMatrix).outcome = .error ⟨1, .ofNat 2, .ofNat 3⟩ := by
  decide +kernel

/-- The last pivot of `evenMatrix` equals the smaller tolerance, so the run under it does not
fail. -/
theorem decompose_tolerance_evenMatrix :
    (decompose (.ofNat 3) evenMatrix).records <+: (decompose (.ofNat 2) evenMatrix).records ∧
      ((∃ b₁, (decompose (.ofNat 2) evenMatrix).outcome = .error b₁ ∧ b₁.column = 1 ∧
        b₁.pivot = .ofNat 2) ↔ Scalar.below (.ofNat 2 : Binary64) (.ofNat 2) = true) ∧
      ∃ p, (decompose (-1) (DenseMatrix.ofFn fun _ _ => 0 : DenseMatrix 3 ℚ)).outcome = .ok p := by
  have hordered : ¬Unordered (.ofNat 3 : Binary64) := by
    rw [Binary.unordered_iff]
    decide +kernel
  obtain ⟨hrecords, -, -, hiff⟩ := (decompose_tolerance Binary.linearComparison evenMatrix).1
    (.ofNat 2) (.ofNat 3) hordered (by decide +kernel)
  have hstop := hiff _ outcome_evenMatrix
  -- the fields of the breakdown are read off before the statements are compared
  dsimp only at hstop
  refine ⟨hrecords, hstop, ?_⟩
  exact ((decompose_tolerance (linearComparison_of_lt below_eq_true_iff) _).2 _ (by decide)).1

end Elimination

end PivotedLU
