import PivotedLU.Proofs.Stored.Substitution
import PivotedLU.Proofs.Substitution.Columns

/-!
# Substitution into Used Buffers

Solving and inverting write into a buffer that the caller hands in, and use it for their work as
well. The caller may hand in the buffer of an earlier result. All sizes are compared before the
first write, so a buffer that is refused is not touched. From then on nothing is read that has not
been written: the results are those of a new buffer.

## Main results

* `Substitution.solveBuffer_eq_error_iff`, `Substitution.invertBuffer_eq_error_iff`: the first size
  that does not fit is what a buffer is refused for.
* `Stored.substitution_overwrites`: in place, a buffer that is refused stays as it was, and one that
  fits may hold anything.
-/

namespace PivotedLU

universe u

/-! ## Checks -/

namespace Substitution

variable {α : Type u} [Scalar α] {n m l : Nat} (lu : DenseMatrix n α) (p : RowOrder m)

/-- The sizes are compared in a fixed order: that of `p`, of `b`, and of the buffer `x`. -/
theorem solveBuffer_eq_error_iff {b x : List α} {v : Violation} :
    solveBuffer lu p b x = .error v ↔
      (m ≠ n ∧ v = .orderLength) ∨ (m = n ∧ b.length ≠ n ∧ v = .rightHandSideLength) ∨
        (m = n ∧ b.length = n ∧ x.length ≠ n ∧ v = .solutionLength) := by
  unfold solveBuffer
  by_cases hp : m = n
  · by_cases hb : b.length = n
    · by_cases hx : x.length = n
      · simp [hp, hb, hx]
      · simp [hp, hb, hx, eq_comm]
    · simp [hp, hb, eq_comm]
  · simp [hp, eq_comm]

/-- The sizes are compared in a fixed order: that of `p`, and of the buffer `X`. -/
theorem invertBuffer_eq_error_iff {X : DenseMatrix l α} {v : Violation} :
    invertBuffer lu p X = .error v ↔
      (m ≠ n ∧ v = .orderLength) ∨ (m = n ∧ l ≠ n ∧ v = .inverseDimension) := by
  unfold invertBuffer
  by_cases hp : m = n
  · by_cases hX : l = n
    · simp [hp, hX]
    · simp [hp, hX, eq_comm]
  · simp [hp, eq_comm]

end Substitution

/-! ## Computations in place -/

namespace Stored

open InPlace

variable {α : Type} [Scalar α] {n m : Nat}

/-- **Buffers are overwritten.**

- Solving in place is stopped exactly if `p`, the right-hand side `b` or the buffer `x` has another
  length than `lu`; it is stopped by the first of them in this order, and leaves `x` as it was.
- Otherwise it comes to its end, and what it leaves is the solution `y` that a new buffer would
  hold, whatever `x` held before.
- The same is true of inverting in place, with `p` and the size of the buffer `X`. -/
theorem substitution_overwrites (lu : DenseMatrix n α) (p : RowOrder m) :
    (∀ (b x x' : List α) (v : Violation),
      (solveInto lu.toLists p.stored b).run x = .error v x' ↔
        x' = x ∧
          ((m ≠ n ∧ v = .orderLength) ∨ (m = n ∧ b.length ≠ n ∧ v = .rightHandSideLength) ∨
            (m = n ∧ b.length = n ∧ x.length ≠ n ∧ v = .solutionLength))) ∧
    (∀ b : List α, m = n → b.length = n →
      ∃ y : Vector α n, Substitution.solveList lu p b = .ok y ∧
        solve lu.toLists p.stored b = .ok y.toList ∧
        ∀ x : List α, x.length = n →
          (solveInto lu.toLists p.stored b).run x = .ok () y.toList) ∧
    (∀ (l : Nat) (X : DenseMatrix l α) (X' : Rows α) (v : Violation),
      (invertInto lu.toLists p.stored).run X.toLists = .error v X' ↔
        X' = X.toLists ∧
          ((m ≠ n ∧ v = .orderLength) ∨ (m = n ∧ l ≠ n ∧ v = .inverseDimension))) ∧
    (m = n →
      ∃ Y : DenseMatrix n α, Substitution.invertAny lu p = .ok Y ∧
        invert lu.toLists p.stored = .ok Y.toLists ∧
        ∀ X : DenseMatrix n α,
          (invertInto lu.toLists p.stored).run X.toLists = .ok () Y.toLists) := by
  refine ⟨fun b x x' v => ?_, fun b hp hb => ?_, fun l X X' v => ?_, fun hp => ?_⟩
  · rw [run_eq_error_iff_of_settled (run_solveInto lu p b x), Substitution.solveBuffer_eq_error_iff]
  · subst hp
    -- lists of the right length are vectors, and for these the buffer does not matter
    have hsolved : ∀ x : List α, x.length = m → Substitution.solveBuffer lu p b x =
        .ok (Substitution.solve lu p (vectorOfList b hb)) := by
      intro x hx
      rw [← Substitution.solveBuffer_toList lu p _ (vectorOfList x hx), toList_vectorOfList,
        toList_vectorOfList]
    have hnew := hsolved (List.replicate m 0) List.length_replicate
    refine ⟨_, hnew, ?_, fun x hx => ?_⟩
    · rw [solve_toLists, Substitution.solveList, hnew]
      rfl
    · rw [run_solveInto, hsolved x hx, settled]
  · rw [run_eq_error_iff_of_settled (run_invertInto lu p X), Substitution.invertBuffer_eq_error_iff]
  · subst hp
    have hinverted := Substitution.invertBuffer_eq_ok lu p
    refine ⟨_, hinverted _, ?_, fun X => ?_⟩
    · rw [invert_toLists, Substitution.invertAny, hinverted]
      rfl
    · rw [run_invertInto, hinverted, settled]

/-- A right-hand side that is too short is noticed before a buffer that is too long, and buffers
full of `nan` are filled. -/
theorem substitution_overwrites_stale :
    let lu : DenseMatrix 2 Binary64 := ⟨#v[#v[.ofNat 2, 1], #v[.ofNat 3, .ofNat 4]]⟩
    let p := (RowOrder.identity 2).exchange 0 1
    let stale : Rows Binary64 := [[.nan, .nan], [.nan, .nan]]
    (solveInto lu.toLists p.stored [1]).run [.nan, 0, 1] =
        .error .rightHandSideLength [.nan, 0, 1] ∧
      (∃ y : Vector Binary64 2, solve lu.toLists p.stored [0, 1] = .ok y.toList ∧
        (solveInto lu.toLists p.stored [0, 1]).run [.nan, .nan] = .ok () y.toList) ∧
      (invertInto lu.toLists p.stored).run [[.nan]] = .error .inverseDimension [[.nan]] ∧
      ∃ Y : DenseMatrix 2 Binary64, invert lu.toLists p.stored = .ok Y.toLists ∧
        (invertInto lu.toLists p.stored).run stale = .ok () Y.toLists := by
  intro lu p stale
  obtain ⟨hstopped, hsolved, hstopped', hinverted⟩ := substitution_overwrites lu p
  obtain ⟨y, -, hnew, hused⟩ := hsolved [0, 1] rfl rfl
  obtain ⟨Y, -, hnew', hused'⟩ := hinverted rfl
  refine ⟨?_, ⟨y, hnew, hused _ rfl⟩, ?_, Y, hnew', ?_⟩
  · exact (hstopped _ _ _ _).2 ⟨rfl, Or.inr (Or.inl ⟨rfl, by decide, rfl⟩)⟩
  · exact (hstopped' 1 ⟨#v[#v[.nan]]⟩ _ _).2 ⟨rfl, Or.inr ⟨rfl, by decide, rfl⟩⟩
  · exact hused' ⟨#v[#v[.nan, .nan], #v[.nan, .nan]]⟩

end Stored

end PivotedLU
