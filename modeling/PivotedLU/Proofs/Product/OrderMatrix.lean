import PivotedLU.Proofs.Product.Triangles

/-!
# Products with the Matrix of a Row Order

A row of the matrix of a row order holds a single one, so an ordered sum over it takes up one entry,
and otherwise products with zero. Where in the sum the one stands does not matter: before it the sum
is zero, and after it nothing is added any more. Over the rationals what comes out is the entry
itself. Over floats, and as long as all entries are finite, it is the same number; a negative zero
comes out as the positive one, with which the sum began.

## Main results

* `RowOrder.get_toMatrix_mulVec_of`, `RowOrder.entry_toMatrix_mul_of`,
  `RowOrder.entry_transpose_mul_toMatrix_of`: the entries of such products, in any arithmetic in
  which products with zero drop out of sums.
* `Binary.equals_selected`, `Binary.selected_eq`: what floats make of the entry that is taken up.
* `RowOrder.toMatrix_acts`: the matrix of a row order acts as the order does.
-/

namespace PivotedLU

universe u

variable {n : Nat}

namespace RowOrder

variable {α : Type u} [Scalar α] {usable reachable : α → Prop}

/-- Applied to `b`, the matrix of `p` takes up the entry at the source of each place, under
`ZeroTermLaws`. -/
theorem get_toMatrix_mulVec_of (h : ZeroTermLaws usable reachable) (p : RowOrder n) {b : Vector α n}
    (hb : ∀ k, usable (b.get k)) (i : Fin n) :
    (p.toMatrix.mulVec b).get i = 0 + 1 * b.get (p.source i) := by
  rw [DenseMatrix.get_mulVec, DenseMatrix.dot, ← h.foldl_eq_single hb]
  refine foldl_congr_step (fun acc k => ?_) 0
  rw [← p.entry_toMatrix i k]
  rfl

/-- Multiplied by `A`, the matrix of `p` takes up the row at the source of each place. -/
theorem entry_toMatrix_mul_of (h : ZeroTermLaws usable reachable) (p : RowOrder n)
    {A : DenseMatrix n α} (hA : ∀ i j, usable (A.entry i j)) (i j : Fin n) :
    (p.toMatrix.mul A).entry i j = 0 + 1 * A.entry (p.source i) j := by
  rw [DenseMatrix.entry_mul, ← h.foldl_eq_single fun k => hA k j]
  refine foldl_congr_step (fun acc k => ?_) 0
  rw [p.entry_toMatrix]

/-- A column of the matrix of `p` holds a single one too, since no row stands at two places. -/
theorem entry_transpose_mul_toMatrix_of (h : ZeroTermLaws usable reachable) (p : RowOrder n)
    (i j : Fin n) :
    ((p.toMatrix : DenseMatrix n α).transpose.mul p.toMatrix).entry i j =
      0 + 1 * if i = j then 1 else 0 := by
  -- the rows of the matrix are usable, and row `i` stands at a single place
  have hunit : ∀ k, usable ((p.toMatrix : DenseMatrix n α).entry k j) := by
    intro k
    rw [entry_toMatrix]
    split
    · exact h.usable_one
    · exact h.usable_zero
  obtain ⟨place, rfl⟩ := p.source_bijective.2 i
  rw [DenseMatrix.entry_mul, ← p.entry_toMatrix place j, ← h.foldl_eq_single hunit place]
  refine foldl_congr_step (fun acc k => ?_) 0
  have hplace : p.source k = p.source place ↔ place = k :=
    ⟨fun hk => (p.source_injective hk).symm, fun hk => congrArg p.source hk.symm⟩
  rw [DenseMatrix.entry_transpose, p.entry_toMatrix k (p.source place)]
  simp only [hplace]

end RowOrder

namespace Binary

variable {F : Format}

/-- A finite `x` that is taken up comes out as the same number. -/
theorem equals_selected {x : Binary F} (hx : x.isFinite = true) : equals (0 + 1 * x) x = true := by
  have hnumber : x.isNaN = false := ((equals_iff x x).1 (equals_self hx)).1
  have hproduct : 1 * x = x := one_mul x
  rw [hproduct]
  exact equals_zero_add hnumber

/-- An `x` that is taken up comes out as the same value unless it is `zero true`. -/
theorem selected_eq {x : Binary F} (hx : x ≠ zero true) : 0 + 1 * x = x := by
  have hproduct : 1 * x = x := one_mul x
  rw [hproduct]
  exact zero_add hx

end Binary

namespace RowOrder

/-- **The matrix of a row order acts as the order.**

- Applied to `b`, `p.toMatrix` permutes `b`; multiplied by `A` it permutes the rows of `A`; and its
  transpose is its inverse, all over the rationals.
- Over finite floats of every format `F`, the results are the same numbers under `equals`, and the
  product with the transpose is the identity matrix, bit for bit. -/
theorem toMatrix_acts (p : RowOrder n) :
    ((∀ b : Vector ℚ n, ∃ x, p.toMatrix.apply b.toList = .ok x ∧ p.permuteList b.toList = .ok x) ∧
      (∀ A : DenseMatrix n ℚ, ∃ M, p.toMatrix.multiply A = .ok M ∧
        ∀ i, M.row i = A.row (p.source i)) ∧
      ∃ M, (p.toMatrix : DenseMatrix n ℚ).transpose.multiply p.toMatrix = .ok M ∧
        ∀ i j, M.entry i j = if i = j then 1 else 0) ∧
    ∀ F : Format,
      (∀ b : Vector (Binary F) n, (∀ i, (b.get i).isFinite = true) →
        ∃ x y, p.toMatrix.apply b.toList = .ok x ∧ p.permuteList b.toList = .ok y ∧
          ∀ i, Binary.equals (x.get i) (y.get i) = true) ∧
      (∀ A : DenseMatrix n (Binary F), (∀ i j, (A.entry i j).isFinite = true) →
        ∃ M, p.toMatrix.multiply A = .ok M ∧
          ∀ i j, Binary.equals (M.entry i j) (A.entry (p.source i) j) = true) ∧
      (p.toMatrix : DenseMatrix n (Binary F)).transpose.multiply p.toMatrix =
        .ok (DenseMatrix.identity n) := by
  -- all sums have one term that counts, and this is the entry that is selected
  have hselected : ∀ x : ℚ, 0 + 1 * x = x := fun x => by rw [one_mul, zero_add]
  refine ⟨⟨fun b => ?_, fun A => ?_, ?_⟩, fun F => ⟨fun b hb => ?_, fun A hA => ?_, ?_⟩⟩
  · refine ⟨p.permute b, ?_, p.permuteList_toList b⟩
    rw [DenseMatrix.apply_toList]
    refine congrArg Except.ok (vector_eq_iff.2 fun i => ?_)
    rw [get_permute]
    exact (p.get_toMatrix_mulVec_of Factorization.zeroTermLaws_rat (fun _ => trivial) i).trans
      (hselected _)
  · refine ⟨p.permuteRows A, ?_, p.row_permuteRows A⟩
    rw [DenseMatrix.multiply_eq_ok, toMatrix_mul]
  · refine ⟨_, DenseMatrix.multiply_eq_ok _ _, fun i j => ?_⟩
    exact (p.entry_transpose_mul_toMatrix_of Factorization.zeroTermLaws_rat i j).trans
      (hselected _)
  · refine ⟨_, _, DenseMatrix.apply_toList _ b, p.permuteList_toList b, fun i => ?_⟩
    rw [p.get_toMatrix_mulVec_of Binary.zeroTermLaws hb, get_permute]
    exact Binary.equals_selected (hb (p.source i))
  · refine ⟨_, DenseMatrix.multiply_eq_ok _ A, fun i j => ?_⟩
    rw [p.entry_toMatrix_mul_of Binary.zeroTermLaws hA]
    exact Binary.equals_selected (hA (p.source i) j)
  · rw [DenseMatrix.multiply_eq_ok]
    refine congrArg Except.ok (DenseMatrix.ext fun i j => ?_)
    rw [p.entry_transpose_mul_toMatrix_of Binary.zeroTermLaws, DenseMatrix.entry_identity,
      Binary.selected_eq]
    split
    · exact fun hone => Bool.false_ne_true (Binary.finite.inj hone).1
    · exact fun hzero => Bool.false_ne_true (Binary.finite.inj hzero).1

/-- Here `p` has a cycle of three places; the negative zeros come out as positive ones. -/
theorem toMatrix_acts_negativeZero :
    let p := ((RowOrder.identity 3).exchange 0 1).exchange 1 2
    let b : Vector Binary64 3 := #v[.zero true, 1, (.ofNat 2 : Binary64).neg]
    let A : DenseMatrix 3 Binary64 := ⟨#v[b, #v[.ofNat 3, .zero true, 1], #v[1, 1, .zero true]]⟩
    p.toMatrix.apply b.toList ≠ p.permuteList b.toList ∧
      (∃ x y, p.toMatrix.apply b.toList = .ok x ∧ p.permuteList b.toList = .ok y ∧
        ∀ i, Binary.equals (x.get i) (y.get i) = true) ∧
      ∃ M, p.toMatrix.multiply A = .ok M ∧
        ∀ i j, Binary.equals (M.entry i j) (A.entry (p.source i) j) = true := by
  intro p b A
  obtain ⟨hvector, hmatrix, -⟩ := (toMatrix_acts p).2 .binary64
  exact ⟨by decide +kernel, hvector b (by decide +kernel), hmatrix A (by decide +kernel)⟩

-- the bound on the entries is needed: a zero times an infinity is not a number
example :
    let p := (RowOrder.identity 2).exchange 0 1
    let b : Vector Binary64 2 := #v[.infinity false, 1]
    (p.toMatrix.mulVec b).get 0 = .nan ∧ (p.permute b).get 0 = 1 := by
  decide +kernel

end RowOrder

end PivotedLU
