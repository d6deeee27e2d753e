import PivotedLU.Proofs.Binary.Laws
import PivotedLU.Proofs.Exact.Triangles

/-!
# The Product of Rounded Triangles

A reconstruction takes up fewer terms than the product of the triangles. With rounding the terms
that are left out are zeros of either sign, as long as the other factors are finite. A sum that
begins with the positive zero never becomes the negative one, and such a sum does not notice a zero,
not even after it has overflowed. The two products therefore agree bit for bit.

## Main results

* `Binary.zeroTermLaws`: products of a zero and a finite value drop out of rounded sums.
* `Factorization.triangles_product`: the reconstruction is the product of the triangles, and the
  triangles hold the entries of the combined matrix.
-/

namespace PivotedLU

universe u

namespace Binary

variable {F : Format}

/-- The product of `0` and a finite `x` is a zero of either sign, and is not noticed by a sum `s`
that is not `zero true`. -/
theorem add_zero_mul {s x : Binary F} (hs : s ≠ zero true) (hx : x.isFinite = true) :
    add s (mul 0 x) = s := by
  have hzero : equals (0 : Binary F) 0 = true := equals_zeros false false
  obtain ⟨negative, hproduct⟩ := equals_zero_iff.1 (equals_zero_mul hzero hx)
  rw [hproduct]
  exact add_zero hs negative

/-- Floats have the `ZeroTermLaws`: a product of `0` and a finite value drops out of every rounded
sum that began with the positive zero. -/
theorem zeroTermLaws :
    ZeroTermLaws (fun x : Binary F => x.isFinite = true) fun s => s ≠ zero true where
  usable_zero := rfl
  usable_one := rfl
  reachable_zero h := nomatch h
  reachable_add x hs := add_ne_negativeZero hs x
  add_zero_mul := add_zero_mul
  add_mul_zero {s x} hs hx := by
    show add s (mul x 0) = s
    rw [mul_comm]
    exact add_zero_mul hs hx

end Binary

namespace Factorization

variable {n : Nat}

/-- **The product of the triangles.**

- Over the rationals `f.reconstruct` is the product of `f.lower` and `f.upper`.
- Over floats it is so bit for bit, also where sums overflow on the way, if the entries of `f.lu`
  are finite.
- In any arithmetic the triangles lose nothing: below the diagonal the entries of `f.lu` are those
  of `f.lower`, on and above it those of `f.upper`; the diagonal of `f.lower` is `1`, and outside
  the triangles there is `0`. -/
theorem triangles_product :
    (∀ f : Factorization n ℚ, f.lower.multiply f.upper = .ok f.reconstruct) ∧
    (∀ (F : Format) (f : Factorization n (Binary F)),
      (∀ i j, (f.lu.entry i j).isFinite = true) →
        f.lower.multiply f.upper = .ok f.reconstruct) ∧
    ∀ (α : Type u) [Scalar α] (f : Factorization n α) (i j : Fin n),
      (j < i → f.lower.entry i j = f.lu.entry i j) ∧
        (i ≤ j → f.upper.entry i j = f.lu.entry i j) ∧
        f.lower.entry i i = 1 ∧ (i < j → f.lower.entry i j = 0) ∧
        (j < i → f.upper.entry i j = 0) := by
  refine ⟨fun f => ?_, fun F f hf => ?_, fun α _ f i j => ⟨?_, ?_, ?_, ?_, ?_⟩⟩
  · rw [DenseMatrix.multiply_eq_ok, reconstruct_eq_mul]
  · rw [DenseMatrix.multiply_eq_ok, reconstruct_eq_mul_of Binary.zeroTermLaws hf]
  · exact fun hji => (f.entry_lower i j).trans (if_pos hji)
  · exact fun hij => (f.entry_upper i j).trans (if_pos hij)
  · exact f.entry_lower_self i
  · exact f.entry_lower_of_lt
  · exact f.entry_upper_of_lt

/-- The last entry is the sum of two products that overflow with different signs, and of one
more. -/
theorem triangles_product_overflow :
    let large : Binary64 := .ofNat (2 ^ (1023 : Nat))
    let f : Factorization 3 Binary64 :=
      ⟨⟨#v[#v[1, .zero true, large], #v[1, (1 : Binary64).neg, large.neg],
        #v[.ofNat 2, .ofNat 2, 1]]⟩, RowOrder.identity 3⟩
    (∀ i j, (f.lu.entry i j).isFinite = true) ∧ f.reconstruct.entry 2 2 = .nan ∧
      f.lower.multiply f.upper = .ok f.reconstruct := by
  intro large f
  have hfinite : ∀ i j, (f.lu.entry i j).isFinite = true := by decide +kernel
  exact ⟨hfinite, by decide +kernel, triangles_product.{0}.2.1 _ f hfinite⟩

-- one infinity on the diagonal is multiplied by a zero that the reconstruction does not look at
example :
    let f : Factorization 2 Binary64 :=
      ⟨⟨#v[#v[1, 1], #v[1, .infinity false]]⟩, RowOrder.identity 2⟩
    f.reconstruct.entry 0 1 = 1 ∧ (f.lower.mul f.upper).entry 0 1 = .nan := by
  decide +kernel

end Factorization

end PivotedLU
