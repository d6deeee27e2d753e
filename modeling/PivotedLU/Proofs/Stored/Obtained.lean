import PivotedLU.Factorization.Settings
import PivotedLU.Proofs.Json.Parts
import PivotedLU.Proofs.Stored.Factorization

/-!
# Stored Values That Can Be Obtained

Matrices, row orders and factorizations are made from lists, computed from each other and changed
in place. A change may be stopped by a position outside the data, and an elimination may break down;
the data remain in use with what has been written until then. Whatever the sequence of operations
was, every value that is obtained is the stored form of one of the library, so its rows have the
right lengths and its indices are a permutation. The accesses that rely on this are then inside.

A decoder makes its values from the lists that it reads, with the same checks.

## Main definitions

* `Stored.Value`, `Stored.Obtained`: what is held, and how it may have come about.
* `Stored.Value.WellFormed`: the stored form of a matrix, an order or a factorization.
* `Stored.SoundRows`, `Stored.SoundOrder`, `Stored.SoundFactors`: what may be relied on.

## Main results

* `Stored.Obtained.wellFormed`: one operation after the other keeps the stored form.
* `Stored.obtained_factor`, `Stored.obtained_of_factorization`: factorizations that were computed or
  decoded.
* `Stored.obtained_sound`: what is obtained may be relied on.
-/

namespace PivotedLU

namespace Stored

open InPlace

universe u

variable {α : Type} {n m : Nat}

/-! ## Values -/

/-- A matrix, an order or a factorization. -/
inductive Value (α : Type) where
  | matrix (rows : Rows α)
  | order (p : Order)
  | factors (f : Factors α)

/-- The value is the stored form of a `DenseMatrix`, a `RowOrder` or a `Factorization`. -/
def Value.WellFormed : Value α → Prop
  | .matrix rows => ∃ (n : Nat) (A : DenseMatrix n α), rows = A.toLists
  | .order p => ∃ (n : Nat) (q : RowOrder n), p = q.stored
  | .factors f => ∃ (n : Nat) (g : Factorization n α), f = g.stored

/-- The values that any sequence of operations leads to. A change in place contributes what it
leaves, whether it came to its end or was stopped; an operation that was refused contributes
nothing. -/
inductive Obtained [Scalar α] : Value α → Prop
  -- new matrices
  | fromRows {given rows : Rows α} (h : Stored.fromRows given = .ok rows) :
      Obtained (.matrix rows)
  | fromRowMajor {n : Nat} {data : List α} {rows : Rows α}
      (h : Stored.fromRowMajor n data = .ok rows) : Obtained (.matrix rows)
  | zeros (n : Nat) : Obtained (.matrix (Stored.zeros n))
  | identity {n : Nat} {rows : Rows α} (h : Stored.identity n = .ok rows) :
      Obtained (.matrix rows)
  -- matrices changed in place
  | setEntry {rows : Rows α} (h : Obtained (.matrix rows)) (i j : Nat) (x : α) :
      Obtained (.matrix ((Stored.setEntry i j x).left rows))
  | replaceRow {rows : Rows α} (h : Obtained (.matrix rows)) (i : Nat) (xs : List α) :
      Obtained (.matrix ((Stored.replaceRow i xs).left rows))
  | swapRows {rows : Rows α} (h : Obtained (.matrix rows)) (i j : Nat) :
      Obtained (.matrix ((swapAt i j).left rows))
  | writeBelow {rows : Rows α} (h : Obtained (.matrix rows)) (i k j : Nat) (x : α) :
      Obtained (.matrix ((Stored.writeBelow i k j x).left rows))
  | decompose {rows : Rows α} (h : Obtained (.matrix rows)) (tolerance : α) :
      Obtained (.matrix ((Stored.decompose tolerance).left rows))
  | invertInto {lu rows : Rows α} {p : Order} (hlu : Obtained (.matrix lu))
      (hp : Obtained (.order p)) (h : Obtained (.matrix rows)) :
      Obtained (.matrix ((Stored.invertInto lu p).left rows))
  -- computed matrices
  | transpose {rows result : Rows α} (h : Obtained (.matrix rows))
      (hresult : Stored.transpose rows = .ok result) : Obtained (.matrix result)
  | multiply {left right result : Rows α} (hleft : Obtained (.matrix left))
      (hright : Obtained (.matrix right))
      (hresult : Stored.multiply left right = .ok (.ok result)) :
      Obtained (.matrix result)
  | orderMatrix {p : Order} {result : Rows α} (h : Obtained (.order p))
      (hresult : Stored.orderMatrix p = .ok result) : Obtained (.matrix result)
  | invert {lu result : Rows α} {p : Order} (hlu : Obtained (.matrix lu)) (hp : Obtained (.order p))
      (hresult : Stored.invert lu p = .ok result) : Obtained (.matrix result)
  -- orders
  | identityOrder (n : Nat) : Obtained (.order (Order.identity n))
  | fromFlat {flat : List Nat} {p : Order} (h : Stored.fromFlat flat = .ok (.ok p)) :
      Obtained (.order p)
  | exchange {p : Order} (h : Obtained (.order p)) (i j : Nat) :
      Obtained (.order ((Stored.exchange i j).left p))
  | decomposed {rows rows' : Rows α} {p : Order} {tolerance : α} (h : Obtained (.matrix rows))
      (hrun : (Stored.decompose tolerance).run rows = .ok (.ok p) rows') : Obtained (.order p)
  -- factorizations and their parts
  | fromParts {lu : Rows α} {p : Order} {f : Factors α} (hlu : Obtained (.matrix lu))
      (hp : Obtained (.order p)) (h : Factors.fromParts lu p = .ok f) : Obtained (.factors f)
  | lu {f : Factors α} (h : Obtained (.factors f)) : Obtained (.matrix f.lu)
  | order {f : Factors α} (h : Obtained (.factors f)) : Obtained (.order f.order)
  | lower {f : Factors α} {result : Rows α} (h : Obtained (.factors f))
      (hresult : f.lower = .ok result) : Obtained (.matrix result)
  | upper {f : Factors α} {result : Rows α} (h : Obtained (.factors f))
      (hresult : f.upper = .ok result) : Obtained (.matrix result)
  | reconstruct {f : Factors α} {result : Rows α} (h : Obtained (.factors f))
      (hresult : f.reconstruct = .ok result) : Obtained (.matrix result)

/-! ## What can be relied on -/

/-- The `rows` are those of a square matrix, and nothing is written outside them. -/
structure SoundRows (rows : Rows α) : Prop where
  /-- Every row is as long as there are rows. -/
  square : ∀ row ∈ rows, row.length = rows.length
  setEntry_outside : ∀ (i j : Nat) (x : α), ¬(i < rows.length ∧ j < rows.length) →
    (setEntry i j x).run rows = .error .outOfBounds rows
  writeBelow_outside : ∀ (i k j : Nat) (x : α), ¬(i + 1 + k < rows.length ∧ j < rows.length) →
    (writeBelow i k j x).run rows = .error .outOfBounds rows
  swapAt_outside : ∀ i j : Nat, ¬(i < rows.length ∧ j < rows.length) →
    (swapAt i j).run rows = .error .outOfBounds rows

/-- The indices of `p` are a permutation, and an exchange outside them changes neither them nor the
counter. -/
structure SoundOrder (p : Order) : Prop where
  /-- Every index below the length occurs once. -/
  bijective : p.indices.Perm (List.range p.indices.length)
  exchange_outside : ∀ i j : Nat, ¬(i < p.indices.length ∧ j < p.indices.length) →
    (exchange i j).run p = if i = j then .ok () p else .error .outOfBounds p

/-- The two parts of `f` fit together, and everything that is read off them is what the library
computes from `g`: no access fails on the way. -/
structure SoundFactors [Scalar α] (f : Factors α) (g : Factorization n α) : Prop where
  lu : f.lu = g.lu.toLists
  order : f.order = g.order.stored
  lower : f.lower = .ok g.lower.toLists
  upper : f.upper = .ok g.upper.toLists
  reconstruct : f.reconstruct = .ok g.reconstruct.toLists
  permutationMatrix : f.permutationMatrix = .ok g.permutationMatrix.toLists
  inverse : f.inverse = .ok g.inverse.toLists
  determinant : f.determinant = .ok g.determinant
  solve : ∀ b : List α, f.solve b = .ok ((g.solve b).map Vector.toList)
  /-- A right-hand side is refused for its length only. -/
  solve_refused : ∀ (b : List α) (fault : DimensionFault), f.solve b = .ok (.error fault) ↔
    b.length ≠ f.lu.length ∧ fault = .rightHandSide f.lu.length b.length

/-! ## Stored forms can be relied on -/

/-- The rows of a dense `A` are sound. -/
theorem soundRows_toLists (A : DenseMatrix n α) : SoundRows A.toLists where
  square row h := by rw [A.length_of_mem_toLists h, A.length_toLists]
  setEntry_outside i j x h := by
    rw [A.length_toLists] at h
    rw [run_setEntry, DenseMatrix.setAt, dif_neg h, settled]
  writeBelow_outside i k j x h := by
    rw [A.length_toLists] at h
    rw [run_writeBelow, DenseMatrix.setAt, dif_neg h, ite_self, settled]
  swapAt_outside i j h := by
    rw [A.length_toLists] at h
    rw [run_swapAt_toLists, DenseMatrix.swapRowsAt, dif_neg h, settled]

/-- The stored form of a row order `p` is sound. -/
theorem soundOrder_stored (p : RowOrder n) : SoundOrder p.stored where
  bijective := by
    rw [length_indices_stored]
    exact p.indices_perm_range
  exchange_outside i j h := by
    rw [length_indices_stored] at h
    rw [run_exchange, RowOrder.exchangeAt]
    by_cases hij : i = j
    · rw [if_pos hij, if_pos hij, settled]
    · rw [if_neg hij, if_neg hij]
      by_cases hi : i < n
      · rw [dif_pos hi, dif_neg fun hj => h ⟨hi, hj⟩, settled]
      · rw [dif_neg hi, settled]

/-- The stored form of a factorization `g` is sound. -/
theorem soundFactors_stored [Scalar α] (g : Factorization n α) : SoundFactors g.stored g where
  lu := rfl
  order := rfl
  lower := lower_stored g
  upper := upper_stored g
  reconstruct := reconstruct_stored g
  permutationMatrix := permutationMatrix_stored g
  inverse := inverse_stored g
  determinant := determinant_stored g
  solve := solve_stored g
  solve_refused b fault := by
    have hdim : g.stored.lu.length = n := g.lu.length_toLists
    rw [hdim, solve_stored, Factorization.solve]
    by_cases h : b.length = n
    · rw [dif_pos h]
      constructor
      · intro hsolve
        cases hsolve
      · rintro ⟨hlength, -⟩
        exact absurd h hlength
    · rw [dif_neg h]
      constructor
      · intro hsolve
        cases hsolve
        exact ⟨h, rfl⟩
      · rintro ⟨-, rfl⟩
        rfl

/-! ## Operations keep the stored form -/

/-- A change `act` that does what an operation of the library does with `A` leaves a stored
matrix. -/
theorem wellFormed_left_matrix (A : DenseMatrix n α) {act : InPlace (Rows α) Unit}
    {result : Except Violation (DenseMatrix m α)}
    (h : act.run A.toLists = settled DenseMatrix.toLists A.toLists result) :
    (Value.matrix (act.left A.toLists)).WellFormed := by
  obtain hleft | ⟨B, hleft⟩ := left_of_settled h
  · exact ⟨n, A, hleft⟩
  · exact ⟨m, B, hleft⟩

/-- A `result` that is a dense matrix `A` is a stored one. -/
theorem wellFormed_of_eq_ok {A : DenseMatrix n α} {result : Except Violation (Rows α)}
    {rows : Rows α} (h : result = .ok A.toLists) (hresult : result = .ok rows) :
    (Value.matrix rows).WellFormed :=
  ⟨n, A, Except.ok.inj (hresult.symm.trans h)⟩

/-- A change `act` that does what an operation of the library does with `p` leaves a stored
order. -/
theorem wellFormed_left_order (p : RowOrder n) {act : InPlace Order Unit}
    {result : Except Violation (RowOrder n)}
    (h : act.run p.stored = settled RowOrder.stored p.stored result) :
    (Value.order (act.left p.stored) : Value α).WellFormed := by
  obtain hleft | ⟨q, hleft⟩ := left_of_settled h
  · exact ⟨n, p, hleft⟩
  · exact ⟨n, q, hleft⟩

/-- **Every value that can be obtained is a stored form.** The induction is on `Obtained`, the
sequence of operations; each of them does what the operation of the library does with the stored
form of its operands. -/
theorem Obtained.wellFormed [Scalar α] {v : Value α} (h : Obtained v) : v.WellFormed := by
  induction h with
  | fromRows h =>
    rw [fromRows_eq] at h
    obtain ⟨A, -, hA⟩ := exists_of_map_eq_ok h
    exact ⟨A.1, A.2, hA.symm⟩
  | fromRowMajor h =>
    rw [fromRowMajor_eq] at h
    obtain ⟨A, -, hA⟩ := exists_of_map_eq_ok h
    exact ⟨_, A, hA.symm⟩
  | zeros n => exact ⟨n, DenseMatrix.zeros n, zeros_eq n⟩
  | identity h => exact wellFormed_of_eq_ok (identity_eq _) h
  | setEntry _ i j x ih =>
    obtain ⟨n, A, rfl⟩ := ih
    exact wellFormed_left_matrix A (run_setEntry A i j x)
  | replaceRow _ i xs ih =>
    obtain ⟨n, A, rfl⟩ := ih
    exact wellFormed_left_matrix A (run_replaceRow A i xs)
  | swapRows _ i j ih =>
    obtain ⟨n, A, rfl⟩ := ih
    exact wellFormed_left_matrix A (run_swapAt_toLists A i j)
  | writeBelow _ i k j x ih =>
    obtain ⟨n, A, rfl⟩ := ih
    exact wellFormed_left_matrix A (run_writeBelow A i k j x)
  | decompose _ tolerance ih =>
    obtain ⟨n, A, rfl⟩ := ih
    exact ⟨n, _, left_of_ok (run_decompose tolerance A)⟩
  | invertInto _ _ _ ihlu ihp ih =>
    obtain ⟨n, lu, rfl⟩ := ihlu
    obtain ⟨m, p, rfl⟩ := ihp
    obtain ⟨l, X, rfl⟩ := ih
    exact wellFormed_left_matrix X (run_invertInto lu p X)
  | transpose _ hresult ih =>
    obtain ⟨n, A, rfl⟩ := ih
    exact wellFormed_of_eq_ok (transpose_toLists A) hresult
  | multiply _ _ hresult ihleft ihright =>
    obtain ⟨n, A, rfl⟩ := ihleft
    obtain ⟨m, B, rfl⟩ := ihright
    rw [multiply_toLists] at hresult
    obtain ⟨C, -, hC⟩ := exists_of_map_eq_ok (Except.ok.inj hresult)
    exact ⟨n, C, hC.symm⟩
  | orderMatrix _ hresult ih =>
    obtain ⟨n, p, rfl⟩ := ih
    exact wellFormed_of_eq_ok (orderMatrix_stored p) hresult
  | invert _ _ hresult ihlu ihp =>
    obtain ⟨n, lu, rfl⟩ := ihlu
    obtain ⟨m, p, rfl⟩ := ihp
    rw [invert_toLists] at hresult
    obtain ⟨X, -, hX⟩ := exists_of_map_eq_ok hresult
    exact ⟨n, X, hX.symm⟩
  | identityOrder n => exact ⟨n, RowOrder.identity n, (stored_identity n).symm⟩
  | fromFlat h =>
    rw [fromFlat_eq] at h
    obtain ⟨p, -, hp⟩ := exists_of_map_eq_ok (Except.ok.inj h)
    exact ⟨p.1, p.2, hp.symm⟩
  | exchange _ i j ih =>
    obtain ⟨n, p, rfl⟩ := ih
    exact wellFormed_left_order p (run_exchange p i j)
  | decomposed _ hrun ih =>
    obtain ⟨n, A, rfl⟩ := ih
    rw [run_decompose] at hrun
    have houtcome := eq_ok_of_mapError (EStateM.Result.ok.inj hrun).1
    obtain ⟨p, -, hp⟩ := exists_of_map_eq_ok houtcome
    exact ⟨n, p, hp.symm⟩
  | fromParts _ _ h ihlu ihp =>
    obtain ⟨n, lu, rfl⟩ := ihlu
    obtain ⟨m, p, rfl⟩ := ihp
    rw [fromParts_stored] at h
    obtain ⟨g, -, hg⟩ := exists_of_map_eq_ok h
    exact ⟨n, g, hg.symm⟩
  | lu _ ih =>
    obtain ⟨n, g, rfl⟩ := ih
    exact ⟨n, g.lu, rfl⟩
  | order _ ih =>
    obtain ⟨n, g, rfl⟩ := ih
    exact ⟨n, g.order, rfl⟩
  | lower _ hresult ih =>
    obtain ⟨n, g, rfl⟩ := ih
    exact wellFormed_of_eq_ok (lower_stored g) hresult
  | upper _ hresult ih =>
    obtain ⟨n, g, rfl⟩ := ih
    exact wellFormed_of_eq_ok (upper_stored g) hresult
  | reconstruct _ hresult ih =>
    obtain ⟨n, g, rfl⟩ := ih
    exact wellFormed_of_eq_ok (reconstruct_stored g) hresult

/-! ## Factored and decoded values -/

theorem obtained_toLists [Scalar α] (A : DenseMatrix n α) : Obtained (.matrix A.toLists) :=
  .fromRows (fromRows_toLists A)

variable {F : Format} {ν : Type u} {d : Json.Decoder ν F} {t : Json.Tree ν}

/-- The factorization `g` that `s.factor` finds is put together from what a run leaves and
returns. -/
theorem obtained_factor {s : Settings} {A : DenseMatrix n (Binary F)}
    {g : Factorization n (Binary F)} (h : s.factor A = .ok g) : Obtained (.factors g.stored) := by
  obtain ⟨tolerance, -, h⟩ := exists_of_bind_eq_ok h
  obtain ⟨p, hp, rfl⟩ := exists_of_map_eq_ok (eq_ok_of_mapError h)
  have hrun := run_decompose_of_ok hp
  have hlu := Obtained.decompose (obtained_toLists A) tolerance
  rw [left_of_ok hrun] at hlu
  exact .fromParts hlu (.decomposed (obtained_toLists A) hrun) (fromParts_of_size _ p)

/-- A matrix `A` that was decoded is obtained. -/
theorem obtained_of_matrix {A : SizedMatrix (Binary F)} (h : d.matrix t = .ok A) :
    Obtained (.matrix A.2.toLists) := by
  obtain ⟨rows, hrows⟩ := Json.Decoder.exists_rows_of_matrix h
  have hchecked : fromRows rows = .ok A.2.toLists := by
    rw [fromRows_eq, hrows]
    rfl
  exact .fromRows hchecked

/-- A row order `p` that was decoded is obtained. -/
theorem obtained_of_rowOrder {p : SizedOrder} (h : d.rowOrder t = .ok p) :
    Obtained (.order p.2.stored : Value (Binary F)) := by
  obtain ⟨flat, hflat⟩ := Json.Decoder.exists_flat_of_rowOrder h
  have hchecked : fromFlat flat = .ok (.ok p.2.stored) := by
    rw [fromFlat_eq, hflat]
    rfl
  exact .fromFlat hchecked

/-- A factorization `f` that was decoded is put together from a matrix and an order that were. -/
theorem obtained_of_factorization {f : SizedFactorization (Binary F)}
    (h : d.factorization t = .ok f) : Obtained (.factors f.2.stored) := by
  obtain ⟨A, p, ⟨t₁, hA⟩, ⟨t₂, hp⟩, hparts⟩ := Json.Decoder.exists_parts_of_factorization h
  obtain ⟨g, hg, rfl⟩ := exists_of_map_eq_ok hparts
  refine .fromParts (obtained_of_matrix hA) (obtained_of_rowOrder hp) ?_
  rw [fromParts_stored, hg]
  rfl

/-! ## Soundness -/

/-- **What is obtained can be relied on.** Whatever the operations in `Obtained` were, and whether
they came to their end, were refused or were stopped:

- rows are `SoundRows`: they are square, and a change outside them leaves them as they are;
- orders are `SoundOrder`: their indices are a permutation, and so on;
- factors are `SoundFactors` of some `g`: what is read off them is never stopped by an access, and
  only a right-hand side of a wrong length is refused.

What `s.factor` finds, and what is decoded from a tree `t`, is `Obtained`. -/
theorem obtained_sound (d : Json.Decoder ν F) :
    (∀ rows : Rows (Binary F), Obtained (.matrix rows) → SoundRows rows) ∧
      (∀ p : Order, Obtained (.order p : Value (Binary F)) → SoundOrder p) ∧
      (∀ f : Factors (Binary F), Obtained (.factors f) →
        ∃ (n : Nat) (g : Factorization n (Binary F)), SoundFactors f g) ∧
      (∀ (s : Settings) (n : Nat) (A : DenseMatrix n (Binary F)) (g : Factorization n (Binary F)),
        s.factor A = .ok g → Obtained (.factors g.stored)) ∧
      (∀ (t : Json.Tree ν) (A : SizedMatrix (Binary F)), d.matrix t = .ok A →
        Obtained (.matrix A.2.toLists)) ∧
      (∀ (t : Json.Tree ν) (p : SizedOrder), d.rowOrder t = .ok p →
        Obtained (.order p.2.stored : Value (Binary F))) ∧
      ∀ (t : Json.Tree ν) (f : SizedFactorization (Binary F)), d.factorization t = .ok f →
        Obtained (.factors f.2.stored) := by
  refine ⟨fun rows h => ?_, fun p h => ?_, fun f h => ?_, fun s n A g => obtained_factor,
    fun t A => obtained_of_matrix, fun t p => obtained_of_rowOrder,
    fun t f => obtained_of_factorization⟩
  · obtain ⟨n, A, rfl⟩ := h.wellFormed
    exact soundRows_toLists A
  · obtain ⟨n, q, rfl⟩ := h.wellFormed
    exact soundOrder_stored q
  · obtain ⟨n, g, rfl⟩ := h.wellFormed
    exact ⟨n, g, soundFactors_stored g⟩

/-- An exchange of two rows, put together from lists, and the factorization `unit`, computed and
decoded. -/
theorem obtained_sound_exchanged :
    SoundRows ([[0, 1], [1, 0]] : Rows Binary64) ∧ SoundOrder ⟨[1, 0], 1⟩ ∧
      (∃ (n : Nat) (g : Factorization n Binary64),
        SoundFactors ⟨[[0, 1], [1, 0]], ⟨[1, 0], 1⟩⟩ g) ∧
      let unit : Factorization 1 Binary64 := ⟨DenseMatrix.identity 1, RowOrder.identity 1⟩
      let rows : Json.Tree (Json.Leaf .binary64) := .array [.array [.number ⟨1, some 1⟩] none] none
      let flat : Json.Tree (Json.Leaf .binary64) :=
        .array [.number ⟨0, some 0⟩, .number ⟨1, some 1⟩] none
      Settings.default.factor unit.lu = .ok unit ∧ Obtained (.factors unit.stored) ∧
        Obtained (.matrix unit.lu.toLists) ∧
        Obtained (.order unit.order.stored : Value Binary64) ∧
        (Json.Decoder.leaves .binary64).factorization (.array [rows, flat] none) = .ok ⟨1, unit⟩ ∧
        Obtained (.factors unit.stored) := by
  obtain ⟨hrows, horder, hfactors, hfactor, hmatrix, hrowOrder, hfactorization⟩ :=
    obtained_sound (Json.Decoder.leaves .binary64)
  have hgiven : fromRows ([[0, 1], [1, 0]] : Rows Binary64) = .ok [[0, 1], [1, 0]] := rfl
  have hflat : fromFlat [1, 0, 3] = .ok (.ok ⟨[1, 0], 1⟩) := rfl
  have hlu : Obtained (.matrix ([[0, 1], [1, 0]] : Rows Binary64)) := .fromRows hgiven
  have hp : Obtained (.order ⟨[1, 0], 1⟩ : Value Binary64) := .fromFlat hflat
  refine ⟨hrows _ hlu, horder _ hp, hfactors _ (.fromParts hlu hp rfl), ?_⟩
  intro unit rows flat
  have hrun : Settings.default.factor unit.lu = .ok unit := by decide +kernel
  have hread : (Json.Decoder.leaves .binary64).matrix rows = .ok ⟨1, unit.lu⟩ := rfl
  have hordered : (Json.Decoder.leaves .binary64).rowOrder flat = .ok ⟨1, unit.order⟩ := rfl
  have hdecoded : (Json.Decoder.leaves .binary64).factorization (.array [rows, flat] none) =
      .ok ⟨1, unit⟩ := rfl
  exact ⟨hrun, hfactor _ _ _ _ hrun, hmatrix _ _ hread, hrowOrder _ _ hordered, hdecoded,
    hfactorization _ _ hdecoded⟩

end Stored

end PivotedLU
