import PivotedLU.Proofs.Json.Uncut
import PivotedLU.Proofs.RowOrder.History
import PivotedLU.Proofs.Stored.RowMajor

/-!
# Matrices and Row Orders That Are Accepted

A decoder goes through a tree from left to right and stops at the first fault. Below it is said
without an order which trees are accepted as a matrix and as a row order: arrays of a fixed form,
whose numbers stand for square rows or for a row order in flat layout.

The number leaves of the trees are those that have been read.

## Main results

* `Json.Decoder.list_eq_ok_iff_of`: an array is accepted if its items are.
* `Json.Decoder.matrix_eq_ok_iff`, `Json.Decoder.rowOrder_eq_ok_iff`: the trees that are accepted as
  a matrix and as a row order.
-/

namespace PivotedLU

universe u

namespace Json

namespace Decoder

variable {ν : Type u} {F : Format} {β γ δ : Type}

/-- An array or object is `closed` if it is not cut. -/
@[simp]
theorem closed_eq_ok_iff {cut? : Option Fault} : closed cut? = .ok () ↔ cut? = none := by
  cases cut? <;> simp [closed]

/-- If `item` accepts what is of the form `form l` and stands for the value of `l`, a list of such
items is accepted where it has this form throughout. -/
theorem mapM_eq_ok_iff_of {form : γ → Tree ν} {left : γ → δ} (right : β → δ)
    {item : Tree ν → Except DecodeError β}
    (h : ∀ t x, item t = .ok x ↔ ∃ l, t = form l ∧ left l = right x) {items : List (Tree ν)}
    {xs : List β} :
    items.mapM item = .ok xs ↔ ∃ ls : List γ, items = ls.map form ∧ ls.map left = xs.map right := by
  induction items generalizing xs with
  | nil =>
    constructor
    · intro hxs
      cases hxs
      exact ⟨[], rfl, rfl⟩
    · rintro ⟨ls, hitems, hvalues⟩
      obtain rfl : ls = [] := List.map_eq_nil_iff.1 hitems.symm
      obtain rfl : xs = [] := List.map_eq_nil_iff.1 hvalues.symm
      rfl
  | cons t items ih =>
    rw [List.mapM_cons]
    constructor
    · intro hxs
      obtain ⟨x, hx, hxs⟩ := exists_of_bind_eq_ok hxs
      obtain ⟨rest, hrest, hxs⟩ := exists_of_bind_eq_ok hxs
      cases hxs
      obtain ⟨l, rfl, hl⟩ := (h _ _).1 hx
      obtain ⟨ls, rfl, hls⟩ := ih.1 hrest
      exact ⟨l :: ls, rfl, congrArg₂ List.cons hl hls⟩
    · rintro ⟨ls, hitems, hvalues⟩
      obtain ⟨l, ls, rfl, rfl, rfl⟩ := List.map_eq_cons_iff.1 hitems.symm
      obtain ⟨x, rest, rfl, hx, hrest⟩ := List.map_eq_cons_iff.1 hvalues.symm
      rw [(h _ _).2 ⟨l, rfl, hx.symm⟩, ih.2 ⟨ls, rfl, hrest.symm⟩]
      rfl

/-- If `item` accepts what is of the form `form l` and stands for the value of `l`, an array of such
items is accepted where it has this form throughout. -/
theorem list_eq_ok_iff_of {d : Decoder ν F} {form : γ → Tree ν} {left : γ → δ} (right : β → δ)
    {item : Tree ν → Except DecodeError β}
    (h : ∀ t x, item t = .ok x ↔ ∃ l, t = form l ∧ left l = right x) (t : Tree ν)
    (xs : List β) :
    d.list item t = .ok xs ↔
      ∃ ls : List γ, t = .array (ls.map form) none ∧ ls.map left = xs.map right := by
  constructor
  · intro hxs
    cases t with
    | array items cut? =>
      obtain ⟨xs', hitems, hrest⟩ := exists_of_bind_eq_ok hxs
      obtain ⟨⟨⟩, hclosed, hxs'⟩ := exists_of_bind_eq_ok hrest
      cases hxs'
      obtain ⟨ls, rfl, hls⟩ := (mapM_eq_ok_iff_of right h).1 hitems
      obtain rfl := closed_eq_ok_iff.1 hclosed
      exact ⟨ls, rfl, hls⟩
    | _ => cases hxs
  · rintro ⟨ls, rfl, hls⟩
    rw [list, (mapM_eq_ok_iff_of right h).2 ⟨ls, rfl, hls⟩]
    rfl

/-! ### Matrices and row orders -/

/-- A float is a number with the value `x`. -/
theorem float_eq_ok_iff (t : Tree (Leaf F)) (x : Binary F) :
    (leaves F).float t = .ok x ↔ ∃ leaf, t = .number leaf ∧ leaf.value = x := by
  constructor
  · intro h
    obtain ⟨leaf, hleaf, rfl⟩ := exists_of_map_eq_ok h
    cases t with
    | number _ =>
      cases hleaf
      exact ⟨leaf, rfl, rfl⟩
    | _ => cases hleaf
  · rintro ⟨leaf, rfl, rfl⟩
    rfl

/-- A natural number is a number that reads as `k`. -/
theorem natural_eq_ok_iff (t : Tree (Leaf F)) (k : Nat) :
    (leaves F).natural t = .ok k ↔ ∃ leaf, t = .number leaf ∧ leaf.natural? = some k := by
  constructor
  · intro h
    obtain ⟨leaf, hleaf, hk⟩ := exists_of_bind_eq_ok h
    cases t with
    | number _ =>
      cases hleaf
      split at hk
      · next hnatural =>
        cases hk
        exact ⟨leaf, rfl, hnatural⟩
      · cases hk
    | _ => cases hleaf
  · rintro ⟨leaf, rfl, hk⟩
    refine bind_eq_ok_iff.2 ⟨leaf, rfl, ?_⟩
    rw [hk]

/-- The trees `t` that are accepted as rows of floats. -/
theorem rows_eq_ok_iff {t : Tree (Leaf F)} {values : List (List (Binary F))} :
    (leaves F).list ((leaves F).list (leaves F).float) t = .ok values ↔
      ∃ rows, t = .numberRows rows ∧ (rows.map fun row => row.map Leaf.value) = values := by
  have hrow (t : Tree (Leaf F)) (xs : List (Binary F)) :
      (leaves F).list (leaves F).float t = .ok xs ↔
        ∃ row, t = .numbers row ∧ row.map Leaf.value = xs := by
    have h := list_eq_ok_iff_of id (d := leaves F) float_eq_ok_iff t xs
    rwa [List.map_id] at h
  -- the rows are such arrays again
  have h := list_eq_ok_iff_of id (d := leaves F) hrow t values
  rwa [List.map_id] at h

theorem naturals_eq_ok_iff {t : Tree (Leaf F)} {ks : List Nat} :
    (leaves F).list (leaves F).natural t = .ok ks ↔
      ∃ row, t = .numbers row ∧ row.map Leaf.natural? = ks.map some :=
  list_eq_ok_iff_of some natural_eq_ok_iff t ks

/-- The trees `t` that are accepted as the matrix `A`. -/
theorem matrix_eq_ok_iff {t : Tree (Leaf F)} {A : SizedMatrix (Binary F)} :
    (leaves F).matrix t = .ok A ↔
      ∃ rows, t = .numberRows rows ∧ (rows.map fun row => row.map Leaf.value) = A.2.toLists := by
  rw [matrix, bind_eq_ok_iff]
  constructor
  · rintro ⟨values, hvalues, hA⟩
    rw [mapError_eq_ok_iff, DenseMatrix.ofRowsSized_eq_ok_iff] at hA
    obtain ⟨rows, rfl, rfl⟩ := rows_eq_ok_iff.1 hvalues
    exact ⟨rows, rfl, hA.symm⟩
  · rintro ⟨rows, rfl, hrows⟩
    refine ⟨_, rows_eq_ok_iff.2 ⟨rows, rfl, rfl⟩, ?_⟩
    rw [mapError_eq_ok_iff, DenseMatrix.ofRowsSized_eq_ok_iff, hrows]

/-- The trees `t` that are accepted as the row order `p`. -/
theorem rowOrder_eq_ok_iff {t : Tree (Leaf F)} {p : SizedOrder} :
    (leaves F).rowOrder t = .ok p ↔
      ∃ row, t = .numbers row ∧ row.map Leaf.natural? = p.2.toFlat.map some := by
  rw [rowOrder, bind_eq_ok_iff]
  constructor
  · rintro ⟨flat, hflat, hp⟩
    rw [mapError_eq_ok_iff, RowOrder.ofFlat_eq_ok_iff] at hp
    subst hp
    exact naturals_eq_ok_iff.1 hflat
  · intro h
    refine ⟨p.2.toFlat, naturals_eq_ok_iff.2 h, ?_⟩
    rw [mapError_eq_ok_iff, RowOrder.ofFlat_eq_ok_iff]

theorem uncut_of_matrix {t : Tree (Leaf F)} {A : SizedMatrix (Binary F)}
    (h : (leaves F).matrix t = .ok A) : t.Uncut := by
  obtain ⟨rows, rfl, -⟩ := matrix_eq_ok_iff.1 h
  exact Tree.uncut_numberRows rows

theorem uncut_of_rowOrder {t : Tree (Leaf F)} {p : SizedOrder}
    (h : (leaves F).rowOrder t = .ok p) : t.Uncut := by
  obtain ⟨row, rfl, -⟩ := rowOrder_eq_ok_iff.1 h
  exact Tree.uncut_numbers row

end Decoder

end Json

end PivotedLU
