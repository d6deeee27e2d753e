import PivotedLU.Json.Decode

/-!
# The Parts of a Decoded Factorization

A decoder puts a factorization together at the end, from a matrix and a row order that it has
decoded and checked before, in whichever form and order they stand in the tree. Nothing gets past
these checks: what is accepted consists of checked parts whose sizes agree.

## Main definitions

* `Json.Decoder.Found.Decoded`: what has been found of a factorization was decoded as a part.

## Main results

* `Json.Decoder.exists_rows_of_matrix`, `Json.Decoder.exists_flat_of_rowOrder`: the lists behind the
  parts.
* `Json.Decoder.decoded_field`, `Json.Decoder.decoded_fields`: one field, and all of them.
* `Json.Decoder.exists_parts_of_factorization`: the parts of a factorization.
-/

namespace PivotedLU

universe u v w

section Except

variable {ε : Type u} {ε' : Type w} {β γ : Type v}

theorem exists_of_bind_eq_ok {x : Except ε β} {f : β → Except ε γ} {c : γ}
    (h : (x >>= f) = .ok c) : ∃ b, x = .ok b ∧ f b = .ok c := by
  cases x with
  | error e => cases h
  | ok b => exact ⟨b, rfl, h⟩

/-- A bind succeeds exactly if both parts of it do. -/
theorem bind_eq_ok_iff {x : Except ε β} {f : β → Except ε γ} {c : γ} :
    (x >>= f) = .ok c ↔ ∃ b, x = .ok b ∧ f b = .ok c := by
  constructor
  · exact exists_of_bind_eq_ok
  · rintro ⟨b, rfl, h⟩
    exact h

theorem exists_of_map_eq_ok {x : Except ε β} {f : β → γ} {c : γ} (h : x.map f = .ok c) :
    ∃ b, x = .ok b ∧ f b = c := by
  cases x with
  | error e => cases h
  | ok b => exact ⟨b, rfl, Except.ok.inj h⟩

/-- If `x.mapError f` succeeds, so does `x`. -/
theorem eq_ok_of_mapError {x : Except ε β} {f : ε → ε'} {b : β} (h : x.mapError f = .ok b) :
    x = .ok b := by
  cases x with
  | error e => cases h
  | ok b' =>
    cases h
    rfl

theorem eq_ok_of_toOption {x : Except ε β} {b : β} (h : x.toOption = some b) : x = .ok b := by
  cases x with
  | error e => cases h
  | ok b' => exact congrArg Except.ok (Option.some.inj h)

/-- A change `f` of the errors changes no success. -/
@[simp]
theorem mapError_eq_ok_iff {x : Except ε β} {f : ε → ε'} {b : β} :
    x.mapError f = .ok b ↔ x = .ok b := by
  constructor
  · exact eq_ok_of_mapError
  · rintro rfl
    rfl

end Except

namespace Json

variable {ν : Type u} {F : Format}

namespace Decoder

/-- What has been `found` so far was decoded by `d` as a matrix and as a row order. -/
structure Found.Decoded (d : Decoder ν F) (found : Found F) : Prop where
  lu : ∀ A, found.lu? = some A → ∃ t, d.matrix t = .ok A
  order : ∀ p, found.order? = some p → ∃ t, d.rowOrder t = .ok p

variable {d : Decoder ν F}

/-- A matrix `A` that is accepted has the rows of a list without a ragged row. -/
theorem exists_rows_of_matrix {t : Tree ν} {A : SizedMatrix (Binary F)}
    (h : d.matrix t = .ok A) : ∃ rows, DenseMatrix.ofRowsSized rows = .ok A := by
  obtain ⟨rows, -, hrows⟩ := exists_of_bind_eq_ok h
  exact ⟨rows, eq_ok_of_mapError hrows⟩

/-- A row order `p` that is accepted is that of a list in flat layout. -/
theorem exists_flat_of_rowOrder {t : Tree ν} {p : SizedOrder} (h : d.rowOrder t = .ok p) :
    ∃ flat, RowOrder.ofFlat flat = .ok p := by
  obtain ⟨flat, -, hflat⟩ := exists_of_bind_eq_ok h
  exact ⟨flat, eq_ok_of_mapError hflat⟩

theorem decoded_nothing : (⟨none, none⟩ : Found F).Decoded d where
  lu A h := by cases h
  order p h := by cases h

/-- An `entry` that is accepted adds a part that has been decoded, or nothing. -/
theorem decoded_field {found found' : Found F} {entry : Text × Tree ν}
    (hfound : found.Decoded d) (h : d.field found entry = .ok found') : found'.Decoded d := by
  obtain ⟨name, -, h⟩ := exists_of_bind_eq_ok h
  split at h
  · -- the combined matrix
    split at h
    · cases h
    · obtain ⟨A, hA, h⟩ := exists_of_bind_eq_ok h
      cases h
      refine ⟨fun A' hA' => ⟨entry.2, ?_⟩, hfound.order⟩
      rw [hA, Option.some.inj hA']
  · split at h
    · -- the row order
      split at h
      · cases h
      · obtain ⟨p, hp, h⟩ := exists_of_bind_eq_ok h
        cases h
        refine ⟨hfound.lu, fun p' hp' => ⟨entry.2, ?_⟩⟩
        rw [hp, Option.some.inj hp']
    · -- a field that is not known
      obtain ⟨-, -, h⟩ := exists_of_bind_eq_ok h
      cases h
      exact hfound

/-- After all `fields` that are accepted, what was found has been decoded. -/
theorem decoded_fields {fields : List (Text × Tree ν)} {found found' : Found F}
    (hfound : found.Decoded d) (h : fields.foldlM d.field found = .ok found') :
    found'.Decoded d := by
  induction fields generalizing found with
  | nil =>
    cases h
    exact hfound
  | cons entry fields ih =>
    rw [List.foldlM_cons] at h
    obtain ⟨found₁, hentry, hfields⟩ := exists_of_bind_eq_ok h
    exact ih (decoded_field hfound hentry) hfields

/-- An `f` that is accepted, in either form, is put together from a matrix `A` and a row order `p`
that were accepted. -/
theorem exists_parts_of_factorization {t : Tree ν} {f : SizedFactorization (Binary F)}
    (h : d.factorization t = .ok f) :
    ∃ A p, (∃ t₁, d.matrix t₁ = .ok A) ∧ (∃ t₂, d.rowOrder t₂ = .ok p) ∧
      Factorization.ofPartsSized A p = .ok f := by
  cases t with
  | object fields cut? =>
    obtain ⟨found, hfields, h⟩ := exists_of_bind_eq_ok h
    obtain ⟨-, -, h⟩ := exists_of_bind_eq_ok h
    have hfound : found.Decoded d := decoded_fields decoded_nothing hfields
    -- both fields were found, or one of them is missing
    split at h
    · next A p hA hp => exact ⟨A, p, hfound.lu A hA, hfound.order p hp, eq_ok_of_mapError h⟩
    · cases h
  | array items cut? =>
    -- exactly two items make a factorization
    match items with
    | [] =>
      obtain ⟨-, -, h⟩ := exists_of_bind_eq_ok h
      cases h
    | [first] =>
      obtain ⟨A, -, h⟩ := exists_of_bind_eq_ok h
      obtain ⟨-, -, h⟩ := exists_of_bind_eq_ok h
      cases h
    | [first, second] =>
      obtain ⟨A, hA, h⟩ := exists_of_bind_eq_ok h
      obtain ⟨p, hp, h⟩ := exists_of_bind_eq_ok h
      obtain ⟨-, -, h⟩ := exists_of_bind_eq_ok h
      exact ⟨A, p, ⟨first, hA⟩, ⟨second, hp⟩, eq_ok_of_mapError h⟩
    | first :: second :: third :: rest =>
      obtain ⟨A, -, h⟩ := exists_of_bind_eq_ok h
      obtain ⟨p, -, h⟩ := exists_of_bind_eq_ok h
      cases h
  | _ => cases h

end Decoder

end Json

end PivotedLU
