import PivotedLU.Factorization.Report
import PivotedLU.Proofs.Binary.Order
import PivotedLU.Proofs.Json.Fields

/-!
# Factorizations Written and Read Again

A factorization is written as an object with its rows and its row order in flat layout, and read
back through three checks: of the rows, of the row order, and of the two sizes. A factorization with
finite entries comes back as it was. A float that is not finite is written as null, which is no
number, so that what is written then is refused.

## Main definitions

* `Json.Tree.ValidParts`: two trees describe a matrix and a row order of the same size.

## Main results

* `Json.Decoder.matrix_ofMatrix`, `Json.Decoder.rowOrder_ofRowOrder`: the parts, written and read.
* `Json.Decoder.exists_factorization_iff`: the trees that are accepted as a factorization.
* `Json.Decoder.factorization_values`: what the factorization is then.
* `Json.factorization_codec`: the writer and the reader of factorizations.
-/

namespace PivotedLU

universe u

namespace DenseMatrix

variable {α : Type} {n : Nat}

/-- A property `P` holds of all elements of `A.toLists` exactly if it holds of all entries. -/
theorem forall_mem_toLists_iff {A : DenseMatrix n α} {P : α → Prop} :
    (∀ row ∈ A.toLists, ∀ x ∈ row, P x) ↔ ∀ i j, P (A.entry i j) := by
  rw [A.toLists_eq_map, List.forall_mem_map]
  constructor
  · intro h i j
    refine h i (List.mem_finRange i) _ ?_
    rw [Stored.toList_eq_map]
    exact List.mem_map_of_mem (List.mem_finRange j)
  · intro h i _ x hx
    rw [Stored.toList_eq_map] at hx
    obtain ⟨j, -, rfl⟩ := List.mem_map.1 hx
    exact h i j

end DenseMatrix

/-- A factorization `f` with finite entries `equals` itself. -/
theorem Factorization.equals_self {F : Format} {n : Nat} (f : Factorization n (Binary F))
    (h : ∀ i j, (f.lu.entry i j).isFinite) : f.equals f := by
  have hlu : f.lu.equalsBy Binary.equals f.lu = true :=
    DenseMatrix.equalsBy_iff.2 fun i j => Binary.equals_self (h i j)
  have hsame : f.lu.sameBy Binary.equals f.lu = true := by
    rw [DenseMatrix.sameBy, dif_pos rfl]
    exact hlu
  rw [Factorization.equals, hsame, RowOrder.same]
  simp

namespace Json

variable {F : Format} {n : Nat}

namespace Decoder

/-! ## Parts that were written -/

section Items

variable {ν : Type u} {γ : Type} {form : γ → Tree ν} {item : Tree ν → Except DecodeError γ}
  {good : γ → Prop} [DecidablePred good] {e : DecodeError}

/-- If items come back as they were where they are `good`, and are refused with `e` where not, a
list of them comes back if all are `good`. -/
theorem mapM_map_eq (h : ∀ x, item (form x) = if good x then .ok x else .error e) (xs : List γ) :
    (xs.map form).mapM item = if ∀ x ∈ xs, good x then .ok xs else .error e := by
  induction xs with
  | nil => exact (if_pos (List.forall_mem_nil good)).symm
  | cons x xs ih =>
    rw [List.map_cons, List.mapM_cons, h, ih]
    by_cases hx : good x
    · by_cases hxs : ∀ x ∈ xs, good x
      · rw [if_pos hx, if_pos hxs, if_pos (List.forall_mem_cons.2 ⟨hx, hxs⟩)]
        rfl
      · rw [if_pos hx, if_neg hxs, if_neg fun hall => hxs (List.forall_mem_cons.1 hall).2]
        rfl
    · rw [if_neg hx, if_neg fun hall => hx (List.forall_mem_cons.1 hall).1]
      rfl

/-- If items come back as they were where they are `good`, and are refused with `e` where not, an
array of them comes back if all are `good`. -/
theorem list_map_eq {d : Decoder ν F}
    (h : ∀ x, item (form x) = if good x then .ok x else .error e) (xs : List γ) :
    d.list item (.array (xs.map form) none) = if ∀ x ∈ xs, good x then .ok xs else .error e := by
  rw [list, mapM_map_eq h]
  split <;> rfl

end Items

@[simp]
theorem float_ofFloat (x : Binary F) :
    (leaves F).float (ofFloat x) = if x.isFinite then .ok x else .error .wrongShape := by
  unfold ofFloat
  split <;> rfl

/-- A matrix `A` that was written is accepted if its entries are finite. -/
@[simp]
theorem matrix_ofMatrix (A : DenseMatrix n (Binary F)) :
    (leaves F).matrix (ofMatrix A) =
      if ∀ row ∈ A.toLists, ∀ x ∈ row, x.isFinite then .ok ⟨n, A⟩ else .error .wrongShape := by
  have hrow := list_map_eq (d := leaves F) float_ofFloat
  have hrows := list_map_eq (d := leaves F) hrow A.toLists
  rw [matrix, ofMatrix, hrows]
  split
  · show (DenseMatrix.ofRowsSized A.toLists).mapError _ = _
    rw [mapError_eq_ok_iff, DenseMatrix.ofRowsSized_eq_ok_iff]
  · rfl

/-- A row order `p` that was written is accepted. -/
@[simp]
theorem rowOrder_ofRowOrder (p : RowOrder n) :
    (leaves F).rowOrder (ofRowOrder p) = .ok ⟨n, p⟩ := by
  refine rowOrder_eq_ok_iff.2 ⟨p.toFlat.map Leaf.ofNat, ?_, ?_⟩
  · rw [ofRowOrder, Tree.numbers, List.map_map]
    rfl
  · rw [List.map_map]
    rfl

end Decoder

/-- What `f` is written as has the two parts of a factorization. -/
theorem hasParts_ofFactorization (f : Factorization n (Binary F)) :
    (ofFactorization f).HasParts (ofMatrix f.lu) (ofRowOrder f.order) := by
  refine .fields (fun entry hentry => ?_) ?_ ?_
  · rcases List.mem_pair.1 hentry with rfl | rfl
    · exact ⟨"lu", Text.read_ofString "lu"⟩
    · exact ⟨"permutation", Text.read_ofString "permutation"⟩
  · simp [Tree.valuesNamed]
  · simp [Tree.valuesNamed]

namespace Decoder

/-- A factorization `f` with finite entries comes back as it was. -/
theorem factorization_ofFactorization {f : Factorization n (Binary F)}
    (h : ∀ i j, (f.lu.entry i j).isFinite) :
    (leaves F).factorization (ofFactorization f) = .ok ⟨n, f⟩ := by
  have hlu : (leaves F).matrix (ofMatrix f.lu) = .ok ⟨n, f.lu⟩ := by
    rw [matrix_ofMatrix, if_pos (DenseMatrix.forall_mem_toLists_iff.2 h)]
  have horder : (leaves F).rowOrder (ofRowOrder f.order) = .ok ⟨n, f.order⟩ :=
    rowOrder_ofRowOrder f.order
  refine factorization_eq_ok_iff.2 ⟨?_, _, _, hasParts_ofFactorization f, hlu, horder⟩
  refine .object (fun entry hentry => ?_) fun entry hentry => ?_
  · rcases List.mem_pair.1 hentry with rfl | rfl <;> rfl
  · rcases List.mem_pair.1 hentry with rfl | rfl
    · exact uncut_of_matrix hlu
    · exact uncut_of_rowOrder horder

/-- A factorization `f` with an entry that is not finite, at `(i, j)`, is refused. -/
theorem factorization_ofFactorization_of_not_isFinite {f : Factorization n (Binary F)} {i j : Fin n}
    (h : ¬(f.lu.entry i j).isFinite) :
    (leaves F).factorization (ofFactorization f) = .error .wrongShape := by
  have hlu : (leaves F).matrix (ofMatrix f.lu) = .error .wrongShape := by
    rw [matrix_ofMatrix, if_neg fun hall => h (DenseMatrix.forall_mem_toLists_iff.1 hall i j)]
  -- the first field is the matrix, and nothing behind it is looked at
  have hfield : (leaves F).field ⟨none, none⟩ (Text.ofString "lu", ofMatrix f.lu) =
      .error .wrongShape := by
    rw [field, Text.read_ofString]
    show ((leaves F).matrix (ofMatrix f.lu) >>= fun A => _) = _
    rw [hlu]
    rfl
  rw [ofFactorization, factorization, List.foldlM_cons, hfield]
  rfl

end Decoder

/-! ## Valid parts -/

/-- Two trees describe a matrix and a row order of the same size: the first is a square array of
arrays of numbers, the second an array of naturals that ends with a counter, which is not below the
number of the indices before it, and these are a rearrangement of `0, 1, …`. -/
structure Tree.ValidParts (lu order : Tree (Leaf F)) (rows : List (List (Leaf F)))
    (indices : List Nat) (counter : Nat) : Prop where
  lu_rows : lu = .numberRows rows
  square : ∀ row ∈ rows, row.length = rows.length
  order_naturals : ∃ leaves, order = .numbers leaves ∧
    leaves.map Leaf.natural? = (indices ++ [counter]).map some
  permutation : indices.Perm (List.range indices.length)
  counter_le : indices.length ≤ counter
  sizes : rows.length = indices.length

namespace Decoder

/-- The parts of what is accepted are `ValidParts`. -/
theorem exists_validParts {lu order : Tree (Leaf F)} {A : DenseMatrix n (Binary F)} {p : RowOrder n}
    (hA : (leaves F).matrix lu = .ok ⟨n, A⟩) (hp : (leaves F).rowOrder order = .ok ⟨n, p⟩) :
    ∃ rows, Tree.ValidParts lu order rows p.indices (n + p.exchanges) := by
  obtain ⟨rows, hlu, hrows⟩ := matrix_eq_ok_iff.1 hA
  -- the matrix is square, so the rows that it was read from are
  have hlength : rows.length = n := by
    rw [← A.length_toLists, ← hrows, List.length_map]
  refine ⟨rows, hlu, fun row hrow => ?_, rowOrder_eq_ok_iff.1 hp, ?_, ?_, ?_⟩
  · have hmem : row.map Leaf.value ∈ A.toLists := by
      rw [← hrows]
      exact List.mem_map_of_mem hrow
    rw [hlength, ← A.length_of_mem_toLists hmem, List.length_map]
  · rw [p.length_indices]
    exact p.indices_perm_range
  · rw [p.length_indices]
    exact Nat.le_add_right n p.exchanges
  · rw [p.length_indices, hlength]

/-- What has `ValidParts` is accepted, as what they describe. -/
theorem exists_of_validParts {lu order : Tree (Leaf F)} {rows : List (List (Leaf F))}
    {indices : List Nat} {counter : Nat} (h : Tree.ValidParts lu order rows indices counter) :
    ∃ g : SizedFactorization (Binary F), (leaves F).matrix lu = .ok ⟨g.1, g.2.lu⟩ ∧
      (leaves F).rowOrder order = .ok ⟨g.1, g.2.order⟩ ∧
      g.2.lu.toLists = (rows.map fun row => row.map Leaf.value) ∧ g.2.order.indices = indices ∧
      indices.length + g.2.order.exchanges = counter := by
  have hsquare : ∀ values ∈ rows.map fun row => row.map Leaf.value,
      values.length = (rows.map fun row => row.map Leaf.value).length := by
    rw [List.forall_mem_map]
    intro row hrow
    rw [List.length_map, List.length_map, h.square row hrow]
  obtain ⟨⟨n, A⟩, hA⟩ := DenseMatrix.exists_toLists_eq_iff.2 hsquare
  obtain ⟨⟨m, p⟩, hp⟩ :=
    RowOrder.exists_toFlat_eq_iff.2 ⟨indices, counter, rfl, h.permutation, h.counter_le⟩
  -- the flat form is the indices and the counter, so the order has these
  obtain ⟨hindices, hcounter⟩ := List.append_inj' hp rfl
  have hsize : m = n := by
    have hn := congrArg List.length hA
    have hm := congrArg List.length hindices
    rw [A.length_toLists, List.length_map] at hn
    rw [p.length_indices] at hm
    rw [hm, hn, h.sizes]
  subst hsize
  refine ⟨⟨m, ⟨A, p⟩⟩, ?_, ?_, hA, hindices, ?_⟩
  · exact matrix_eq_ok_iff.2 ⟨rows, h.lu_rows, hA.symm⟩
  · obtain ⟨row, horder, hrow⟩ := h.order_naturals
    refine rowOrder_eq_ok_iff.2 ⟨row, horder, ?_⟩
    rw [hrow, ← hp]
  · rw [← hindices, p.length_indices]
    exact List.singleton_inj.1 hcounter

/-! ## Trees with valid parts -/

/-- A tree `t` that is `Uncut` is judged by its parts. -/
theorem factorization_eq_ok_iff_of_hasParts {t lu order : Tree (Leaf F)} (huncut : t.Uncut)
    (hparts : t.HasParts lu order) {g : SizedFactorization (Binary F)} :
    (leaves F).factorization t = .ok g ↔ (leaves F).matrix lu = .ok ⟨g.1, g.2.lu⟩ ∧
      (leaves F).rowOrder order = .ok ⟨g.1, g.2.order⟩ := by
  rw [factorization_eq_ok_iff]
  constructor
  · rintro ⟨-, lu', order', hparts', hA, hp⟩
    obtain ⟨rfl, rfl⟩ := hparts.unique hparts'
    exact ⟨hA, hp⟩
  · rintro ⟨hA, hp⟩
    exact ⟨huncut, lu, order, hparts, hA, hp⟩

/-- The trees `t` that are accepted as a factorization: they are `Uncut` and have `ValidParts`. -/
theorem exists_factorization_iff {t : Tree (Leaf F)} :
    (∃ g, (leaves F).factorization t = .ok g) ↔
      t.Uncut ∧ ∃ lu order, t.HasParts lu order ∧
        ∃ rows indices counter, Tree.ValidParts lu order rows indices counter := by
  constructor
  · rintro ⟨g, hg⟩
    obtain ⟨huncut, lu, order, hparts, hA, hp⟩ := factorization_eq_ok_iff.1 hg
    obtain ⟨rows, hvalid⟩ := exists_validParts hA hp
    exact ⟨huncut, lu, order, hparts, rows, _, _, hvalid⟩
  · rintro ⟨huncut, lu, order, hparts, rows, indices, counter, hvalid⟩
    obtain ⟨g, hA, hp, -⟩ := exists_of_validParts hvalid
    exact ⟨g, (factorization_eq_ok_iff_of_hasParts huncut hparts).2 ⟨hA, hp⟩⟩

/-- A factorization `g` that is accepted has the values that the `ValidParts` describe. -/
theorem factorization_values {t lu order : Tree (Leaf F)} {g : SizedFactorization (Binary F)}
    {rows : List (List (Leaf F))} {indices : List Nat} {counter : Nat}
    (h : (leaves F).factorization t = .ok g) (hparts : t.HasParts lu order)
    (hvalid : Tree.ValidParts lu order rows indices counter) :
    g.2.lu.toLists = (rows.map fun row => row.map Leaf.value) ∧ g.2.order.indices = indices ∧
      indices.length + g.2.order.exchanges = counter := by
  obtain ⟨huncut, -⟩ := factorization_eq_ok_iff.1 h
  obtain ⟨g', hA, hp, hvalues⟩ := exists_of_validParts hvalid
  rw [(factorization_eq_ok_iff_of_hasParts huncut hparts).2 ⟨hA, hp⟩] at h
  cases h
  exact hvalues

@[simp]
theorem toOption_eq_some_iff {ε β : Type} {x : Except ε β} {b : β} :
    x.toOption = some b ↔ x = .ok b := by
  cases x <;> simp [Except.toOption]

/-- Trees `t` and `t'` with the same parts are accepted as the same factorization or not at all. -/
theorem factorization_congr {t t' lu order : Tree (Leaf F)} (huncut : t.Uncut) (huncut' : t'.Uncut)
    (hparts : t.HasParts lu order) (hparts' : t'.HasParts lu order) :
    ((leaves F).factorization t).toOption = ((leaves F).factorization t').toOption := by
  ext g
  rw [toOption_eq_some_iff, toOption_eq_some_iff,
    factorization_eq_ok_iff_of_hasParts huncut hparts,
    factorization_eq_ok_iff_of_hasParts huncut' hparts']

end Decoder

/-- **The writer and the reader of factorizations fit together**, and the reader accepts valid trees
only.

- An `f` with finite entries comes back as it was, and `equals` itself; one with any other entry is
  refused.
- A tree `t` is accepted exactly if it is `Uncut` and its two parts are `ValidParts`; the
  factorization `g` has the values that they describe.
- Trees `t` and `t'` with the same parts are read as the same factorization, whatever their form,
  the order of their fields and their other fields; only the fault that is named when they are
  refused may differ. -/
theorem factorization_codec (F : Format) :
    (∀ {n : Nat} (f : Factorization n (Binary F)), (∀ i j, (f.lu.entry i j).isFinite) →
      (Decoder.leaves F).factorization (ofFactorization f) = .ok ⟨n, f⟩ ∧ f.equals f) ∧
    (∀ {n : Nat} (f : Factorization n (Binary F)), (∃ i j, ¬(f.lu.entry i j).isFinite) →
      (Decoder.leaves F).factorization (ofFactorization f) = .error .wrongShape) ∧
    (∀ t : Tree (Leaf F), (∃ g, (Decoder.leaves F).factorization t = .ok g) ↔
      t.Uncut ∧ ∃ lu order, t.HasParts lu order ∧
        ∃ rows indices counter, Tree.ValidParts lu order rows indices counter) ∧
    (∀ (t lu order : Tree (Leaf F)) (g : SizedFactorization (Binary F))
      (rows : List (List (Leaf F))) (indices : List Nat) (counter : Nat),
      (Decoder.leaves F).factorization t = .ok g → t.HasParts lu order →
      Tree.ValidParts lu order rows indices counter →
      g.2.lu.toLists = (rows.map fun row => row.map Leaf.value) ∧ g.2.order.indices = indices ∧
        indices.length + g.2.order.exchanges = counter) ∧
    ∀ t t' lu order : Tree (Leaf F), t.Uncut → t'.Uncut → t.HasParts lu order →
      t'.HasParts lu order → ((Decoder.leaves F).factorization t).toOption =
        ((Decoder.leaves F).factorization t').toOption := by
  refine ⟨fun f hf => ⟨?_, f.equals_self hf⟩, ?_, ?_, ?_, ?_⟩
  · exact Decoder.factorization_ofFactorization hf
  · rintro n f ⟨i, j, hij⟩
    exact Decoder.factorization_ofFactorization_of_not_isFinite hij
  · intro t
    exact Decoder.exists_factorization_iff
  · intro t lu order g rows indices counter hg hparts hvalid
    exact Decoder.factorization_values hg hparts hvalid
  · intro t t' lu order huncut huncut' hparts hparts'
    exact Decoder.factorization_congr huncut huncut' hparts hparts'

/-- The factorization `unit`, written and read; one with an entry `nan`; and a tree with the fields
in the other order behind one that is not known. -/
theorem factorization_codec_reordered :
    let unit : Factorization 1 Binary64 := ⟨DenseMatrix.identity 1, RowOrder.identity 1⟩;
    let broken : Factorization 1 Binary64 :=
      ⟨DenseMatrix.ofFn fun _ _ => .nan, RowOrder.identity 1⟩;
    let lu : Tree (Leaf .binary64) := .numberRows [[Leaf.ofNat 1]];
    let order : Tree (Leaf .binary64) := .numbers [Leaf.ofNat 0, Leaf.ofNat 1];
    let reordered : Tree (Leaf .binary64) := .object
      [(Text.ofString "scale", .null), (Text.ofString "permutation", order),
        (Text.ofString "lu", lu)] none;
    let decode := (Decoder.leaves .binary64).factorization;
    (decode (ofFactorization unit) = .ok ⟨1, unit⟩ ∧ unit.equals unit) ∧
    decode (ofFactorization broken) = .error .wrongShape ∧
    (∃ g, decode reordered = .ok g ∧ g.2.lu.toLists = [[Binary.ofNat 1]] ∧
      g.2.order.indices = [0] ∧ 1 + g.2.order.exchanges = 1) ∧
    (decode reordered).toOption = (decode (.array [lu, order] none)).toOption := by
  intro unit broken lu order reordered decode
  obtain ⟨hfinite, hbroken, haccepted, hvalues, hcongr⟩ := factorization_codec .binary64
  have hlu : lu.Uncut := Tree.uncut_numberRows _
  have horder : order.Uncut := Tree.uncut_numbers _
  have huncut : reordered.Uncut := by
    refine Tree.uncut_object_iff.2 ⟨?_, rfl⟩
    simp only [List.forall_mem_cons]
    exact ⟨⟨rfl, .null⟩, ⟨rfl, horder⟩, ⟨rfl, hlu⟩, List.forall_mem_nil _⟩
  have hparts : reordered.HasParts lu order := by
    refine .fields ?_ ?_ ?_
    · simp only [List.forall_mem_cons]
      exact ⟨⟨_, Text.read_ofString _⟩, ⟨_, Text.read_ofString _⟩, ⟨_, Text.read_ofString _⟩,
        List.forall_mem_nil _⟩
    · simp [Tree.valuesNamed]
    · simp [Tree.valuesNamed]
  have hvalid : Tree.ValidParts lu order [[Leaf.ofNat 1]] [0] 1 :=
    { lu_rows := rfl
      square := by simp
      order_naturals := ⟨_, rfl, rfl⟩
      permutation := by decide
      counter_le := by decide
      sizes := rfl }
  refine ⟨hfinite unit (by decide +kernel), hbroken broken ⟨0, 0, by decide +kernel⟩, ?_, ?_⟩
  · obtain ⟨g, hg⟩ := (haccepted reordered).2 ⟨huncut, lu, order, hparts, _, _, _, hvalid⟩
    obtain ⟨hrows, hindices, hcounter⟩ := hvalues _ _ _ _ _ _ _ hg hparts hvalid
    exact ⟨g, hg, by simpa only [List.map, Leaf.ofNat] using hrows, hindices, hcounter⟩
  · refine hcongr _ _ lu order huncut ?_ hparts (.pair lu order)
    refine Tree.uncut_array_iff.2 ⟨?_, rfl⟩
    simp only [List.forall_mem_cons]
    exact ⟨hlu, horder, List.forall_mem_nil _⟩

end Json

end PivotedLU
