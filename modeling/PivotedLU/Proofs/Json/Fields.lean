import PivotedLU.Proofs.Json.Accepted

/-!
# The Two Parts of a Factorization

A factorization is decoded field by field or item by item, and what has been found is kept until the
tree ends. Read as a whole, a tree is accepted if nothing of it is cut and if it has two parts, each
exactly once, that are accepted as a matrix and as a row order of the same size. The order of the
fields does not matter then, nor what other fields there are.

## Main definitions

* `Json.Tree.HasParts`: the two parts of a factorization, in either form.
* `Json.Decoder.Collected`: what has been found of a field that may occur once.

## Main results

* `Json.Decoder.field_eq_ok_iff`, `Json.Decoder.fields_eq_ok_iff`: one field, and all of them.
* `Json.Decoder.factorization_eq_ok_iff`: the trees that are accepted as a factorization.
-/

namespace PivotedLU

universe u

namespace Json

/-! ## The two parts of a factorization -/

namespace Tree

variable {ν : Type u}

/-- The values of the `fields` with the key `name`, in order. -/
def valuesNamed (name : String) (fields : List (Text × Tree ν)) : List (Tree ν) :=
  (fields.filter fun entry => entry.1.read = .ok name).map Prod.snd

@[simp]
theorem valuesNamed_nil (name : String) : valuesNamed name ([] : List (Text × Tree ν)) = [] := rfl

/-- The values of one more `entry` stand before those of `fields`. -/
theorem valuesNamed_cons (name : String) (entry : Text × Tree ν) (fields : List (Text × Tree ν)) :
    valuesNamed name (entry :: fields) = valuesNamed name [entry] ++ valuesNamed name fields := by
  rw [valuesNamed, valuesNamed, valuesNamed, ← List.map_append, ← List.filter_append]
  rfl

theorem valuesNamed_singleton {key : Text} {value : Tree ν} {name : String}
    (h : key.read = .ok name) (wanted : String) :
    valuesNamed wanted [(key, value)] = if name = wanted then [value] else [] := by
  by_cases hname : name = wanted
  · simp [valuesNamed, h, hname]
  · simp [valuesNamed, h, hname]

/-- The tree has the form of a factorization: an array of exactly the two parts, or an object in
which each of the two is the value of exactly one field. Fields with other names may stand anywhere;
every key has to be a string. -/
inductive HasParts : Tree ν → Tree ν → Tree ν → Prop
  | pair (lu order : Tree ν) : HasParts (.array [lu, order] none) lu order
  | fields {fields : List (Text × Tree ν)} {lu order : Tree ν}
      (keys : ∀ entry ∈ fields, ∃ name, entry.1.read = .ok name)
      (lu_once : valuesNamed "lu" fields = [lu])
      (order_once : valuesNamed "permutation" fields = [order]) :
      HasParts (.object fields none) lu order

/-- A tree `t` has at most one pair of parts. -/
theorem HasParts.unique {t lu lu' order order' : Tree ν} (h : t.HasParts lu order)
    (h' : t.HasParts lu' order') : lu' = lu ∧ order' = order := by
  cases h with
  | pair =>
    cases h'
    exact ⟨rfl, rfl⟩
  | fields keys lu_once order_once =>
    cases h' with
    | fields keys' lu_once' order_once' =>
      rw [lu_once] at lu_once'
      rw [order_once] at order_once'
      exact ⟨(List.singleton_inj.1 lu_once').symm, (List.singleton_inj.1 order_once').symm⟩

end Tree

namespace Decoder

section Collected

variable {ν : Type u} {β : Type} {decode : Tree ν → Except DecodeError β}

/-- What has been read of a field that may occur once, before and after `decode` has read some more
values of it. -/
inductive Collected (decode : Tree ν → Except DecodeError β) :
    Option β → List (Tree ν) → Option β → Prop
  | absent (found? : Option β) : Collected decode found? [] found?
  | once {value : Tree ν} {x : β} (accepted : decode value = .ok x) :
      Collected decode none [value] (some x)

/-- Without values nothing is added to what was there. -/
theorem collected_nil_iff {before after : Option β} :
    Collected decode before [] after ↔ after = before := by
  constructor
  · rintro ⟨⟩
    rfl
  · rintro rfl
    exact .absent after

/-- One `value` is collected if nothing was there before. -/
theorem collected_singleton_iff {before after : Option β} {value : Tree ν} :
    Collected decode before [value] after ↔
      before = none ∧ ∃ x, decode value = .ok x ∧ some x = after := by
  constructor
  · rintro (_ | accepted)
    exact ⟨rfl, _, accepted, rfl⟩
  · rintro ⟨rfl, x, accepted, rfl⟩
    exact .once accepted

/-- From nothing, `x` is collected if there is one value, which decodes to `x`. -/
theorem collected_some_iff {values : List (Tree ν)} {x : β} :
    Collected decode none values (some x) ↔ ∃ value, values = [value] ∧ decode value = .ok x := by
  constructor
  · rintro (_ | accepted)
    exact ⟨_, rfl, accepted⟩
  · rintro ⟨value, rfl, accepted⟩
    exact .once accepted

/-- The values of `values ++ values'` are collected one list after the other. -/
theorem collected_append_iff {before after : Option β} {values values' : List (Tree ν)} :
    Collected decode before (values ++ values') after ↔
      ∃ between, Collected decode before values between ∧
        Collected decode between values' after := by
  constructor
  · intro h
    generalize hall : values ++ values' = all at h
    cases h with
    | absent =>
      obtain ⟨rfl, rfl⟩ := List.append_eq_nil_iff.1 hall
      exact ⟨before, .absent before, .absent before⟩
    | once accepted =>
      -- the one value stands in one of the two parts
      rcases List.append_eq_singleton_iff.1 hall with ⟨rfl, rfl⟩ | ⟨rfl, rfl⟩
      · exact ⟨none, .absent none, .once accepted⟩
      · exact ⟨_, .once accepted, .absent _⟩
  · rintro ⟨between, hvalues, hvalues'⟩
    cases hvalues with
    | absent => exact hvalues'
    | once accepted =>
      cases hvalues'
      exact .once accepted

end Collected

/-! ## Fields -/

section Fields

variable {F : Format} {found found' : Found F}

@[simp]
theorem liftStop_eq_ok_iff {β : Type} {x : Except Stop β} {b : β} :
    liftStop x = .ok b ↔ x = .ok b := by
  cases x <;> simp [liftStop]

/-- A part is put to what has been found if none of its kind was found `before`. -/
theorem put_eq_ok_iff {β : Type} {decode : Tree (Leaf F) → Except DecodeError β}
    {before : Option β} {value : Tree (Leaf F)} {put : β → Found F} :
    (if before.isSome then .error .wrongShape else do
      let x ← decode value
      .ok (put x)) = .ok found' ↔
      before = none ∧ ∃ x, decode value = .ok x ∧ put x = found' := by
  cases before with
  | some _ => simp
  | none =>
    rw [if_neg (by simp), bind_eq_ok_iff]
    simp

section Names

variable {key : Text} {value : Tree (Leaf F)}

/-- The field `lu` is accepted if there was none, and `value` is accepted as a matrix. -/
theorem field_lu_eq_ok_iff (hkey : key.read = .ok "lu") :
    (leaves F).field found (key, value) = .ok found' ↔
      found.lu? = none ∧ ∃ A, (leaves F).matrix value = .ok A ∧
        { found with lu? := some A } = found' := by
  rw [field, hkey]
  exact put_eq_ok_iff

/-- The field `permutation` is accepted if there was none, and `value` is accepted as a row
order. -/
theorem field_permutation_eq_ok_iff (hkey : key.read = .ok "permutation") :
    (leaves F).field found (key, value) = .ok found' ↔
      found.order? = none ∧ ∃ p, (leaves F).rowOrder value = .ok p ∧
        { found with order? := some p } = found' := by
  rw [field, hkey]
  exact put_eq_ok_iff

/-- A field of another `name` is passed over if its value is `Uncut`. -/
theorem field_other_eq_ok_iff {name : String} (hkey : key.read = .ok name) (hlu : name ≠ "lu")
    (horder : name ≠ "permutation") :
    (leaves F).field found (key, value) = .ok found' ↔ value.Uncut ∧ found = found' := by
  rw [field, hkey]
  show (if name = "lu" then _ else if name = "permutation" then _ else
    liftStop value.skip >>= fun _ => Except.ok found) = _ ↔ _
  rw [if_neg hlu, if_neg horder, bind_eq_ok_iff]
  simp only [liftStop_eq_ok_iff, Except.ok.injEq]
  constructor
  · rintro ⟨⟨⟩, hskip, hfound⟩
    exact ⟨value.skip_eq_ok_iff.1 hskip, hfound⟩
  · rintro ⟨huncut, hfound⟩
    exact ⟨(), value.skip_eq_ok_iff.2 huncut, hfound⟩

end Names

/-- An `entry` is accepted if its key is a string, its value is `Uncut`, and its value is accepted
as the part that the field is for, if it is for one that has not been found. -/
theorem field_eq_ok_iff {entry : Text × Tree (Leaf F)} :
    (leaves F).field found entry = .ok found' ↔
      ((∃ name, entry.1.read = .ok name) ∧ entry.2.Uncut) ∧
      Collected (leaves F).matrix found.lu? (Tree.valuesNamed "lu" [entry]) found'.lu? ∧
      Collected (leaves F).rowOrder found.order? (Tree.valuesNamed "permutation" [entry])
        found'.order? := by
  obtain ⟨key, value⟩ := entry
  obtain ⟨lu?, order?⟩ := found
  obtain ⟨lu?', order?'⟩ := found'
  cases hkey : key.read with
  | error reason =>
    -- a key that cannot be read has no name
    constructor
    · intro h
      rw [field, hkey] at h
      cases h
    · rintro ⟨⟨⟨name, hname⟩, -⟩, -⟩
      cases hname
  | ok name =>
    rw [Tree.valuesNamed_singleton hkey, Tree.valuesNamed_singleton hkey]
    by_cases hlu : name = "lu"
    · subst hlu
      rw [field_lu_eq_ok_iff hkey, if_pos rfl, if_neg (by decide), collected_singleton_iff,
        collected_nil_iff]
      constructor
      · rintro ⟨hnone, A, hA, hfound⟩
        cases hfound
        exact ⟨⟨⟨_, rfl⟩, uncut_of_matrix hA⟩, ⟨hnone, A, hA, rfl⟩, rfl⟩
      · rintro ⟨-, ⟨hnone, A, hA, rfl⟩, rfl⟩
        exact ⟨hnone, A, hA, rfl⟩
    · by_cases horder : name = "permutation"
      · subst horder
        rw [field_permutation_eq_ok_iff hkey, if_neg (by decide), if_pos rfl,
          collected_singleton_iff, collected_nil_iff]
        constructor
        · rintro ⟨hnone, p, hp, hfound⟩
          cases hfound
          exact ⟨⟨⟨_, rfl⟩, uncut_of_rowOrder hp⟩, rfl, ⟨hnone, p, hp, rfl⟩⟩
        · rintro ⟨-, rfl, ⟨hnone, p, hp, rfl⟩⟩
          exact ⟨hnone, p, hp, rfl⟩
      · rw [field_other_eq_ok_iff hkey hlu horder, if_neg hlu, if_neg horder, collected_nil_iff,
          collected_nil_iff]
        constructor
        · rintro ⟨huncut, hfound⟩
          cases hfound
          exact ⟨⟨⟨name, rfl⟩, huncut⟩, rfl, rfl⟩
        · rintro ⟨⟨-, huncut⟩, rfl, rfl⟩
          exact ⟨huncut, rfl⟩

/-- The `fields` of an object are accepted if each of them is, in any order. -/
theorem fields_eq_ok_iff {fields : List (Text × Tree (Leaf F))} :
    fields.foldlM (leaves F).field found = .ok found' ↔
      (∀ entry ∈ fields, (∃ name, entry.1.read = .ok name) ∧ entry.2.Uncut) ∧
      Collected (leaves F).matrix found.lu? (Tree.valuesNamed "lu" fields) found'.lu? ∧
      Collected (leaves F).rowOrder found.order? (Tree.valuesNamed "permutation" fields)
        found'.order? := by
  induction fields generalizing found with
  | nil =>
    obtain ⟨lu?, order?⟩ := found
    obtain ⟨lu?', order?'⟩ := found'
    rw [List.foldlM_nil, Tree.valuesNamed_nil, Tree.valuesNamed_nil, collected_nil_iff,
      collected_nil_iff]
    constructor
    · intro h
      cases h
      exact ⟨List.forall_mem_nil _, rfl, rfl⟩
    · rintro ⟨-, rfl, rfl⟩
      rfl
  | cons entry fields ih =>
    rw [List.foldlM_cons, bind_eq_ok_iff, List.forall_mem_cons, Tree.valuesNamed_cons "lu",
      Tree.valuesNamed_cons "permutation", collected_append_iff, collected_append_iff]
    constructor
    · -- what is found behind the first field is what the others start from
      rintro ⟨between, hentry, hfields⟩
      obtain ⟨hsound, hlu, horder⟩ := field_eq_ok_iff.1 hentry
      obtain ⟨hsounds, hlus, horders⟩ := ih.1 hfields
      exact ⟨⟨hsound, hsounds⟩, ⟨between.lu?, hlu, hlus⟩, ⟨between.order?, horder, horders⟩⟩
    · rintro ⟨⟨hsound, hsounds⟩, ⟨lu?, hlu, hlus⟩, ⟨order?, horder, horders⟩⟩
      exact ⟨⟨lu?, order?⟩, field_eq_ok_iff.2 ⟨hsound, hlu, horder⟩, ih.2 ⟨hsounds, hlus, horders⟩⟩

end Fields

variable {F : Format}

/-- A matrix `A` and a row order `p` make up `g` if they are its parts. -/
theorem paired_eq_ok_iff {A : SizedMatrix (Binary F)} {p : SizedOrder}
    {g : SizedFactorization (Binary F)} :
    paired A p = .ok g ↔ A = ⟨g.1, g.2.lu⟩ ∧ p = ⟨g.1, g.2.order⟩ := by
  rw [paired, mapError_eq_ok_iff]
  constructor
  · intro h
    obtain ⟨f, hf, rfl⟩ := exists_of_map_eq_ok h
    unfold Factorization.ofParts at hf
    split at hf
    · next hsize =>
      cases hf
      obtain ⟨n, A⟩ := A
      obtain ⟨m, p⟩ := p
      obtain rfl : m = n := hsize
      exact ⟨rfl, rfl⟩
    · cases hf
  · rintro ⟨rfl, rfl⟩
    rw [Factorization.ofPartsSized, Factorization.ofParts, dif_pos rfl]
    rfl

/-- The objects that are accepted as `g`: they are `Uncut` and have the parts of `g`. -/
theorem factorization_object_eq_ok_iff {fields : List (Text × Tree (Leaf F))} {cut? : Option Fault}
    {g : SizedFactorization (Binary F)} :
    (leaves F).factorization (.object fields cut?) = .ok g ↔
      (Tree.object fields cut?).Uncut ∧ ∃ lu order, (Tree.object fields cut?).HasParts lu order ∧
        (leaves F).matrix lu = .ok ⟨g.1, g.2.lu⟩ ∧
        (leaves F).rowOrder order = .ok ⟨g.1, g.2.order⟩ := by
  constructor
  · intro h
    obtain ⟨⟨lu?, order?⟩, hfields, hrest⟩ := exists_of_bind_eq_ok h
    obtain ⟨⟨⟩, hclosed, hparts⟩ := exists_of_bind_eq_ok hrest
    obtain rfl := closed_eq_ok_iff.1 hclosed
    obtain ⟨hsound, hlu, horder⟩ := fields_eq_ok_iff.1 hfields
    split at hparts
    · next A p hA hp =>
      cases hA
      cases hp
      obtain ⟨rfl, rfl⟩ := paired_eq_ok_iff.1 hparts
      obtain ⟨lu, hlu, hA⟩ := collected_some_iff.1 hlu
      obtain ⟨order, horder, hp⟩ := collected_some_iff.1 horder
      have hkeys := fun entry hentry => (hsound entry hentry).1
      -- a key that was read is not cut, and the values were decoded or passed over
      have huncut : (Tree.object fields none).Uncut := by
        refine .object (fun entry hentry => ?_) fun entry hentry => (hsound entry hentry).2
        obtain ⟨name, hname⟩ := hkeys entry hentry
        exact Text.cut?_eq_none_of_read hname
      exact ⟨huncut, lu, order, .fields hkeys hlu horder, hA, hp⟩
    · cases hparts
  · rintro ⟨huncut, lu, order, ⟨⟩ | ⟨keys, lu_once, order_once⟩, hA, hp⟩
    obtain ⟨hfields, -⟩ := Tree.uncut_object_iff.1 huncut
    have hfound : fields.foldlM (leaves F).field ⟨none, none⟩ =
        .ok ⟨some ⟨g.1, g.2.lu⟩, some ⟨g.1, g.2.order⟩⟩ := by
      refine fields_eq_ok_iff.2 ⟨fun entry hentry => ?_, ?_, ?_⟩
      · exact ⟨keys entry hentry, (hfields entry hentry).2⟩
      · exact collected_some_iff.2 ⟨lu, lu_once, hA⟩
      · exact collected_some_iff.2 ⟨order, order_once, hp⟩
    rw [factorization, hfound]
    exact paired_eq_ok_iff.2 ⟨rfl, rfl⟩

/-- The arrays that are accepted as `g`: they are `Uncut` and have the parts of `g`. -/
theorem factorization_array_eq_ok_iff {items : List (Tree (Leaf F))} {cut? : Option Fault}
    {g : SizedFactorization (Binary F)} :
    (leaves F).factorization (.array items cut?) = .ok g ↔
      (Tree.array items cut?).Uncut ∧ ∃ lu order, (Tree.array items cut?).HasParts lu order ∧
        (leaves F).matrix lu = .ok ⟨g.1, g.2.lu⟩ ∧
        (leaves F).rowOrder order = .ok ⟨g.1, g.2.order⟩ := by
  constructor
  · intro h
    match items with
    | [] =>
      obtain ⟨-, -, h⟩ := exists_of_bind_eq_ok h
      cases h
    | [first] =>
      obtain ⟨A, -, h⟩ := exists_of_bind_eq_ok h
      obtain ⟨-, -, h⟩ := exists_of_bind_eq_ok h
      cases h
    | [lu, order] =>
      obtain ⟨A, hA, hrest⟩ := exists_of_bind_eq_ok h
      obtain ⟨p, hp, hrest⟩ := exists_of_bind_eq_ok hrest
      obtain ⟨⟨⟩, hclosed, hparts⟩ := exists_of_bind_eq_ok hrest
      obtain rfl := closed_eq_ok_iff.1 hclosed
      obtain ⟨rfl, rfl⟩ := paired_eq_ok_iff.1 hparts
      have huncut : (Tree.array [lu, order] none).Uncut := by
        refine .array fun item hitem => ?_
        rcases List.mem_pair.1 hitem with rfl | rfl
        · exact uncut_of_matrix hA
        · exact uncut_of_rowOrder hp
      exact ⟨huncut, lu, order, .pair lu order, hA, hp⟩
    | first :: second :: third :: rest =>
      -- a third item is malformed, whatever it is
      obtain ⟨A, -, h⟩ := exists_of_bind_eq_ok h
      obtain ⟨p, -, h⟩ := exists_of_bind_eq_ok h
      cases h
  · rintro ⟨-, lu, order, ⟨⟩ | _, hA, hp⟩
    rw [factorization, hA]
    show ((leaves F).rowOrder order >>= fun p => closed none >>= fun _ => paired _ p) = _
    rw [hp]
    exact paired_eq_ok_iff.2 ⟨rfl, rfl⟩

/-- The trees that are accepted as `g`: they are `Uncut` and have two parts, which are accepted as a
matrix and a row order of the same size. -/
theorem factorization_eq_ok_iff {t : Tree (Leaf F)} {g : SizedFactorization (Binary F)} :
    (leaves F).factorization t = .ok g ↔
      t.Uncut ∧ ∃ lu order, t.HasParts lu order ∧ (leaves F).matrix lu = .ok ⟨g.1, g.2.lu⟩ ∧
        (leaves F).rowOrder order = .ok ⟨g.1, g.2.order⟩ := by
  cases t with
  | object fields cut? => exact factorization_object_eq_ok_iff
  | array items cut? => exact factorization_array_eq_ok_iff
  | _ =>
    -- a value of another kind has no parts
    constructor
    · intro h
      cases h
    · rintro ⟨-, lu, order, hparts, -⟩
      cases hparts

end Decoder

end Json

end PivotedLU
