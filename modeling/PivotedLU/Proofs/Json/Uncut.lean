import PivotedLU.Proofs.Json.Parts

/-!
# Trees That Are Not Cut

A tree that was read from a whole text is not cut anywhere. Such a tree can be passed over, and a
string that can be read is not cut either.

## Main definitions

* `Json.Tree.Uncut`: nothing of a tree is cut.
* `Json.Tree.numbers`, `Json.Tree.numberRows`: arrays of numbers, and arrays of these.

## Main results

* `Json.Text.cut?_eq_none_of_read`, `Json.Text.read_ofString`: strings that are read.
* `Json.Tree.skip_eq_ok_iff`: a value that is not used is passed over exactly if it is not cut.
-/

namespace PivotedLU

universe u

namespace Json

/-! ## Strings -/

namespace Text

@[simp]
theorem skip_eq_ok_iff {text : Text} : text.skip = .ok () ↔ text.cut? = none := by
  unfold skip
  cases text.cut? <;> simp

theorem finish_eq_none_of_ok {cut? : Option Fault} (h : finish cut? = .ok ()) : cut? = none := by
  cases cut? with
  | none => rfl
  | some fault => cases h

/-- If `pieces` are read to their end, this is their quotation mark. -/
theorem cut?_eq_none_of_readPieces {cut? : Option Fault} {pieces : List Piece} {cs : List Char}
    (h : readPieces cut? pieces = .ok cs) : cut? = none := by
  fun_induction readPieces cut? pieces generalizing cs with
  | case1 =>
    obtain ⟨_, hfinish, -⟩ := exists_of_map_eq_ok h
    exact finish_eq_none_of_ok hfinish
  | case2 c rest ih =>
    -- a character
    obtain ⟨_, hrest, -⟩ := exists_of_map_eq_ok h
    exact ih hrest
  | case4 first _ _ second rest _ ih =>
    -- a pair of code units
    obtain ⟨_, hrest, -⟩ := exists_of_map_eq_ok h
    exact ih hrest
  | case7 first _ _ =>
    -- the first unit of a pair at the end is refused, cut or not
    obtain ⟨_, -, h⟩ := exists_of_bind_eq_ok h
    cases h
  | case8 first rest _ _ ih =>
    -- a code unit of its own
    obtain ⟨_, hrest, -⟩ := exists_of_map_eq_ok h
    exact ih hrest
  | case3 | case5 | case6 => cases h

theorem cut?_eq_none_of_read {text : Text} {s : String} (h : text.read = .ok s) :
    text.cut? = none := by
  obtain ⟨_, hpieces, -⟩ := exists_of_map_eq_ok h
  exact cut?_eq_none_of_readPieces hpieces

/-- A string `s` that is written with its own characters is read back. -/
@[simp]
theorem read_ofString (s : String) : (ofString s).read = .ok s := by
  have hpieces (cs : List Char) : readPieces none (cs.map .char) = .ok cs := by
    induction cs with
    | nil => rfl
    | cons c cs ih =>
      rw [List.map_cons, readPieces, ih]
      rfl
  unfold read ofString
  rw [hpieces]
  simp [Except.map]

end Text

/-! ## Values -/

namespace Tree

variable {ν : Type u}

/-- Nothing of the tree is cut. -/
inductive Uncut : Tree ν → Prop
  | null : Uncut .null
  | bool (value : Bool) : Uncut (.bool value)
  | number (value : ν) : Uncut (.number value)
  | string {text : Text} (whole : text.cut? = none) : Uncut (.string text)
  | array {items : List (Tree ν)} (items_uncut : ∀ item ∈ items, Uncut item) :
      Uncut (.array items none)
  | object {fields : List (Text × Tree ν)} (keys : ∀ entry ∈ fields, entry.1.cut? = none)
      (values : ∀ entry ∈ fields, Uncut entry.2) : Uncut (.object fields none)

@[simp]
theorem uncut_string_iff {text : Text} :
    (Tree.string text : Tree ν).Uncut ↔ text.cut? = none :=
  ⟨fun | .string whole => whole, .string⟩

/-- An array is `Uncut` if it is not cut itself and its items are `Uncut`. -/
@[simp]
theorem uncut_array_iff {items : List (Tree ν)} {cut? : Option Fault} :
    (Tree.array items cut?).Uncut ↔ (∀ item ∈ items, item.Uncut) ∧ cut? = none := by
  constructor
  · rintro (_ | _ | _ | _ | hitems | _)
    exact ⟨hitems, rfl⟩
  · rintro ⟨hitems, rfl⟩
    exact .array hitems

/-- An object is `Uncut` if it is not cut itself, its keys are not cut and its values are
`Uncut`. -/
@[simp]
theorem uncut_object_iff {fields : List (Text × Tree ν)} {cut? : Option Fault} :
    (Tree.object fields cut?).Uncut ↔
      (∀ entry ∈ fields, entry.1.cut? = none ∧ entry.2.Uncut) ∧ cut? = none := by
  constructor
  · rintro (_ | _ | _ | _ | _ | ⟨hkeys, hvalues⟩)
    exact ⟨fun entry hentry => ⟨hkeys entry hentry, hvalues entry hentry⟩, rfl⟩
  · rintro ⟨hfields, rfl⟩
    exact .object (fun entry hentry => (hfields entry hentry).1)
      fun entry hentry => (hfields entry hentry).2

@[simp]
theorem skipEnd_eq_ok_iff {cut? : Option Fault} : skipEnd cut? = .ok () ↔ cut? = none := by
  cases cut? <;> simp [skipEnd]

theorem seq_eq_ok_iff {ε : Type} {x y : Except ε Unit} :
    (do x; y) = .ok () ↔ x = .ok () ∧ y = .ok () := by
  rw [bind_eq_ok_iff]
  exact ⟨fun ⟨_, hx, hy⟩ => ⟨hx, hy⟩, fun ⟨hx, hy⟩ => ⟨(), hx, hy⟩⟩

-- by recursion on the tree and on the lists of items and fields in it
mutual

/-- A value that is not used is passed over if it is `Uncut`. -/
theorem skip_eq_ok_iff : ∀ t : Tree ν, t.skip = .ok () ↔ t.Uncut
  | .cut fault => by
    rw [skip]
    constructor
    · intro h
      cases h
    · intro h
      cases h
  | .null => iff_of_true (by rw [skip]) .null
  | .bool value => iff_of_true (by rw [skip]) (.bool value)
  | .number value => iff_of_true (by rw [skip]) (.number value)
  | .string text => by rw [skip, Text.skip_eq_ok_iff, uncut_string_iff]
  | .array items cut? => by
    rw [skip, seq_eq_ok_iff, skipItems_eq_ok_iff items, skipEnd_eq_ok_iff, uncut_array_iff]
  | .object fields cut? => by
    rw [skip, seq_eq_ok_iff, skipFields_eq_ok_iff fields, skipEnd_eq_ok_iff, uncut_object_iff]

theorem skipItems_eq_ok_iff :
    ∀ items : List (Tree ν), skipItems items = .ok () ↔ ∀ item ∈ items, item.Uncut
  | [] => by simp [skipItems]
  | item :: rest => by
    rw [skipItems, seq_eq_ok_iff, skip_eq_ok_iff item, skipItems_eq_ok_iff rest,
      List.forall_mem_cons]

theorem skipFields_eq_ok_iff :
    ∀ fields : List (Text × Tree ν), skipFields fields = .ok () ↔
      ∀ entry ∈ fields, entry.1.cut? = none ∧ entry.2.Uncut
  | [] => by simp [skipFields]
  | (key, value) :: rest => by
    rw [skipFields, seq_eq_ok_iff, seq_eq_ok_iff, Text.skip_eq_ok_iff, skip_eq_ok_iff value,
      skipFields_eq_ok_iff rest, List.forall_mem_cons, and_assoc]

end

/-! ## Arrays of numbers -/

/-- An array of the numbers `leaves`. -/
def numbers (leaves : List ν) : Tree ν :=
  .array (leaves.map .number) none

/-- An array of arrays of the numbers in `rows`. -/
def numberRows (rows : List (List ν)) : Tree ν :=
  .array (rows.map numbers) none

@[simp]
theorem uncut_numbers (leaves : List ν) : (numbers leaves).Uncut := by
  refine .array fun item hitem => ?_
  obtain ⟨x, -, rfl⟩ := List.mem_map.1 hitem
  exact .number x

@[simp]
theorem uncut_numberRows (rows : List (List ν)) : (numberRows rows).Uncut := by
  refine .array fun item hitem => ?_
  obtain ⟨row, -, rfl⟩ := List.mem_map.1 hitem
  exact uncut_numbers row

end Tree

end Json

end PivotedLU
