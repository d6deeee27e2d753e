/-!
# Exchanging Two Places

The exchange of two places of a vector, and the map on places that describes it.

## Main definitions

* `exchanged`: the place whose content comes to stand at a place.
* `vectorOfList`: a list of a known length as a vector.

## Main results

* `exchanged_exchanged`: an exchange undoes itself.
* `get_ofFn`, `get_set_self`, `get_set_of_ne`: the entries of a vector that is given by them, or
  changed at one place.
* `get_swap_exchanged`: the entries of a vector after an exchange.
* `vector_eq_iff`: a vector is given by its entries.
-/

namespace PivotedLU

universe u

variable {α : Type u} {n : Nat}

/-- The place whose content comes to stand at place `k` when places `i` and `j` are exchanged. -/
def exchanged (i j k : Fin n) : Fin n :=
  if k = i then j else if k = j then i else k

/-- Two exchanges of `i` and `j` move no `k`. -/
@[simp]
theorem exchanged_exchanged (i j k : Fin n) : exchanged i j (exchanged i j k) = k := by
  unfold exchanged
  grind

/-- An exchange of `i` with itself moves no `k`. -/
@[simp]
theorem exchanged_self (i k : Fin n) : exchanged i i k = k := by
  unfold exchanged
  grind

/-- Place `i` receives the content of `j`. -/
@[simp]
theorem exchanged_left (i j : Fin n) : exchanged i j i = j :=
  if_pos rfl

/-- Place `j` receives the content of `i`. -/
@[simp]
theorem exchanged_right (i j : Fin n) : exchanged i j j = i := by
  unfold exchanged
  grind

/-- A place `k` before both `i` and `j` keeps its content. -/
theorem exchanged_of_lt {i j k : Fin n} (hij : i ≤ j) (hk : k < i) : exchanged i j k = k := by
  unfold exchanged
  grind

/-- An exchange of `i` and `j` behind `l` moves no content across `l`. -/
theorem lt_exchanged_iff {i j k l : Fin n} (hij : i ≤ j) (hl : l < i) :
    l < exchanged i j k ↔ l < k := by
  unfold exchanged
  grind

/-- An exchange of `i` and `j`, none of them before `i`, brings no content from before `i`. -/
theorem le_exchanged {i j k : Fin n} (hij : i ≤ j) (hk : i ≤ k) : i ≤ exchanged i j k := by
  unfold exchanged
  grind

/-- Different places `k` and `l` receive the content of different places. -/
theorem exchanged_injective {i j k l : Fin n} (h : exchanged i j k = exchanged i j l) :
    k = l := by
  rw [← exchanged_exchanged i j k, h, exchanged_exchanged]

/-! ## Vectors -/

/-- Entry `i` of `Vector.ofFn f` is `f i`. -/
@[simp]
theorem get_ofFn (f : Fin n → α) (i : Fin n) : (Vector.ofFn f).get i = f i :=
  Vector.getElem_ofFn i.isLt

theorem get_set_self (xs : Vector α n) (i : Fin n) (x : α) : (xs.set i x i.isLt).get i = x :=
  Vector.getElem_set_self i.isLt

theorem get_set_of_ne (xs : Vector α n) {i j : Fin n} (h : i ≠ j) (x : α) :
    (xs.set i x i.isLt).get j = xs.get j :=
  Vector.getElem_set_ne i.isLt j.isLt fun hij => h (Fin.ext hij)

/-- After `xs.swap i j`, place `k` holds what `xs` has at `exchanged i j k`. -/
theorem get_swap_exchanged (xs : Vector α n) (i j k : Fin n) :
    (xs.swap i j i.isLt j.isLt).get k = xs.get (exchanged i j k) := by
  change (xs.swap i j)[k.val] = xs[(exchanged i j k).val]
  simp only [exchanged, Vector.getElem_swap, ← Fin.ext_iff]
  by_cases hi : k = i
  · simp [hi]
  · by_cases hj : k = j
    · subst hj
      simp [hi]
    · simp [hi, hj]

/-- Vectors `xs` and `ys` are equal if their entries at all places are. -/
theorem vector_eq_iff {xs ys : Vector α n} : xs = ys ↔ ∀ i : Fin n, xs.get i = ys.get i :=
  ⟨fun h _ => by rw [h], fun h => Vector.ext fun i hi => h ⟨i, hi⟩⟩

/-- The list `xs` of a known length as a vector. -/
def vectorOfList (xs : List α) (h : xs.length = n) : Vector α n :=
  ⟨xs.toArray, by simpa using h⟩

@[simp]
theorem toList_vectorOfList (xs : List α) (h : xs.length = n) :
    (vectorOfList xs h).toList = xs := by
  simp [vectorOfList, Vector.toList]

@[simp]
theorem vectorOfList_toList (xs : Vector α n) (h : xs.toList.length = n) :
    vectorOfList xs.toList h = xs :=
  Vector.toList_inj.1 (toList_vectorOfList xs.toList h)

end PivotedLU
