import PivotedLU.Json.Decode
import PivotedLU.Proofs.RowOrder.Parity

/-!
# Where Row Orders Come From

A caller starts from the identity, or from a list in flat layout that is handed over or read from
JSON, and then exchanges places. An exchange moves the permutation and the counter together, so
whether the two agree is decided by the order that the caller started from. The flat layout accepts
every counter beside every permutation: an order whose counter does not agree can be started from.

## Main definitions

* `RowOrder.Start`: the orders that callers start from.
* `RowOrder.Swapped`: what becomes of an order by exchanges of places.
* `RowOrder.Obtained`: the orders that callers obtain.

## Main results

* `RowOrder.ofFlat_eq_ok_iff`: the lists that are accepted are the flat forms of row orders.
* `RowOrder.exists_toFlat_eq_iff`: what these forms are.
* `RowOrder.Swapped.countsParity_iff`: a history of exchanges does not change whether the counter
  agrees.
-/

namespace PivotedLU

variable {n : Nat}

namespace RowOrder

/-! ## The flat layout -/

/-- A row order is given by its indices and its counter. -/
theorem sized_ext {p q : SizedOrder} (hindices : p.2.indices = q.2.indices)
    (hexchanges : p.2.exchanges = q.2.exchanges) : p = q := by
  obtain ⟨n, sources, distinct, exchanges⟩ := p
  obtain ⟨m, sources', distinct', exchanges'⟩ := q
  have hlength := congrArg List.length hindices
  rw [length_indices, length_indices] at hlength
  subst hlength
  have hsources : sources = sources' :=
    Vector.toList_inj.1 (List.map_injective_iff.2 Fin.val_injective hindices)
  subst hsources
  obtain rfl : exchanges = exchanges' := hexchanges
  rfl

/-- By `ofIndices?`, a rearrangement of `0, 1, …` is accepted with every counter. -/
theorem exists_ofIndices?_of_perm {indices : List Nat}
    (h : indices.Perm (List.range indices.length)) (exchanges : Nat) :
    ∃ q, ofIndices? indices exchanges = some q := by
  have hrange : ∀ i ∈ indices, i < indices.length := fun i hi =>
    List.mem_range.1 (h.mem_iff.1 hi)
  have hnodup : indices.Nodup := h.nodup_iff.2 List.nodup_range
  exact ⟨_, dif_pos ⟨hrange, hnodup⟩⟩

/-- By `ofIndices?`, the indices of a row order `p` are accepted with every counter. -/
theorem exists_ofIndices? {p : RowOrder n} {indices : List Nat} (h : indices = p.indices)
    (exchanges : Nat) : ∃ q, ofIndices? indices exchanges = some q := by
  subst h
  refine exists_ofIndices?_of_perm ?_ exchanges
  rw [p.length_indices]
  exact p.indices_perm_range

/-- What `flat` describes if its indices are accepted as `p` and its counter is large enough. -/
theorem ofFlat_of_ofIndices? {flat : List Nat} {counter : Nat}
    {p : RowOrder flat.dropLast.length} (hlast : flat.getLast? = some counter)
    (hcounter : ¬counter < flat.dropLast.length)
    (h : ofIndices? flat.dropLast (counter - flat.dropLast.length) = some p) :
    ofFlat flat = .ok ⟨_, p⟩ := by
  unfold ofFlat
  rw [hlast]
  dsimp only
  rw [if_neg hcounter, h]

/-- The flat form of `p` describes `p`. -/
theorem ofFlat_toFlat (p : RowOrder n) : ofFlat p.toFlat = .ok ⟨n, p⟩ := by
  have hlast : p.toFlat.getLast? = some (n + p.exchanges) := List.getLast?_concat
  have hindices : p.toFlat.dropLast = p.indices := List.dropLast_concat
  have hlength : p.toFlat.dropLast.length = n := by rw [hindices, p.length_indices]
  obtain ⟨q, hq⟩ := exists_ofIndices? hindices (n + p.exchanges - p.toFlat.dropLast.length)
  rw [ofFlat_of_ofIndices? hlast (by omega) hq]
  refine congrArg Except.ok (sized_ext ?_ ?_)
  · rw [indices_of_ofIndices? hq, hindices]
  · rw [exchanges_of_ofIndices? hq, hlength]
    exact Nat.add_sub_cancel_left n p.exchanges

/-- A list `flat` describes `p` exactly if it is the flat form of `p`, whatever the counter. -/
theorem ofFlat_eq_ok_iff {flat : List Nat} {p : SizedOrder} :
    ofFlat flat = .ok p ↔ flat = p.2.toFlat := by
  constructor
  · intro h
    -- the refusals in turn: no counter, a counter below the size, no permutation
    unfold ofFlat at h
    split at h
    · cases h
    · next counter hlast =>
      dsimp only at h
      split at h
      · cases h
      · next hcounter =>
        split at h
        · next q hq =>
          cases h
          have hflat := List.dropLast_append_getLast? counter hlast
          rw [toFlat, indices_of_ofIndices? hq, exchanges_of_ofIndices? hq,
            Nat.add_sub_cancel' (Nat.not_lt.1 hcounter)]
          exact hflat.symm
        · cases h
  · rintro rfl
    exact ofFlat_toFlat p.2

/-- A list `flat` is a flat form if it is a rearrangement of `0, 1, …` with a counter that is not
below its length. -/
theorem exists_toFlat_eq_iff {flat : List Nat} :
    (∃ p : SizedOrder, p.2.toFlat = flat) ↔
      ∃ indices counter, flat = indices ++ [counter] ∧
        indices.Perm (List.range indices.length) ∧ indices.length ≤ counter := by
  constructor
  · rintro ⟨p, rfl⟩
    refine ⟨p.2.indices, p.1 + p.2.exchanges, rfl, ?_, ?_⟩
    · rw [p.2.length_indices]
      exact p.2.indices_perm_range
    · rw [p.2.length_indices]
      exact Nat.le_add_right p.1 p.2.exchanges
  · rintro ⟨indices, counter, rfl, hperm, hcounter⟩
    obtain ⟨p, hp⟩ := exists_ofIndices?_of_perm hperm (counter - indices.length)
    refine ⟨⟨indices.length, p⟩, ?_⟩
    show p.indices ++ [indices.length + p.exchanges] = indices ++ [counter]
    rw [indices_of_ofIndices? hp, exchanges_of_ofIndices? hp, Nat.add_sub_cancel' hcounter]

/-! ## Histories -/

/-- The orders that callers start from: the identity, and what a list in flat layout describes,
handed over as it is or read from JSON. -/
inductive Start : RowOrder n → Prop
  | identity : Start (identity n)
  | ofFlat {flat : List Nat} {p : RowOrder n} (accepted : ofFlat flat = .ok ⟨n, p⟩) : Start p
  | decoded {ν : Type} {F : Format} {d : Json.Decoder ν F} {tree : Json.Tree ν} {p : RowOrder n}
      (accepted : d.rowOrder tree = .ok ⟨n, p⟩) : Start p

/-- What becomes of `start` by exchanges of places. An exchange that is refused changes nothing. -/
inductive Swapped (start : RowOrder n) : RowOrder n → Prop
  | start : Swapped start start
  | exchangeAt {p q : RowOrder n} {i j : Nat} (before : Swapped start p)
      (accepted : p.exchangeAt i j = .ok q) : Swapped start q

/-- The order `p` comes from a `Start` by exchanges, as those that callers obtain. -/
def Obtained (p : RowOrder n) : Prop :=
  ∃ start, Start start ∧ Swapped start p

/-- An exchange `exchangeAt` that is accepted is one of two places. -/
theorem exists_exchange_of_exchangeAt {p q : RowOrder n} {i j : Nat}
    (h : p.exchangeAt i j = .ok q) : q = p ∨ ∃ k l, q = p.exchange k l := by
  unfold exchangeAt at h
  split at h
  · cases h
    exact Or.inl rfl
  · split at h
    · next hi =>
      split at h
      · next hj =>
        cases h
        exact Or.inr ⟨⟨i, hi⟩, ⟨j, hj⟩, rfl⟩
      · cases h
    · cases h

/-- Whether the counter of `p` agrees is decided by the order at the `start`. -/
theorem Swapped.countsParity_iff {start p : RowOrder n} (h : Swapped start p) :
    p.CountsParity ↔ start.CountsParity := by
  induction h with
  | start => exact Iff.rfl
  | exchangeAt before accepted ih =>
    rcases exists_exchange_of_exchangeAt accepted with rfl | ⟨k, l, rfl⟩
    · exact ih
    · rw [countsParity_exchange, ih]

end RowOrder

end PivotedLU
