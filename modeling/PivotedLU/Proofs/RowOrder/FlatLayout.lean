import PivotedLU.Proofs.RowOrder.History
import PivotedLU.Proofs.Stored.Order

/-!
# Reading the Flat Layout

A list of naturals is read as a row order in three checks, one after the other: there is a last
entry, the counter; it is not below the number of the entries before it; and these are a
permutation. The last check looks at one index after the other and asks only whether it is in range
and new. That nothing is missing in the end is a matter of counting: as many different indices as
there are places are all of them.

## Main results

* `RowOrder.exists_ofIndices?_iff`: the indices that are accepted are the rearrangements of
  `0, 1, …`.
* `RowOrder.ofFlat_eq_error_iff`: which list is refused, and for which reason.
* `RowOrder.flat_layout`: lists in flat layout and row orders are the same.
-/

namespace PivotedLU

namespace RowOrder

/-- By `ofIndices?`, lists of `indices` are accepted that are a rearrangement of `0, 1, …`: as many
different rows as there are places are all rows. -/
theorem exists_ofIndices?_iff {indices : List Nat} {exchanges : Nat} :
    (∃ p, ofIndices? indices exchanges = some p) ↔
      indices.Perm (List.range indices.length) := by
  constructor
  · rintro ⟨p, hp⟩
    have hperm := p.indices_perm_range
    rwa [indices_of_ofIndices? hp] at hperm
  · exact fun hperm => exists_ofIndices?_of_perm hperm exchanges

/-- The checks of a list with the last entry `counter`. -/
theorem ofFlat_concat (indices : List Nat) (counter : Nat) :
    ofFlat (indices ++ [counter]) =
      if counter < indices.length then .error (.counterBelow counter indices.length)
      else
        match ofIndices? indices (counter - indices.length) with
        | some p => .ok ⟨indices.length, p⟩
        | none => .error (.notBijective indices) := by
  unfold ofFlat
  rw [List.getLast?_concat]
  -- the size of the result depends on the indices, so they are replaced all at once
  generalize hindices : (indices ++ [counter]).dropLast = before
  rw [List.dropLast_concat] at hindices
  subst hindices
  rfl

/-- A list with the last entry `counter` is refused for this, or else for its `indices`. -/
theorem ofFlat_concat_eq_error_iff {indices : List Nat} {counter : Nat} {fault : OrderFault} :
    ofFlat (indices ++ [counter]) = .error fault ↔
      (counter < indices.length ∧ fault = .counterBelow counter indices.length) ∨
        (indices.length ≤ counter ∧ ¬indices.Perm (List.range indices.length) ∧
          fault = .notBijective indices) := by
  have haccepted : (∃ p, ofIndices? indices (counter - indices.length) = some p) ↔
      indices.Perm (List.range indices.length) := exists_ofIndices?_iff
  rw [ofFlat_concat, ← haccepted]
  by_cases hcounter : counter < indices.length
  · rw [if_pos hcounter]
    simp [hcounter, eq_comm]
  · rw [if_neg hcounter]
    cases ofIndices? indices (counter - indices.length) with
    | none => simp [hcounter, Nat.not_lt.1 hcounter, eq_comm]
    | some p => simp [hcounter]

/-- A list `flat` is refused because it is empty, or else for its last entry, or else for the
others. -/
theorem ofFlat_eq_error_iff {flat : List Nat} {fault : OrderFault} :
    ofFlat flat = .error fault ↔
      (flat = [] ∧ fault = .empty) ∨
        ∃ indices counter, flat = indices ++ [counter] ∧
          ((counter < indices.length ∧ fault = .counterBelow counter indices.length) ∨
            (indices.length ≤ counter ∧ ¬indices.Perm (List.range indices.length) ∧
              fault = .notBijective indices)) := by
  rcases flat.eq_nil_or_concat with rfl | ⟨indices, counter, hflat⟩
  · constructor
    · intro h
      cases h
      exact Or.inl ⟨rfl, rfl⟩
    · rintro (⟨-, rfl⟩ | ⟨indices, counter, hflat, -⟩)
      · rfl
      · exact absurd hflat.symm (List.concat_ne_nil counter indices)
  · rw [List.concat_eq_append] at hflat
    subst hflat
    rw [ofFlat_concat_eq_error_iff]
    constructor
    · exact fun hfault => Or.inr ⟨indices, counter, rfl, hfault⟩
    · rintro (⟨hnil, -⟩ | ⟨indices', counter', hflat, hfault⟩)
      · exact absurd hnil (List.concat_ne_nil counter indices)
      · obtain ⟨rfl, hcounter⟩ := List.append_inj' hflat rfl
        obtain rfl : counter = counter' := List.singleton_inj.1 hcounter
        exact hfault

/-- **The flat layout.** Let `flat` be a list of naturals.

- It is accepted exactly if it has a last entry `counter`, which is at least the number of the other
  `indices`, and these are a rearrangement of `0, 1, …`.
- It is refused because it is empty, or else because `counter` is too small, or else because
  `indices` are no such rearrangement.
- What it describes is the row order whose flat form it is, and every row order, whatever its
  history, is described by its flat form.
- `Stored.fromFlat`, the loop that marks one index after the other, gives the same answers, and
  never looks at a mark that is not there. -/
theorem flat_layout (flat : List Nat) :
    ((∃ p, ofFlat flat = .ok p) ↔
      ∃ indices counter, flat = indices ++ [counter] ∧ indices.length ≤ counter ∧
        indices.Perm (List.range indices.length)) ∧
    (∀ fault, ofFlat flat = .error fault ↔
      (flat = [] ∧ fault = .empty) ∨
        ∃ indices counter, flat = indices ++ [counter] ∧
          ((counter < indices.length ∧ fault = .counterBelow counter indices.length) ∨
            (indices.length ≤ counter ∧ ¬indices.Perm (List.range indices.length) ∧
              fault = .notBijective indices))) ∧
    (∀ p : SizedOrder, ofFlat flat = .ok p ↔ p.2.toFlat = flat) ∧
    Stored.fromFlat flat = .ok ((ofFlat flat).map fun p => p.2.stored) := by
  have haccepted : ∀ p : SizedOrder, ofFlat flat = .ok p ↔ p.2.toFlat = flat :=
    fun p => ofFlat_eq_ok_iff.trans eq_comm
  refine ⟨?_, fun fault => ofFlat_eq_error_iff, haccepted, Stored.fromFlat_eq flat⟩
  simp only [haccepted, exists_toFlat_eq_iff]
  refine exists₂_congr fun indices counter => and_congr_right fun _ => ?_
  exact and_comm

-- the edges: nothing at all, no place, a counter that is too small, and an exchange that is counted
example :
    ofFlat [] = .error .empty ∧ ofFlat [0] = .ok ⟨0, identity 0⟩ ∧
      ofFlat [1, 0, 1] = .error (.counterBelow 1 2) ∧
      ofFlat [0, 2, 2] = .error (.notBijective [0, 2]) ∧
      ofFlat [1, 0, 3] = .ok ⟨2, (identity 2).exchange 0 1⟩ := by
  decide +kernel

end RowOrder

end PivotedLU
