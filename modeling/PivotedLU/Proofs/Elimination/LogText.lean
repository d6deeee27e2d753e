import PivotedLU.Proofs.Binary.Text
import PivotedLU.Proofs.Elimination.Trace

/-!
# The Log of a Run in Words

`LogEvent.message` writes every event as a text. The numbers that stand in the text can be taken off
it again: two events with one text name the same column, row, size and count, and the same floats.
The texts of a whole run are those of its records, two for each, and one more that says how the run
ended.

## Main definitions

* `LogEvent.named`: the numbers that the text of an event names.

## Main results

* `LogEvent.named_eq_of_message_eq`: a text has one level and names one list of numbers.
* `messages_of_ok`, `messages_of_error`: the texts of a run, by its outcome.
-/

namespace PivotedLU

namespace Elimination

variable {F : Format} {n m : Nat}

namespace LogEvent

/-- What the text of an event names: places, sizes and counts, and floats. -/
def named : LogEvent n (Binary F) → List Nat × List (Binary F)
  | .pivotChosen column row magnitude => ([column, row], [magnitude])
  | .beforeElimination _ => ([], [])
  | .degenerate column magnitude tolerance => ([column], [magnitude, tolerance])
  | .finished exchanges => ([n, exchanges], [])

/-! ## Taking a text apart -/

/-- Texts are equal before and behind their first `c`, if `s` and `t` before it have no `c`. -/
theorem append_cons_inj {c : Char} {s t u v : List Char} (hs : c ∉ s) (ht : c ∉ t)
    (h : s ++ c :: u = t ++ c :: v) : s = t ∧ u = v := by
  induction s generalizing t with
  | nil =>
    cases t with
    | nil => exact ⟨rfl, (List.cons.inj h).2⟩
    | cons d t =>
      obtain ⟨rfl, -⟩ := List.cons.inj h
      exact absurd List.mem_cons_self ht
  | cons d s ih =>
    cases t with
    | nil =>
      obtain ⟨rfl, -⟩ := List.cons.inj h
      exact absurd List.mem_cons_self hs
    | cons e t =>
      obtain ⟨rfl, htail⟩ := List.cons.inj h
      obtain ⟨rfl, rfl⟩ := ih (fun hmem => hs (List.mem_cons_of_mem d hmem))
        (fun hmem => ht (List.mem_cons_of_mem d hmem)) htail
      exact ⟨rfl, rfl⟩

/-- Numbers `i` and `j` are read off the digits before a `c` that is not a digit. -/
theorem digits_append_cons_inj {c : Char} (hc : c.isDigit = false) {i j : Nat} {u v : List Char}
    (h : Decimal.digits i ++ c :: u = Decimal.digits j ++ c :: v) : i = j ∧ u = v := by
  have hmem : ∀ k, c ∉ Decimal.digits k := fun k hk =>
    Bool.false_ne_true (hc.symm.trans (Decimal.isDigit_of_mem_digits hk))
  obtain ⟨hdigits, hrest⟩ := append_cons_inj (hmem i) (hmem j) h
  refine ⟨?_, hrest⟩
  rw [← Json.ofDigits_digits i, hdigits, Json.ofDigits_digits]

/-! ## The texts of the events -/

/-- The parts of the text about a pivot. -/
theorem message_pivotChosen (column row : Fin n) (magnitude : Binary F) :
    (pivotChosen column row magnitude).message.toList =
      "Column ".toList ++ (Decimal.digits column ++ ':' :: (" pivot row ".toList ++
        (Decimal.digits row ++ ' ' ::
          ("(|a| = ".toList ++ (magnitude.literal.toList ++ [')']))))) := by
  have hmessage : (pivotChosen column row magnitude).message =
      s!"Column {column}: pivot row {row} (|a| = " ++ magnitude.literal ++ ")" := rfl
  rw [hmessage]
  generalize magnitude.literal = text
  have hcolumn : (toString column).toList = Decimal.digits column := Nat.toList_repr
  have hrow : (toString row).toList = Decimal.digits row := Nat.toList_repr
  simp only [String.toList_append, hcolumn, hrow, List.append_assoc]
  rfl

/-- The parts of the text about a column without a pivot. -/
theorem message_degenerate (column : Fin n) (magnitude tolerance : Binary F) :
    (degenerate column magnitude tolerance).message.toList =
      "Degenerate matrix: column ".toList ++ (Decimal.digits column ++ ' ' :: ("pivot ".toList ++
        (magnitude.literal.toList ++ ' ' ::
          ("below tolerance ".toList ++ tolerance.literal.toList)))) := by
  have hmessage : (degenerate column magnitude tolerance).message =
      s!"Degenerate matrix: column {column} pivot " ++ magnitude.literal ++
      " below tolerance " ++ tolerance.literal := rfl
  rw [hmessage]
  generalize magnitude.literal = text
  generalize tolerance.literal = text'
  have hcolumn : (toString column).toList = Decimal.digits column := Nat.toList_repr
  simp only [String.toList_append, hcolumn, List.append_assoc]
  rfl

/-- The parts of the text that closes a successful run. -/
theorem message_finished (exchanges : Nat) :
    (finished exchanges : LogEvent n (Binary F)).message.toList =
      "LU decomposition of ".toList ++ (Decimal.digits n ++ 'x' :: (Decimal.digits n ++ ' ' ::
        ("matrix done with ".toList ++
          (Decimal.digits exchanges ++ ' ' :: "row swaps".toList)))) := by
  have hmessage : (finished exchanges : LogEvent n (Binary F)).message =
      s!"LU decomposition of {n}x{n} matrix done with {exchanges} row swaps" := rfl
  have htext : ∀ k : Nat, (toString k).toList = Decimal.digits k := fun _ => Nat.toList_repr
  rw [hmessage]
  simp only [String.toList_append, htext, List.append_assoc]
  rfl

/-- The parts of the text about a snapshot. -/
theorem message_beforeElimination (snapshot : DenseMatrix n (Binary F)) :
    (beforeElimination snapshot).message.toList =
      "Matrix before elimination: ".toList ++ snapshot.bracketed.toList := by
  have hmessage : (beforeElimination snapshot).message =
      "Matrix before elimination: " ++ snapshot.bracketed := rfl
  rw [hmessage, String.toList_append]

/-- The first character of a `message` belongs to one kind of event. -/
theorem head?_message (e : LogEvent n (Binary F)) :
    e.message.toList.head? = some (match e with
      | .pivotChosen .. => 'C'
      | .beforeElimination _ => 'M'
      | .degenerate .. => 'D'
      | .finished _ => 'L') := by
  cases e with
  | pivotChosen column row magnitude => rw [message_pivotChosen]; rfl
  | beforeElimination snapshot => rw [message_beforeElimination]; rfl
  | degenerate column magnitude tolerance => rw [message_degenerate]; rfl
  | finished exchanges => rw [message_finished]; rfl

/-- **A text names its numbers.** Events `e` and `e'` of one `message` have one `level`, and by
`named` the same columns, rows, sizes, counts and floats; even the size `n` of the matrix can be
read off the text that closes a successful run. -/
theorem named_eq_of_message_eq {e : LogEvent n (Binary F)} {e' : LogEvent m (Binary F)}
    (h : e.message = e'.message) : e.level = e'.level ∧ e.named = e'.named := by
  -- events of two kinds differ in the first character
  have hhead := head?_message e
  rw [h, head?_message e'] at hhead
  have htext := congrArg String.toList h
  cases e with
  | pivotChosen column row magnitude =>
    cases e' with
    | pivotChosen column' row' magnitude' =>
      rw [message_pivotChosen, message_pivotChosen] at htext
      obtain ⟨hcolumn, htext⟩ := digits_append_cons_inj rfl (List.append_cancel_left htext)
      obtain ⟨hrow, htext⟩ := digits_append_cons_inj rfl (List.append_cancel_left htext)
      -- the closing bracket ends the text, so that the float is all that is left before it
      have hliteral := List.append_cancel_right (List.append_cancel_left htext)
      have hmagnitude := Binary.literal_injective (String.toList_injective hliteral)
      exact ⟨rfl, by rw [named, named, hcolumn, hrow, hmagnitude]⟩
    | _ => cases hhead
  | beforeElimination snapshot =>
    cases e' with
    | beforeElimination snapshot' => exact ⟨rfl, rfl⟩
    | _ => cases hhead
  | degenerate column magnitude tolerance =>
    cases e' with
    | degenerate column' magnitude' tolerance' =>
      rw [message_degenerate, message_degenerate] at htext
      obtain ⟨hcolumn, htext⟩ := digits_append_cons_inj rfl (List.append_cancel_left htext)
      -- the first float ends at a blank
      obtain ⟨hliteral, htext⟩ := append_cons_inj (Binary.blank_not_mem_literal magnitude)
        (Binary.blank_not_mem_literal magnitude') (List.append_cancel_left htext)
      have hmagnitude := Binary.literal_injective (String.toList_injective hliteral)
      have htolerance := Binary.literal_injective
        (String.toList_injective (List.append_cancel_left htext))
      exact ⟨rfl, by rw [named, named, hcolumn, hmagnitude, htolerance]⟩
    | _ => cases hhead
  | finished exchanges =>
    cases e' with
    | finished exchanges' =>
      rw [message_finished, message_finished] at htext
      obtain ⟨rfl, htext⟩ := digits_append_cons_inj rfl (List.append_cancel_left htext)
      obtain ⟨-, htext⟩ := digits_append_cons_inj rfl htext
      obtain ⟨hexchanges, -⟩ := digits_append_cons_inj rfl (List.append_cancel_left htext)
      exact ⟨rfl, by rw [named, named, hexchanges]⟩
    | _ => cases hhead

end LogEvent

/-! ## The texts of a run -/

variable {tolerance : Binary F} {A : DenseMatrix n (Binary F)}

/-- The two texts of a record whose column has a scan that found `magnitude`. -/
def PivotRecord.texts (record : PivotRecord n (Binary F)) (magnitude : Binary F) : List String :=
  [s!"Column {record.column}: pivot row {record.pivotRow} (|a| = " ++ magnitude.literal ++ ")",
    "Matrix before elimination: " ++ record.snapshot.bracketed]

/-- The texts of the events of `records` are their `PivotRecord.texts`. -/
theorem map_message_flatMap_events (records : List (PivotRecord n (Binary F)))
    (magnitude : Fin n → Binary F) :
    (records.flatMap fun record => record.events (magnitude record.column)).map LogEvent.message =
      records.flatMap fun record => record.texts (magnitude record.column) := by
  rw [List.map_flatMap]
  rfl

/-- **The texts of a run that returns `p`:** the `PivotRecord.texts` of its records, and the size
`n` with the counter of `p`. -/
theorem messages_of_ok {p : RowOrder n} (h : (decompose tolerance A).outcome = .ok p) :
    (decompose tolerance A).log.map LogEvent.message =
      ((decompose tolerance A).records.flatMap fun record =>
        record.texts (scannedMagnitude tolerance A record.column)) ++
          [s!"LU decomposition of {n}x{n} matrix done with {p.exchanges} row swaps"] := by
  rw [log_of_ok h, List.map_append, map_message_flatMap_events]
  rfl

/-- **The texts of a run that fails with `b`:** the `PivotRecord.texts` of its records, and the
column, the pivot and the tolerance of `b`. -/
theorem messages_of_error {b : Breakdown n (Binary F)}
    (h : (decompose tolerance A).outcome = .error b) :
    (decompose tolerance A).log.map LogEvent.message =
      ((decompose tolerance A).records.flatMap fun record =>
        record.texts (scannedMagnitude tolerance A record.column)) ++
          [s!"Degenerate matrix: column {b.column} pivot " ++ b.pivot.literal ++
            " below tolerance " ++ tolerance.literal] := by
  rw [log_of_error h, List.map_append, map_message_flatMap_events]
  rfl

-- a run that exchanges two rows and stops at the column after that
example :
    (decompose (.ofNat 3) (⟨#v[#v[.ofNat 2, .ofNat 4], #v[.ofNat 4, .ofNat 4]]⟩ :
      DenseMatrix 2 Binary64)).log.map (fun event => (event.level, event.message)) =
      [(.trace, "Column 0: pivot row 1 (|a| = 4.0)"),
        (.trace,
          "Matrix before elimination: SquareMatrix \x7b rows: [[4.0, 4.0], [2.0, 4.0]] \x7d"),
        (.warn, "Degenerate matrix: column 1 pivot 2.0 below tolerance 3.0")] := by
  decide +kernel

end Elimination

end PivotedLU
