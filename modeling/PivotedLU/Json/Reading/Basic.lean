import PivotedLU.Json.Tree

/-!
# Reading at the Front of a Text

A text is a list of characters. A reader takes something off its front and returns it with the
rest of the text and a proof that the rest is shorter, which is why readers of values, items and
fields may call each other. Where the text stops being JSON, the reading is cut.

## Main definitions

* `Json.Reading`: what was read at the front of a text, complete or cut short.
* `Json.skipBlanks`, `Json.skipWord`, `Json.readWord`: what has no content of its own.

## Main results

* `Json.length_lt_of_skipBlanks`, `Json.length_skipWord_le`: the rest is not longer.
-/

namespace PivotedLU

namespace Json

universe u

/-- The outcome of reading at the front of a text. -/
inductive Reading (β : Type u) (s : List Char) where
  /-- A complete reading and the rest of the text, which is shorter. -/
  | complete (result : β) (rest : List Char) (shorter : rest.length < s.length)
  /-- The text stopped being JSON inside the result. -/
  | cut (result : β)

namespace Reading

variable {β : Type u} {γ : Type u} {s t : List Char}

/-- The same reading with its result changed by `f`. -/
def map (f : β → γ) : Reading β s → Reading γ s
  | .complete result rest h => .complete (f result) rest h
  | .cut result => .cut (f result)

/-- A reading of a shorter text `t` as one of a longer text `s`. -/
def widen (h : t.length ≤ s.length) : Reading β t → Reading β s
  | .complete result rest shorter => .complete result rest (Nat.lt_of_lt_of_le shorter h)
  | .cut result => .cut result

end Reading

/-! ## Blanks and words -/

/-- The character `c` may stand between values. -/
def isBlank (c : Char) : Bool := c == ' ' || c == '\n' || c == '\t' || c == '\r'

/-- The text `s` from its first character that is no blank. -/
def skipBlanks (s : List Char) : List Char := s.dropWhile isBlank

/-- The text `t` behind the first character `c` of `s` that is no blank is shorter than `s`. -/
theorem length_lt_of_skipBlanks {s t : List Char} {c : Char} (h : skipBlanks s = c :: t) :
    t.length < s.length := by
  have hle : (skipBlanks s).length ≤ s.length := (List.dropWhile_sublist isBlank).length_le
  rw [h] at hle
  exact hle

/-- The text behind a word, or the fault at the first character that is not that of the word. -/
def skipWord : List Char → List Char → Except Fault (List Char)
  | [], s => .ok s
  | _ :: _, [] => .error (.stop .ended)
  | w :: word, c :: s => if w = c then skipWord word s else .error (.stop .malformed)

/-- What `skipWord` leaves of `s` is no longer than `s`. -/
theorem length_skipWord_le {word s rest : List Char} (h : skipWord word s = .ok rest) :
    rest.length ≤ s.length := by
  induction word generalizing s with
  | nil =>
    cases h
    exact Nat.le_refl _
  | cons w word ih =>
    cases s with
    | nil => cases h
    | cons c s =>
      rw [skipWord] at h
      split at h
      · exact Nat.le_succ_of_le (ih h)
      · cases h

/-- The `value` that `word` stands for, its first character already read. -/
def readWord {ν : Type u} (word : List Char) (value : Tree ν) (c : Char) (s : List Char) :
    Reading (Tree ν) (c :: s) :=
  match h : skipWord word s with
  | .ok rest => .complete value rest (Nat.lt_succ_of_le (length_skipWord_le h))
  | .error fault => .cut (.cut fault)

end Json

end PivotedLU
