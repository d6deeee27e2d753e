import PivotedLU.Json.Number

/-!
# Reading Numbers

A number is a sign, digits that start with zero only if there are no others, and perhaps a
point with digits and an exponent with digits. A text that ends where a digit is wanted ends
inside the number; any other character there is malformed.

## Main definitions

* `Json.readDigits`: at least one digit.
* `Json.readWhole`, `Json.readFraction`, `Json.readExponent`: the parts of a number.
* `Json.readNumber`: a number.

## Main results

* `Json.length_lt_of_readNumber`: a number takes at least one character.
-/

namespace PivotedLU

namespace Json

/-- The fault where a digit is wanted and there is none. -/
def digitFault : List Char → Fault
  | [] => .numberEnded
  | _ :: _ => .stop .malformed

/-- The digits at the front of `s` and what follows them. -/
def spanDigits (s : List Char) : List Char × List Char :=
  (s.takeWhile Char.isDigit, s.dropWhile Char.isDigit)

theorem length_spanDigits (s : List Char) :
    (spanDigits s).1.length + (spanDigits s).2.length = s.length := by
  rw [← List.length_append]
  exact congrArg List.length List.takeWhile_append_dropWhile

/-- At least one digit at the front of `s`, and what follows the digits. -/
def readDigits (s : List Char) : Except Fault (List Char × List Char) :=
  match spanDigits s with
  | ([], rest) => .error (digitFault rest)
  | (c :: digits, rest) => .ok (c :: digits, rest)

/-- A `readDigits` that succeeds has taken a digit of `s`. -/
theorem length_lt_of_readDigits {s digits rest : List Char}
    (h : readDigits s = .ok (digits, rest)) : rest.length < s.length := by
  have hspan := length_spanDigits s
  unfold readDigits at h
  split at h
  · cases h
  · next heq =>
    cases h
    rw [heq] at hspan
    simp only [List.length_cons] at hspan
    omega

/-- The digits of `s` before the point: a zero alone, or digits that do not start with zero. -/
def readWhole (s : List Char) : Except Fault (List Char × List Char) :=
  match readDigits s with
  | .ok ('0' :: _ :: _, _) => .error (.stop .malformed)
  | outcome => outcome

/-- A `readWhole` that succeeds has taken a digit of `s`. -/
theorem length_lt_of_readWhole {s digits rest : List Char}
    (h : readWhole s = .ok (digits, rest)) : rest.length < s.length := by
  unfold readWhole at h
  split at h
  · cases h
  · exact length_lt_of_readDigits h

/-- The digits behind a point, if there is one. -/
def readFraction : List Char → Except Fault (List Char × List Char)
  | '.' :: s => readDigits s
  | s => .ok ([], s)

/-- What `readFraction` leaves of `s` is no longer than `s`. -/
theorem length_le_of_readFraction {s digits rest : List Char}
    (h : readFraction s = .ok (digits, rest)) : rest.length ≤ s.length := by
  unfold readFraction at h
  split at h
  · exact Nat.le_succ_of_le (Nat.le_of_lt (length_lt_of_readDigits h))
  · cases h
    exact Nat.le_refl _

/-- The number with the decimal `digits`. -/
def ofDigits (digits : List Char) : Nat :=
  digits.foldl (fun n c => 10 * n + digitValue c) 0

/-- The sign that may stand before the digits of an exponent, and what follows it. -/
def readSign : List Char → Bool × List Char
  | '+' :: s => (false, s)
  | '-' :: s => (true, s)
  | s => (false, s)

/-- What `readSign` leaves of `s` is no longer than `s`. -/
theorem length_readSign_le (s : List Char) : (readSign s).2.length ≤ s.length := by
  unfold readSign
  split
  · exact Nat.le_succ _
  · exact Nat.le_succ _
  · exact Nat.le_refl _

/-- The exponent, if there is one. -/
def readExponent : List Char → Except Fault (Option Int × List Char)
  | c :: s =>
    if c = 'e' ∨ c = 'E' then
      let (negative, t) := readSign s
      (readDigits t).map fun (digits, rest) =>
        let e : Int := ofDigits digits
        (some (if negative then -e else e), rest)
    else .ok (none, c :: s)
  | [] => .ok (none, [])

/-- What `readExponent` leaves of `s` is no longer than `s`. -/
theorem length_le_of_readExponent {s rest : List Char} {exponent? : Option Int}
    (h : readExponent s = .ok (exponent?, rest)) : rest.length ≤ s.length := by
  unfold readExponent at h
  split at h
  · next c s =>
    split at h
    · have hsign := length_readSign_le s
      cases hd : readDigits (readSign s).2 with
      | error fault => simp [hd, Except.map] at h
      | ok found =>
        obtain ⟨digits, rest⟩ := found
        have hlt := length_lt_of_readDigits hd
        simp only [hd, Except.map, Except.ok.injEq, Prod.mk.injEq] at h
        rw [← h.2, List.length_cons]
        omega
    · cases h
      exact Nat.le_refl _
  · cases h
    exact Nat.le_refl _

/-- The number at the front of `s` without its sign, and the text behind it. -/
def readMagnitude (negative : Bool) (s : List Char) : Except Fault (Literal × List Char) :=
  match readWhole s with
  | .error fault => .error fault
  | .ok (whole, s) =>
    match readFraction s with
    | .error fault => .error fault
    | .ok (fraction, s) =>
      match readExponent s with
      | .error fault => .error fault
      | .ok (exponent?, rest) => .ok (⟨negative, whole, fraction, exponent?⟩, rest)

/-- A `readMagnitude` that succeeds has taken a character of `s`. -/
theorem length_lt_of_readMagnitude {negative : Bool} {s rest : List Char} {literal : Literal}
    (h : readMagnitude negative s = .ok (literal, rest)) : rest.length < s.length := by
  unfold readMagnitude at h
  split at h
  · cases h
  · next hw =>
    split at h
    · cases h
    · next hf =>
      split at h
      · cases h
      · next he =>
        cases h
        have := length_lt_of_readWhole hw
        have := length_le_of_readFraction hf
        have := length_le_of_readExponent he
        omega

/-- A number, and the text behind it. -/
def readNumber : List Char → Except Fault (Literal × List Char)
  | '-' :: s => readMagnitude true s
  | s => readMagnitude false s

/-- A `readNumber` that succeeds has taken a character of `s`, so that reading a list of them
ends. -/
theorem length_lt_of_readNumber {s rest : List Char} {literal : Literal}
    (h : readNumber s = .ok (literal, rest)) : rest.length < s.length := by
  unfold readNumber at h
  split at h
  · exact Nat.lt_succ_of_lt (length_lt_of_readMagnitude h)
  · exact length_lt_of_readMagnitude h

end Json

end PivotedLU
