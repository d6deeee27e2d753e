import PivotedLU.Json.Reading.Basic

/-!
# Reading Strings

A string is read piece by piece up to its quotation mark. Escapes are taken apart, but code
units are not yet paired, and no character below the blank may stand for itself.

## Main definitions

* `Json.codeUnit?`, `Json.shortEscape?`: what stands behind a backslash.
* `Json.readString`: a string whose first quotation mark has been read.
-/

namespace PivotedLU

namespace Json

/-- The value of the hexadecimal digit `c`. -/
def hexValue? (c : Char) : Option Nat :=
  if '0' ≤ c ∧ c ≤ '9' then some (c.toNat - '0'.toNat)
  else if 'a' ≤ c ∧ c ≤ 'f' then some (c.toNat - 'a'.toNat + 10)
  else if 'A' ≤ c ∧ c ≤ 'F' then some (c.toNat - 'A'.toNat + 10)
  else none

/-- The code unit of the hexadecimal digits `a`, `b`, `c` and `d`. -/
def codeUnit? (a b c d : Char) : Option Nat := do
  let a ← hexValue? a
  let b ← hexValue? b
  let c ← hexValue? c
  let d ← hexValue? d
  some (((a * 16 + b) * 16 + c) * 16 + d)

/-- The fault at an escape that lacks its four digits: the end of the text if fewer than four bytes
are left in `s`, whatever they are. -/
def codeUnitFault (s : List Char) : Fault :=
  if (s.take 4).foldl (fun bytes c => bytes + c.utf8Size) 0 < 4 then .stop .ended
  else .stop .malformed

/-- The character that a short escape stands for. -/
def shortEscape? : Char → Option Char
  | '"' => some '"'
  | '\\' => some '\\'
  | '/' => some '/'
  | 'b' => some '\x08'
  | 'f' => some '\x0c'
  | 'n' => some '\n'
  | 'r' => some '\r'
  | 't' => some '\t'
  | _ => none

/-- The string whose quotation mark has been read, one piece after the other. -/
def readString : (s : List Char) → Reading Text s
  | [] => .cut ⟨[], some (.stop .ended)⟩
  | '"' :: rest => .complete ⟨[], none⟩ rest (Nat.lt_succ_self _)
  | '\\' :: 'u' :: a :: b :: c :: d :: rest =>
    match codeUnit? a b c d with
    | some code =>
      ((readString rest).map fun t => { t with pieces := .unit code :: t.pieces }).widen
        (by simp only [List.length_cons]; omega)
    | none => .cut ⟨[], some (codeUnitFault (a :: b :: c :: d :: rest))⟩
  | '\\' :: 'u' :: rest => .cut ⟨[], some (codeUnitFault rest)⟩
  | '\\' :: c :: rest =>
    match shortEscape? c with
    | some e =>
      ((readString rest).map fun t => { t with pieces := .char e :: t.pieces }).widen
        (by simp only [List.length_cons]; omega)
    | none => .cut ⟨[], some (.stop .malformed)⟩
  | ['\\'] => .cut ⟨[], some (.stop .ended)⟩
  | c :: rest =>
    if c.toNat < 0x20 then .cut ⟨[], some (.stop .malformed)⟩
    else
      ((readString rest).map fun t => { t with pieces := .char c :: t.pieces }).widen
        (Nat.le_succ _)

end Json

end PivotedLU
