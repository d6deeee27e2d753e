import PivotedLU.Json.Reading.Number
import PivotedLU.Json.Reading.Text

/-!
# JSON Documents

A text is read from left to right into a tree. Where it stops being JSON the tree is cut and the
rest of the text is not looked at. Reading decides nothing about the meaning of a value.

## Main definitions

* `Json.readValue`, `Json.readItems`, `Json.readFields`: the readers of values.
* `Json.Document`, `Json.Document.ofString`: a whole text as a tree and what follows it.
-/

namespace PivotedLU

namespace Json

universe u

/-- What has been read of an array or an object: items or fields, and where it was cut. -/
abbrev Members (β : Type u) := List β × Option Fault

/-- The member `first` put before those that follow it. -/
def Members.cons {β : Type u} (first : β) (rest : Members β) : Members β :=
  (first :: rest.1, rest.2)

mutual

/-- A value at the front of `s`, blanks before it included. -/
def readValue (s : List Char) : Reading (Tree Literal) s :=
  match h : skipBlanks s with
  | [] => .cut (.cut (.stop .ended))
  | c :: t =>
    have hlen := length_lt_of_skipBlanks h
    Reading.widen (show (c :: t).length ≤ s.length from hlen) <|
      if c = 'n' then readWord ['u', 'l', 'l'] .null c t
      else if c = 't' then readWord ['r', 'u', 'e'] (.bool true) c t
      else if c = 'f' then readWord ['a', 'l', 's', 'e'] (.bool false) c t
      else if c = '"' then
        ((readString t).map Tree.string).widen (Nat.le_succ _)
      else if c = '[' then
        ((readItems true t).map fun m => Tree.array m.1 m.2).widen (Nat.le_succ _)
      else if c = '{' then
        ((readFields true t).map fun m => Tree.object m.1 m.2).widen (Nat.le_succ _)
      else if c = '-' ∨ c.isDigit then
        match h' : readNumber (c :: t) with
        | .ok (literal, rest) => .complete (.number literal) rest (length_lt_of_readNumber h')
        | .error fault => .cut (.cut fault)
      else .cut (.cut (.stop .malformed))
termination_by 2 * s.length

/-- The items of an array up to its closing bracket. `first` says that none has been read; a
comma has been read if not. -/
def readItems (first : Bool) (s : List Char) : Reading (Members (Tree Literal)) s :=
  match h : skipBlanks s with
  | [] =>
    .cut (if first then ([], some (.stop .ended)) else ([.cut (.stop .ended)], none))
  | c :: t =>
    have hlen := length_lt_of_skipBlanks h
    if c = ']' ∧ first then .complete ([], none) t hlen
    else
      match readValue s with
      | .cut item => .cut ([item], none)
      | .complete item rest hrest =>
        match h' : skipBlanks rest with
        | [] => .cut ([item], some (.stop .ended))
        | d :: u =>
          have hu := Nat.lt_trans (length_lt_of_skipBlanks h') hrest
          if d = ']' then .complete ([item], none) u hu
          else if d = ',' then
            ((readItems false u).map (Members.cons item)).widen (Nat.le_of_lt hu)
          else .cut ([item], some (.stop .malformed))
termination_by 2 * s.length + 1

/-- The fields of an object up to its closing brace. `first` says that none has been read; a
comma has been read if not. -/
def readFields (first : Bool) (s : List Char) : Reading (Members (Text × Tree Literal)) s :=
  match h : skipBlanks s with
  | [] => .cut ([], some (.stop .ended))
  | c :: t =>
    have hlen := length_lt_of_skipBlanks h
    if c = '}' ∧ first then .complete ([], none) t hlen
    else if c = '"' then
      match readString t with
      | .cut key => .cut ([(key, .cut (.stop .malformed))], none)
      | .complete key afterKey hkey =>
        match h' : skipBlanks afterKey with
        | [] => .cut ([(key, .cut (.stop .ended))], none)
        | colon :: u =>
          have hu := Nat.lt_trans (length_lt_of_skipBlanks h') (Nat.lt_trans hkey hlen)
          if colon = ':' then
            match readValue u with
            | .cut value => .cut ([(key, value)], none)
            | .complete value rest hrest =>
              match h'' : skipBlanks rest with
              | [] => .cut ([(key, value)], some (.stop .ended))
              | d :: v =>
                have hv := Nat.lt_trans (length_lt_of_skipBlanks h'') (Nat.lt_trans hrest hu)
                if d = '}' then .complete ([(key, value)], none) v hv
                else if d = ',' then
                  ((readFields false v).map (Members.cons (key, value))).widen
                    (Nat.le_of_lt hv)
                else .cut ([(key, value)], some (.stop .malformed))
          else .cut ([(key, .cut (.stop .malformed))], none)
    else .cut ([], some (.stop .malformed))
termination_by 2 * s.length + 1

end

/-! ## Documents -/

/-- A whole text: its value, and whether anything but blanks follows it. -/
structure Document where
  value : Tree Literal
  trailing : Bool

/-- The `text` as a document. -/
def Document.ofString (text : String) : Document :=
  match readValue text.toList with
  | .complete value rest _ => ⟨value, !(skipBlanks rest).isEmpty⟩
  | .cut value => ⟨value, false⟩

end Json

end PivotedLU
