/-!
# Trees of JSON

A JSON value as a tree. The number leaves hold whatever the numbers were read as. A tree may be
*cut*: where its text stops being JSON, the tree ends with the fault that was found there, and
everything before it is kept. A consumer that goes through a tree from left to right therefore
meets the first of all faults, be it of the text or of its meaning.

## Main definitions

* `Json.Fault`, `Json.Stop`: where and why a text stops being JSON.
* `Json.Text`, `Json.Text.read`: a string with its escapes, and its characters.
* `Json.Tree`: a value.
* `Json.Tree.skip`: going through a value that is not used.
-/

namespace PivotedLU

namespace Json

universe u

/-- Why a text stops being JSON. -/
inductive Stop where
  /-- A character that cannot stand where it stands. -/
  | malformed
  /-- The end of the text. -/
  | ended
deriving DecidableEq

/-- A place where a text stops being JSON. -/
inductive Fault where
  | stop (reason : Stop)
  /-- The text ends inside a number. -/
  | numberEnded
deriving DecidableEq

/-- A number that is wanted ends too early when the text ends inside it. -/
def Fault.whenRead : Fault → Stop
  | .stop reason => reason
  | .numberEnded => .ended

/-- A number that is only passed over is malformed when the text ends inside it. -/
def Fault.whenSkipped : Fault → Stop
  | .stop reason => reason
  | .numberEnded => .malformed

/-! ## Strings -/

/-- A piece of a string. -/
inductive Piece where
  /-- A character, written as itself or by a short escape. -/
  | char (c : Char)
  /-- A UTF-16 code unit, written with four hexadecimal digits. -/
  | unit (code : Nat)
deriving DecidableEq

/-- A string as it was written. -/
structure Text where
  pieces : List Piece
  /-- The place where it was cut; none if it ends with its quotation mark. -/
  cut? : Option Fault
deriving DecidableEq

namespace Text

/-- The unit `code` is the first of a pair. -/
def isLeading (code : Nat) : Bool := 0xD800 ≤ code && code ≤ 0xDBFF

/-- The unit `code` is the second of a pair. -/
def isTrailing (code : Nat) : Bool := 0xDC00 ≤ code && code ≤ 0xDFFF

/-- The character beyond the basic plane that the code units `first` and `second` stand for. -/
def paired (first second : Nat) : Char :=
  Char.ofNat (0x10000 + (first - 0xD800) * 0x400 + (second - 0xDC00))

/-- The end of a string that was cut or not. -/
def finish (cut? : Option Fault) : Except Stop Unit :=
  match cut? with
  | some fault => .error fault.whenRead
  | none => .ok ()

/-- The characters of pieces. Code units must be paired, and the first that is not stops the reading
there; at the end stands `cut?`. -/
def readPieces (cut? : Option Fault) : List Piece → Except Stop (List Char)
  | [] => (finish cut?).map fun _ => []
  | .char c :: rest => (readPieces cut? rest).map (c :: ·)
  | .unit first :: rest =>
    if isTrailing first then .error .malformed
    else if isLeading first then
      match rest with
      | .unit second :: rest =>
        if isTrailing second then
          (readPieces cut? rest).map (paired first second :: ·)
        else .error .malformed
      | .char _ :: _ => .error .malformed
      | [] => (finish cut?).bind fun _ => .error .malformed
    else (readPieces cut? rest).map (Char.ofNat first :: ·)

/-- The characters of `t`. -/
def read (t : Text) : Except Stop String :=
  (readPieces t.cut? t.pieces).map String.ofList

/-- Going through a string `t` that is not used: its code units need no pairs. -/
def skip (t : Text) : Except Stop Unit :=
  match t.cut? with
  | some fault => .error fault.whenSkipped
  | none => .ok ()

/-- The string `s` written with its own characters. -/
def ofString (s : String) : Text :=
  ⟨s.toList.map .char, none⟩

end Text

/-! ## Values -/

/-- A value whose number leaves are `ν`. -/
inductive Tree (ν : Type u) where
  /-- The text stops being JSON where a value would stand. -/
  | cut (fault : Fault)
  | null
  | bool (value : Bool)
  | number (value : ν)
  | string (text : Text)
  /-- The items, and the place where the array was cut after them. -/
  | array (items : List (Tree ν)) (cut? : Option Fault)
  /-- The fields in order, and the place where the object was cut after them. -/
  | object (fields : List (Text × Tree ν)) (cut? : Option Fault)

namespace Tree

variable {ν : Type u}

/-- The end of a list of items or fields. -/
def skipEnd : Option Fault → Except Stop Unit
  | some fault => .error fault.whenSkipped
  | none => .ok ()

mutual

/-- Going through a value that is not used, up to its first fault. -/
def skip : Tree ν → Except Stop Unit
  | .cut fault => .error fault.whenSkipped
  | .null => .ok ()
  | .bool _ => .ok ()
  | .number _ => .ok ()
  | .string text => text.skip
  | .array items cut? => do
    skipItems items
    skipEnd cut?
  | .object fields cut? => do
    skipFields fields
    skipEnd cut?

/-- Going through items. -/
def skipItems : List (Tree ν) → Except Stop Unit
  | [] => .ok ()
  | item :: rest => do
    skip item
    skipItems rest

/-- Going through fields. -/
def skipFields : List (Text × Tree ν) → Except Stop Unit
  | [] => .ok ()
  | (key, value) :: rest => do
    key.skip
    skip value
    skipFields rest

end

end Tree

end Json

end PivotedLU
