import PivotedLU.Binary.Basic
import PivotedLU.Json.Tree

/-!
# Numbers of JSON

A number is kept as it was written until it is known what it is read as. An integer of at most
64 bits, written without a point and without an exponent, is rounded once, into the format of
the reader. Every other number is read in double precision by a quick rule and then rounded into
the format: as many leading digits as fit in 64 bits are rounded to one float, which is then
multiplied or divided by one power of ten. A number whose product overflows is not read at all.

## Main definitions

* `Json.Literal`: a number as written.
* `Json.Literal.significant`: its leading digits and a power of ten.
* `Json.scaled`: a significand times a power of ten, by the quick rule.
* `Json.Leaf`, `Json.Literal.read`: a number as a float and, where it is one, as a natural.
-/

namespace PivotedLU

open scoped StructuralPowers

namespace Json

/-- A number as it was written. -/
structure Literal where
  negative : Bool
  /-- The digits before the point. -/
  whole : List Char
  /-- The digits behind the point, empty without a point. -/
  fraction : List Char
  /-- The exponent, if one is written. -/
  exponent? : Option Int
deriving DecidableEq

/-- A number as a reader sees it: a float and, if it is written as a natural number of at most
64 bits, that number. -/
structure Leaf (F : Format) where
  value : Binary F
  natural? : Option Nat
deriving DecidableEq

namespace Leaf

variable {F : Format}

/-- The natural number `n` as a leaf. -/
def ofNat (n : Nat) : Leaf F := ⟨Binary.ofNat n, some n⟩

/-- The float `x` as a leaf. -/
def ofValue (x : Binary F) : Leaf F := ⟨x, none⟩

end Leaf

/-- The value of the decimal digit `c`. -/
def digitValue (c : Char) : Nat := c.toNat - '0'.toNat

/-- The largest natural number of 64 bits. -/
def maxNatural : Nat := 2 ^ (64 : Nat) - 1

/-- The significand `n` taken up by as many digits as fit in 64 bits, and the digits that are
left from the first that does not fit. -/
def takeDigits (n : Nat) : List Char → Nat × List Char
  | [] => (n, [])
  | c :: rest =>
    let next := 10 * n + digitValue c
    if next ≤ maxNatural then takeDigits next rest else (n, c :: rest)

namespace Literal

/-- The number `l` is written without a point and without an exponent. -/
def isInteger (l : Literal) : Bool :=
  l.fraction.isEmpty && l.exponent?.isNone

/-- The leading digits of `l` as a number of at most 64 bits, and the power of ten that it stands
before. Digits of the whole part that do not fit only move the power; so do those of the fraction
that fit, downwards. -/
def significant (l : Literal) : Nat × Int :=
  let (whole, dropped) := takeDigits 0 l.whole
  let (all, unread) := takeDigits whole l.fraction
  (all, dropped.length - (l.fraction.length - unread.length : Nat) + l.exponent?.getD 0)

end Literal

/-- The double nearest to `10 ^ e`. -/
def powerOfTen (e : Nat) : Binary64 := Binary.ofNat (10 ^ e)

/-- Division of `x` by `10 ^ e`. Powers beyond the largest that is a double are divided off first,
one largest at a time, until nothing is left of the number. -/
def dividedByPower (x : Binary64) (e : Nat) : Binary64 :=
  if e ≤ 308 then
    Binary.div x (powerOfTen e)
  else if Binary.equals x 0 then
    x
  else
    dividedByPower (Binary.div x (powerOfTen 308)) (e - 308)
termination_by e
decreasing_by omega

/-- A `significand` times a power of ten, the significand, the power and the result each rounded
once; `none` if it overflows. -/
def scaled (significand : Nat) : Int → Option Binary64
  | .ofNat e =>
    let x : Binary64 := Binary.ofNat significand
    if e ≤ 308 then
      let product := Binary.mul x (powerOfTen e)
      if product.isFinite then some product else none
    else if Binary.equals x 0 then
      some x
    else
      none
  | .negSucc e => some (dividedByPower (Binary.ofNat significand) (e + 1))

namespace Literal

variable {F : Format}

/-- The number `x` under the sign of `l`. -/
private def signed (l : Literal) (x : Binary F) : Binary F :=
  if l.negative then Binary.neg x else x

/-- The number `l` as a leaf; `none` if it overflows double precision. A negative integer is rounded
once if it has at most 63 bits and a sign; negative zero is no integer. -/
def read? (l : Literal) : Option (Leaf F) :=
  let (n, dropped) := takeDigits 0 l.whole
  if l.isInteger && dropped.isEmpty then
    if !l.negative then
      some (Leaf.ofNat n)
    else if 0 < n ∧ n ≤ 2 ^ (63 : Nat) then
      some (Leaf.ofValue (Binary.neg (Binary.ofNat n)))
    else
      some (Leaf.ofValue (Binary.neg (Binary.ofNat n : Binary64)).convert)
  else
    let (significand, power) := l.significant
    (scaled significand power).map fun x => Leaf.ofValue (l.signed x).convert

/-- The number `l` as a leaf. A number that overflows is malformed. -/
def read (l : Literal) : Except Stop (Leaf F) :=
  match l.read? with
  | some leaf => .ok leaf
  | none => .error .malformed

end Literal

end Json

end PivotedLU
