import PivotedLU.Decimal.Shortest

/-!
# Layouts of Decimals

How a decimal is laid out as text: positionally, with a fixed number of places, or with one
digit before the point and a power of ten. The layouts only move the point and add zeros.

## Main definitions

* `Decimal.positional`: every digit in its place, no exponent.
* `Decimal.scientific`: one digit, the point, the rest, and the exponent.
* `Decimal.fixedPlaces`: a number of units of `10 ^ (-places)` with exactly so many places.
-/

namespace PivotedLU

namespace Decimal

/-- The decimal digits of `n`. -/
def digits (n : Nat) : List Char := Nat.toDigits 10 n

/-- A point after the digits of `whole`, followed by those of `part`, if there are any. -/
private def pointed (whole part : List Char) : List Char :=
  if part.isEmpty then whole else whole ++ '.' :: part

/-- The digits of `n` with the last `places` of them behind a point. A zero is put before the
point if no digit is left there. -/
def fixedPlaces (n places : Nat) : List Char :=
  let ds := digits n
  let padded := List.replicate (places + 1 - ds.length) '0' ++ ds
  pointed (padded.take (padded.length - places)) (padded.drop (padded.length - places))

/-- The decimal `d` with every digit in its place. -/
def positional (d : Decimal) : List Char :=
  match d.exponent with
  | .ofNat zeros =>
    if d.coefficient = 0 then ['0'] else digits d.coefficient ++ List.replicate zeros '0'
  | .negSucc k => fixedPlaces d.coefficient (k + 1)

/-- The decimal `d` has digits behind the point when it is laid out positionally. -/
def hasPlaces (d : Decimal) : Bool := decide (d.exponent < 0)

/-- The decimal with one digit before the point and its power of ten behind an `e`. -/
def scientific (d : Decimal) : List Char :=
  let ds := digits d.coefficient
  let exponent := d.exponent + (ds.length - 1 : Nat)
  pointed (ds.take 1) (ds.drop 1) ++ 'e' :: exponentDigits exponent
where
  exponentDigits : Int → List Char
    | .ofNat e => digits e
    | .negSucc e => '-' :: digits (e + 1)

end Decimal

end PivotedLU
