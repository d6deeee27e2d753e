import PivotedLU.Binary.Basic
import PivotedLU.Decimal.Layout

/-!
# Decimal Text of Binary Floats

Four ways to write a float. Three of them show its shortest decimal: the one with the fewest
digits that is read back as the same float, the nearest of these, the upper of two equally near.
The fourth shows the exact value with a given number of places.

## Main definitions

* `Binary.shortest`: the shortest decimal of a finite magnitude.
* `Binary.plain`: positional, without needless places: `1`, `0.1`, `100000`.
* `Binary.fixed`: the exact value rounded to a number of places, a half to the even digit.
* `Binary.scientific`: one digit before the point: `1e-10`, `1.5e0`.
* `Binary.literal`: recognisable as a float: `1.0` and `0.1` between `10 ^ (-4)` and
  `10 ^ 16`, and scientific outside.
-/

namespace PivotedLU

open scoped StructuralPowers

namespace Binary

variable {F : Format}

/-- A magnitude of `quanta` in steps of the spacing at it. -/
private def significand (F : Format) (quanta : Nat) : Nat := quanta / F.ulp quanta

/-- The numbers that round to a positive magnitude of `quanta`, in quarters of the last place of its
finite decimal expansion. Below a power of two the spacing is halved, unless it is already the
least. The ends round to the magnitude exactly if its significand is even. -/
def roundingWindow (F : Format) (quanta : Nat) : RoundingWindow :=
  let m := significand F quanta
  let e := F.ulpExponent quanta
  let factor := if e < F.scale then 5 ^ (F.scale - e) else 2 ^ (e - F.scale)
  let halved := m = 2 ^ (F.precision - 1) ∧ 0 < e
  { low := (4 * m - if halved then 1 else 2) * factor
    value := 4 * m * factor
    high := (4 * m + 2) * factor
    closed := m % 2 = 0 }

/-- The shortest decimal of a magnitude of `quanta`. -/
def shortest (F : Format) (quanta : Nat) : Decimal :=
  if quanta = 0 then
    ⟨0, 0⟩
  else
    let (power, steps) := (roundingWindow F quanta).shortest 4
    ⟨steps, (power : Int) - (F.scale - F.ulpExponent quanta : Nat)⟩

/-- The `text` under the sign `negative`. -/
private def withSign (negative : Bool) (text : List Char) : String :=
  String.ofList (if negative then '-' :: text else text)

/-- A finite value is written as `layout` says, the others by name. -/
private def written (layout : Nat → List Char) : Binary F → String
  | .nan => "NaN"
  | .infinity negative => withSign negative ['i', 'n', 'f']
  | .finite negative quanta _ => withSign negative (layout quanta)

/-- The shortest decimal of `x`, positionally. -/
def plain (x : Binary F) : String :=
  written (fun quanta => (shortest F quanta).positional) x

/-- The shortest decimal of `x` with one digit before the point. -/
def scientific (x : Binary F) : String :=
  written (fun quanta => (shortest F quanta).scientific) x

/-- The exact value with `places` digits behind the point. -/
def fixed (places : Nat) (x : Binary F) : String :=
  written (fun quanta =>
    Decimal.fixedPlaces (roundHalfEven (quanta * 10 ^ places) (2 ^ F.scale)) places) x

/-- The least magnitude that `literal` writes positionally. -/
def leastPositional : Binary F := ofQuotient false (2 ^ F.scale) (10 ^ (4 : Nat))

/-- The least magnitude from which `literal` is scientific again. -/
def leastScientific : Binary F := ofNat (10 ^ (16 : Nat))

/-- The shortest decimal of `x` in a form that shows that it is a float. -/
def literal (x : Binary F) : String :=
  let isPositional (quanta : Nat) (magnitude : Binary F) : Bool :=
    quanta = 0 || (!below magnitude leastPositional && below magnitude leastScientific)
  let layout (quanta : Nat) : List Char :=
    let decimal := shortest F quanta
    if isPositional quanta (abs x) then
      if decimal.hasPlaces then decimal.positional else decimal.positional ++ ['.', '0']
    else
      decimal.scientific
  written layout x

end Binary

end PivotedLU
