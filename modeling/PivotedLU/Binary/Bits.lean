import PivotedLU.Binary.Basic

/-!
# Bit Patterns of Binary Floats

The interchange encoding: from the most significant bit a sign, the exponent field and the
fraction. A magnitude is encoded as one number, in which a carry out of the fraction moves the
exponent on, so that the encodings of magnitudes are ordered as the magnitudes are.

## Main definitions

* `Binary.ofBits`: the value that a bit pattern encodes.
* `Binary.toBits`: the bit pattern of a value; what is not a number has many patterns and
  gets none.
-/

namespace PivotedLU

open scoped StructuralPowers

namespace Binary

variable {F : Format}

/-- The value that the `F.width` low bits of a number encode. -/
def ofBits (bits : Nat) : Binary F :=
  let fractionBits := F.precision - 1
  let negative := bits.testBit (F.width - 1)
  let exponent := bits / 2 ^ fractionBits % 2 ^ F.exponentBits
  let fraction := bits % 2 ^ fractionBits
  if exponent = 2 ^ F.exponentBits - 1 then
    if fraction = 0 then .infinity negative else .nan
  else if exponent = 0 then
    ofQuotient negative fraction 1
  else
    ofQuotient negative ((2 ^ fractionBits + fraction) * 2 ^ (exponent - 1)) 1

/-- The bits of a magnitude of `quanta`: for a normal one, the leading bit of its significand adds
one to the exponent field. -/
def magnitudeBits (F : Format) (quanta : Nat) : Nat :=
  F.ulpExponent quanta * 2 ^ (F.precision - 1) + quanta / F.ulp quanta

/-- The encoding of a value, if it has only one, as all but `nan` have. -/
def toBits : Binary F → Option Nat
  | .nan => none
  | .infinity negative =>
    some (signBit negative + (2 ^ F.exponentBits - 1) * 2 ^ (F.precision - 1))
  | .finite negative quanta _ => some (signBit negative + magnitudeBits F quanta)
where
  signBit (negative : Bool) : Nat := if negative then 2 ^ (F.width - 1) else 0

end Binary

end PivotedLU
