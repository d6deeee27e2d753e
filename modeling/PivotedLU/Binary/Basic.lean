import PivotedLU.Scalar
import PivotedLU.Binary.Format

/-!
# Binary Floats

The values of a binary format and their arithmetic. Each operation computes its exact result as
a quotient of naturals and rounds it once, to nearest with ties to even. There is one value that
is not a number; it carries neither sign nor payload. Zero has a sign.

Every value has exactly one representation, so equality of values as data is the finest
comparison; `Binary.equals` is the numeric one, which identifies the zeros and sets the value
that is not a number apart from everything.

## Main definitions

* `Binary`: the values of a format.
* `Binary.ofQuotient`: a sign and a quotient of naturals, rounded into the format.
* `Binary.convert`: a value of one format rounded into another.
* the instance `Scalar (Binary F)`.
-/

namespace PivotedLU

open scoped StructuralPowers

/-- A value of a binary format. -/
inductive Binary (F : Format) where
  /-- Not a number. -/
  | nan
  /-- An infinity with its sign. -/
  | infinity (negative : Bool)
  /-- A finite value: its sign and its magnitude in quanta of the format. -/
  | finite (negative : Bool) (quanta : Nat) (represents : F.Represents quanta)
deriving DecidableEq

namespace Binary

variable {F : Format}

/-! ## Values -/

/-- The zero under the sign `negative`. -/
def zero (negative : Bool) : Binary F :=
  .finite negative 0 F.represents_zero

/-- The number one, which is `2 ^ F.scale` quanta. -/
def one : Binary F :=
  .finite false (2 ^ F.scale) F.represents_one

instance : Zero (Binary F) := ⟨zero false⟩

instance : One (Binary F) := ⟨one⟩

instance : Inhabited (Binary F) := ⟨0⟩

/-- The quotient `num / den` of quanta under a sign, rounded to nearest with ties to even;
an infinity if that exceeds the largest finite magnitude. -/
def ofQuotient (negative : Bool) (num den : Nat) : Binary F :=
  if h : F.nearest num den ≤ F.largest then
    .finite negative (F.nearest num den) ⟨h, F.ulp_dvd_nearest num den⟩
  else
    .infinity negative

/-- The natural number `n`, rounded into the format. -/
def ofNat (n : Nat) : Binary F :=
  ofQuotient false (n * 2 ^ F.scale) 1

/-! ## Classes and signs -/

/-- The value is not a number. -/
def isNaN : Binary F → Bool
  | .nan => true
  | _ => false

/-- The value is a finite number, neither `nan` nor an `infinity`. -/
def isFinite : Binary F → Bool
  | .finite .. => true
  | _ => false

/-- The value with its sign turned. -/
def neg : Binary F → Binary F
  | .nan => .nan
  | .infinity negative => .infinity !negative
  | .finite negative quanta h => .finite (!negative) quanta h

/-- The value without its sign. -/
def abs : Binary F → Binary F
  | .nan => .nan
  | .infinity _ => .infinity false
  | .finite _ quanta h => .finite false quanta h

/-- A magnitude of `quanta` under the sign `negative`, as an integer number of quanta. -/
def signed (negative : Bool) (quanta : Nat) : Int :=
  if negative then -(quanta : Int) else quanta

/-! ## Arithmetic -/

/-- The rounded sum. An exact sum of zero is positive, unless both terms are negative zeros;
infinities of different signs have the sum `nan`. -/
def add : Binary F → Binary F → Binary F
  | .nan, _ => .nan
  | _, .nan => .nan
  | .infinity a, .infinity b => if a = b then .infinity a else .nan
  | .infinity a, .finite .. => .infinity a
  | .finite .., .infinity b => .infinity b
  | .finite a x _, .finite b y _ =>
    let sum := signed a x + signed b y
    ofQuotient (if sum = 0 then a && b else decide (sum < 0)) sum.natAbs 1

/-- The rounded difference: the sum of `a` and `b` with its sign turned. -/
def sub (a b : Binary F) : Binary F :=
  add a (neg b)

/-- The rounded product. An `infinity` times a zero is `nan`. -/
def mul : Binary F → Binary F → Binary F
  | .nan, _ => .nan
  | _, .nan => .nan
  | .infinity a, .infinity b => .infinity (a ^^ b)
  | .infinity a, .finite b y _ => if y = 0 then .nan else .infinity (a ^^ b)
  | .finite a x _, .infinity b => if x = 0 then .nan else .infinity (a ^^ b)
  | .finite a x _, .finite b y _ => ofQuotient (a ^^ b) (x * y) (2 ^ F.scale)

/-- The rounded quotient. A number other than zero over zero is an `infinity`; zero over zero and
infinity over infinity are `nan`. -/
def div : Binary F → Binary F → Binary F
  | .nan, _ => .nan
  | _, .nan => .nan
  | .infinity _, .infinity _ => .nan
  | .infinity a, .finite b _ _ => .infinity (a ^^ b)
  | .finite a _ _, .infinity b => zero (a ^^ b)
  | .finite a x _, .finite b y _ =>
    if y = 0 then
      if x = 0 then .nan else .infinity (a ^^ b)
    else
      ofQuotient (a ^^ b) (x * 2 ^ F.scale) y

/-! ## Comparison -/

/-- Strictly below, as numbers; false as soon as one of the two is `nan`. -/
def below : Binary F → Binary F → Bool
  | .nan, _ => false
  | _, .nan => false
  | .infinity a, .infinity b => a && !b
  | .infinity a, .finite .. => a
  | .finite .., .infinity b => !b
  | .finite a x _, .finite b y _ => decide (signed a x < signed b y)

/-- Equal as numbers: the two zeros are equal, and `nan` equals nothing. -/
def equals : Binary F → Binary F → Bool
  | .infinity a, .infinity b => a == b
  | .finite a x _, .finite b y _ => signed a x == signed b y
  | _, _ => false

instance : Scalar (Binary F) where
  add := add
  sub := sub
  mul := mul
  div := div
  neg := neg
  magnitude := abs
  below := below

/-! ## Conversion -/

/-- The value rounded into another format `G`. -/
def convert {G : Format} : Binary F → Binary G
  | .nan => .nan
  | .infinity negative => .infinity negative
  | .finite negative quanta _ => ofQuotient negative (quanta * 2 ^ G.scale) (2 ^ F.scale)

end Binary

/-- Single precision floats. -/
abbrev Binary32 := Binary .binary32

/-- Double precision floats. -/
abbrev Binary64 := Binary .binary64

end PivotedLU
