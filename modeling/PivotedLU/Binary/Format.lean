/-!
# Binary Interchange Formats

A binary floating-point format is fixed by its precision and the width of its exponent field.
Every finite value of a format is a whole number of *quanta*, a quantum being the smallest
positive value. A magnitude is therefore a natural number, and the format says which natural
numbers it can hold: those with at most `precision` significant bits, up to a largest one.

## Main definitions

* `Format`: precision and exponent width, with `Format.binary32` and `Format.binary64`.
* `Format.ulp`: the spacing of the format's values around a number of quanta.
* `Format.Represents`: the numbers of quanta that the format holds.
* `Format.nearest`: the multiple of the local spacing nearest to a quotient, ties to even.

## Main results

* `Format.ulp_dvd_nearest`: rounding gives a multiple of the spacing at its result.
* `Format.represents_one`: the format holds the number one.
-/

namespace PivotedLU

namespace StructuralPowers

-- powers of naturals are the structural ones, whatever other powers are in scope
attribute [scoped instance (high)] instPowNat

end StructuralPowers

open scoped StructuralPowers

/-- A binary floating-point format. -/
structure Format where
  /-- The number of significant bits of a normal value, the leading one included. -/
  precision : Nat
  /-- The number of bits of the exponent field. -/
  exponentBits : Nat
  two_le_precision : 2 ≤ precision := by decide
  two_le_exponentBits : 2 ≤ exponentBits := by decide
deriving DecidableEq

/-- The quotient `num / den` rounded to the nearest natural, a half to the even one. -/
def roundHalfEven (num den : Nat) : Nat :=
  let quotient := num / den
  let twice := 2 * (num % den)
  if twice < den ∨ (twice = den ∧ quotient % 2 = 0) then quotient else quotient + 1

/-- Rounding `num / den` moves the quotient up by at most one. -/
theorem roundHalfEven_le (num den : Nat) : roundHalfEven num den ≤ num / den + 1 := by
  unfold roundHalfEven
  dsimp only
  split <;> omega

namespace Format

/-- Single precision: 24 significant bits, 8 exponent bits. -/
def binary32 : Format where
  precision := 24
  exponentBits := 8

/-- Double precision: 53 significant bits, 11 exponent bits. -/
def binary64 : Format where
  precision := 53
  exponentBits := 11

variable (F : Format)

/-- The amount added to an exponent before it is stored. -/
def bias : Nat := 2 ^ (F.exponentBits - 1) - 1

/-- One is `2 ^ scale` quanta. -/
def scale : Nat := F.bias + F.precision - 2

/-- The number of bits of an encoded value. -/
def width : Nat := F.precision + F.exponentBits

/-- The binary exponent of the spacing at `quanta`: zero while the precision can hold every bit of
it. -/
def ulpExponent (quanta : Nat) : Nat := Nat.log2 quanta + 1 - F.precision

/-- The spacing of the format's values at `quanta`. -/
def ulp (quanta : Nat) : Nat := 2 ^ F.ulpExponent quanta

/-- The largest finite magnitude. -/
def largest : Nat := (2 ^ F.precision - 1) * 2 ^ (2 ^ F.exponentBits - 3 : Nat)

/-- The format holds `quanta`: this is at most the `largest` magnitude, and a multiple of the
spacing there. -/
def Represents (quanta : Nat) : Prop := quanta ≤ F.largest ∧ F.ulp quanta ∣ quanta

instance (quanta : Nat) : Decidable (F.Represents quanta) :=
  inferInstanceAs (Decidable (_ ∧ _))

/-- The multiple of the local spacing nearest to `num / den` quanta, a half to the even
multiple. The exponent range is not looked at, so the result may exceed `largest`. -/
def nearest (num den : Nat) : Nat :=
  let spacing := F.ulp (num / den)
  roundHalfEven num (den * spacing) * spacing

/-- Below `2 ^ (precision + k)` the exponent of the spacing is at most `k`. -/
private theorem ulpExponent_le {quanta k : Nat} (h : quanta < 2 ^ (F.precision + k)) :
    F.ulpExponent quanta ≤ k := by
  unfold ulpExponent
  by_cases hz : quanta = 0
  · subst hz
    have := F.two_le_precision
    have : Nat.log2 0 = 0 := by decide
    omega
  · have := (Nat.log2_lt hz).2 h
    omega

/-- At `2 ^ k` the spacing `ulp` is that of `k + 1` significant bits. -/
private theorem ulpExponent_two_pow (k : Nat) :
    F.ulpExponent (2 ^ k) = k + 1 - F.precision := by
  simp [ulpExponent, Nat.log2_two_pow]

/-- The format `F` holds zero. -/
theorem represents_zero : F.Represents 0 :=
  ⟨Nat.zero_le _, Nat.dvd_zero _⟩

/-- The result of `nearest` is a multiple of the spacing `ulp` there, also where it carries into the
next power of two. -/
theorem ulp_dvd_nearest (num den : Nat) : F.ulp (F.nearest num den) ∣ F.nearest num den := by
  have hp := F.two_le_precision
  generalize hs : F.ulpExponent (num / den) = s
  have hspacing : F.nearest num den = roundHalfEven num (den * 2 ^ s) * 2 ^ s := by
    simp [nearest, ulp, hs]
  have hquotient : num / (den * 2 ^ s) < 2 ^ F.precision := by
    rw [← Nat.div_div_eq_div_mul]
    apply Nat.div_lt_of_lt_mul
    rw [← Nat.pow_add]
    refine Nat.lt_of_lt_of_le (Nat.lt_log2_self) (Nat.pow_le_pow_right (by decide) ?_)
    unfold ulpExponent at hs
    omega
  have hle : roundHalfEven num (den * 2 ^ s) ≤ 2 ^ F.precision :=
    Nat.le_trans (roundHalfEven_le _ _) hquotient
  rw [hspacing]
  -- rounding up may lead to the next power of two, where the spacing is wider
  rcases Nat.lt_or_eq_of_le hle with hlt | heq
  · refine Nat.dvd_trans (Nat.pow_dvd_pow 2 (F.ulpExponent_le ?_)) (Nat.dvd_mul_left _ _)
    rw [Nat.pow_add]
    exact Nat.mul_lt_mul_of_pos_right hlt (Nat.two_pow_pos s)
  · rw [heq, ← Nat.pow_add, ulp, ulpExponent_two_pow]
    exact Nat.pow_dvd_pow 2 (by omega)

/-- The format `F` holds `2 ^ k` while `k` is below the overflow bound. -/
theorem represents_two_pow {k : Nat} (h : k + 3 ≤ F.precision + 2 ^ F.exponentBits - 1) :
    F.Represents (2 ^ k) := by
  have hp := F.two_le_precision
  refine ⟨?_, ?_⟩
  · have hk : k ≤ (F.precision - 1) + (2 ^ F.exponentBits - 3) := by omega
    have hsplit : 2 ^ F.precision = 2 ^ (F.precision - 1) + 2 ^ (F.precision - 1) := by
      rw [← Nat.two_mul, ← Nat.pow_succ']
      congr 1
      omega
    have hone : 1 ≤ 2 ^ (F.precision - 1) := Nat.two_pow_pos _
    calc 2 ^ k ≤ 2 ^ ((F.precision - 1) + (2 ^ F.exponentBits - 3)) :=
          Nat.pow_le_pow_right (by decide) hk
      _ = 2 ^ (F.precision - 1) * 2 ^ (2 ^ F.exponentBits - 3) := Nat.pow_add _ _ _
      _ ≤ F.largest := Nat.mul_le_mul_right _ (by omega)
  · rw [ulp, ulpExponent_two_pow]
    exact Nat.pow_dvd_pow 2 (by omega)

/-- The format `F` holds the number one, which is `2 ^ F.scale` quanta. -/
theorem represents_one : F.Represents (2 ^ F.scale) := by
  apply F.represents_two_pow
  have hp := F.two_le_precision
  have he := F.two_le_exponentBits
  have hsplit : 2 ^ F.exponentBits = 2 ^ (F.exponentBits - 1) + 2 ^ (F.exponentBits - 1) := by
    rw [← Nat.two_mul, ← Nat.pow_succ']
    congr 1
    omega
  have hone : 2 ≤ 2 ^ (F.exponentBits - 1) := by
    calc 2 = 2 ^ 1 := rfl
      _ ≤ 2 ^ (F.exponentBits - 1) := Nat.pow_le_pow_right (by decide) (by omega)
  unfold scale bias
  omega

end Format

end PivotedLU
