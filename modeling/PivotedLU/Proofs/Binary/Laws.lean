import PivotedLU.Proofs.Binary.Order
import PivotedLU.Proofs.Elimination.Pivots

/-!
# Quotients and Differences of Floats

The few laws of rounded arithmetic that elimination relies on. A quotient by a number of no smaller
magnitude is at most one. What is a zero or not a number stays one of the two, whatever it is
multiplied by, however large, and so does what is divided by a nonzero number or taken from itself.

## Main results

* `Binary.negligible_iff`: the negligible floats are the zeros and what is not a number.
* `Binary.boundedQuotients`: quotients by a pivot are bounded by one.
* `Binary.mul_comm`, `Binary.one_mul`, `Binary.div_one`, `Binary.div_self`: laws that rounding
  keeps.
* `Binary.equals_zero_mul`, `Binary.equals_zero_div`, `Binary.equals_sub_zero`: zeros of either
  sign.
* `Binary.add_zero`, `Binary.add_ne_negativeZero`: a sum that began with the positive zero never is
  the negative one, and does not notice a zero.
* `Binary.zero_add`, `Binary.equals_zero_add`: what the first term makes of the positive zero.
* `Binary.negligible_mul_left`, `Binary.negligible_sub`, `Binary.negligible_div`,
  `Binary.negligible_sub_div_self_mul`: what is negligible.
-/

namespace PivotedLU

open scoped StructuralPowers

namespace Binary
open Scalar (Negligible)

variable {F : Format}

/-! ## Bounded quotients -/

/-- A float `x` is `Negligible` if it is a zero, of either sign, or `nan`. -/
theorem negligible_iff (x : Binary F) :
    Negligible x ↔ x = nan ∨ ∃ negative, x = zero negative := by
  show below (zero false) x.abs = false ↔ _
  cases x with
  | nan => simp [below, abs, zero]
  | infinity a => simp [below, abs, zero]
  | finite a q hq => simp [below, abs, zero, signed]

/-- A float `x` that is not `Negligible` is an infinity or a finite value that is not zero. -/
theorem cases_of_not_negligible {x : Binary F} (hx : ¬Negligible x) :
    (∃ negative, x = infinity negative) ∨
      ∃ negative quanta represents, x = finite negative quanta represents ∧ 0 < quanta := by
  rw [negligible_iff, not_or, not_exists] at hx
  cases x with
  | nan => exact absurd rfl hx.1
  | infinity a => exact Or.inl ⟨a, rfl⟩
  | finite a q hq =>
    refine Or.inr ⟨a, q, hq, rfl, Nat.pos_of_ne_zero ?_⟩
    rintro rfl
    exact hx.2 a rfl

theorem zero_below_one : below (0 : Binary F) 1 = true :=
  decide_eq_true (Int.ofNat_lt.2 (Nat.two_pow_pos _))

/-- At most `2 ^ F.scale` quanta are not above one in magnitude. -/
theorem not_below_one {quanta : Nat} (negative : Bool) (represents : F.Represents quanta)
    (h : quanta ≤ 2 ^ F.scale) : below one (finite negative quanta represents).abs = false :=
  decide_eq_false (Int.not_lt.2 (Int.ofNat_le.2 h))

/-- If `p` is not `Negligible` and `x` is not larger in magnitude, then `one` is not below the
magnitude of `div x p`: this is at most one, or not a number. -/
theorem not_below_one_div {x p : Binary F} (hp : ¬Negligible p)
    (h : below p.abs x.abs = false) : below one (div x p).abs = false := by
  cases x with
  | nan => rfl
  | infinity a =>
    rcases cases_of_not_negligible hp with ⟨b, rfl⟩ | ⟨b, y, hy, rfl, hpos⟩
    · rfl
    · cases h
  | finite a x hx =>
    rcases cases_of_not_negligible hp with ⟨b, rfl⟩ | ⟨b, y, hy, rfl, hpos⟩
    · exact not_below_one _ F.represents_zero (Nat.zero_le _)
    · have hle : x ≤ y := Int.ofNat_le.1 (Int.not_lt.1 (of_decide_eq_false h))
      -- the rounding of a quotient at most one does not cross one
      have hquotient : x * 2 ^ F.scale ≤ 2 ^ F.scale * y := by
        rw [Nat.mul_comm]
        exact Nat.mul_le_mul_left _ hle
      obtain ⟨q, hq, hdiv, hone⟩ := ofQuotient_le (a ^^ b) hpos F.represents_one hquotient
      rw [div, if_neg hpos.ne', hdiv]
      exact not_below_one _ hq hone

/-- The quotient of a `Negligible` `x` by a `Negligible` `p` is `nan`. -/
theorem div_eq_nan {x p : Binary F} (hp : Negligible p) (hx : Negligible x) : div x p = nan := by
  rw [negligible_iff] at hp hx
  rcases hx with rfl | ⟨a, rfl⟩
  · rfl
  · rcases hp with rfl | ⟨b, rfl⟩
    · rfl
    · rfl

/-- Floats have the `BoundedQuotients` that the bound on multipliers rests on. -/
theorem boundedQuotients : Elimination.BoundedQuotients (Binary F) where
  toStrictComparison := strictComparison
  quotient x p hp h := not_below_one_div hp h
  quotient_negligible x p hp hx := by
    have hdiv : x / p = nan := div_eq_nan hp hx
    rw [hdiv]
    rfl

/-! ## Laws that rounding keeps -/

/-- The order of `x` and `y` is of no account to `add`, roundings included. -/
theorem add_comm (x y : Binary F) : add x y = add y x := by
  cases x with
  | nan => cases y <;> rfl
  | infinity a =>
    cases y with
    | infinity b => cases a <;> cases b <;> rfl
    | _ => rfl
  | finite a x hx =>
    cases y with
    | finite b y hy => simp only [add, Int.add_comm, Bool.and_comm]
    | _ => rfl

/-- The order of `x` and `y` is of no account to `mul`, roundings included. -/
theorem mul_comm (x y : Binary F) : mul x y = mul y x := by
  cases x <;> cases y <;> simp [mul, Bool.xor_comm, Nat.mul_comm]

/-- A product of `one` and `x` is not rounded. -/
theorem one_mul (x : Binary F) : mul one x = x := by
  cases x with
  | nan => rfl
  | infinity b => simp [one, mul]
  | finite b y hy =>
    show ofQuotient (false ^^ b) (2 ^ F.scale * y) (2 ^ F.scale) = _
    rw [Nat.mul_comm, ofQuotient_mul_self _ (Nat.two_pow_pos _) hy, Bool.false_xor]

/-- A quotient of `x` by `one` is not rounded. -/
theorem div_one (x : Binary F) : div x one = x := by
  cases x with
  | nan => rfl
  | infinity a => simp [one, div]
  | finite a x hx =>
    rw [one, div, if_neg (Nat.two_pow_pos _).ne', ofQuotient_mul_self _ (Nat.two_pow_pos _) hx,
      Bool.xor_false]

/-- A float `x` that is not `Negligible`, divided by itself, is `one`, or `nan` if it is
infinite. -/
theorem div_self {x : Binary F} (hx : ¬Negligible x) : div x x = one ∨ div x x = nan := by
  rcases cases_of_not_negligible hx with ⟨a, rfl⟩ | ⟨a, x, h, rfl, hpos⟩
  · exact Or.inr rfl
  · refine Or.inl ?_
    rw [div, if_neg hpos.ne', Nat.mul_comm, ofQuotient_mul_self _ hpos F.represents_one,
      Bool.xor_self]
    rfl

/-! ## Zeros -/

theorem zero_mul_finite (negative negative' : Bool) {y : Nat} (hy : F.Represents y) :
    mul (zero negative) (finite negative' y hy) = zero (negative ^^ negative') := by
  show ofQuotient (negative ^^ negative') (0 * y) (2 ^ F.scale) = _
  rw [Nat.zero_mul, ofQuotient_zero _ (Nat.two_pow_pos _)]

theorem zero_div_finite (negative negative' : Bool) {y : Nat} (hy : F.Represents y)
    (hpos : 0 < y) :
    div (zero negative) (finite negative' y hy) = zero (negative ^^ negative') := by
  show (if y = 0 then _ else ofQuotient (negative ^^ negative') (0 * 2 ^ F.scale) y) = _
  rw [if_neg hpos.ne', Nat.zero_mul, ofQuotient_zero _ hpos]

/-- A difference of zeros is a zero, and `zero true` only if a positive zero is taken from a
negative one. -/
theorem zero_sub_zero (negative negative' : Bool) :
    (sub (zero negative) (zero negative') : Binary F) = zero (negative && !negative') := by
  have hsum : signed negative 0 + signed (!negative') 0 = 0 := by
    cases negative <;> cases negative' <;> rfl
  show ofQuotient (if signed negative 0 + signed (!negative') 0 = 0 then _ else _)
    (signed negative 0 + signed (!negative') 0).natAbs 1 = _
  rw [if_pos hsum, hsum]
  exact ofQuotient_zero _ Nat.one_pos

/-- A finite value of `x > 0` quanta, less a zero, is not rounded. -/
theorem sub_zero {negative : Bool} {x : Nat} (hx : F.Represents x) (hpos : 0 < x)
    (negative' : Bool) :
    sub (finite negative x hx) (zero negative') = finite negative x hx := by
  have hsum : signed negative x + signed (!negative') 0 = signed negative x := by
    cases negative' <;> simp [signed]
  have hne : signed negative x ≠ 0 := by
    cases negative <;> simp [signed] <;> omega
  have hsign : decide (signed negative x < 0) = negative := by
    cases negative with
    | false => simp [signed]
    | true => simpa [signed] using hpos
  show ofQuotient (if signed negative x + signed (!negative') 0 = 0 then _
      else decide (signed negative x + signed (!negative') 0 < 0))
    (signed negative x + signed (!negative') 0).natAbs 1 = _
  rw [hsum, if_neg hne, hsign, natAbs_signed]
  have hround := ofQuotient_mul_self negative Nat.one_pos hx
  rwa [Nat.mul_one] at hround

/-- If `x` is a zero of either sign and `y` is finite, so is `mul x y` a zero. -/
theorem equals_zero_mul {x y : Binary F} (hx : equals x 0 = true) (hy : y.isFinite) :
    equals (mul x y) 0 = true := by
  obtain ⟨a, rfl⟩ := equals_zero_iff.1 hx
  cases y with
  | finite b y hy' => exact equals_zero_iff.2 ⟨_, zero_mul_finite a b hy'⟩
  | _ => cases hy

/-- If `x` is a zero of either sign, and `p` is finite and not `Negligible`, then `div x p` is a
zero. -/
theorem equals_zero_div {x p : Binary F} (hx : equals x 0 = true) (hp : p.isFinite)
    (hp' : ¬Negligible p) : equals (div x p) 0 = true := by
  obtain ⟨a, rfl⟩ := equals_zero_iff.1 hx
  rcases cases_of_not_negligible hp' with ⟨b, rfl⟩ | ⟨b, y, hy, rfl, hpos⟩
  · cases hp
  · exact equals_zero_iff.2 ⟨_, zero_div_finite a b hy hpos⟩

/-- A finite `x` less a zero `y` of either sign `equals` `x`. -/
theorem equals_sub_zero {x y : Binary F} (hx : x.isFinite) (hy : equals y 0 = true) :
    equals (sub x y) x = true := by
  obtain ⟨b, rfl⟩ := equals_zero_iff.1 hy
  cases x with
  | finite a x hx' =>
    rcases Nat.eq_zero_or_pos x with rfl | hpos
    · show equals (sub (zero a) (zero b)) (zero a) = true
      rw [zero_sub_zero]
      exact equals_zeros _ _
    · rw [sub_zero hx' hpos]
      exact equals_self rfl
  | _ => cases hx

/-- A float `x` other than `zero true` does not change if a zero of either sign is added. -/
theorem add_zero {x : Binary F} (hx : x ≠ zero true) (negative : Bool) :
    add x (zero negative) = x := by
  have hsub : add x (zero negative) = sub x (zero !negative) := by
    rw [sub, zero, zero, neg, Bool.not_not]
  cases x with
  | nan => rfl
  | infinity a => rfl
  | finite a x hx' =>
    rw [hsub]
    rcases Nat.eq_zero_or_pos x with rfl | hpos
    · -- the positive zero stays positive
      cases a with
      | false => exact zero_sub_zero false _
      | true => exact absurd rfl hx
    · exact sub_zero hx' hpos _

/-- The sum of `0` and a float `x` other than `zero true` is `x`. -/
theorem zero_add {x : Binary F} (hx : x ≠ zero true) : add 0 x = x :=
  (add_comm 0 x).trans (add_zero hx false)

/-- The sum of `0` and a number `x` `equals` `x`: only the sign of a zero is lost. -/
theorem equals_zero_add {x : Binary F} (hx : x.isNaN = false) : equals (add 0 x) x = true := by
  by_cases hzero : x = zero true
  · subst hzero
    have hpositive : zero false ≠ (zero true : Binary F) := by simp [zero]
    have hsum : add 0 (zero true) = (zero false : Binary F) := add_zero hpositive true
    rw [hsum]
    exact equals_zeros false true
  · rw [zero_add hzero]
    exact (equals_iff x x).2 ⟨hx, hx, rfl⟩

/-- Terms that cancel do not have both signs `a` and `b` negative, unless the first is the negative
zero. -/
theorem and_eq_false_of_cancel {a b : Bool} {x y : Nat} (hx : ¬(a = true ∧ x = 0))
    (hsum : signed a x + signed b y = 0) : (a && b) = false := by
  cases a with
  | false => rfl
  | true =>
    cases b with
    | false => rfl
    | true =>
      simp only [signed, if_true] at hsum
      have hzero : x = 0 := by omega
      exact absurd ⟨rfl, hzero⟩ hx

/-- A sum that begins with another `x` than `zero true` is not `zero true`. -/
theorem add_ne_negativeZero {x : Binary F} (hx : x ≠ zero true) (y : Binary F) :
    add x y ≠ zero true := by
  cases x with
  | nan => simp [add, zero]
  | infinity a =>
    cases y with
    | nan => simp [add, zero]
    | infinity b =>
      show (if a = b then infinity a else nan) ≠ zero true
      split <;> simp [zero]
    | finite b y hy => simp [add, zero]
  | finite a x hx' =>
    cases y with
    | nan => simp [add, zero]
    | infinity b => simp [add, zero]
    | finite b y hy =>
      show ofQuotient (if signed a x + signed b y = 0 then a && b else _)
        (signed a x + signed b y).natAbs 1 ≠ zero true
      by_cases hsum : signed a x + signed b y = 0
      · -- terms that cancel leave the positive zero, and the negative zero is not among them
        have hsign : (a && b) = false := by
          apply and_eq_false_of_cancel _ hsum
          rintro ⟨rfl, rfl⟩
          exact hx rfl
        rw [if_pos hsum, hsum, hsign]
        show ofQuotient false 0 1 ≠ zero true
        rw [ofQuotient_zero _ Nat.one_pos]
        simp [zero]
      · exact ofQuotient_ne_zero _ (Int.natAbs_pos.2 hsum) true

/-! ## What is negligible -/

theorem negligible_nan : Negligible (nan : Binary F) :=
  rfl

theorem negligible_of_isNaN {x : Binary F} (h : x.isNaN = true) : Negligible x := by
  cases x with
  | nan => exact negligible_nan
  | _ => cases h

theorem negligible_zero (negative : Bool) : Negligible (zero negative : Binary F) :=
  (negligible_iff _).2 (Or.inr ⟨negative, rfl⟩)

/-- A product with a `Negligible` `x` is `Negligible`: a zero, or `nan` if the other factor is no
finite number. -/
theorem negligible_mul_left {x : Binary F} (hx : Negligible x) (y : Binary F) :
    Negligible (mul x y) := by
  rcases (negligible_iff x).1 hx with rfl | ⟨a, rfl⟩
  · exact negligible_nan
  · cases y with
    | nan => exact negligible_nan
    | infinity b => exact negligible_nan
    | finite b y hy =>
      rw [zero_mul_finite]
      exact negligible_zero _

theorem negligible_mul_right (x : Binary F) {y : Binary F} (hy : Negligible y) :
    Negligible (mul x y) := by
  rw [mul_comm]
  exact negligible_mul_left hy x

/-- A sum of finite values whose exact sum is zero is `Negligible`. -/
theorem negligible_add_of_sum_eq_zero {a b : Bool} {x y : Nat} (hx : F.Represents x)
    (hy : F.Represents y) (h : signed a x + signed b y = 0) :
    Negligible (add (finite a x hx) (finite b y hy)) := by
  show Negligible (ofQuotient _ (signed a x + signed b y).natAbs 1)
  rw [h]
  show Negligible (ofQuotient _ 0 1)
  rw [ofQuotient_zero _ Nat.one_pos]
  exact negligible_zero _

/-- A difference of `Negligible` floats `x` and `y` is `Negligible`. -/
theorem negligible_sub {x y : Binary F} (hx : Negligible x) (hy : Negligible y) :
    Negligible (sub x y) := by
  rcases (negligible_iff x).1 hx with rfl | ⟨a, rfl⟩
  · exact negligible_nan
  · rcases (negligible_iff y).1 hy with rfl | ⟨b, rfl⟩
    · exact negligible_nan
    · rw [zero_sub_zero]
      exact negligible_zero _

/-- A float `x` less itself is `Negligible`: a zero, or `nan` if `x` is no finite number. -/
theorem negligible_sub_self (x : Binary F) : Negligible (sub x x) := by
  cases x with
  | nan => exact negligible_nan
  | infinity a => cases a <;> exact negligible_nan
  | finite a x hx =>
    refine negligible_add_of_sum_eq_zero _ _ ?_
    cases a
    · exact Int.add_right_neg _
    · exact Int.add_left_neg _

/-- A `Negligible` `x` divided by a `p` that is not is `Negligible`. -/
theorem negligible_div {x p : Binary F} (hx : Negligible x) (hp : ¬Negligible p) :
    Negligible (div x p) := by
  rcases (negligible_iff x).1 hx with rfl | ⟨a, rfl⟩
  · exact negligible_nan
  · rcases cases_of_not_negligible hp with ⟨b, rfl⟩ | ⟨b, y, hy, rfl, hpos⟩
    · exact negligible_zero _
    · rw [zero_div_finite a b hy hpos]
      exact negligible_zero _

/-- What is left of `x` less its product with `div p p` is `Negligible`: either this quotient is
`one`, or everything that comes out is `nan`. -/
theorem negligible_sub_div_self_mul (x : Binary F) {p : Binary F} (hp : ¬Negligible p) :
    Negligible (sub x (mul (div p p) x)) := by
  rcases div_self hp with hdiv | hdiv
  · rw [hdiv, one_mul]
    exact negligible_sub_self x
  · rw [hdiv]
    show Negligible (sub x nan)
    cases x <;> exact negligible_nan

end Binary

end PivotedLU
