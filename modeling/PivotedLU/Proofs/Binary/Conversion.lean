import PivotedLU.Proofs.Binary.Order

/-!
# Rounding Into Another Format

A value of a format is a value of every format with no fewer significant bits and no fewer
exponents, so nothing is lost on the way there and back. In the other direction a value may be too
small or too large for the format: it is rounded to zero up to half of the smallest quantum, and to
an infinity from half a step beyond the largest finite magnitude.

## Main definitions

* `Format.Within`: the values of the first format are values of the second one.

## Main results

* `Format.Within.represents`: the same value in quanta of the wider format.
* `Binary.convert_convert`, `Binary.convert_self`: a value comes back from a wider format as it was.
* `Format.nearest_eq_zero_iff`, `Format.largest_lt_nearest_iff`: the limits of rounding.
* `Binary.positive_ofQuotient_iff`: what is rounded to a positive finite number.
-/

namespace PivotedLU

open scoped StructuralPowers

namespace Format

/-- The format `F` has no more significant bits and no more exponent bits than `G`. -/
def Within (F G : Format) : Prop :=
  F.precision ≤ G.precision ∧ F.exponentBits ≤ G.exponentBits

instance (F G : Format) : Decidable (F.Within G) :=
  inferInstanceAs (Decidable (_ ∧ _))

example : binary32.Within .binary64 ∧ binary64.Within .binary64 := by decide

variable {F G : Format}

/-! ## Values of a wider format -/

/-- The spacing at zero is one quantum of `F`. -/
theorem ulpExponent_zero (F : Format) : F.ulpExponent 0 = 0 := by
  have hp := F.two_le_precision
  have hlog : Nat.log2 0 = 0 := by decide
  unfold ulpExponent
  omega

/-- The `bias` of the wider format `G` is no less. -/
theorem Within.bias_le (h : F.Within G) : F.bias ≤ G.bias := by
  have hpow : 2 ^ (F.exponentBits - 1) ≤ 2 ^ (G.exponentBits - 1) :=
    Nat.pow_le_pow_right (by decide) (Nat.sub_le_sub_right h.2 1)
  unfold bias
  omega

/-- One is no fewer quanta of the wider format `G`. -/
theorem Within.scale_le (h : F.Within G) : F.scale ≤ G.scale := by
  have hbias := h.bias_le
  have hprecision := h.1
  unfold scale
  omega

/-- In quanta of `G` the largest magnitude of `F` has no larger exponent than that of `G`. -/
theorem Within.exponent_le (h : F.Within G) : 2 ^ F.exponentBits - 3 + (G.scale - F.scale) ≤
    G.precision - F.precision + (2 ^ G.exponentBits - 3) := by
  have hprecision := h.1
  have hp := F.two_le_precision
  have hpow : 2 ^ (F.exponentBits - 1) ≤ 2 ^ (G.exponentBits - 1) :=
    Nat.pow_le_pow_right (by decide) (Nat.sub_le_sub_right h.2 1)
  have htwo : 2 ^ 1 ≤ 2 ^ (F.exponentBits - 1) :=
    Nat.pow_le_pow_right (by decide) (Nat.le_sub_of_add_le F.two_le_exponentBits)
  -- the scale grows with the bias, which is half of the range of the exponent
  have hF := Nat.two_pow_pred_add_two_pow_pred (Nat.le_of_succ_le F.two_le_exponentBits)
  have hG := Nat.two_pow_pred_add_two_pow_pred (Nat.le_of_succ_le G.two_le_exponentBits)
  unfold scale bias
  omega

/-- In quanta of `G` the magnitude `F.largest` is not beyond `G.largest`. -/
theorem Within.largest_le (h : F.Within G) : F.largest * 2 ^ (G.scale - F.scale) ≤ G.largest := by
  have hsignificand : (2 ^ F.precision - 1) * 2 ^ (G.precision - F.precision) ≤
      2 ^ G.precision - 1 := by
    have hone : 1 ≤ 2 ^ (G.precision - F.precision) := Nat.two_pow_pos _
    rw [Nat.sub_mul, ← Nat.pow_add, Nat.add_sub_cancel' h.1, Nat.one_mul]
    omega
  calc F.largest * 2 ^ (G.scale - F.scale)
      = (2 ^ F.precision - 1) * 2 ^ (2 ^ F.exponentBits - 3 + (G.scale - F.scale)) := by
        rw [largest, Nat.mul_assoc, Nat.pow_add]
    _ ≤ (2 ^ F.precision - 1) *
          2 ^ (G.precision - F.precision + (2 ^ G.exponentBits - 3)) :=
        Nat.mul_le_mul_left _ (Nat.pow_le_pow_right (by decide) h.exponent_le)
    _ = (2 ^ F.precision - 1) * 2 ^ (G.precision - F.precision) *
          2 ^ (2 ^ G.exponentBits - 3) := by rw [Nat.pow_add, Nat.mul_assoc]
    _ ≤ G.largest := Nat.mul_le_mul_right _ hsignificand

/-- If `quanta` grows by the factor `2 ^ k`, the exponent of the spacing grows by at most `k`. -/
theorem Within.ulpExponent_le (h : F.Within G) (quanta k : Nat) :
    G.ulpExponent (quanta * 2 ^ k) ≤ F.ulpExponent quanta + k := by
  have hprecision := h.1
  by_cases hzero : quanta = 0
  · rw [hzero, Nat.zero_mul, G.ulpExponent_zero]
    exact Nat.zero_le _
  · have hlog : Nat.log2 (quanta * 2 ^ k) = Nat.log2 quanta + k := by
      rw [Nat.log2_eq_iff (Nat.mul_ne_zero hzero (Nat.two_pow_pos k).ne'), Nat.add_right_comm,
        Nat.pow_add, Nat.pow_add 2 _ k]
      exact ⟨Nat.mul_le_mul_right _ (Nat.log2_self_le hzero),
        Nat.mul_lt_mul_of_pos_right Nat.lt_log2_self (Nat.two_pow_pos k)⟩
    unfold ulpExponent
    omega

/-- What `F` holds as `quanta`, `G` holds as `2 ^ (G.scale - F.scale)` times as many of its own
quanta. -/
theorem Within.represents (h : F.Within G) {quanta : Nat} (hquanta : F.Represents quanta) :
    G.Represents (quanta * 2 ^ (G.scale - F.scale)) := by
  refine ⟨Nat.le_trans (Nat.mul_le_mul_right _ hquanta.1) h.largest_le, ?_⟩
  calc G.ulp (quanta * 2 ^ (G.scale - F.scale))
      ∣ 2 ^ (F.ulpExponent quanta + (G.scale - F.scale)) :=
        Nat.pow_dvd_pow 2 (h.ulpExponent_le quanta _)
    _ = F.ulp quanta * 2 ^ (G.scale - F.scale) := Nat.pow_add _ _ _
    _ ∣ quanta * 2 ^ (G.scale - F.scale) := Nat.mul_dvd_mul_right hquanta.2 _

/-! ## The limits of rounding -/

/-- A quotient `num / den` of at least one is not rounded below the power of two before it. -/
theorem two_pow_log2_le_nearest {num den : Nat} (hone : num / den ≠ 0) :
    2 ^ Nat.log2 (num / den) ≤ F.nearest num den := by
  have hp := F.two_le_precision
  have hself : 2 ^ Nat.log2 (num / den) ≤ num / den := Nat.log2_self_le hone
  -- the power of two is a multiple of the spacing
  have hexponent : F.ulpExponent (num / den) ≤ Nat.log2 (num / den) := by
    unfold ulpExponent
    omega
  obtain ⟨m, hm⟩ : F.ulp (num / den) ∣ 2 ^ Nat.log2 (num / den) := Nat.pow_dvd_pow 2 hexponent
  have hsteps : m ≤ num / (den * F.ulp (num / den)) := by
    rw [← Nat.div_div_eq_div_mul, Nat.le_div_iff_mul_le (F.ulp_pos _), Nat.mul_comm, ← hm]
    exact hself
  calc 2 ^ Nat.log2 (num / den) = m * F.ulp (num / den) := hm.trans (Nat.mul_comm _ _)
    _ ≤ F.nearest num den :=
      Nat.mul_le_mul_right _ (Nat.le_trans hsteps (div_le_roundHalfEven _ _))

/-- Exactly the quotients `num / den` of at most half a quantum are rounded to zero. -/
theorem nearest_eq_zero_iff {num den : Nat} (hden : 0 < den) :
    F.nearest num den = 0 ↔ 2 * num ≤ den := by
  by_cases hquotient : num / den = 0
  · -- a part of a quantum is rounded to a quantum or to none
    have hlt : num < den := (Nat.div_eq_zero_iff_lt hden).1 hquotient
    have hnearest : F.nearest num den = roundHalfEven num den := by
      simp only [nearest, hquotient, ulp, F.ulpExponent_zero, Nat.pow_zero, Nat.mul_one]
    rw [hnearest, roundHalfEven, hquotient, Nat.mod_eq_of_lt hlt]
    split <;> omega
  · have hpos : 0 < F.nearest num den :=
      Nat.lt_of_lt_of_le (Nat.two_pow_pos _) (two_pow_log2_le_nearest hquotient)
    have hle : den ≤ num := by
      rw [Nat.div_eq_zero_iff_lt hden] at hquotient
      omega
    omega

/-- The position of the leading bit of `F.largest`. -/
theorem log2_largest (F : Format) :
    Nat.log2 F.largest = F.precision - 1 + (2 ^ F.exponentBits - 3) := by
  have hp := F.two_le_precision
  have hstep : 0 < 2 ^ (2 ^ F.exponentBits - 3) := Nat.two_pow_pos _
  have hhalf := Nat.two_pow_pred_add_two_pow_pred (Nat.le_of_succ_le hp)
  have hpos : 1 ≤ 2 ^ (F.precision - 1) := Nat.two_pow_pos _
  have hsignificand : 2 ^ F.precision - 1 ≠ 0 := by omega
  rw [largest, Nat.log2_eq_iff (Nat.mul_ne_zero hsignificand hstep.ne'), Nat.add_right_comm,
    Nat.pow_add, Nat.pow_add, Nat.sub_add_cancel (Nat.le_of_succ_le hp)]
  exact ⟨Nat.mul_le_mul_right _ (by omega), Nat.mul_lt_mul_of_pos_right (by omega) hstep⟩

/-- The significand of `F.largest` has a one in every bit. -/
theorem significand_odd (F : Format) : (2 ^ F.precision - 1) % 2 = 1 := by
  have hp := F.two_le_precision
  have hhalf := Nat.two_pow_pred_add_two_pow_pred (Nat.le_of_succ_le hp)
  have hpos : 1 ≤ 2 ^ (F.precision - 1) := Nat.two_pow_pos _
  omega

/-- In steps of its own spacing `F.ulp F.largest`, the largest magnitude is the largest
significand. -/
theorem largest_eq (F : Format) : F.largest = (2 ^ F.precision - 1) * F.ulp F.largest := by
  have hp := F.two_le_precision
  have hexponent : F.ulpExponent F.largest = 2 ^ F.exponentBits - 3 := by
    rw [ulpExponent, F.log2_largest]
    omega
  rw [ulp, hexponent]
  rfl

/-- One step beyond `F.largest` stands the next power of two. -/
theorem largest_add_ulp (F : Format) :
    F.largest + F.ulp F.largest = 2 ^ (Nat.log2 F.largest + 1) := by
  have hp := F.two_le_precision
  have hone : 1 ≤ 2 ^ F.precision := Nat.two_pow_pos _
  have hexponent : F.precision + F.ulpExponent F.largest = Nat.log2 F.largest + 1 := by
    rw [ulpExponent, F.log2_largest]
    omega
  calc F.largest + F.ulp F.largest
      = (2 ^ F.precision - 1 + 1) * F.ulp F.largest := by
        rw [Nat.add_mul, Nat.one_mul, ← F.largest_eq]
    _ = 2 ^ (Nat.log2 F.largest + 1) := by
        rw [Nat.sub_add_cancel hone, ulp, ← Nat.pow_add, hexponent]

/-- From `F.largest` to the next power of two the spacing stays the same. -/
theorem ulp_eq_ulp_largest {quanta : Nat} (h : F.largest ≤ quanta)
    (hnext : quanta < F.largest + F.ulp F.largest) : F.ulp quanta = F.ulp F.largest := by
  have hpos : F.largest ≠ 0 :=
    (Nat.lt_of_lt_of_le (Nat.two_pow_pos _) F.represents_one.1).ne'
  have hlog : Nat.log2 quanta = Nat.log2 F.largest := by
    rw [Nat.log2_eq_iff (by omega), ← F.largest_add_ulp]
    exact ⟨Nat.le_trans (Nat.log2_self_le hpos) h, hnext⟩
  rw [ulp, ulp, ulpExponent, ulpExponent, hlog]

/-- Beyond an odd quotient `num / den` the rest is rounded up from a half on. -/
theorem lt_roundHalfEven_iff {num den : Nat} (hodd : num / den % 2 = 1) :
    num / den < roundHalfEven num den ↔ den ≤ 2 * (num % den) := by
  unfold roundHalfEven
  dsimp only
  split <;> omega

/-- In the step beyond `F.largest`, `nearest` rounds `num / den` to one of the two ends. -/
theorem nearest_of_last_step {num den : Nat} (h : F.largest ≤ num / den)
    (hnext : num / den < F.largest + F.ulp F.largest) :
    num / (den * F.ulp F.largest) = 2 ^ F.precision - 1 ∧
      F.nearest num den = roundHalfEven num (den * F.ulp F.largest) * F.ulp F.largest := by
  constructor
  · rw [← Nat.div_div_eq_div_mul, Nat.div_eq_iff (F.ulp_pos _), ← F.largest_eq]
    omega
  · simp only [nearest, ulp_eq_ulp_largest h hnext]

/-- From the next power of two on, `num / den` is rounded beyond `F.largest`. -/
theorem largest_lt_nearest_of_le {num den : Nat}
    (hnext : F.largest + F.ulp F.largest ≤ num / den) : F.largest < F.nearest num den := by
  have hstep : 0 < F.ulp F.largest := F.ulp_pos _
  have hone : num / den ≠ 0 := by omega
  have hlog : Nat.log2 F.largest + 1 ≤ Nat.log2 (num / den) := by
    rwa [Nat.le_log2 hone, ← F.largest_add_ulp]
  calc F.largest < F.largest + F.ulp F.largest := Nat.lt_add_of_pos_right hstep
    _ = 2 ^ (Nat.log2 F.largest + 1) := F.largest_add_ulp
    _ ≤ 2 ^ Nat.log2 (num / den) := Nat.pow_le_pow_right (by decide) hlog
    _ ≤ F.nearest num den := two_pow_log2_le_nearest hone

/-- A quotient `num / den` is rounded beyond `F.largest` exactly if it is at least half a step
beyond it. The largest magnitude is an odd number of steps, so a half is rounded up. -/
theorem largest_lt_nearest_iff {num den : Nat} (hden : 0 < den) :
    F.largest < F.nearest num den ↔ (2 * F.largest + F.ulp F.largest) * den ≤ 2 * num := by
  have hlargest := F.largest_eq
  have hstep : 0 < F.ulp F.largest := F.ulp_pos _
  have hsteps : 0 < F.ulp F.largest * den := Nat.mul_pos hstep hden
  rw [Nat.add_mul, Nat.mul_assoc]
  rcases Nat.lt_or_ge (F.largest * den) num with hlt | hle
  · have hquotient : F.largest ≤ num / den := (Nat.le_div_iff_mul_le hden).2 hlt.le
    rcases Nat.lt_or_ge (num / den) (F.largest + F.ulp F.largest) with hnext | hnext
    · -- what is left beyond the largest magnitude decides
      obtain ⟨hfloor, hnearest⟩ := nearest_of_last_step hquotient hnext
      have hproduct : F.largest * den = den * F.ulp F.largest * (2 ^ F.precision - 1) := by
        rw [Nat.mul_assoc, Nat.mul_comm (F.ulp F.largest), ← hlargest, Nat.mul_comm]
      have hrest := Nat.div_add_mod num (den * F.ulp F.largest)
      rw [hfloor, ← hproduct] at hrest
      calc F.largest < F.nearest num den
          ↔ (2 ^ F.precision - 1) * F.ulp F.largest <
              roundHalfEven num (den * F.ulp F.largest) * F.ulp F.largest := by
            rw [hnearest, ← hlargest]
        _ ↔ num / (den * F.ulp F.largest) < roundHalfEven num (den * F.ulp F.largest) := by
            rw [Nat.mul_lt_mul_right hstep, hfloor]
        _ ↔ den * F.ulp F.largest ≤ 2 * (num % (den * F.ulp F.largest)) :=
            lt_roundHalfEven_iff (by rw [hfloor, F.significand_odd])
        _ ↔ 2 * (F.largest * den) + F.ulp F.largest * den ≤ 2 * num := by
            rw [Nat.mul_comm den] at hrest ⊢
            omega
    · have hreached : (F.largest + F.ulp F.largest) * den ≤ num :=
        (Nat.le_div_iff_mul_le hden).1 hnext
      rw [Nat.add_mul] at hreached
      exact iff_of_true (largest_lt_nearest_of_le hnext) (by omega)
  · have hnearest : F.nearest num den ≤ F.largest :=
      nearest_le hden (Dvd.intro_left _ hlargest.symm) hle
    exact iff_of_false (Nat.not_lt.2 hnearest) (by omega)

end Format

/-! ## Floats -/

namespace Binary

variable {F G : Format}

/-- For `F.Within G`, `convert` takes a finite float of `F` to the same value in quanta of `G`. -/
theorem convert_finite (h : F.Within G) (negative : Bool) {quanta : Nat}
    (hquanta : F.Represents quanta) :
    (finite negative quanta hquanta).convert =
      finite negative (quanta * 2 ^ (G.scale - F.scale)) (h.represents hquanta) := by
  have hscale : quanta * 2 ^ G.scale = quanta * 2 ^ (G.scale - F.scale) * 2 ^ F.scale := by
    rw [Nat.mul_assoc, ← Nat.pow_add, Nat.sub_add_cancel h.scale_le]
  show ofQuotient negative (quanta * 2 ^ G.scale) (2 ^ F.scale) = _
  rw [hscale, ofQuotient_mul_self negative (Nat.two_pow_pos _) (h.represents hquanta)]

/-- A float `x` of `F` comes back from a wider format `G` as it was. -/
theorem convert_convert (h : F.Within G) (x : Binary F) :
    ((x.convert : Binary G).convert : Binary F) = x := by
  cases x with
  | nan => rfl
  | infinity a => rfl
  | finite a x hx =>
    rw [convert_finite h]
    show ofQuotient a (x * 2 ^ (G.scale - F.scale) * 2 ^ F.scale) (2 ^ G.scale) = _
    rw [Nat.mul_assoc, ← Nat.pow_add, Nat.sub_add_cancel h.scale_le,
      ofQuotient_mul_self a (Nat.two_pow_pos _) hx]

/-- Within its own format `F`, `convert` rounds nothing. -/
theorem convert_self (x : Binary F) : (x.convert : Binary F) = x := by
  cases x with
  | nan => rfl
  | infinity a => rfl
  | finite a x hx => exact ofQuotient_mul_self a (Nat.two_pow_pos _) hx

theorem zero_below_finite_iff {quanta : Nat} (hquanta : F.Represents quanta) :
    below 0 (finite false quanta hquanta) = true ↔ 0 < quanta :=
  decide_eq_true_iff.trans Int.ofNat_lt

/-- A finite `x` above `0` is a number of quanta without a sign. -/
theorem exists_eq_finite_of_positive {x : Binary F} (hpositive : below 0 x = true)
    (hfinite : x.isFinite = true) :
    ∃ (quanta : Nat) (represents : F.Represents quanta), x = finite false quanta represents := by
  cases x with
  | nan => cases hfinite
  | infinity a => cases hfinite
  | finite a q hq =>
    cases a with
    | false => exact ⟨q, hq, rfl⟩
    | true =>
      have hlt : (0 : Int) < -(q : Int) := of_decide_eq_true hpositive
      omega

/-- A number `x` without a sign is positive and finite unless it is a zero or an infinity. -/
theorem positive_iff_of_abs_eq {x : Binary F} (hx : x.isNaN = false) (habs : x.abs = x) :
    below 0 x = true ∧ x.isFinite = true ↔
      ¬∃ negative, x = zero negative ∨ x = infinity negative := by
  cases x with
  | nan => cases hx
  | infinity a => simp [isFinite]
  | finite a q hq =>
    obtain rfl : false = a := (finite.inj habs).1
    rw [zero_below_finite_iff, Nat.pos_iff_ne_zero]
    simp [isFinite, zero]

/-- The quotient `num / den` is rounded to a positive finite number exactly if it is more than half
of a quantum and less than half a step beyond `F.largest`. -/
theorem positive_ofQuotient_iff {num den : Nat} (hden : 0 < den) :
    below 0 (ofQuotient false num den : Binary F) = true ∧
        (ofQuotient false num den : Binary F).isFinite = true ↔
      den < 2 * num ∧ 2 * num < (2 * F.largest + F.ulp F.largest) * den := by
  have hzero : F.nearest num den = 0 ↔ 2 * num ≤ den := Format.nearest_eq_zero_iff hden
  have hlargest : F.largest < F.nearest num den ↔
      (2 * F.largest + F.ulp F.largest) * den ≤ 2 * num := Format.largest_lt_nearest_iff hden
  by_cases hle : F.nearest num den ≤ F.largest
  · have hrounded : F.Represents (F.nearest num den) := ⟨hle, F.ulp_dvd_nearest num den⟩
    have hfinite : (ofQuotient false num den : Binary F) = finite false _ hrounded := dif_pos hle
    rw [hfinite, zero_below_finite_iff]
    refine (and_iff_left rfl).trans ?_
    omega
  · have hinfinite : (ofQuotient false num den : Binary F) = infinity false := dif_neg hle
    rw [hinfinite]
    exact ⟨fun h => absurd h.2 Bool.false_ne_true, fun h => absurd h (by omega)⟩

end Binary

end PivotedLU
