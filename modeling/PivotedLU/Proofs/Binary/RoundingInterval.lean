import PivotedLU.Proofs.Binary.Conversion

/-!
# What Is Rounded to a Value

`Format.nearest` rounds a quotient in the spacing that the format has there. Seen from a value, the
quotients that round to it are an interval around it: up to half of the spacing above, down to half
of the spacing below, and down to a quarter of it only where the spacing below is halved. The ends
round to the value exactly if its significand is even.

## Main definitions

* `RoundsTo`: a quotient lies in such an interval.
* `Format.leastNormal`: the least significand of a normal value.

## Main results

* `roundHalfEven_eq_iff`: rounding to whole numbers.
* `Format.nearest_eq_iff`: rounding to a value of the format.
* `Format.nearest_congr`: equal quotients are rounded to the same value.
-/

namespace PivotedLU

open scoped StructuralPowers

/-! ## The numbers that are rounded to a number of steps -/

/-- The quotient `num / step` is at most a half above `count` and at most `gap` quarters below it,
and not at one of these ends if `count` is odd. -/
def RoundsTo (num step count gap : Nat) : Prop :=
  (4 * (count * step) ≤ 4 * num + gap * step ∧ 4 * num ≤ 4 * (count * step) + 2 * step) ∧
    (count % 2 = 1 →
      4 * (count * step) ≠ 4 * num + gap * step ∧ 4 * num ≠ 4 * (count * step) + 2 * step)

/-- A quotient `num / den` is rounded to the `count` that it is at most a half away from. -/
theorem roundHalfEven_eq_iff {num den count : Nat} (hden : 0 < den) :
    roundHalfEven num den = count ↔ RoundsTo num den count 2 := by
  have hnum := Nat.div_add_mod' num den
  have hrest := Nat.mod_lt num hden
  unfold RoundsTo roundHalfEven
  dsimp only
  generalize num / den = quotient at *
  generalize num % den = rest at *
  -- the two numbers next to the quotient, and those below and above them
  rcases Nat.lt_trichotomy count quotient with hlt | rfl | hgt
  · have hproduct : (count + 1) * den ≤ quotient * den := Nat.mul_le_mul_right den hlt
    rw [Nat.add_mul, Nat.one_mul] at hproduct
    split <;> omega
  · split <;> omega
  · by_cases hnext : count = quotient + 1
    · subst hnext
      rw [Nat.add_mul, Nat.one_mul]
      split <;> omega
    · have hproduct : (quotient + 2) * den ≤ count * den := Nat.mul_le_mul_right den (by omega)
      rw [Nat.add_mul] at hproduct
      split <;> omega

/-- By `RoundsTo`, numerator and step may be multiplied by one factor `c`. -/
theorem roundsTo_mul_iff {num step count gap c : Nat} (hc : 0 < c) :
    RoundsTo (num * c) (step * c) count gap ↔ RoundsTo num step count gap := by
  have hle : ∀ a b : Nat, a * c ≤ b * c ↔ a ≤ b := fun a b => Nat.mul_le_mul_right_iff hc
  have hne : ∀ a b : Nat, a * c ≠ b * c ↔ a ≠ b := fun a b => not_congr (Nat.mul_left_inj hc.ne')
  unfold RoundsTo
  simp only [← Nat.mul_assoc, ← Nat.add_mul, hle, hne]

/-- The rounding of `num / den` depends on the quotient only: a common factor `c` is of no
account. -/
theorem roundHalfEven_mul_right {c : Nat} (hc : 0 < c) (num : Nat) {den : Nat} (hden : 0 < den) :
    roundHalfEven (num * c) (den * c) = roundHalfEven num den :=
  (roundHalfEven_eq_iff (Nat.mul_pos hden hc)).2
    ((roundsTo_mul_iff hc).2 ((roundHalfEven_eq_iff hden).1 rfl))

/-- Below an even `count`, a half of `step` is a quarter of two steps. -/
theorem roundsTo_double_iff {num step count : Nat} (heven : count % 2 = 0)
    (hupper : num ≤ count * (2 * step)) :
    RoundsTo num step (2 * count) 2 ↔ RoundsTo num (2 * step) count 1 := by
  unfold RoundsTo
  rw [Nat.mul_assoc]
  rw [Nat.mul_left_comm count 2 step] at hupper ⊢
  omega

namespace Format

variable {F : Format} {num den count exponent gap : Nat}

/-- The spacing at `quanta` is `2 ^ exponent`. -/
theorem ulpExponent_eq_iff {quanta : Nat} : F.ulpExponent quanta = exponent ↔
    quanta < 2 ^ (F.precision + exponent) ∧
      (exponent = 0 ∨ 2 ^ (F.precision - 1 + exponent) ≤ quanta) := by
  have hp := F.two_le_precision
  rcases Nat.eq_zero_or_pos quanta with rfl | hpos
  · have htwo := Nat.two_pow_pos (F.precision - 1 + exponent)
    have htwo' := Nat.two_pow_pos (F.precision + exponent)
    rw [F.ulpExponent_zero]
    omega
  · rw [← Nat.log2_lt hpos.ne', ← Nat.le_log2 hpos.ne', ulpExponent]
    omega

/-- The significands of normal values of `F` begin here. -/
def leastNormal (F : Format) : Nat := 2 ^ (F.precision - 1)

/-- The least significand `F.leastNormal` of a normal value is even. -/
theorem leastNormal_even (F : Format) : F.leastNormal % 2 = 0 := by
  have hp := F.two_le_precision
  obtain ⟨k, hk⟩ : ∃ k, F.precision - 1 = k + 1 := ⟨F.precision - 2, by omega⟩
  rw [leastNormal, hk, Nat.pow_succ]
  omega

theorem leastNormal_pos (F : Format) : 0 < F.leastNormal :=
  Nat.two_pow_pos _

/-- Twice `F.leastNormal` is the bound on all significands. -/
theorem two_mul_leastNormal (F : Format) : 2 * F.leastNormal = 2 ^ F.precision := by
  have hp := F.two_le_precision
  rw [leastNormal, ← Nat.pow_succ']
  congr 1
  omega

/-- A quotient `num / den` whose spacing is `2 ^ exponent`, in steps of this spacing. -/
theorem bounds_of_ulpExponent (hden : 0 < den) (h : F.ulpExponent (num / den) = exponent) :
    num < 2 * F.leastNormal * (den * 2 ^ exponent) ∧
      (exponent = 0 ∨ F.leastNormal * (den * 2 ^ exponent) ≤ num) := by
  obtain ⟨hhigh, hlow⟩ := ulpExponent_eq_iff.1 h
  rw [Nat.pow_add, Nat.div_lt_iff_lt_mul hden, ← two_mul_leastNormal] at hhigh
  rw [Nat.pow_add, Nat.le_div_iff_mul_le hden] at hlow
  rw [Nat.mul_comm den, ← Nat.mul_assoc, ← Nat.mul_assoc]
  exact ⟨hhigh, hlow⟩

theorem nearest_of_ulpExponent (h : F.ulpExponent (num / den) = exponent) :
    F.nearest num den = roundHalfEven num (den * 2 ^ exponent) * 2 ^ exponent := by
  rw [nearest, ulp, h]

/-- If the spacing at `num / den` is that of the value, a half of it decides on either side. -/
theorem nearest_eq_iff_of_same (hden : 0 < den) (h : F.ulpExponent (num / den) = exponent)
    (hgap : gap = 2 ∨ gap = 1 ∧ count = F.leastNormal ∧ 0 < exponent) :
    F.nearest num den = count * 2 ^ exponent ↔ RoundsTo num (den * 2 ^ exponent) count gap := by
  have hstep : 0 < den * 2 ^ exponent := Nat.mul_pos hden (Nat.two_pow_pos exponent)
  rw [nearest_of_ulpExponent h, Nat.mul_left_inj (Nat.two_pow_pos exponent).ne',
    roundHalfEven_eq_iff hstep]
  obtain rfl | ⟨rfl, rfl, hpos⟩ := hgap
  · rfl
  · -- the quotient is not below the value
    obtain ⟨-, hzero | hlow⟩ := bounds_of_ulpExponent hden h
    · omega
    · have heven := F.leastNormal_even
      unfold RoundsTo
      omega

/-- If the spacing at `num / den` is half of that of the value, the quotient is below the value, and
the `gap` there is a quarter for `F.leastNormal`. -/
theorem nearest_eq_iff_of_half (hden : 0 < den) (h : F.ulpExponent (num / den) = exponent)
    (hnormal : F.leastNormal ≤ count)
    (hgap : gap = if count = F.leastNormal then 1 else 2) :
    F.nearest num den = count * 2 ^ (exponent + 1) ↔
      RoundsTo num (den * 2 ^ (exponent + 1)) count gap := by
  have hstep : 0 < den * 2 ^ exponent := Nat.mul_pos hden (Nat.two_pow_pos exponent)
  obtain ⟨hhigh, -⟩ := bounds_of_ulpExponent hden h
  have hvalue : count * 2 ^ (exponent + 1) = 2 * count * 2 ^ exponent := by
    rw [Nat.pow_succ]
    ac_rfl
  have hdouble : den * 2 ^ (exponent + 1) = 2 * (den * 2 ^ exponent) := by
    rw [Nat.pow_succ]
    ac_rfl
  rw [nearest_of_ulpExponent h, hvalue, Nat.mul_left_inj (Nat.two_pow_pos exponent).ne',
    roundHalfEven_eq_iff hstep, hdouble]
  generalize den * 2 ^ exponent = step at *
  rw [Nat.mul_assoc] at hhigh
  split at hgap
  · next hfirst =>
    subst hfirst hgap
    refine roundsTo_double_iff F.leastNormal_even ?_
    rw [Nat.mul_left_comm]
    exact hhigh.le
  · -- a greater significand is out of reach
    have hproduct : (F.leastNormal + 1) * step ≤ count * step :=
      Nat.mul_le_mul_right step (by omega)
    rw [Nat.add_mul] at hproduct
    subst hgap
    unfold RoundsTo
    rw [Nat.mul_assoc, Nat.mul_left_comm count]
    omega

/-- A quotient `num / den` with a still smaller spacing is far below the value. -/
theorem nearest_eq_iff_of_below (hden : 0 < den) {f : Nat} (h : F.ulpExponent (num / den) = f)
    (hlt : f + 1 < exponent) (hnormal : F.leastNormal ≤ count) (hgap : gap ≤ 2) :
    F.nearest num den = count * 2 ^ exponent ↔ RoundsTo num (den * 2 ^ exponent) count gap := by
  obtain ⟨j, rfl⟩ : ∃ j, exponent = f + (j + 2) := ⟨exponent - f - 2, by omega⟩
  obtain ⟨hhigh, -⟩ := bounds_of_ulpExponent hden h
  have hstep : 0 < den * 2 ^ f := Nat.mul_pos hden (Nat.two_pow_pos f)
  have hfactor : 2 ^ 2 ≤ 2 ^ (j + 2) := Nat.pow_le_pow_right Nat.two_pos (Nat.le_add_left 2 j)
  -- the significand is at most the bound, in steps a quarter of those of the value or less
  have hround : roundHalfEven num (den * 2 ^ f) ≤ 2 * F.leastNormal :=
    roundHalfEven_le_of_le hstep hhigh.le
  have hpos := F.leastNormal_pos
  rw [nearest_of_ulpExponent h, Nat.pow_add, ← Nat.mul_assoc den]
  generalize 2 ^ (j + 2) = factor at *
  have hleft : roundHalfEven num (den * 2 ^ f) * 2 ^ f < count * (2 ^ f * factor) := by
    calc roundHalfEven num (den * 2 ^ f) * 2 ^ f ≤ 2 * F.leastNormal * 2 ^ f :=
          Nat.mul_le_mul_right _ hround
      _ < 4 * F.leastNormal * 2 ^ f :=
          Nat.mul_lt_mul_of_pos_right (by omega) (Nat.two_pow_pos f)
      _ ≤ factor * count * 2 ^ f := Nat.mul_le_mul_right _ (Nat.mul_le_mul hfactor hnormal)
      _ = count * (2 ^ f * factor) := by ac_rfl
  -- and the quotient is below the lower end of the interval
  refine iff_of_false hleft.ne fun hnear => ?_
  have hnear := hnear.1.1
  generalize den * 2 ^ f = step at *
  have hgap : gap * (step * factor) ≤ 2 * (step * factor) := Nat.mul_le_mul_right _ hgap
  have hsteps : step * 4 ≤ step * factor := Nat.mul_le_mul_left step hfactor
  have hproduct : F.leastNormal * (step * factor) ≤ count * (step * factor) :=
    Nat.mul_le_mul_right _ hnormal
  have hfirst : F.leastNormal * (step * 4) ≤ F.leastNormal * (step * factor) :=
    Nat.mul_le_mul_left _ hsteps
  have hone : 1 * (step * factor) ≤ F.leastNormal * (step * factor) :=
    Nat.mul_le_mul_right _ hpos
  rw [Nat.mul_assoc] at hhigh
  rw [← Nat.mul_assoc] at hfirst
  omega

/-- A quotient `num / den` with a larger spacing is above the value by at least one step. -/
theorem nearest_eq_iff_of_above (hden : 0 < den) {f : Nat} (h : F.ulpExponent (num / den) = f)
    (hlt : exponent < f) (hcount : count < 2 * F.leastNormal) :
    F.nearest num den = count * 2 ^ exponent ↔ RoundsTo num (den * 2 ^ exponent) count gap := by
  obtain ⟨j, rfl⟩ : ∃ j, f = exponent + (j + 1) := ⟨f - exponent - 1, by omega⟩
  obtain ⟨-, hzero | hlow⟩ := bounds_of_ulpExponent hden h
  · omega
  have hstep : 0 < den * 2 ^ exponent := Nat.mul_pos hden (Nat.two_pow_pos exponent)
  have hsteps : 0 < den * 2 ^ (exponent + (j + 1)) := Nat.mul_pos hden (Nat.two_pow_pos _)
  have hfactor : 2 ≤ 2 ^ (j + 1) := Nat.le_self_pow (Nat.succ_ne_zero j) 2
  -- the significand is normal, in steps of twice those of the value or more
  have hround : F.leastNormal ≤ roundHalfEven num (den * 2 ^ (exponent + (j + 1))) :=
    Nat.le_trans ((Nat.le_div_iff_mul_le hsteps).2 hlow) (div_le_roundHalfEven _ _)
  rw [nearest_of_ulpExponent h]
  generalize roundHalfEven num (den * 2 ^ (exponent + (j + 1))) = rounded at *
  rw [Nat.pow_add, ← Nat.mul_assoc den] at hlow
  rw [Nat.pow_add]
  generalize 2 ^ (j + 1) = factor at *
  have hleft : count * 2 ^ exponent < rounded * (2 ^ exponent * factor) := by
    calc count * 2 ^ exponent < 2 * F.leastNormal * 2 ^ exponent :=
          Nat.mul_lt_mul_of_pos_right hcount (Nat.two_pow_pos exponent)
      _ ≤ factor * rounded * 2 ^ exponent := Nat.mul_le_mul_right _ (Nat.mul_le_mul hfactor hround)
      _ = rounded * (2 ^ exponent * factor) := by ac_rfl
  -- and the quotient is above the upper end of the interval
  refine iff_of_false hleft.ne' fun hnear => ?_
  have hnear := hnear.1.2
  generalize den * 2 ^ exponent = step at *
  have hproduct : (count + 1) * step ≤ 2 * F.leastNormal * step := Nat.mul_le_mul_right step hcount
  have hfirst : F.leastNormal * (step * 2) ≤ F.leastNormal * (step * factor) :=
    Nat.mul_le_mul_left _ (Nat.mul_le_mul_left step hfactor)
  rw [Nat.mul_comm step 2, ← Nat.mul_assoc, Nat.mul_comm _ 2] at hfirst
  rw [Nat.add_mul] at hproduct
  omega

/-- **What is rounded to a value.** The quotients that round to `count * 2 ^ exponent` reach from
`gap` quarters of the spacing below it to a half above it: the lower part is halved for the least
significand of a normal value, unless the spacing is the least already. -/
theorem nearest_eq_iff (hden : 0 < den) (hcount : count < 2 * F.leastNormal)
    (hnormal : exponent = 0 ∨ F.leastNormal ≤ count)
    (hgap : gap = if count = F.leastNormal ∧ 0 < exponent then 1 else 2) :
    F.nearest num den = count * 2 ^ exponent ↔ RoundsTo num (den * 2 ^ exponent) count gap := by
  -- the spacing at the quotient, against that of the value
  obtain ⟨f, hf⟩ : ∃ f, F.ulpExponent (num / den) = f := ⟨_, rfl⟩
  rcases Nat.lt_trichotomy f exponent with hlt | rfl | hgt
  · have hleast : F.leastNormal ≤ count := hnormal.resolve_left (by omega)
    by_cases hnext : exponent = f + 1
    · subst hnext
      refine nearest_eq_iff_of_half hden hf hleast (hgap.trans ?_)
      simp only [Nat.succ_pos, and_true]
    · refine nearest_eq_iff_of_below hden hf (by omega) hleast ?_
      rw [hgap]
      split <;> decide
  · refine nearest_eq_iff_of_same hden hf ?_
    split at hgap
    · next hfirst => exact Or.inr ⟨hgap, hfirst⟩
    · exact Or.inl hgap
  · exact nearest_eq_iff_of_above hden hf hgt hcount

/-- What `nearest` gives for `num / den` depends on the quotient only. -/
theorem nearest_mul_right {c : Nat} (hc : 0 < c) (num : Nat) (hden : 0 < den) :
    F.nearest (num * c) (den * c) = F.nearest num den := by
  have hstep := Nat.mul_pos hden (F.ulp_pos (num / den))
  rw [nearest, nearest, Nat.mul_div_mul_right _ _ hc, Nat.mul_right_comm den,
    roundHalfEven_mul_right hc num hstep]

/-- Equal quotients `num / den` and `num' / den'` are rounded to the same value. -/
theorem nearest_congr {num' den' : Nat} (hden : 0 < den) (hden' : 0 < den')
    (h : num * den' = num' * den) : F.nearest num den = F.nearest num' den' := by
  rw [← nearest_mul_right hden' num hden, ← nearest_mul_right hden num' hden', h,
    Nat.mul_comm den]

end Format

end PivotedLU
