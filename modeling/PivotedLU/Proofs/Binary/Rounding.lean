import PivotedLU.Binary.Basic

/-!
# Rounding Against Values of the Format

Rounding never crosses a value that the format holds: a quotient that is at most such a value is
rounded to at most this value, and the value itself is not changed.

## Main results

* `Format.nearest_le`: a quotient at most a value of the format is rounded to at most this value.
* `Format.nearest_mul_self`: a value of the format is its own rounding.
* `Format.nearest_pos`: a whole number of quanta is not rounded to zero.
* `Binary.ofQuotient_le`, `Binary.ofQuotient_mul_self`, `Binary.ofQuotient_ne_zero`: the same for
  floats.
-/

namespace PivotedLU

open scoped StructuralPowers

/-! ## Halves -/

/-- A quotient `num / den` of at most `m` is rounded to at most `m`. -/
theorem roundHalfEven_le_of_le {num den m : Nat} (hden : 0 < den) (h : num ≤ m * den) :
    roundHalfEven num den ≤ m := by
  rcases Nat.lt_or_eq_of_le h with hlt | heq
  · have hquotient : num / den < m := (Nat.div_lt_iff_lt_mul hden).2 hlt
    exact Nat.le_trans (roundHalfEven_le num den) hquotient
  · -- nothing is left over, so nothing is rounded up
    have hrest : 2 * (num % den) < den := by simp [heq, hden]
    have hrounded : roundHalfEven num den = m := by
      rw [roundHalfEven, if_pos (Or.inl hrest), heq, Nat.mul_div_cancel m hden]
    exact Nat.le_of_eq hrounded

/-- A natural number `m` is its own rounding. -/
theorem roundHalfEven_mul_self {den : Nat} (hden : 0 < den) (m : Nat) :
    roundHalfEven (m * den) den = m := by
  have hrest : 2 * (m * den % den) < den := by simp [hden]
  rw [roundHalfEven, if_pos (Or.inl hrest), Nat.mul_div_cancel m hden]

/-- Rounding moves `num / den` down by less than one. -/
theorem div_le_roundHalfEven (num den : Nat) : num / den ≤ roundHalfEven num den := by
  unfold roundHalfEven
  dsimp only
  split <;> omega

/-! ## Values of a format -/

namespace Format

variable (F : Format)

theorem ulp_pos (quanta : Nat) : 0 < F.ulp quanta :=
  Nat.two_pow_pos _

/-- The spacing at `quanta` divides the spacing at a larger `quanta'`. -/
theorem ulp_dvd_ulp {quanta quanta' : Nat} (h : quanta ≤ quanta') :
    F.ulp quanta ∣ F.ulp quanta' := by
  have hlog : Nat.log2 quanta ≤ Nat.log2 quanta' := by
    by_cases hzero : quanta = 0
    · subst hzero
      exact Nat.zero_le _
    · rw [Nat.le_log2 (by omega)]
      exact Nat.le_trans (Nat.log2_self_le hzero) h
  refine Nat.pow_dvd_pow 2 ?_
  unfold ulpExponent
  omega

variable {F}

/-- If `quanta` is a multiple of the spacing there, a quotient `num / den` of at most `quanta` is
rounded to at most `quanta`. -/
theorem nearest_le {num den quanta : Nat} (hden : 0 < den) (hquanta : F.ulp quanta ∣ quanta)
    (h : num ≤ quanta * den) : F.nearest num den ≤ quanta := by
  have hquotient : num / den ≤ quanta := Nat.div_le_of_le_mul (by rwa [Nat.mul_comm])
  -- the value is a multiple of the spacing that the quotient is rounded to
  obtain ⟨m, hm⟩ := Nat.dvd_trans (F.ulp_dvd_ulp hquotient) hquanta
  have hspacing : 0 < F.ulp (num / den) := F.ulp_pos _
  have hnum : num ≤ m * (den * F.ulp (num / den)) := by
    calc num ≤ quanta * den := h
      _ = m * (den * F.ulp (num / den)) := by rw [hm]; ac_rfl
  calc F.nearest num den
      = roundHalfEven num (den * F.ulp (num / den)) * F.ulp (num / den) := rfl
    _ ≤ m * F.ulp (num / den) :=
        Nat.mul_le_mul_right _ (roundHalfEven_le_of_le (Nat.mul_pos hden hspacing) hnum)
    _ = quanta := by rw [Nat.mul_comm, ← hm]

/-- If `quanta` is a multiple of the spacing there, it is its own rounding. -/
theorem nearest_mul_self {den quanta : Nat} (hden : 0 < den) (hquanta : F.ulp quanta ∣ quanta) :
    F.nearest (quanta * den) den = quanta := by
  obtain ⟨m, hm⟩ := hquanta
  have hspacing : 0 < F.ulp quanta := F.ulp_pos _
  have hnum : quanta * den = m * (den * F.ulp quanta) := by
    calc quanta * den = F.ulp quanta * m * den := by rw [← hm]
      _ = m * (den * F.ulp quanta) := by ac_rfl
  rw [nearest, Nat.mul_div_cancel quanta hden, hnum,
    roundHalfEven_mul_self (Nat.mul_pos hden hspacing), Nat.mul_comm, ← hm]

/-- The spacing at `quanta` other than zero is at most `quanta`. -/
theorem ulp_le {quanta : Nat} (h : 0 < quanta) : F.ulp quanta ≤ quanta := by
  have hp := F.two_le_precision
  have hexponent : F.ulpExponent quanta ≤ Nat.log2 quanta := by
    unfold ulpExponent
    omega
  calc F.ulp quanta ≤ 2 ^ Nat.log2 quanta := Nat.pow_le_pow_right (by decide) hexponent
    _ ≤ quanta := Nat.log2_self_le (Nat.ne_of_gt h)

/-- A whole number `num` of quanta other than zero is not rounded to zero: where values of `F` are
far apart, they are large. -/
theorem nearest_pos {num : Nat} (h : 0 < num) : 0 < F.nearest num 1 := by
  have hrounded : 1 ≤ roundHalfEven num (1 * F.ulp (num / 1)) := by
    rw [Nat.div_one, Nat.one_mul]
    exact Nat.le_trans (Nat.div_pos (ulp_le h) (F.ulp_pos num)) (div_le_roundHalfEven num _)
  exact Nat.mul_pos hrounded (F.ulp_pos _)

end Format

/-! ## Floats -/

namespace Binary

variable {F : Format}

/-- A quotient `num / den` of at most `quanta` is rounded to a finite value of at most `quanta`. -/
theorem ofQuotient_le {num den quanta : Nat} (negative : Bool) (hden : 0 < den)
    (hquanta : F.Represents quanta) (h : num ≤ quanta * den) :
    ∃ (rounded : Nat) (represents : F.Represents rounded),
      ofQuotient negative num den = .finite negative rounded represents ∧ rounded ≤ quanta := by
  have hle : F.nearest num den ≤ quanta := Format.nearest_le hden hquanta.2 h
  exact ⟨_, _, dif_pos (Nat.le_trans hle hquanta.1), hle⟩

/-- If `F` holds `quanta`, `ofQuotient` gives this value for an equal quotient. -/
theorem ofQuotient_mul_self {den quanta : Nat} (negative : Bool) (hden : 0 < den)
    (hquanta : F.Represents quanta) :
    ofQuotient negative (quanta * den) den = .finite negative quanta hquanta := by
  have hnearest : F.nearest (quanta * den) den = quanta :=
    Format.nearest_mul_self hden hquanta.2
  have hfinite : F.nearest (quanta * den) den ≤ F.largest := by
    rw [hnearest]
    exact hquanta.1
  rw [ofQuotient, dif_pos hfinite]
  congr 1

/-- A quotient of `0` is the zero of its sign. -/
theorem ofQuotient_zero {den : Nat} (negative : Bool) (hden : 0 < den) :
    (ofQuotient negative 0 den : Binary F) = zero negative := by
  have hround := ofQuotient_mul_self negative hden F.represents_zero
  rwa [Nat.zero_mul] at hround

/-- A whole number `num` of quanta other than zero is not rounded to a zero of either sign. -/
theorem ofQuotient_ne_zero (negative : Bool) {num : Nat} (h : 0 < num) (negative' : Bool) :
    (ofQuotient negative num 1 : Binary F) ≠ zero negative' := by
  unfold ofQuotient
  split
  · intro hzero
    injection hzero with _ hquanta
    exact Nat.ne_of_gt (Format.nearest_pos h) hquanta
  · exact fun hzero => nomatch hzero

/-- The magnitude of `ofQuotient negative num den` is the rounding without the sign. -/
theorem abs_ofQuotient (negative : Bool) (num den : Nat) :
    (ofQuotient negative num den : Binary F).abs = ofQuotient false num den := by
  unfold ofQuotient
  split <;> rfl

theorem isNaN_ofQuotient (negative : Bool) (num den : Nat) :
    (ofQuotient negative num den : Binary F).isNaN = false := by
  unfold ofQuotient
  split <;> rfl

end Binary

end PivotedLU
