import PivotedLU.Binary.Text
import PivotedLU.Proofs.Binary.RoundingInterval
import PivotedLU.Proofs.Decimal.Shortest

/-!
# The Shortest Decimal of a Float

`Binary.roundingWindow` has what rounds to a magnitude, in a unit in which the magnitude and the
decimal grids down to its last place are whole numbers. So the point of a grid that
`RoundingWindow.shortest` chooses is rounded back to the magnitude, and no point of a coarser grid
is.

## Main definitions

* `Binary.ofDecimal`: a decimal, rounded into the format.

## Main results

* `Binary.contains_roundingWindow_iff`: the window has the numbers that round to its value.
* `Binary.ofDecimal_shortest`: the shortest decimal is rounded back.
* `Binary.exponent_le_shortest`: no decimal with a greater exponent is.
-/

namespace PivotedLU

open scoped StructuralPowers

namespace Binary

variable {F : Format} {quanta x : Nat}

/-- The factor of a significand of `quanta` in the window. -/
def placesFactor (F : Format) (quanta : Nat) : Nat :=
  if F.ulpExponent quanta < F.scale then 5 ^ (F.scale - F.ulpExponent quanta)
  else 2 ^ (F.ulpExponent quanta - F.scale)

/-- The factor `placesFactor F quanta` is not zero. -/
theorem placesFactor_pos (F : Format) (quanta : Nat) : 0 < placesFactor F quanta := by
  unfold placesFactor
  split
  · exact Nat.pow_pos (by decide)
  · exact Nat.two_pow_pos _

/-- A positive value of `quanta` has a significand `m` in steps of its spacing, which is normal
unless the spacing is the least one. -/
theorem exists_significand (hquanta : F.Represents quanta) (hpos : 0 < quanta) :
    ∃ m, quanta / F.ulp quanta = m ∧ quanta = m * 2 ^ F.ulpExponent quanta ∧ 0 < m ∧
      m < 2 * F.leastNormal ∧ (F.ulpExponent quanta = 0 ∨ F.leastNormal ≤ m) := by
  have hvalue : quanta = quanta / F.ulp quanta * 2 ^ F.ulpExponent quanta :=
    (Nat.div_mul_cancel hquanta.2).symm
  obtain ⟨hhigh, hlow⟩ := Format.ulpExponent_eq_iff.1 (Eq.refl (F.ulpExponent quanta))
  refine ⟨_, rfl, hvalue, Nat.div_pos (Format.ulp_le hpos) (F.ulp_pos quanta), ?_, ?_⟩
  · rw [Nat.div_lt_iff_lt_mul (F.ulp_pos quanta), F.two_mul_leastNormal, Format.ulp, ← Nat.pow_add]
    exact hhigh
  · rw [Nat.le_div_iff_mul_le (F.ulp_pos quanta), Format.leastNormal, Format.ulp, ← Nat.pow_add]
    exact hlow

/-- The rounding window of a value of `quanta` with the significand `m`, in quarters of its
spacing. -/
theorem roundingWindow_eq {m : Nat} (hm : quanta / F.ulp quanta = m) :
    roundingWindow F quanta =
      { low := (4 * m - if m = F.leastNormal ∧ 0 < F.ulpExponent quanta then 1 else 2) *
          placesFactor F quanta
        value := 4 * m * placesFactor F quanta
        high := (4 * m + 2) * placesFactor F quanta
        closed := decide (m % 2 = 0) } := by
  subst hm
  rfl

/-- **The rounding window has what rounds to its value:** a number `x` of the window stands for
`x * F.ulp quanta` parts in `4 * placesFactor F quanta`, and `nearest` takes it to `quanta`. -/
theorem contains_roundingWindow_iff (hquanta : F.Represents quanta) (hpos : 0 < quanta) :
    (roundingWindow F quanta).contains x = true ↔
      F.nearest (x * F.ulp quanta) (4 * placesFactor F quanta) = quanta := by
  obtain ⟨m, hm, hvalue, hmpos, hcount, hnormal⟩ := exists_significand hquanta hpos
  have hfactor := placesFactor_pos F quanta
  have hnearest : F.nearest (x * F.ulp quanta) (4 * placesFactor F quanta) =
      m * 2 ^ F.ulpExponent quanta ↔ _ :=
    Format.nearest_eq_iff (by omega) hcount hnormal rfl
  rw [← hvalue] at hnearest
  rw [hnearest, Format.ulp, roundsTo_mul_iff (Nat.two_pow_pos _), roundingWindow_eq hm]
  have hgap : (if m = F.leastNormal ∧ 0 < F.ulpExponent quanta then 1 else 2) ≤ 2 := by
    split <;> decide
  generalize (if m = F.leastNormal ∧ 0 < F.ulpExponent quanta then 1 else 2) = gap at *
  generalize placesFactor F quanta = factor at *
  -- the lower end is not cut off at zero
  have hbelow : gap * factor ≤ 4 * m * factor := Nat.mul_le_mul_right factor (by omega)
  rw [Nat.mul_assoc] at hbelow
  unfold RoundingWindow.contains RoundsTo
  simp only [Nat.sub_mul, Nat.add_mul, Nat.mul_assoc, Nat.mul_left_comm _ 4, decide_eq_true_eq]
  split <;> rw [decide_eq_true_eq] <;> omega

/-- The rounding window of a positive value of `quanta` is `Proper`. -/
theorem proper_roundingWindow (hquanta : F.Represents quanta) (hpos : 0 < quanta) :
    (roundingWindow F quanta).Proper := by
  obtain ⟨m, hm, -, hmpos, -, -⟩ := exists_significand hquanta hpos
  have hfactor := placesFactor_pos F quanta
  rw [roundingWindow_eq hm]
  refine ⟨Nat.mul_pos ?_ hfactor, Nat.mul_lt_mul_of_pos_right ?_ hfactor,
    Nat.mul_lt_mul_of_pos_right (by omega) hfactor⟩
  · split <;> omega
  · split <;> omega

/-- The finest grid has the value of the window: its significand is a whole number of units of
`4`. -/
theorem dvd_value_roundingWindow (F : Format) (quanta : Nat) :
    4 ∣ (roundingWindow F quanta).value := by
  rw [roundingWindow_eq rfl, Nat.mul_assoc]
  exact Nat.dvd_mul_right 4 _

/-! ## Decimals -/

/-- The number `coefficient * 10 ^ exponent` under a sign, rounded into the format. -/
def ofDecimal (negative : Bool) (d : Decimal) : Binary F :=
  ofQuotient negative (d.coefficient * 10 ^ d.exponent.toNat * 2 ^ F.scale)
    (10 ^ (-d.exponent).toNat)

/-- The decimal places of the finest grid. -/
def places (F : Format) (quanta : Nat) : Nat := F.scale - F.ulpExponent quanta

/-- A number of `steps` of the decimal grid `power`, in quanta and as a number of the rounding
window. -/
theorem nearest_decimal (F : Format) (quanta steps power : Nat) {exponent : Int}
    (h : exponent = (power : Int) - places F quanta) :
    F.nearest (steps * 10 ^ exponent.toNat * 2 ^ F.scale) (10 ^ (-exponent).toNat) =
      F.nearest (steps * (4 * 10 ^ power) * F.ulp quanta) (4 * placesFactor F quanta) := by
  have hfactor := placesFactor_pos F quanta
  refine Format.nearest_congr (Nat.pow_pos (by decide)) (by omega) ?_
  have hpowers : 10 ^ exponent.toNat * 2 ^ F.scale * placesFactor F quanta =
      10 ^ power * F.ulp quanta * 10 ^ (-exponent).toNat := by
    unfold placesFactor places Format.ulp at *
    split
    · next hlt =>
      -- the spacing is `1 / 2 ^ k`, which is `5 ^ k` units of the last of `k` places
      obtain ⟨k, hk⟩ : ∃ k, F.scale - F.ulpExponent quanta = k := ⟨_, rfl⟩
      have hscale : F.scale = F.ulpExponent quanta + k := by omega
      have hexponents : exponent.toNat + k = power + (-exponent).toNat := by omega
      have hten : 10 ^ k = 2 ^ k * 5 ^ k := by rw [← Nat.mul_pow]
      rw [hk, hscale, Nat.pow_add]
      calc 10 ^ exponent.toNat * (2 ^ F.ulpExponent quanta * 2 ^ k) * 5 ^ k
          = 10 ^ (exponent.toNat + k) * 2 ^ F.ulpExponent quanta := by
            rw [Nat.pow_add, hten]; ac_rfl
        _ = 10 ^ power * 2 ^ F.ulpExponent quanta * 10 ^ (-exponent).toNat := by
            rw [hexponents, Nat.pow_add]; ac_rfl
    · next hge =>
      -- the spacing is a whole number, and the grids have no places
      have hexponent : exponent.toNat = power ∧ (-exponent).toNat = 0 := by omega
      rw [hexponent.1, hexponent.2, Nat.pow_zero, Nat.mul_one, Nat.mul_assoc, ← Nat.pow_add]
      congr 2
      omega
  calc steps * 10 ^ exponent.toNat * 2 ^ F.scale * (4 * placesFactor F quanta)
      = steps * 4 * (10 ^ exponent.toNat * 2 ^ F.scale * placesFactor F quanta) := by ac_rfl
    _ = steps * (4 * 10 ^ power) * F.ulp quanta * 10 ^ (-exponent).toNat := by
        rw [hpowers]; ac_rfl

/-- The `shortest` decimal in steps of the grid that was chosen. -/
theorem exists_shortest (F : Format) (hpos : 0 < quanta) :
    (shortest F quanta).coefficient = ((roundingWindow F quanta).shortest 4).2 ∧
      (shortest F quanta).exponent =
        (((roundingWindow F quanta).shortest 4).1 : Int) - places F quanta := by
  unfold shortest
  rw [if_neg hpos.ne']
  exact ⟨rfl, rfl⟩

/-- **The shortest decimal is read back:** `ofDecimal` rounds `shortest F quanta` to `quanta`. -/
theorem ofDecimal_shortest (negative : Bool) (hquanta : F.Represents quanta) :
    ofDecimal negative (shortest F quanta) = .finite negative quanta hquanta := by
  rcases Nat.eq_zero_or_pos quanta with rfl | hpos
  · have hzero :
        ofDecimal negative (shortest F 0) = (ofQuotient negative (0 * 1 * _) 1 : Binary F) :=
      rfl
    rw [hzero, Nat.zero_mul, ofQuotient_zero negative Nat.one_pos]
    rfl
  · obtain ⟨hcoefficient, hexponent⟩ := exists_shortest F hpos
    have hnearest := nearest_decimal F quanta (shortest F quanta).coefficient _ hexponent
    have hcontains := (proper_roundingWindow hquanta hpos).contains_shortest
      (dvd_value_roundingWindow F quanta)
    rw [← hcoefficient, contains_roundingWindow_iff hquanta hpos, ← hnearest] at hcontains
    unfold ofDecimal ofQuotient
    rw [dif_pos (hcontains.symm ▸ hquanta.1)]
    congr 1

/-- **No coarser decimal is read back:** a decimal `d` that `ofDecimal` rounds to `quanta` has no
larger exponent than `shortest F quanta`. -/
theorem exponent_le_shortest {d : Decimal} {negative negative' : Bool}
    (hquanta : F.Represents quanta) (hpos : 0 < quanta)
    (h : ofDecimal negative d = .finite negative' quanta hquanta) :
    d.exponent ≤ (shortest F quanta).exponent := by
  obtain ⟨-, hexponent⟩ := exists_shortest F hpos
  refine Int.not_lt.1 fun hlt => ?_
  -- the grid of `d` is among those of the window
  obtain ⟨k, hk⟩ : ∃ k : Nat, d.exponent = (k : Int) - places F quanta :=
    ⟨(d.exponent + places F quanta).toNat, by omega⟩
  have hoff := (proper_roundingWindow hquanta hpos).not_contains_of_shortest_lt (by decide)
    (show ((roundingWindow F quanta).shortest 4).1 < k by omega) d.coefficient
  rw [Bool.eq_false_iff, ne_eq, contains_roundingWindow_iff hquanta hpos,
    ← nearest_decimal F quanta d.coefficient k hk] at hoff
  unfold ofDecimal ofQuotient at h
  split at h
  · injection h with _ hnearest
    exact hoff hnearest
  · cases h

end Binary

end PivotedLU
