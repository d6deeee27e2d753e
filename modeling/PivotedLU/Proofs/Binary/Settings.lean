import PivotedLU.Factorization.Settings
import PivotedLU.Proofs.Binary.Conversion
import PivotedLU.Proofs.Binary.Pivoting
import PivotedLU.Proofs.Stored.Factorization

/-!
# What Settings Factor

A tolerance is of use for a format if it is a positive finite number and if the format does not
round it to zero or to an infinity. Settings with any other tolerance refuse every matrix, and name
the tolerance as they hold it. Settings with a tolerance that is of use do what a run with the
rounded tolerance does: the parts that it leaves always fit together, and a breakdown is reported
with its numbers unchanged.

## Main definitions

* `Settings.Unusable`: the tolerance is of no use for a format.

## Main results

* `Settings.usable_iff`, `Settings.usable_iff_quanta`: what makes a tolerance usable, and the limits
  of the format as whole numbers.
* `Settings.factor_of_unusable`, `Settings.factor_of_usable`: what becomes of a matrix.
* `Settings.factor_decomposes`: factoring is decomposing with the rounded tolerance.
-/

namespace PivotedLU

open scoped StructuralPowers

variable {F : Format} {n : Nat}

namespace Settings

/-- The tolerance of `s` is of no use for matrices in `F`: it is not a positive finite number, or
`F` rounds it to a zero or to an infinity. -/
def Unusable (s : Settings) (F : Format) : Prop :=
  ¬(Binary.below 0 s.tolerance = true ∧ s.tolerance.isFinite = true) ∨
    ∃ negative, (s.tolerance.convert : Binary F) = .zero negative ∨
      (s.tolerance.convert : Binary F) = .infinity negative

instance (s : Settings) (F : Format) : Decidable (s.Unusable F) :=
  inferInstanceAs (Decidable (_ ∨ _))

variable {s : Settings}

/-! ## The limits of a tolerance -/

/-- Settings `s` are usable exactly if the tolerance is positive and finite, before and after it is
rounded into `F`. -/
theorem usable_iff : ¬s.Unusable F ↔
    (Binary.below 0 s.tolerance = true ∧ s.tolerance.isFinite = true) ∧
      Binary.below 0 (s.tolerance.convert : Binary F) = true ∧
      (s.tolerance.convert : Binary F).isFinite = true := by
  rw [Unusable, not_or, not_not]
  refine and_congr_right fun ⟨hpositive, hfinite⟩ => ?_
  obtain ⟨q, hq, htolerance⟩ := Binary.exists_eq_finite_of_positive hpositive hfinite
  have hrounded : (s.tolerance.convert : Binary F) =
      .ofQuotient false (q * 2 ^ F.scale) (2 ^ Format.binary64.scale) := by
    rw [htolerance]
    rfl
  rw [hrounded]
  exact (Binary.positive_iff_of_abs_eq (Binary.isNaN_ofQuotient _ _ _)
    (Binary.abs_ofQuotient _ _ _)).symm

/-- Settings `s` are usable exactly if the tolerance is more than half of the smallest quantum of
`F`, and less than half a step beyond `F.largest`. -/
theorem usable_iff_quanta : ¬s.Unusable F ↔
    ∃ (quanta : Nat) (represents : Format.binary64.Represents quanta),
      s.tolerance = .finite false quanta represents ∧
      2 ^ Format.binary64.scale < 2 * (quanta * 2 ^ F.scale) ∧
      2 * (quanta * 2 ^ F.scale) <
        (2 * F.largest + F.ulp F.largest) * 2 ^ Format.binary64.scale := by
  have hden : 0 < 2 ^ Format.binary64.scale := Nat.two_pow_pos _
  rw [usable_iff]
  constructor
  · rintro ⟨⟨hpositive, hfinite⟩, hrounded⟩
    obtain ⟨q, hq, htolerance⟩ := Binary.exists_eq_finite_of_positive hpositive hfinite
    rw [htolerance] at hrounded
    exact ⟨q, hq, htolerance, (Binary.positive_ofQuotient_iff hden).1 hrounded⟩
  · rintro ⟨q, hq, htolerance, hlimits⟩
    -- the lower limit excludes zero
    have hpos : 0 < q := by
      rcases Nat.eq_zero_or_pos q with rfl | hpos
      · rw [Nat.zero_mul] at hlimits
        omega
      · exact hpos
    rw [htolerance]
    exact ⟨⟨(Binary.zero_below_finite_iff hq).2 hpos, rfl⟩,
      (Binary.positive_ofQuotient_iff hden).2 hlimits⟩

/-- Double precision has no limits of its own for the tolerance of `s`. -/
theorem usable_binary64_iff : ¬s.Unusable .binary64 ↔
    Binary.below 0 s.tolerance = true ∧ s.tolerance.isFinite = true := by
  rw [usable_iff, Binary.convert_self, and_self]

/-! ## Refusals and runs -/

/-- What is checked of the tolerance of `s` is what makes it usable. -/
theorem usable_iff_checks : ¬s.Unusable F ↔
    (s.tolerance.isPositiveFinite && (s.tolerance.convert : Binary F).isPositiveFinite) = true := by
  rw [usable_iff]
  simp only [Binary.isPositiveFinite, Bool.and_eq_true]

theorem toleranceIn_of_usable (h : ¬s.Unusable F) : s.toleranceIn F = .ok s.tolerance.convert :=
  if_pos (usable_iff_checks.1 h)

theorem toleranceIn_of_unusable (h : s.Unusable F) :
    s.toleranceIn F = .error (.unusableTolerance s.tolerance) :=
  if_neg fun hchecks => usable_iff_checks.2 hchecks h

/-- Unusable settings `s` refuse every `A` without looking at it. -/
theorem factor_of_unusable (h : s.Unusable F) (A : DenseMatrix n (Binary F)) :
    s.factor A = .error (.unusableTolerance s.tolerance) := by
  rw [factor, toleranceIn_of_unusable h]
  rfl

theorem factor_of_usable (h : ¬s.Unusable F) (A : DenseMatrix n (Binary F)) :
    s.factor A =
      (Factorization.ofMatrix s.tolerance.convert A).mapError Error.ofBreakdown := by
  rw [factor, toleranceIn_of_usable h]
  rfl

theorem factor_of_ok (h : ¬s.Unusable F) {A : DenseMatrix n (Binary F)} {p : RowOrder n}
    (hp : (Elimination.decompose s.tolerance.convert A).outcome = .ok p) :
    s.factor A = .ok ⟨(Elimination.decompose s.tolerance.convert A).matrix, p⟩ := by
  rw [factor_of_usable h, Factorization.ofMatrix, hp]
  rfl

/-- If the run under the rounded tolerance breaks down with `b`, so does `factor`. -/
theorem factor_of_error (h : ¬s.Unusable F) {A : DenseMatrix n (Binary F)}
    {b : Elimination.Breakdown n (Binary F)}
    (hb : (Elimination.decompose s.tolerance.convert A).outcome = .error b) :
    s.factor A = .error (Error.ofBreakdown b) := by
  rw [factor_of_usable h, Factorization.ofMatrix, hb]
  rfl

/-- The tolerance of `s` is refused exactly if it is `Unusable`, and it is named as it is held. -/
theorem factor_eq_unusable_iff {A : DenseMatrix n (Binary F)} {value : Binary64} :
    s.factor A = .error (.unusableTolerance value) ↔ s.Unusable F ∧ value = s.tolerance := by
  by_cases h : s.Unusable F
  · rw [factor_of_unusable h]
    simp [h, eq_comm]
  · refine ⟨fun hrefused => ?_, fun hunusable => absurd hunusable.1 h⟩
    rcases Elimination.outcome_eq_ok_or_error s.tolerance.convert A with ⟨p, hp⟩ | ⟨b, hb⟩
    · rw [factor_of_ok h hp] at hrefused
      cases hrefused
    · rw [factor_of_error h hb] at hrefused
      cases hrefused

/-- After a run under a `tolerance` above `0`, no diagonal entry is below it in magnitude. -/
theorem atMost_diagonal {tolerance : Binary F} (ht : Binary.below 0 tolerance = true)
    {A : DenseMatrix n (Binary F)} {p : RowOrder n}
    (hp : (Elimination.decompose tolerance A).outcome = .ok p) (i : Fin n) :
    Binary.atMost tolerance ((Elimination.decompose tolerance A).matrix.entry i i).abs = true := by
  obtain ⟨t, ht', hmatrix⟩ := Elimination.exists_reached_matrix_of_ok hp
  rw [← hmatrix]
  exact (Binary.atMost_of_not_below ht
    (ht'.diagonal_not_negligible Binary.strictComparison ht i.isLt)
    (ht'.diagonal_not_below ht i.isLt)).2.2

/-- **Factoring is decomposing with the rounded tolerance.** By `withTolerance` settings are made
with exactly the values above `0` that are finite, but `s` may hold any other one. Let double
precision hold the values of `F`.

- The settings `s` refuse `A` for its tolerance exactly if they are `Unusable` for `F`, and the
  refusal names the tolerance as it is held.
- Otherwise the rounded tolerance is above `0`, and the answer is what the run with it finds: the
  matrix that it leaves and the order `p` that it returns, which fit together, with a diagonal that
  is not below the tolerance; or its breakdown `b`, whose numbers are widened without a loss. -/
theorem factor_decomposes (hF : F.Within .binary64) :
    (∀ value : Binary64, withTolerance value =
      if Binary.below 0 value = true ∧ value.isFinite = true then .ok ⟨value⟩
      else .error (.unusableTolerance value)) ∧
    ∀ (s : Settings) (n : Nat) (A : DenseMatrix n (Binary F)),
      (∀ value, s.factor A = .error (.unusableTolerance value) ↔
        s.Unusable F ∧ value = s.tolerance) ∧
      (¬s.Unusable F →
        let tolerance : Binary F := s.tolerance.convert
        let run := Elimination.decompose tolerance A
        Binary.below 0 tolerance = true ∧
        (∀ p, run.outcome = .ok p → ∃ f, s.factor A = .ok f ∧ f.lu = run.matrix ∧ f.order = p ∧
          (Stored.decompose tolerance).run A.toLists = .ok (.ok p.stored) run.matrix.toLists ∧
          Stored.Factors.fromParts run.matrix.toLists p.stored = .ok f.stored ∧
          ∀ i, Binary.atMost tolerance (f.upper.entry i i).abs = true) ∧
        ∀ b, run.outcome = .error b →
          s.factor A = .error (.degenerate b.column b.pivot.convert b.tolerance.convert) ∧
          b.tolerance = tolerance ∧
          ((b.pivot.convert : Binary64).convert : Binary F) = b.pivot ∧
          ((b.tolerance.convert : Binary64).convert : Binary F) = b.tolerance) := by
  refine ⟨fun value => ?_, fun s n A => ⟨fun value => factor_eq_unusable_iff, fun h => ?_⟩⟩
  · simp only [withTolerance, Binary.isPositiveFinite, Bool.and_eq_true]
  · intro tolerance run
    have ht : Binary.below 0 tolerance = true := (usable_iff.1 h).2.1
    refine ⟨ht, fun p hp => ?_, fun b hb => ?_⟩
    · refine ⟨⟨run.matrix, p⟩, factor_of_ok h hp, rfl, rfl, Stored.run_decompose_of_ok hp,
        Stored.fromParts_of_size _ p, fun i => ?_⟩
      rw [Factorization.entry_upper_self]
      exact atMost_diagonal ht hp i
    · exact ⟨factor_of_error h hb, Elimination.tolerance_eq_of_error hb,
        Binary.convert_convert hF _, Binary.convert_convert hF _⟩

/-- The tolerance `half` is half of the smallest quantum of single precision and is refused. The
next double is rounded to this quantum, and used to find a pivot and to refuse a column of zeros. -/
theorem factor_decomposes_smallest :
    let half : Settings := ⟨.ofQuotient false (2 ^ 924) 1⟩
    let s : Settings := ⟨.ofQuotient false (2 ^ 924 + 2 ^ 872) 1⟩
    let A : DenseMatrix 2 Binary32 := ⟨#v[#v[0, 1], #v[1, 1]]⟩
    let Z : DenseMatrix 2 Binary32 := ⟨#v[#v[0, 1], #v[0, 1]]⟩
    half.factor Z = .error (.unusableTolerance half.tolerance) ∧
      (∃ f, s.factor A = .ok f ∧ f.order = (RowOrder.identity 2).exchange 0 1 ∧
        ∀ i, Binary.atMost s.tolerance.convert (f.upper.entry i i).abs = true) ∧
      s.factor Z = .error (.degenerate 0 0 (.ofQuotient false (2 ^ 925) 1)) := by
  intro half s A Z
  have hF : Format.binary32.Within .binary64 := by decide
  have hhalf : half.Unusable .binary32 := by decide +kernel
  have hs : ¬s.Unusable .binary32 := by decide +kernel
  have hA : (Elimination.decompose s.tolerance.convert A).outcome =
      .ok ((RowOrder.identity 2).exchange 0 1) := by
    decide +kernel
  have hZ : (Elimination.decompose s.tolerance.convert Z).outcome =
      .error ⟨0, 0, s.tolerance.convert⟩ := by
    decide +kernel
  have hzero : ((0 : Binary32).convert : Binary64) = 0 := by decide +kernel
  have hquantum : ((s.tolerance.convert : Binary32).convert : Binary64) =
      .ofQuotient false (2 ^ 925) 1 := by
    decide +kernel
  obtain ⟨hok, herror⟩ := (((factor_decomposes hF).2 s 2 A).2 hs).2
  obtain ⟨f, hf, -, horder, -, -, hdiagonal⟩ := hok _ hA
  refine ⟨(((factor_decomposes hF).2 half 2 Z).1 _).2 ⟨hhalf, rfl⟩, ⟨f, hf, horder, hdiagonal⟩, ?_⟩
  have hrefused := ((((factor_decomposes hF).2 s 2 Z).2 hs).2.2 _ hZ).1
  clear_value s
  rwa [hzero, hquantum] at hrefused

-- at the other end, half a step beyond the largest magnitude, and the double before
example :
    (⟨.ofQuotient false ((2 ^ 25 - 1) * 2 ^ 1177) 1⟩ : Settings).Unusable .binary32 ∧
      ¬(⟨.ofQuotient false ((2 ^ 25 - 1) * 2 ^ 1177 - 2 ^ 1149) 1⟩ : Settings).Unusable
        .binary32 := by
  decide +kernel

end Settings

end PivotedLU
