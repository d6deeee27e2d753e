import PivotedLU.Proofs.Binary.Shortest
import PivotedLU.Proofs.Decimal.Layout

/-!
# The Texts of a Float

`Binary.plain`, `Binary.scientific` and `Binary.literal` lay the same shortest decimal out in three
ways. A reader of numbers takes the whole of each text, and what it reads rounds to the float again,
sign included. So a text of one of these kinds belongs to one float only. `Binary.fixed` drops
digits: what is read from its text is the exact value, rounded to the given number of places.

## Main definitions

* `Binary.ReadsAs`: a text is read completely, as a number that rounds to a float.

## Main results

* `Binary.readsAs_plain`, `Binary.readsAs_scientific`, `Binary.readsAs_literal`: finite floats are
  read back from their texts.
* `Binary.plain_injective`, `Binary.scientific_injective`, `Binary.literal_injective`: different
  floats have different texts.
* `Binary.exists_read_fixed`: what is read from a text with a fixed number of places.
* `Binary.blank_not_mem_literal`: a text of `Binary.literal` has no blank.
-/

namespace PivotedLU

open scoped StructuralPowers

namespace Binary

open Json

variable {F : Format}

/-- Decimals `d` and `d'` that are the `Same` number are rounded to one float. -/
theorem ofDecimal_congr {d d' : Decimal} (negative : Bool) (h : d.Same d') :
    (ofDecimal negative d : Binary F) = ofDecimal negative d' := by
  have hten : ∀ k, 0 < 10 ^ k := fun k => Nat.pow_pos (by decide)
  have hnearest : F.nearest (d.coefficient * 10 ^ d.exponent.toNat * 2 ^ F.scale)
        (10 ^ (-d.exponent).toNat) =
      F.nearest (d'.coefficient * 10 ^ d'.exponent.toNat * 2 ^ F.scale)
        (10 ^ (-d'.exponent).toNat) := by
    refine Format.nearest_congr (hten _) (hten _) ?_
    have hexponents : d.exponent.toNat + (-d'.exponent).toNat + (d'.exponent - d.exponent).toNat =
        d'.exponent.toNat + (-d.exponent).toNat + (d.exponent - d'.exponent).toNat := by
      omega
    have hpowers := congrArg (10 ^ ·) hexponents
    simp only [Nat.pow_add] at hpowers
    -- with one more power of ten on both sides, both have the coefficient of the smaller exponent
    refine Nat.eq_of_mul_eq_mul_right (hten (d'.exponent - d.exponent).toNat) ?_
    calc d.coefficient * 10 ^ d.exponent.toNat * 2 ^ F.scale * 10 ^ (-d'.exponent).toNat *
          10 ^ (d'.exponent - d.exponent).toNat
        = d.coefficient * 2 ^ F.scale * (10 ^ d.exponent.toNat * 10 ^ (-d'.exponent).toNat *
            10 ^ (d'.exponent - d.exponent).toNat) := by ac_rfl
      _ = d.coefficient * 10 ^ (d.exponent - d'.exponent).toNat * 2 ^ F.scale *
            (10 ^ d'.exponent.toNat * 10 ^ (-d.exponent).toNat) := by rw [hpowers]; ac_rfl
      _ = d'.coefficient * 10 ^ d'.exponent.toNat * 2 ^ F.scale * 10 ^ (-d.exponent).toNat *
            10 ^ (d'.exponent - d.exponent).toNat := by rw [h]; ac_rfl
  simp only [ofDecimal, ofQuotient, hnearest]

/-! ## Reading back -/

/-- `readNumber` takes the whole of `text`, and the number that it reads rounds to `x`. -/
def ReadsAs (text : String) (x : Binary F) : Prop :=
  ∃ l : Literal, readNumber text.toList = .ok (l, []) ∧ ofDecimal l.negative l.decimal = x

/-- A `text` is read as one float at most. -/
theorem ReadsAs.unique {text : String} {x y : Binary F} (hx : ReadsAs text x)
    (hy : ReadsAs text y) : x = y := by
  obtain ⟨l, hl, rfl⟩ := hx
  obtain ⟨l', hl', rfl⟩ := hy
  rw [hl] at hl'
  cases hl'
  rfl

/-- A text that `Spells` the decimal `d` is read, under a sign, as what `d` rounds to. -/
theorem readsAs_of_spells {text : List Char} {d : Decimal} (h : Decimal.Spells text d)
    (negative : Bool) :
    ReadsAs (String.ofList (if negative then '-' :: text else text))
      (ofDecimal negative d : Binary F) := by
  obtain ⟨l, hl, rfl, rfl, hsame⟩ := h negative
  refine ⟨l, ?_, ofDecimal_congr l.negative hsame⟩
  rw [String.toList_ofList]
  exact hl.readNumber

/-- If a layout of `shortest F quanta` stands in the text of a finite float, the float is read. -/
theorem readsAs_of_shortest {text : List Char} {negative : Bool} {quanta : Nat}
    (hquanta : F.Represents quanta) (h : Decimal.Spells text (shortest F quanta)) :
    ReadsAs (String.ofList (if negative then '-' :: text else text))
      (finite negative quanta hquanta) := by
  rw [← ofDecimal_shortest negative hquanta]
  exact readsAs_of_spells h negative

/-- **A finite `x` is read back from `x.plain`.** -/
theorem readsAs_plain {x : Binary F} (hx : x.isFinite = true) : ReadsAs x.plain x := by
  cases x with
  | nan => cases hx
  | infinity negative => cases hx
  | finite negative quanta hquanta =>
    exact readsAs_of_shortest hquanta (Decimal.spells_positional (shortest F quanta))

/-- **A finite `x` is read back from `x.scientific`.** -/
theorem readsAs_scientific {x : Binary F} (hx : x.isFinite = true) : ReadsAs x.scientific x := by
  cases x with
  | nan => cases hx
  | infinity negative => cases hx
  | finite negative quanta hquanta =>
    exact readsAs_of_shortest hquanta (Decimal.spells_scientific (shortest F quanta))

/-- Whichever layout `literal` takes, it spells the shortest decimal. -/
theorem exists_spells_literal (negative : Bool) {quanta : Nat} (hquanta : F.Represents quanta) :
    ∃ text, Decimal.Spells text (shortest F quanta) ∧
      (finite negative quanta hquanta).literal =
        String.ofList (if negative then '-' :: text else text) := by
  refine ⟨_, ?_, rfl⟩
  -- without an exponent, a whole number gets `.0` behind it
  dsimp only
  split
  · split
    · exact Decimal.spells_positional _
    · next hplaces => exact Decimal.spells_positional_append _ (Bool.eq_false_iff.2 hplaces)
  · exact Decimal.spells_scientific _

/-- **A finite `x` is read back from `x.literal`.** -/
theorem readsAs_literal {x : Binary F} (hx : x.isFinite = true) : ReadsAs x.literal x := by
  cases x with
  | nan => cases hx
  | infinity negative => cases hx
  | finite negative quanta hquanta =>
    obtain ⟨text, hspells, htext⟩ := exists_spells_literal negative hquanta
    rw [htext]
    exact readsAs_of_shortest hquanta hspells

/-! ## Different floats -/

/-- The text of a value that is not finite. -/
def name? : Binary F → Option String
  | .nan => some "NaN"
  | .infinity false => some "inf"
  | .infinity true => some "-inf"
  | .finite .. => none

/-- A name of `name?` is not read as a number. -/
theorem not_readsAs_name {x y : Binary F} {text : String} (h : x.name? = some text) :
    ¬ReadsAs text y := by
  have hnan : readNumber "NaN".toList = .error (.stop .malformed) := rfl
  have hinf : readNumber "inf".toList = .error (.stop .malformed) := rfl
  have hneg : readNumber "-inf".toList = .error (.stop .malformed) := rfl
  rintro ⟨l, hl, -⟩
  cases x with
  | nan =>
    cases h
    rw [hnan] at hl
    cases hl
  | infinity negative =>
    cases negative <;> cases h
    · rw [hinf] at hl
      cases hl
    · rw [hneg] at hl
      cases hl
  | finite negative quanta hquanta => cases h

/-- Values `x` and `y` with one name are equal. -/
theorem eq_of_name? {x y : Binary F} {text : String} (hx : x.name? = some text)
    (hy : y.name? = some text) : x = y := by
  have h : x.name? = y.name? := hx.trans hy.symm
  cases x with
  | nan =>
    cases y with
    | nan => rfl
    | infinity b => cases b <;> exact absurd h (by simp [name?])
    | finite negative quanta hquanta => cases hy
  | infinity a =>
    cases y with
    | nan => cases a <;> exact absurd h (by simp [name?])
    | infinity b => cases a <;> cases b <;> first | rfl | exact absurd h (by simp [name?])
    | finite negative quanta hquanta => cases hy
  | finite negative quanta hquanta => cases hx

/-- A way to `write` floats is injective if it names what is not finite, and if what it writes of a
finite float is read back. -/
theorem injective_of_readsAs {write : Binary F → String}
    (hname : ∀ x, x.isFinite = false → x.name? = some (write x))
    (hread : ∀ x, x.isFinite = true → ReadsAs (write x) x) {x y : Binary F}
    (h : write x = write y) : x = y := by
  cases hx : x.isFinite with
  | true =>
    cases hy : y.isFinite with
    | true => exact (hread x hx).unique (h ▸ hread y hy)
    | false => exact absurd (h ▸ hread x hx) (not_readsAs_name (hname y hy))
  | false =>
    cases hy : y.isFinite with
    | true => exact absurd (h ▸ hread y hy) (not_readsAs_name (hname x hx))
    | false => exact eq_of_name? (hname x hx) (h ▸ hname y hy)

/-- In all four texts, an `x` that is not finite is written by its `name?`. -/
theorem name?_eq_of_not_finite {x : Binary F} (hx : x.isFinite = false) :
    x.name? = some x.plain ∧ x.name? = some x.scientific ∧ x.name? = some x.literal ∧
      ∀ places, x.name? = some (x.fixed places) := by
  cases x with
  | nan => exact ⟨rfl, rfl, rfl, fun _ => rfl⟩
  | infinity negative =>
    cases negative
    · exact ⟨rfl, rfl, rfl, fun _ => rfl⟩
    · exact ⟨rfl, rfl, rfl, fun _ => rfl⟩
  | finite negative quanta hquanta => cases hx

/-- **Different floats have different texts** `plain`. -/
theorem plain_injective {x y : Binary F} (h : x.plain = y.plain) : x = y :=
  injective_of_readsAs (fun _ hx => (name?_eq_of_not_finite hx).1) (fun _ => readsAs_plain) h

/-- **Different floats have different texts** `scientific`. -/
theorem scientific_injective {x y : Binary F} (h : x.scientific = y.scientific) : x = y :=
  injective_of_readsAs (fun _ hx => (name?_eq_of_not_finite hx).2.1)
    (fun _ => readsAs_scientific) h

/-- **Different floats have different texts** `literal`. -/
theorem literal_injective {x y : Binary F} (h : x.literal = y.literal) : x = y :=
  injective_of_readsAs (fun _ hx => (name?_eq_of_not_finite hx).2.2.1) (fun _ => readsAs_literal) h

-- `1819180.25` lies halfway between the two shortest decimals that are read back as it
example : (div (ofNat 7276721) (ofNat 4) : Binary32).plain = "1819180.3" := by decide +kernel

-- the ends of the range that `literal` writes positionally
example : (ofNat (10 ^ (16 : Nat) - 2) : Binary64).literal = "9999999999999998.0" ∧
    (leastScientific : Binary64).literal = "1e16" := by decide +kernel

/-! ## A fixed number of places -/

/-- **What `fixed` writes.** Of a magnitude of `quanta`, a text with `places` places shows as many
units of the last place as the exact value rounds to, under the sign of the float. -/
theorem exists_read_fixed (places : Nat) (negative : Bool) {quanta : Nat}
    (hquanta : F.Represents quanta) :
    ∃ (l : Literal) (units : Nat),
      readNumber ((finite negative quanta hquanta).fixed places).toList = .ok (l, []) ∧
        l.negative = negative ∧ l.decimal.Same ⟨units, -places⟩ ∧
        RoundsTo (quanta * 10 ^ places) (2 ^ F.scale) units 2 := by
  obtain ⟨units, hunits⟩ : ∃ units, roundHalfEven (quanta * 10 ^ places) (2 ^ F.scale) = units :=
    ⟨_, rfl⟩
  obtain ⟨l, hl, hnegative, htext, hsame⟩ := Decimal.spells_fixedPlaces units places negative
  refine ⟨l, units, ?_, hnegative, hsame, (roundHalfEven_eq_iff (Nat.two_pow_pos _)).1 hunits⟩
  have hfixed : (finite negative quanta hquanta).fixed places =
      String.ofList (if l.negative then '-' :: l.text else l.text) := by
    rw [hnegative, htext, ← hunits]
    rfl
  rw [hfixed, String.toList_ofList]
  exact hl.readNumber

-- the sign stays when every digit is rounded away
example : (neg (div one (ofNat 25)) : Binary64).fixed 1 = "-0.0" := by decide +kernel

/-! ## Characters -/

/-- There is no blank in `x.literal`. -/
theorem blank_not_mem_literal (x : Binary F) : ' ' ∉ x.literal.toList := by
  cases x with
  | nan => exact (by decide : ' ' ∉ "NaN".toList)
  | infinity negative =>
    cases negative with
    | false => exact (by decide : ' ' ∉ "inf".toList)
    | true => exact (by decide : ' ' ∉ "-inf".toList)
  | finite negative quanta hquanta =>
    obtain ⟨text, hspells, htext⟩ := exists_spells_literal negative hquanta
    rw [htext, String.toList_ofList]
    intro hblank
    have hmem : ' ' ∈ text := by
      cases negative with
      | true => exact (List.mem_cons.1 hblank).resolve_left (by decide)
      | false => exact hblank
    exact absurd (hspells.isDigit_or_of_mem hmem) (by decide)

end Binary

end PivotedLU
