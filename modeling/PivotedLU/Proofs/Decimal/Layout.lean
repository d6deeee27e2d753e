import PivotedLU.Decimal.Layout
import PivotedLU.Json.Reading.Number

/-!
# Layouts Are Read Back

Every layout of a decimal is a number of JSON: `Json.readNumber` takes the whole of it, and the
literal that it returns has the value of the decimal.

## Main definitions

* `Decimal.Same`: two decimals are one number.
* `Json.Literal.text`, `Json.Literal.decimal`: a literal as it is written, and its value.
* `Json.Literal.WellFormed`: a literal that can have been read.
* `Decimal.Spells`: a text is that of a literal with the value of a decimal.

## Main results

* `Json.Literal.WellFormed.readNumber`: a literal is read back from its text.
* `Decimal.spells_positional`, `Decimal.spells_scientific`, `Decimal.spells_fixedPlaces`: what the
  layouts write.
-/

namespace PivotedLU

open scoped StructuralPowers

namespace Decimal

/-- Both `d` and `d'` are one number: with the smaller of their exponents, they have one
coefficient. -/
def Same (d d' : Decimal) : Prop :=
  d.coefficient * 10 ^ (d.exponent - d'.exponent).toNat =
    d'.coefficient * 10 ^ (d'.exponent - d.exponent).toNat

/-! ## Digits -/

theorem digits_ne_nil (n : Nat) : digits n ≠ [] :=
  Nat.toDigits_ne_nil

theorem isDigit_of_mem_digits {n : Nat} {c : Char} (h : c ∈ digits n) : c.isDigit = true :=
  Nat.isDigit_of_mem_toDigits (by decide) (by decide) h

/-- Only `digits 0` begins with a zero, and it has no other digit. -/
theorem eq_nil_of_digits_eq_cons {n : Nat} {rest : List Char} (h : digits n = '0' :: rest) :
    rest = [] := by
  induction n using Nat.strongRecOn generalizing rest with
  | ind n ih =>
    unfold digits at h ih
    rw [Nat.toDigits_eq_if (by decide)] at h
    split at h
    · exact (List.cons.inj h).2.symm
    · next hten =>
      exfalso
      obtain ⟨c, t, ht⟩ := List.exists_cons_of_ne_nil (Nat.toDigits_ne_nil (b := 10) (n := n / 10))
      rw [ht] at h
      obtain ⟨rfl, -⟩ := List.cons.inj h
      -- what stands before the last digit would be zero, and `n` has at least two digits
      rw [ih (n / 10) (by omega) ht] at ht
      have hvalue := Nat.ofDigitChars_ten_toDigits (n := n / 10)
      rw [ht] at hvalue
      have hzero : Nat.ofDigitChars 10 ['0'] 0 = 0 := rfl
      omega

end Decimal

namespace Json

/-- The value of `xs ++ ys`: the digits `xs` count as many tens as there are digits `ys`. -/
theorem ofDigits_append (xs ys : List Char) :
    ofDigits (xs ++ ys) = ofDigits xs * 10 ^ ys.length + ofDigits ys := by
  have hrest : Nat.ofDigitChars 10 ys (ofDigits xs) =
      10 ^ ys.length * ofDigits xs + Nat.ofDigitChars 10 ys 0 :=
    Nat.ofDigitChars_eq_ofDigitChars_zero
  rw [ofDigits, List.foldl_append, Nat.mul_comm]
  exact hrest

theorem ofDigits_digits (n : Nat) : ofDigits (Decimal.digits n) = n :=
  Nat.ofDigitChars_ten_toDigits

theorem ofDigits_zeros (k : Nat) : ofDigits (List.replicate k '0') = 0 := by
  have hzeros : Nat.ofDigitChars 10 (List.replicate k '0') 0 = 10 ^ k * 0 :=
    Nat.ofDigitChars_replicate_zero
  exact hzeros.trans (Nat.mul_zero _)

/-! ## The parts of a number -/

variable {ds rest : List Char}

/-- The characters of `ds` are digits, and `rest` does not begin with one: `spanDigits` takes
`ds`. -/
theorem spanDigits_append (hds : ∀ c ∈ ds, c.isDigit = true)
    (hrest : ∀ c ∈ rest.head?, c.isDigit = false) : spanDigits (ds ++ rest) = (ds, rest) := by
  have hnone : rest.takeWhile Char.isDigit = [] ∧ rest.dropWhile Char.isDigit = rest := by
    cases rest with
    | nil => exact ⟨rfl, rfl⟩
    | cons c t =>
      have hc := hrest c rfl
      exact ⟨List.takeWhile_cons_of_neg (by simp [hc]), List.dropWhile_cons_of_neg (by simp [hc])⟩
  rw [spanDigits, List.takeWhile_append_of_pos hds, List.dropWhile_append_of_pos hds, hnone.1,
    hnone.2, List.append_nil]

/-- Digits `ds` are read up to a `rest` that does not begin with one. -/
theorem readDigits_append (hne : ds ≠ []) (hds : ∀ c ∈ ds, c.isDigit = true)
    (hrest : ∀ c ∈ rest.head?, c.isDigit = false) :
    readDigits (ds ++ rest) = .ok (ds, rest) := by
  rw [readDigits, spanDigits_append hds hrest]
  cases ds with
  | nil => exact absurd rfl hne
  | cons c t => rfl

/-- Digits `ds` without a needless zero are read up to a `rest` that does not begin with one. -/
theorem readWhole_append (hne : ds ≠ []) (hds : ∀ c ∈ ds, c.isDigit = true)
    (hzero : ∀ t, ds = '0' :: t → t = []) (hrest : ∀ c ∈ rest.head?, c.isDigit = false) :
    readWhole (ds ++ rest) = .ok (ds, rest) := by
  rw [readWhole, readDigits_append hne hds hrest]
  split
  · next heq =>
    cases heq
    exact absurd (hzero _ rfl) (List.cons_ne_nil _ _)
  · rfl

/-- The point and the digits of `fraction` behind it, if there are any. -/
def fractionText (fraction : List Char) : List Char :=
  if fraction.isEmpty then [] else '.' :: fraction

/-- The exponent behind its letter, if there is one. -/
def exponentText : Option Int → List Char
  | none => []
  | some e => 'e' :: Decimal.scientific.exponentDigits e

/-- The text of a `fraction` is read up to a `rest` that begins with no digit and no point. -/
theorem readFraction_append {fraction : List Char} (hds : ∀ c ∈ fraction, c.isDigit = true)
    (hrest : ∀ c ∈ rest.head?, c.isDigit = false ∧ c ≠ '.') :
    readFraction (fractionText fraction ++ rest) = .ok (fraction, rest) := by
  cases fraction with
  | nil =>
    cases rest with
    | nil => rfl
    | cons c t =>
      have hpoint := (hrest c rfl).2
      unfold readFraction
      split
      · next heq => exact absurd (List.cons.inj heq).1 hpoint
      · rfl
  | cons c t => exact readDigits_append (List.cons_ne_nil c t) hds fun c hc => (hrest c hc).1

/-- The text of an exponent, if there is one, is read to its end. -/
theorem readExponent_text (exponent? : Option Int) :
    readExponent (exponentText exponent?) = .ok (exponent?, []) := by
  cases exponent? with
  | none => rfl
  | some e =>
    have hread : ∀ n, readDigits (Decimal.digits n) = .ok (Decimal.digits n, []) := by
      intro n
      have h : readDigits (Decimal.digits n ++ []) = .ok (Decimal.digits n, []) :=
        readDigits_append (Decimal.digits_ne_nil n)
          (fun c hc => Decimal.isDigit_of_mem_digits hc) (fun c hc => nomatch hc)
      rwa [List.append_nil] at h
    cases e with
    | ofNat n =>
      -- a digit is no sign
      have hsign : readSign (Decimal.digits n) = (false, Decimal.digits n) := by
        unfold readSign
        split
        · next heq =>
          have hminus := Decimal.isDigit_of_mem_digits (heq ▸ List.mem_cons_self)
          exact absurd hminus (by decide)
        · next heq =>
          have hplus := Decimal.isDigit_of_mem_digits (heq ▸ List.mem_cons_self)
          exact absurd hplus (by decide)
        · rfl
      have hvalue : (ofDigits (Decimal.digits n) : Int) = Int.ofNat n :=
        congrArg Int.ofNat (ofDigits_digits n)
      change readExponent ('e' :: Decimal.digits n) = _
      rw [readExponent, if_pos (Or.inl rfl), hsign]
      dsimp only
      rw [hread, ← hvalue]
      rfl
    | negSucc n =>
      have hsign : readSign ('-' :: Decimal.digits (n + 1)) = (true, Decimal.digits (n + 1)) := rfl
      have hvalue : -(ofDigits (Decimal.digits (n + 1)) : Int) = Int.negSucc n := by
        rw [ofDigits_digits]
        rfl
      change readExponent ('e' :: '-' :: Decimal.digits (n + 1)) = _
      rw [readExponent, if_pos (Or.inl rfl), hsign]
      dsimp only
      rw [hread, ← hvalue]
      rfl

namespace Literal

/-- The literal `l` could have been read: it has digits before the point, without a needless zero,
and its other characters are digits as well. -/
structure WellFormed (l : Literal) : Prop where
  whole_ne_nil : l.whole ≠ []
  whole_digits : ∀ c ∈ l.whole, c.isDigit = true
  whole_zero : ∀ t, l.whole = '0' :: t → t = []
  fraction_digits : ∀ c ∈ l.fraction, c.isDigit = true

/-- The literal `l` as it is written, without its sign. -/
def text (l : Literal) : List Char :=
  l.whole ++ (fractionText l.fraction ++ exponentText l.exponent?)

/-- The number that `l` writes, without its sign. -/
def decimal (l : Literal) : Decimal where
  coefficient := ofDigits (l.whole ++ l.fraction)
  exponent := l.exponent?.getD 0 - l.fraction.length

variable {l : Literal}

/-- A `WellFormed` literal without its sign is read back from its text. -/
theorem WellFormed.readMagnitude (h : l.WellFormed) :
    readMagnitude l.negative l.text = .ok (l, []) := by
  -- neither the point nor the letter of an exponent can be taken for a digit
  have hexponent : ∀ c ∈ (exponentText l.exponent?).head?, c.isDigit = false ∧ c ≠ '.' := by
    cases l.exponent? with
    | none => exact fun c hc => nomatch hc
    | some e =>
      intro c hc
      cases hc
      decide
  have hfraction : ∀ c ∈ (fractionText l.fraction ++ exponentText l.exponent?).head?,
      c.isDigit = false := by
    cases l.fraction with
    | nil => exact fun c hc => (hexponent c hc).1
    | cons d t =>
      intro c hc
      cases hc
      decide
  unfold Json.readMagnitude
  rw [text, readWhole_append h.whole_ne_nil h.whole_digits h.whole_zero hfraction]
  dsimp only
  rw [readFraction_append h.fraction_digits hexponent]
  dsimp only
  rw [readExponent_text]

/-- **A `WellFormed` literal is read back from its text.** -/
theorem WellFormed.readNumber (h : l.WellFormed) :
    readNumber (if l.negative then '-' :: l.text else l.text) = .ok (l, []) := by
  have hread := h.readMagnitude
  cases hnegative : l.negative with
  | true =>
    rw [hnegative] at hread
    exact hread
  | false =>
    rw [hnegative] at hread
    obtain ⟨c, t, ht⟩ := List.exists_cons_of_ne_nil h.whole_ne_nil
    have hc : c.isDigit = true := h.whole_digits c (ht ▸ List.mem_cons_self)
    rw [if_neg Bool.false_ne_true]
    unfold Json.readNumber
    split
    · next heq =>
      -- a digit is no sign
      rw [text, ht] at heq
      rw [(List.cons.inj heq).1] at hc
      exact absurd hc (by decide)
    · exact hread

/-- The text of a `WellFormed` literal has no characters but digits, points, the letter of an
exponent and signs. -/
theorem WellFormed.isDigit_or_of_mem_text (h : l.WellFormed) {c : Char} (hc : c ∈ l.text) :
    c.isDigit = true ∨ c = '.' ∨ c = 'e' ∨ c = '-' := by
  rcases List.mem_append.1 hc with hwhole | hc
  · exact Or.inl (h.whole_digits c hwhole)
  · rcases List.mem_append.1 hc with hfraction | hexponent
    · unfold fractionText at hfraction
      split at hfraction
      · cases hfraction
      · rcases List.mem_cons.1 hfraction with rfl | hfraction
        · exact Or.inr (Or.inl rfl)
        · exact Or.inl (h.fraction_digits c hfraction)
    · cases hvalue : l.exponent? with
      | none =>
        rw [hvalue] at hexponent
        cases hexponent
      | some e =>
        rw [hvalue] at hexponent
        rcases List.mem_cons.1 hexponent with rfl | hdigits
        · exact Or.inr (Or.inr (Or.inl rfl))
        · cases e with
          | ofNat n => exact Or.inl (Decimal.isDigit_of_mem_digits hdigits)
          | negSucc n =>
            rcases List.mem_cons.1 hdigits with rfl | hdigits
            · exact Or.inr (Or.inr (Or.inr rfl))
            · exact Or.inl (Decimal.isDigit_of_mem_digits hdigits)

end Literal

end Json

namespace Decimal

open Json

/-- Under any sign, `text` is that of a well-formed literal whose value is `d`. -/
def Spells (text : List Char) (d : Decimal) : Prop :=
  ∀ negative, ∃ l : Literal, l.WellFormed ∧ l.negative = negative ∧ l.text = text ∧ l.decimal.Same d

/-- A `text` that `Spells` a decimal has no characters but digits, points, the letter of an exponent
and signs. -/
theorem Spells.isDigit_or_of_mem {text : List Char} {d : Decimal} (h : Spells text d) {c : Char}
    (hc : c ∈ text) : c.isDigit = true ∨ c = '.' ∨ c = 'e' ∨ c = '-' := by
  obtain ⟨l, hl, -, rfl, -⟩ := h false
  exact hl.isDigit_or_of_mem_text hc

theorem Same.refl (d : Decimal) : d.Same d := by
  rfl

/-- Behind the digits of `coefficient`, zeros may be counted in the coefficient or in the
exponent. -/
theorem same_mul_pow (coefficient zeros places : Nat) :
    Same ⟨coefficient * 10 ^ (zeros + places), -places⟩ ⟨coefficient, zeros⟩ := by
  have hleft : (-(places : Int) - zeros).toNat = 0 := by omega
  have hright : ((zeros : Int) - -(places : Int)).toNat = zeros + places := by omega
  simp only [Same, hleft, hright, Nat.pow_zero, Nat.mul_one]

theorem same_of_eq {d d' : Decimal} (h : d = d') : d.Same d' :=
  h ▸ Same.refl d

/-- The layout `scientific`, with one digit before the point and an exponent, spells `d`. -/
theorem spells_scientific (d : Decimal) : Spells d.scientific d := by
  intro negative
  have hdigits : ∀ c ∈ digits d.coefficient, c.isDigit = true := fun c => isDigit_of_mem_digits
  -- the first digit stands before the point, so that the others lower the exponent
  obtain ⟨c, t, ht⟩ := List.exists_cons_of_ne_nil (digits_ne_nil d.coefficient)
  rw [ht] at hdigits
  refine ⟨⟨negative, [c], t, some (d.exponent + t.length)⟩, ⟨List.cons_ne_nil _ _, ?_, ?_, ?_⟩, rfl,
    ?_, same_of_eq ?_⟩
  · exact fun x hx => hdigits x (List.mem_singleton.1 hx ▸ List.mem_cons_self)
  · exact fun s hs => (List.cons.inj hs).2.symm
  · exact fun x hx => hdigits x (List.mem_cons_of_mem c hx)
  · rw [scientific, ht]
    cases t with
    | nil => rfl
    | cons x t => rfl
  · have hvalue := ofDigits_digits d.coefficient
    rw [ht] at hvalue
    simp only [Literal.decimal, List.singleton_append, hvalue, Option.getD_some]
    congr 1
    omega

/-- The digits `ds` before a point, without a needless zero, are those of `n`. -/
structure WholeDigits (ds : List Char) (n : Nat) : Prop where
  ne_nil : ds ≠ []
  isDigit : ∀ c ∈ ds, c.isDigit = true
  zero : ∀ t, ds = '0' :: t → t = []
  value : ofDigits ds = n

/-- Digits `ds` with `places` zeros behind the point spell a decimal without places. -/
theorem WholeDigits.spells {ds : List Char} {coefficient zeros : Nat}
    (h : WholeDigits ds (coefficient * 10 ^ zeros)) (places : Nat) :
    Spells (ds ++ fractionText (List.replicate places '0')) ⟨coefficient, zeros⟩ := by
  intro negative
  refine ⟨⟨negative, ds, List.replicate places '0', none⟩, ⟨h.ne_nil, h.isDigit, h.zero, ?_⟩, rfl,
    ?_, ?_⟩
  · intro c hc
    rw [List.eq_of_mem_replicate hc]
    decide
  · exact congrArg (ds ++ ·) (List.append_nil _)
  · have hvalue : ofDigits (ds ++ List.replicate places '0') =
        coefficient * 10 ^ (zeros + places) := by
      rw [ofDigits_append, h.value, ofDigits_zeros, List.length_replicate, Nat.pow_add,
        Nat.mul_assoc, Nat.add_zero]
    have hdecimal : Literal.decimal ⟨negative, ds, List.replicate places '0', none⟩ =
        ⟨coefficient * 10 ^ (zeros + places), -places⟩ := by
      rw [Literal.decimal, hvalue, List.length_replicate, Option.getD_none, Int.zero_sub]
    rw [hdecimal]
    exact same_mul_pow coefficient zeros places

/-- Without places, `positional` writes the digits and the zeros behind them. -/
theorem wholeDigits_positional (coefficient zeros : Nat) :
    WholeDigits (positional ⟨coefficient, zeros⟩) (coefficient * 10 ^ zeros) := by
  have hpositional : positional ⟨coefficient, zeros⟩ =
      if coefficient = 0 then ['0'] else digits coefficient ++ List.replicate zeros '0' := rfl
  rw [hpositional]
  split
  · next hzero =>
    subst hzero
    rw [Nat.zero_mul]
    refine ⟨List.cons_ne_nil _ _, fun c hc => ?_, fun t ht => (List.cons.inj ht).2.symm, rfl⟩
    rw [List.mem_singleton.1 hc]
    decide
  · next hne =>
    refine ⟨List.append_ne_nil_of_left_ne_nil (digits_ne_nil coefficient) _, fun c hc => ?_,
      fun t ht => ?_, ?_⟩
    · rcases List.mem_append.1 hc with hc | hc
      · exact isDigit_of_mem_digits hc
      · rw [List.eq_of_mem_replicate hc]
        decide
    · -- the digits of a number other than zero do not begin with a zero
      exfalso
      obtain ⟨c, s, hs⟩ := List.exists_cons_of_ne_nil (digits_ne_nil coefficient)
      rw [hs] at ht
      obtain ⟨rfl, -⟩ := List.cons.inj ht
      have hvalue := ofDigits_digits coefficient
      rw [hs, eq_nil_of_digits_eq_cons hs] at hvalue
      exact hne hvalue.symm
    · rw [ofDigits_append, ofDigits_digits, ofDigits_zeros, List.length_replicate, Nat.add_zero]

/-- The digits of `n` behind the zeros that it takes to have one digit before the `places`. -/
def padded (n places : Nat) : List Char :=
  List.replicate (places + 1 - (digits n).length) '0' ++ digits n

variable {n places : Nat}

theorem isDigit_of_mem_padded {c : Char} (h : c ∈ padded n places) : c.isDigit = true := by
  rcases List.mem_append.1 h with hzero | hdigit
  · rw [List.eq_of_mem_replicate hzero]
    decide
  · exact isDigit_of_mem_digits hdigit

/-- There is at least one digit before the `places`. -/
theorem lt_length_padded (n places : Nat) : places < (padded n places).length := by
  rw [padded, List.length_append, List.length_replicate]
  omega

theorem ofDigits_padded (n places : Nat) : ofDigits (padded n places) = n := by
  rw [padded, ofDigits_append, ofDigits_zeros, ofDigits_digits, Nat.zero_mul, Nat.zero_add]

/-- If the digits before the `places` begin with a zero, there is only this one. -/
theorem eq_nil_of_take_padded {rest : List Char}
    (h : (padded n places).take ((padded n places).length - places) = '0' :: rest) :
    rest = [] := by
  rcases Nat.lt_or_ge places (digits n).length with hlt | hge
  · -- nothing was padded
    have hsame : padded n places = digits n := by
      rw [padded, Nat.sub_eq_zero_of_le hlt]
      rfl
    have hsplit := List.take_append_drop ((padded n places).length - places) (padded n places)
    rw [h, hsame] at hsplit
    exact (List.append_eq_nil_iff.1 (eq_nil_of_digits_eq_cons hsplit.symm)).1
  · -- the zeros leave one digit before the places
    have hone : (padded n places).length - places = 1 := by
      rw [padded, List.length_append, List.length_replicate]
      omega
    have hlength := congrArg List.length h
    rw [List.length_take, hone, List.length_cons] at hlength
    exact List.length_eq_zero_iff.1 (by omega)

/-- The layout `fixedPlaces`, with `places` digits behind the point, spells `n` units of the last
place. -/
theorem spells_fixedPlaces (n places : Nat) : Spells (fixedPlaces n places) ⟨n, -places⟩ := by
  intro negative
  have hlength := lt_length_padded n places
  refine ⟨⟨negative, (padded n places).take ((padded n places).length - places),
      (padded n places).drop ((padded n places).length - places), none⟩,
    ⟨?_, fun c hc => isDigit_of_mem_padded (List.mem_of_mem_take hc),
      fun t ht => eq_nil_of_take_padded ht,
      fun c hc => isDigit_of_mem_padded (List.mem_of_mem_drop hc)⟩, rfl, ?_, same_of_eq ?_⟩
  · intro hnil
    have hempty := congrArg List.length hnil
    rw [List.length_take, List.length_nil] at hempty
    omega
  · change _ ++ (fractionText (List.drop _ _) ++ []) = fixedPlaces n places
    rw [fixedPlaces, ← padded]
    generalize (padded n places).take _ = whole
    cases (padded n places).drop ((padded n places).length - places) with
    | nil => exact List.append_nil _
    | cons c t => exact congrArg (whole ++ ·) (List.append_nil _)
  · simp only [Literal.decimal, List.take_append_drop, ofDigits_padded, List.length_drop,
      Option.getD_none]
    congr 1
    omega

/-- The layout `positional`, with every digit in its place, spells `d`. -/
theorem spells_positional (d : Decimal) : Spells d.positional d := by
  obtain ⟨coefficient, zeros | k⟩ := d
  · have h := (wholeDigits_positional coefficient zeros).spells 0
    have hnone : fractionText (List.replicate 0 '0') = [] := rfl
    rwa [hnone, List.append_nil] at h
  · exact spells_fixedPlaces coefficient (k + 1)

/-- A decimal `d` without places is also spelled with one zero behind a point. -/
theorem spells_positional_append (d : Decimal) (h : d.hasPlaces = false) :
    Spells (d.positional ++ ['.', '0']) d := by
  obtain ⟨coefficient, zeros | k⟩ := d
  · exact (wholeDigits_positional coefficient zeros).spells 1
  · rw [hasPlaces, decide_eq_false_iff_not] at h
    exact absurd (Int.negSucc_lt_zero k) h

end Decimal

end PivotedLU
