import Mathlib.Algebra.Group.Nat.Defs
import SplitCalc.Decimal.Double
import SplitCalc.Proofs.Rendering

/-!
# The text of a double

A double is shown by its shortest digits: with a point and no exponent from a thousandth up to ten
million, otherwise with one digit before the point and an exponent behind the letter `E`. A digit
always stands behind the point (`Scaled.shownText`).

The decimal of a double is computed from the digits and their shift alone, without that text. Here
the text is given as a numeral (`Scaled.shownNumeral`), and its reading is that decimal
(`Scaled.read?_shownText`). Both notations are the same digits with a point at some place
(`Digits.wholePart`, `Digits.fractionPart`), so one lemma tells what the zeros on either side of
the point do to the number.
-/

namespace SplitCalc

/-! ### Digits with a point -/

namespace Digits

/-- The digits before a point that stands behind the first `whole` of them; zeros fill the places
that have no digit. -/
def wholePart (digits : Text) (whole : Nat) : Text :=
  digits.take whole ++ List.replicate (whole - digits.length) '0'

/-- The digits behind that point; where there are none, a zero is written. -/
def fractionPart (digits : Text) (whole : Nat) : Text :=
  if digits.length ≤ whole then ['0'] else digits.drop whole

variable {digits : Text} {whole : Nat}

/-- A written zero is a digit. -/
theorem isDigit_of_mem_replicate {count : Nat} {c : Char} (h : c ∈ List.replicate count '0') :
    c.isDigit := by
  obtain rfl : c = '0' := List.eq_of_mem_replicate h
  rfl

theorem isDigit_of_mem_wholePart (h : ∀ c ∈ digits, c.isDigit) :
    ∀ c ∈ wholePart digits whole, c.isDigit := by
  intro c hc
  rcases List.mem_append.1 hc with hdigit | hzero
  · exact h c (List.mem_of_mem_take hdigit)
  · exact isDigit_of_mem_replicate hzero

theorem isDigit_of_mem_fractionPart (h : ∀ c ∈ digits, c.isDigit) :
    ∀ c ∈ fractionPart digits whole, c.isDigit := by
  intro c hc
  rw [fractionPart] at hc
  split at hc
  · obtain rfl : c = '0' := List.mem_singleton.1 hc
    rfl
  · exact h c (List.mem_of_mem_drop hc)

/-- At least one digit stands behind the point. -/
theorem length_fractionPart (digits : Text) (whole : Nat) :
    ((fractionPart digits whole).length : Int) = max ((digits.length : Int) - whole) 1 := by
  rw [fractionPart]
  split
  · rw [List.length_singleton]
    omega
  · rw [List.length_drop]
    omega

theorem fractionPart_ne_nil (digits : Text) (whole : Nat) : fractionPart digits whole ≠ [] := by
  intro hnil
  have hlength := length_fractionPart digits whole
  rw [hnil, List.length_nil] at hlength
  omega

/-- The zeros that are written behind the digits multiply the number. -/
theorem value_wholePart_append (digits : Text) (whole : Nat) :
    value (wholePart digits whole ++ fractionPart digits whole) =
      value digits *
        10 ^ (max ((digits.length : Int) - whole) 1 - (digits.length - whole)).toNat := by
  rw [wholePart, fractionPart]
  split
  · rename_i h
    have hzeros : (max ((digits.length : Int) - whole) 1 - (digits.length - whole)).toNat =
        whole - digits.length + 1 := by omega
    rw [List.take_of_length_le h, List.append_assoc, ← List.replicate_succ', value,
      Nat.ofDigitChars_append, Nat.ofDigitChars_replicate_zero, hzeros, Nat.mul_comm, value]
  · rename_i h
    have hnone : (max ((digits.length : Int) - whole) 1 - (digits.length - whole)).toNat = 0 := by
      omega
    have hfull : whole - digits.length = 0 := by omega
    rw [hfull, List.replicate_zero, List.append_nil, List.take_append_drop, hnone, Nat.pow_zero,
      Nat.mul_one]

end Digits

/-! ### The text -/

namespace Scaled

/-- Digits are shown **plain**, without an exponent, from a thousandth up to ten million. -/
def IsPlain (s : Scaled) : Prop :=
  -3 ≤ s.leadingExponent ∧ s.leadingExponent < 7

instance (s : Scaled) : Decidable s.IsPlain :=
  inferInstanceAs (Decidable (_ ∧ _))

/-- The digits that are cut by the point; plain ones below one have zeros in front. -/
def shownDigits (s : Scaled) : Text :=
  if s.IsPlain then List.replicate (-s.leadingExponent).toNat '0' ++ Digits.ofNat s.digits
  else Digits.ofNat s.digits

/-- How many digits stand before the point. -/
def shownWhole (s : Scaled) : Nat :=
  if s.IsPlain then s.leadingExponent.toNat + 1 else 1

/-- The exponent, with a sign only if it is negative. -/
def shownExponentText (s : Scaled) : Text :=
  (if s.leadingExponent < 0 then ['-'] else []) ++ Digits.ofNat s.leadingExponent.natAbs

/-- **The text of a double** with these shortest digits. -/
def shownText (negative : Bool) (s : Scaled) : Text :=
  (if negative then ['-'] else []) ++
    ((Digits.wholePart s.shownDigits s.shownWhole ++
        '.' :: Digits.fractionPart s.shownDigits s.shownWhole) ++
      if s.IsPlain then [] else 'E' :: s.shownExponentText)

variable (s : Scaled)

theorem isDigit_of_mem_shownDigits : ∀ c ∈ s.shownDigits, c.isDigit := by
  intro c hc
  rw [shownDigits] at hc
  split at hc
  · rcases List.mem_append.1 hc with hzero | hdigit
    · exact Digits.isDigit_of_mem_replicate hzero
    · exact Digits.isDigit_of_mem_ofNat hdigit
  · exact Digits.isDigit_of_mem_ofNat hc

/-- Zeros in front do not count. -/
theorem value_shownDigits : Digits.value s.shownDigits = s.digits := by
  rw [shownDigits]
  split
  · rw [Decimal.value_replicate_append, Digits.value_ofNat]
  · exact Digits.value_ofNat _

/-- The digits behind the point, as far as they are not filled up, are counted by the shift and by
the exponent that is written. -/
theorem length_shownDigits_sub :
    (s.shownDigits.length : Int) - s.shownWhole =
      s.shift + if s.IsPlain then 0 else s.leadingExponent := by
  have hlength : (Digits.ofNat s.digits).length = s.count := rfl
  have hpos := Digits.count_pos s.digits
  have hcount : s.leadingExponent = (s.count : Int) - 1 - s.shift := rfl
  rw [shownDigits, shownWhole]
  split
  · rw [List.length_append, List.length_replicate, hlength]
    omega
  · rw [hlength]
    omega

/-- The digits that the text has behind its point. -/
theorem fractionCount_eq :
    Decimal.fractionCount s = max ((s.shownDigits.length : Int) - s.shownWhole) 1 := by
  rw [length_shownDigits_sub]
  by_cases hplain : s.IsPlain
  · have hfraction : Decimal.fractionCount s = max s.shift 1 := if_pos hplain
    rw [hfraction, if_pos hplain, Int.add_zero]
  · have hfraction : Decimal.fractionCount s = max ((s.count : Int) - 1) 1 := if_neg hplain
    have hcount : s.shift + s.leadingExponent = (s.count : Int) - 1 := by
      rw [leadingExponent]
      omega
    rw [hfraction, if_neg hplain, hcount]

/-- The scale is the number of digits behind the point less the exponent. -/
theorem shownScale_eq :
    Decimal.shownScale s =
      Decimal.fractionCount s - if s.IsPlain then 0 else s.leadingExponent := by
  by_cases hplain : s.IsPlain
  · rw [if_pos hplain, Int.sub_zero]
    exact if_pos hplain
  · rw [if_neg hplain]
    exact if_neg hplain

/-- The zeros that are appended to the digits are those that fill up the text. -/
theorem shownScale_sub_shift :
    Decimal.shownScale s - s.shift =
      max ((s.shownDigits.length : Int) - s.shownWhole) 1 -
        (s.shownDigits.length - s.shownWhole) := by
  rw [shownScale_eq, fractionCount_eq, length_shownDigits_sub]
  omega

/-- No digit is lost by showing a number. -/
theorem shift_le_shownScale : s.shift ≤ Decimal.shownScale s := by
  have hzeros := s.shownScale_sub_shift
  omega

/-! ### The text as a numeral -/

/-- The exponent of the text. -/
def shownExponent : WrittenExponent where
  letter := 'E'
  sign := if s.leadingExponent < 0 then .minus else .absent
  digits := Digits.ofNat s.leadingExponent.natAbs
  letter_eq := WrittenExponent.capital_eq
  isDigit_of_mem := fun _ => Digits.isDigit_of_mem_ofNat
  digits_ne_nil := List.length_pos_iff.1 (Digits.count_pos _)

theorem text_shownExponent : s.shownExponent.text = 'E' :: s.shownExponentText := by
  simp only [WrittenExponent.text, shownExponent, shownExponentText]
  split <;> rfl

theorem value_shownExponent : s.shownExponent.value = s.leadingExponent := by
  simp only [WrittenExponent.value, shownExponent, Digits.value_ofNat]
  split
  · rw [WrittenSign.isMinus, Decimal.signed_true]
    omega
  · rw [WrittenSign.isMinus, Decimal.signed_false]
    omega

/-- The text of a double as a numeral. -/
def shownNumeral (negative : Bool) : Numeral where
  sign := if negative then .minus else .absent
  whole := Digits.wholePart s.shownDigits s.shownWhole
  fraction := some (Digits.fractionPart s.shownDigits s.shownWhole)
  exponent := if s.IsPlain then none else some s.shownExponent
  isDigit_of_mem_whole := Digits.isDigit_of_mem_wholePart s.isDigit_of_mem_shownDigits
  isDigit_of_mem_fraction := Digits.isDigit_of_mem_fractionPart s.isDigit_of_mem_shownDigits
  digits_ne_nil := by simp [Digits.fractionPart_ne_nil]

variable (negative : Bool)

theorem text_shownNumeral : (s.shownNumeral negative).text = s.shownText negative := by
  have hsign : (if negative then WrittenSign.minus else .absent).text =
      if negative then ['-'] else [] := by
    cases negative <;> rfl
  have hexponent : (if s.IsPlain then none else some s.shownExponent).elim [] WrittenExponent.text =
      if s.IsPlain then [] else 'E' :: s.shownExponentText := by
    rw [← text_shownExponent]
    split <;> rfl
  simp only [Numeral.text, Numeral.pointText, Numeral.exponentText, shownNumeral, shownText,
    Option.elim_some, hsign, hexponent]

theorem exponentValue_shownNumeral :
    (s.shownNumeral negative).exponentValue = if s.IsPlain then 0 else s.leadingExponent := by
  rw [← value_shownExponent, Numeral.exponentValue, shownNumeral]
  dsimp only
  split <;> rfl

/-- The text has the scale of the decimal. -/
theorem scale_shownNumeral : (s.shownNumeral negative).scale = Decimal.shownScale s := by
  rw [Numeral.scale, exponentValue_shownNumeral, shownScale_eq, fractionCount_eq,
    ← Digits.length_fractionPart]
  rfl

/-- The text has the digits of the decimal. -/
theorem unscaled_shownNumeral :
    (s.shownNumeral negative).unscaled =
      Decimal.signed negative (s.digits * 10 ^ (Decimal.shownScale s - s.shift).toNat) := by
  have hsign : (s.shownNumeral negative).sign.isMinus = negative := by
    cases negative <;> rfl
  have hvalue : Digits.value (s.shownNumeral negative).digits =
      s.digits * 10 ^ (Decimal.shownScale s - s.shift).toNat := by
    rw [shownScale_sub_shift, ← value_shownDigits, ← Digits.value_wholePart_append]
    rfl
  rw [Numeral.unscaled, hsign, hvalue]

/-- **The decimal of a double is the reading of its text**, as long as its exponent is a word. -/
theorem read?_shownText (h : IsWord s.leadingExponent) :
    Decimal.read? (s.shownText negative) = Decimal.ofShortest? negative s := by
  have hexponent : IsWord (s.shownNumeral negative).exponentValue := by
    rw [exponentValue_shownNumeral]
    split
    · decide
    · exact h
  refine Option.ext fun a => ?_
  rw [← text_shownNumeral, Numeral.read?_text_eq_some_iff, Decimal.ofShortest?,
    Decimal.ofParts?_eq_some_iff, unscaled_shownNumeral, scale_shownNumeral]
  exact and_iff_right hexponent

/-- A thousandth is plain and less is not; below ten million zeros are filled up, from there on the
zero behind the point is a digit of the decimal. -/
example : shownText false ⟨1, 3⟩ = ['0', '.', '0', '0', '1'] ∧
    shownText true ⟨99, 5⟩ = ['-', '9', '.', '9', 'E', '-', '4'] ∧
    shownText false ⟨12, -5⟩ = ['1', '2', '0', '0', '0', '0', '0', '.', '0'] ∧
    shownText false ⟨1, -7⟩ = ['1', '.', '0', 'E', '7'] ∧
    Decimal.ofShortest? false ⟨1, -7⟩ = some ⟨10, -6, by decide⟩ := by
  decide +kernel

end Scaled

end SplitCalc
