import SplitCalc.Decimal.Canonical
import SplitCalc.Proofs.Numeral

/-!
# The canonical text reads back

The canonical text of a decimal is a numeral of a narrow form (`Numeral.IsCanonical`): no
plus in front, digits on both sides of a point, and an exponent with the letter `E` and a
sign of its own. There are four shapes: an integer, digits cut by the point, digits behind
padding zeros, and one digit with an exponent. Each shape is given here as a numeral and
shown to have the text and the reading of the decimal (`Numeral.Spells`).

So the text determines both parts of the decimal (`Decimal.render_injective`). The reader of
literals takes it back unless its exponent is no word, which happens exactly for negative
scales of too many digits (`Decimal.ExponentOverflows`).
-/

namespace SplitCalc

/-! ### The canonical form -/

/-- A numeral has the form of a canonical text: `[-]digits[.digits][E(+|-)digits]`. -/
structure Numeral.IsCanonical (n : Numeral) : Prop where
  /-- No plus stands in front. -/
  sign_ne_plus : n.sign ≠ .plus
  /-- A digit stands before the point. -/
  whole_ne_nil : n.whole ≠ []
  /-- A digit stands behind the point, if there is a point. -/
  fraction_ne_nil : n.fraction ≠ some []
  /-- The exponent has the capital letter. -/
  letter_eq : ∀ e ∈ n.exponent, e.letter = 'E'
  /-- The exponent has a sign. -/
  sign_ne_absent : ∀ e ∈ n.exponent, e.sign ≠ .absent

/-- A numeral **spells** a decimal when it has the canonical text of the decimal and reads as
its two parts. -/
structure Numeral.Spells (n : Numeral) (a : Decimal) : Prop where
  /-- The numeral has the canonical form. -/
  isCanonical : n.IsCanonical
  /-- Its text is the canonical text. -/
  text_eq : n.text = a.render
  /-- Its digits are those of the decimal. -/
  unscaled_eq : n.unscaled = a.unscaled
  /-- Its scale is that of the decimal. -/
  scale_eq : n.scale = a.scale

namespace Decimal

variable (a : Decimal)

/-! ### Sign, digits and exponent -/

/-- The sign of a decimal as its canonical text writes it. -/
def writtenSign : WrittenSign :=
  if a.unscaled < 0 then .minus else .absent

theorem text_writtenSign : a.writtenSign.text = a.signText := by
  rw [writtenSign, signText]
  split <;> rfl

theorem writtenSign_ne_plus : a.writtenSign ≠ .plus := by
  rw [writtenSign]
  split <;> simp

/-- The sign and the magnitude make the digits of the decimal again. -/
theorem signed_writtenSign : signed a.writtenSign.isMinus a.unscaled.natAbs = a.unscaled := by
  rw [writtenSign]
  split
  · rw [WrittenSign.isMinus, signed_true]
    omega
  · rw [WrittenSign.isMinus, signed_false]
    omega

theorem length_digits : a.digits.length = a.digitCount :=
  rfl

theorem digitCount_pos : 0 < a.digitCount :=
  Digits.count_pos _

theorem digits_ne_nil : a.digits ≠ [] :=
  List.length_pos_iff.1 a.digitCount_pos

variable {a} in
theorem isDigit_of_mem_digits {c : Char} (h : c ∈ a.digits) : c.isDigit :=
  Digits.isDigit_of_mem_ofNat h

/-- Leading zeros do not change the number that digits denote. -/
theorem value_replicate_append (count : Nat) (text : Text) :
    Digits.value (List.replicate count '0' ++ text) = Digits.value text := by
  rw [Digits.value, Digits.value, Nat.ofDigitChars_append, Nat.ofDigitChars_replicate_zero,
    Nat.mul_zero]

/-- An integer as a written exponent: a plus stands before a positive one. -/
def writtenExponent (exponent : Int) : WrittenExponent where
  letter := 'E'
  sign := if 0 < exponent then .plus else if exponent < 0 then .minus else .absent
  digits := Digits.ofNat exponent.natAbs
  letter_eq := Or.inr rfl
  isDigit_of_mem := fun _ => Digits.isDigit_of_mem_ofNat
  digits_ne_nil := List.length_pos_iff.1 (Digits.count_pos _)

theorem text_writtenExponent (exponent : Int) :
    (writtenExponent exponent).text = 'E' :: exponentText exponent := by
  simp only [WrittenExponent.text, writtenExponent, exponentText]
  split
  · rfl
  · split
    · rfl
    · have : exponent.natAbs = 0 := by omega
      simp [WrittenSign.text, this]

theorem value_writtenExponent (exponent : Int) : (writtenExponent exponent).value = exponent := by
  simp only [WrittenExponent.value, writtenExponent, Digits.value_ofNat]
  split
  · rw [WrittenSign.isMinus, signed_false]
    omega
  · split
    · rw [WrittenSign.isMinus, signed_true]
      omega
    · rw [WrittenSign.isMinus, signed_false]
      omega

theorem sign_writtenExponent_ne_absent {exponent : Int} (h : exponent ≠ 0) :
    (writtenExponent exponent).sign ≠ .absent := by
  simp only [writtenExponent]
  split
  · simp
  · rw [if_pos (by omega)]
    simp

/-- Digits with a value and the sign of the decimal read as its unscaled value. -/
theorem unscaled_eq_of_value {n : Numeral} (hsign : n.sign = a.writtenSign)
    (hvalue : Digits.value n.digits = a.unscaled.natAbs) : n.unscaled = a.unscaled := by
  rw [Numeral.unscaled, hsign, hvalue, signed_writtenSign]

/-! ### The four shapes -/

/-- The digits alone. -/
def integerNumeral : Numeral where
  sign := a.writtenSign
  whole := a.digits
  fraction := none
  exponent := none
  isDigit_of_mem_whole := fun _ => isDigit_of_mem_digits
  isDigit_of_mem_fraction := by simp
  digits_ne_nil := by simpa using a.digits_ne_nil

/-- The digits cut by a point, as many behind it as the scale says. -/
def pointNumeral : Numeral where
  sign := a.writtenSign
  whole := a.digits.take (a.digitCount - a.scale.toNat)
  fraction := some (a.digits.drop (a.digitCount - a.scale.toNat))
  exponent := none
  isDigit_of_mem_whole := fun _ h => isDigit_of_mem_digits (List.mem_of_mem_take h)
  isDigit_of_mem_fraction := fun _ h => isDigit_of_mem_digits (List.mem_of_mem_drop h)
  digits_ne_nil := by simpa [List.take_append_drop] using a.digits_ne_nil

/-- A zero, the point, the padding and the digits. -/
def paddedNumeral : Numeral where
  sign := a.writtenSign
  whole := ['0']
  fraction := some (List.replicate a.padding '0' ++ a.digits)
  exponent := none
  isDigit_of_mem_whole := by simp
  isDigit_of_mem_fraction := fun c h => by
    change c ∈ List.replicate a.padding '0' ++ a.digits at h
    rcases List.mem_append.1 h with hzero | hdigit
    · obtain rfl : c = '0' := List.eq_of_mem_replicate hzero
      rfl
    · exact isDigit_of_mem_digits hdigit
  digits_ne_nil := by simp

/-- One digit, the others behind the point, and the leading exponent. -/
def scientificNumeral : Numeral where
  sign := a.writtenSign
  whole := a.digits.take 1
  -- a single digit is written without a point
  fraction := if a.digits.drop 1 = [] then none else some (a.digits.drop 1)
  exponent := some (writtenExponent a.leadingExponent)
  isDigit_of_mem_whole := fun _ h => isDigit_of_mem_digits (List.mem_of_mem_take h)
  isDigit_of_mem_fraction := fun c h => by
    split at h
    · simp at h
    · exact isDigit_of_mem_digits (List.mem_of_mem_drop h)
  digits_ne_nil := by simp [a.digits_ne_nil]

/-! ### Each shape spells the decimal -/

variable {a}

/-- A decimal with more digits than places has as many digits before the point as remain. -/
theorem length_take_digits (h : a.scale.toNat < a.digitCount) :
    0 < (a.digits.take (a.digitCount - a.scale.toNat)).length := by
  rw [List.length_take, length_digits]
  omega

/-- A numeral without an exponent is canonical when it has the sign of the decimal and digits
on both sides of a point. -/
theorem isCanonical_of_exponent_eq_none {n : Numeral} (hsign : n.sign = a.writtenSign)
    (hwhole : n.whole ≠ []) (hfraction : n.fraction ≠ some []) (hexponent : n.exponent = none) :
    n.IsCanonical where
  sign_ne_plus := hsign ▸ a.writtenSign_ne_plus
  whole_ne_nil := hwhole
  fraction_ne_nil := hfraction
  letter_eq := by simp [hexponent]
  sign_ne_absent := by simp [hexponent]

theorem spells_integerNumeral (h : a.scale = 0) : a.integerNumeral.Spells a where
  isCanonical :=
    isCanonical_of_exponent_eq_none rfl a.digits_ne_nil (by simp [integerNumeral]) rfl
  text_eq := by
    rw [render, if_pos h, Numeral.text, ← text_writtenSign]
    simp [integerNumeral, Numeral.pointText, Numeral.exponentText]
  unscaled_eq := a.unscaled_eq_of_value rfl <| by
    simp [integerNumeral, Numeral.digits, digits]
  scale_eq := by
    simp [Numeral.scale, integerNumeral, Numeral.exponentValue, h]

theorem spells_pointNumeral (hplain : a.IsPlain) (h : a.scale.toNat < a.digitCount) :
    a.pointNumeral.Spells a where
  isCanonical := by
    have hpos := hplain.1
    have hlength := a.length_digits
    have hwhole := List.length_pos_iff.1 (length_take_digits h)
    refine isCanonical_of_exponent_eq_none rfl hwhole ?_ rfl
    simp only [pointNumeral, ne_eq, Option.some.injEq, List.drop_eq_nil_iff]
    omega
  text_eq := by
    have hpos := hplain.1
    rw [render, if_neg (by omega), if_pos hplain, plainText, if_pos (by omega), Numeral.text,
      ← text_writtenSign]
    simp [pointNumeral, Numeral.pointText, Numeral.exponentText]
  unscaled_eq := a.unscaled_eq_of_value rfl <| by
    simp [pointNumeral, Numeral.digits, digits]
  scale_eq := by
    have hpos := hplain.1
    have hlength := a.length_digits
    simp only [Numeral.scale, pointNumeral, Numeral.exponentValue, Option.getD_some,
      Option.elim_none, List.length_drop]
    omega

theorem spells_paddedNumeral (hplain : a.IsPlain) (h : a.digitCount ≤ a.scale.toNat) :
    a.paddedNumeral.Spells a where
  isCanonical :=
    isCanonical_of_exponent_eq_none rfl (List.cons_ne_nil _ _)
      (by simp [paddedNumeral, a.digits_ne_nil]) rfl
  text_eq := by
    have hpos := hplain.1
    rw [render, if_neg (by omega), if_pos hplain, plainText, if_neg (by omega), Numeral.text,
      ← text_writtenSign]
    simp [paddedNumeral, Numeral.pointText, Numeral.exponentText]
  unscaled_eq := a.unscaled_eq_of_value rfl <| by
    -- the zero before the point is one more leading zero
    have hzeros := value_replicate_append (a.padding + 1) a.digits
    rw [List.replicate_succ, List.cons_append] at hzeros
    simp only [Numeral.digits, paddedNumeral, Option.getD_some, List.singleton_append]
    rw [hzeros, digits, Digits.value_ofNat]
  scale_eq := by
    have hpos := hplain.1
    have hlength := a.length_digits
    simp only [Numeral.scale, paddedNumeral, Numeral.exponentValue, Option.getD_some,
      Option.elim_none, List.length_append, List.length_replicate, padding]
    omega

/-- A decimal written with an exponent has a leading exponent other than zero. -/
theorem leadingExponent_ne_zero (hscale : a.scale ≠ 0) (hplain : ¬a.IsPlain) :
    a.leadingExponent ≠ 0 := by
  have hpos := a.digitCount_pos
  rw [IsPlain] at hplain
  rw [leadingExponent] at hplain ⊢
  omega

/-- The digits behind the first one, whether a point is written or not. -/
theorem getD_fraction_scientificNumeral :
    a.scientificNumeral.fraction.getD [] = a.digits.drop 1 := by
  simp only [scientificNumeral]
  split
  · simp [*]
  · rfl

theorem spells_scientificNumeral (hscale : a.scale ≠ 0) (hplain : ¬a.IsPlain) :
    a.scientificNumeral.Spells a where
  isCanonical :=
    { sign_ne_plus := a.writtenSign_ne_plus
      whole_ne_nil := by simp [scientificNumeral, a.digits_ne_nil]
      fraction_ne_nil := by
        simp only [scientificNumeral]
        split <;> simp_all
      letter_eq := by
        rintro e ⟨⟩
        rfl
      sign_ne_absent := by
        rintro e ⟨⟩
        exact sign_writtenExponent_ne_absent (leadingExponent_ne_zero hscale hplain) }
  text_eq := by
    rw [render, if_neg hscale, if_neg hplain, scientificText, Numeral.text, ← text_writtenSign]
    simp only [Numeral.exponentText, Numeral.pointText, scientificNumeral, Option.elim_some,
      text_writtenExponent]
    by_cases hrest : a.digits.drop 1 = []
    · simp only [hrest, if_true, Option.elim_none, List.append_nil]
    · simp only [hrest, if_false, Option.elim_some, List.append_assoc]
  unscaled_eq := a.unscaled_eq_of_value rfl <| by
    rw [Numeral.digits, getD_fraction_scientificNumeral]
    change Digits.value (a.digits.take 1 ++ a.digits.drop 1) = _
    rw [List.take_append_drop, digits, Digits.value_ofNat]
  scale_eq := by
    have hpos := a.digitCount_pos
    have hlength := a.length_digits
    rw [Numeral.scale, getD_fraction_scientificNumeral, List.length_drop]
    simp only [Numeral.exponentValue, scientificNumeral, Option.elim_some, value_writtenExponent]
    rw [leadingExponent]
    omega

/-! ### Reading back -/

variable (a) in
/-- The exponent in the canonical text of a decimal **overflows** when the scale is negative
and the leading exponent is beyond the words. -/
def ExponentOverflows : Prop :=
  a.scale < 0 ∧ 2147483647 < a.leadingExponent

instance (a : Decimal) : Decidable a.ExponentOverflows :=
  inferInstanceAs (Decidable (_ ∧ _))

variable (a) in
/-- The numeral of the canonical text. -/
def numeral : Numeral :=
  if a.scale = 0 then a.integerNumeral
  else if a.IsPlain then
    if a.scale.toNat < a.digitCount then a.pointNumeral else a.paddedNumeral
  else a.scientificNumeral

variable (a) in
/-- **The canonical text is a numeral of the decimal**, whatever its digits and its scale. -/
theorem spells_numeral : a.numeral.Spells a := by
  rw [numeral]
  split
  · exact spells_integerNumeral ‹_›
  · split
    · split
      · exact spells_pointNumeral ‹_› ‹_›
      · exact spells_paddedNumeral ‹_› (by omega)
    · exact spells_scientificNumeral ‹_› ‹_›

variable (a) in
/-- The exponent of the canonical text: none for integers and plain decimals. -/
theorem exponentValue_numeral :
    a.numeral.exponentValue = if a.scale = 0 ∨ a.IsPlain then 0 else a.leadingExponent := by
  rw [numeral]
  by_cases hscale : a.scale = 0
  · rw [if_pos hscale, if_pos (Or.inl hscale)]
    rfl
  · by_cases hplain : a.IsPlain
    · rw [if_neg hscale, if_pos hplain, if_pos (Or.inr hplain)]
      split <;> rfl
    · rw [if_neg hscale, if_neg hplain, if_neg (by simp [hscale, hplain])]
      exact value_writtenExponent _

/-- The exponent of the canonical text is a word unless it overflows: a positive scale bounds
the leading exponent from below. -/
theorem isWord_exponentValue_numeral_iff :
    IsWord a.numeral.exponentValue ↔ ¬a.ExponentOverflows := by
  have hpos := a.digitCount_pos
  have hword := isWord_iff.1 a.isWord_scale
  rw [exponentValue_numeral, isWord_iff, ExponentOverflows]
  split
  · -- where no exponent is written, the scale is not negative
    rename_i h
    have hscale : ¬a.scale < 0 := by
      rcases h with h | h
      · omega
      · have := h.1
        omega
    simp [hscale]
  · -- below, the exponent is bounded by the scale, which is a word
    rename_i h
    rw [IsPlain] at h
    rw [leadingExponent] at h ⊢
    omega

/-- The reading of the canonical text does not depend on how it is taken for a numeral. -/
theorem reading_of_text_eq_render {n : Numeral} (h : n.text = a.render) :
    n.unscaled = a.unscaled ∧ n.scale = a.scale := by
  have hspells := a.spells_numeral
  have hliteral : n.literal = a.numeral.literal := by
    refine Option.some.inj ?_
    rw [← n.parse?_text, ← a.numeral.parse?_text, h, hspells.text_eq]
  rw [← hspells.unscaled_eq, ← hspells.scale_eq, ← n.unscaled_literal, ← n.scale_literal, hliteral]
  exact ⟨rfl, rfl⟩

/-- **Injectivity.** The canonical text determines the digits and the scale. -/
theorem render_injective : Function.Injective render := by
  intro a b h
  obtain ⟨hunscaled, hscale⟩ := reading_of_text_eq_render (a.spells_numeral.text_eq.trans h)
  rw [a.spells_numeral.unscaled_eq] at hunscaled
  rw [a.spells_numeral.scale_eq] at hscale
  exact Decimal.ext hunscaled hscale

/-- A canonical text is read as its decimal unless its exponent overflows. -/
theorem read?_render (h : ¬a.ExponentOverflows) : Decimal.read? a.render = some a := by
  have hspells := a.spells_numeral
  rw [← hspells.text_eq, Numeral.read?_text_eq_some_iff]
  exact ⟨isWord_exponentValue_numeral_iff.2 h, hspells.unscaled_eq.symm, hspells.scale_eq.symm⟩

/-- A canonical text is no literal when its exponent overflows. -/
theorem read?_render_eq_none (h : a.ExponentOverflows) : Decimal.read? a.render = none := by
  rw [Option.eq_none_iff_forall_ne_some]
  intro b hread
  rw [← a.spells_numeral.text_eq, Numeral.read?_text_eq_some_iff] at hread
  exact isWord_exponentValue_numeral_iff.1 hread.1 h

/-- **Canonical texts are faithful.** Every decimal is written in the canonical form
`[-]digits[.digits][E(+|-)digits]`, whose exact reading is the decimal again, so that no two
decimals share a text. The reader of literals, whose exponents are words, takes the text back
except when the scale is negative and the written exponent, the number of digits less one
less the scale, is beyond the words. -/
theorem render_faithful :
    (∀ a : Decimal, (∃ n : Numeral, n.IsCanonical ∧ n.text = a.render) ∧
      (∀ n : Numeral, n.text = a.render → n.unscaled = a.unscaled ∧ n.scale = a.scale) ∧
      Decimal.read? a.render =
        if a.scale < 0 ∧ 2147483647 < (Digits.count a.unscaled.natAbs : Int) - 1 - a.scale then
          none
        else some a) ∧
      Function.Injective Decimal.render := by
  refine ⟨fun a => ⟨?_, fun n => reading_of_text_eq_render, ?_⟩, render_injective⟩
  · exact ⟨a.numeral, a.spells_numeral.isCanonical, a.spells_numeral.text_eq⟩
  · split
    · exact read?_render_eq_none ‹_›
    · exact read?_render ‹_›

end Decimal

end SplitCalc
