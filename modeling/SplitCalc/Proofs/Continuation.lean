import SplitCalc.Keypad
import SplitCalc.Proofs.OperatorPosition
import SplitCalc.Proofs.Redisplay

/-!
# Continuing from a result

After an evaluation the display holds the canonical text of a result, and the keys add to it.
An operator and digits behind that text give the operation on the result, provided that the
text is cut at this operator. It is not when it holds a sign that is tried earlier, or the
sign that the operator shares its symbol with: then the text is cut inside the result, where
nothing with a value stands on the left. `BinaryOperator.Continues` is the condition, and
`Numeral.evaluate?_text_append_operator` says that it decides between the two for every
numeral; `continue_from_result` is the run on the keypad.
-/

namespace SplitCalc

/-! ### Digits -/

/-- Digits alone as a numeral. -/
def Numeral.ofDigits (digits : Text) (hdigit : ∀ c ∈ digits, c.isDigit) (hne : digits ≠ []) :
    Numeral where
  sign := .absent
  whole := digits
  fraction := none
  exponent := none
  isDigit_of_mem_whole := hdigit
  isDigit_of_mem_fraction := fun _ h => absurd h List.not_mem_nil
  digits_ne_nil := by
    rw [Option.getD_none, List.append_nil]
    exact hne

/-- Digits are read as the integer that they write. -/
theorem Decimal.read?_of_isDigit {digits : Text} (hdigit : ∀ c ∈ digits, c.isDigit)
    (hne : digits ≠ []) :
    Decimal.read? digits = some (Decimal.ofInt (Digits.value digits)) := by
  have htext : (Numeral.ofDigits digits hdigit hne).text = digits := by
    simp [Numeral.ofDigits, Numeral.text, Numeral.pointText, Numeral.exponentText,
      WrittenSign.text]
  rw [← congrArg Decimal.read? htext, Numeral.read?_text_eq_some_iff]
  refine ⟨show IsWord 0 by decide, ?_, rfl⟩
  simp [Numeral.unscaled, Numeral.digits, Numeral.ofDigits, Decimal.ofInt, WrittenSign.isMinus]

/-! ### The condition -/

namespace BinaryOperator

/-- An operator **continues** a text when no sign in the text is cut before it: every text for
the power, a text without a plus for the plus, and a text without any sign for the others. -/
def Continues (op : BinaryOperator) (text : Text) : Prop :=
  op = .power ∨ (op = .plus ∧ '+' ∉ text) ∨ ('+' ∉ text ∧ '-' ∉ text)

instance (op : BinaryOperator) (text : Text) : Decidable (op.Continues text) :=
  inferInstanceAs (Decidable (_ ∨ _))

/-- The operator symbols in a text with an operator before digits are those in front, and the
symbol of the operator. -/
theorem symbol_mem_append_iff {op other : BinaryOperator} {left digits : Text}
    (hdigit : ∀ c ∈ digits, c.isDigit) :
    other.symbol ∈ left ++ op.symbol :: digits ↔ other.symbol ∈ left ∨ other = op := by
  have hnot : other.symbol ∉ digits := by
    intro hmem
    simpa [other.isDigit_symbol] using hdigit _ hmem
  rw [List.mem_append, List.mem_cons, symbol_injective.eq_iff]
  simp [hnot]

variable {op : BinaryOperator} {n : Numeral}

/-- An operator that continues a numeral does not occur in it, and neither does one that is
tried earlier. -/
theorem Continues.symbol_not_mem (h : op.Continues n.text) {other : BinaryOperator}
    (hother : other = op ∨ other ∈ op.preceding) : other.symbol ∉ n.text := by
  intro hmem
  rcases n.eq_plus_or_minus_of_symbol_mem hmem with rfl | rfl
  · rcases h with rfl | ⟨-, hplus⟩ | ⟨hplus, -⟩
    · simp [preceding] at hother
    · exact hplus hmem
    · exact hplus hmem
  · rcases h with rfl | ⟨rfl, -⟩ | ⟨-, hminus⟩
    · simp [preceding] at hother
    · simp [preceding] at hother
    · exact hminus hmem

/-- When an operator does not continue a numeral, a sign of the numeral is cut first: nothing
that is tried before this sign occurs in the numeral, and the operator is not tried before it
either. -/
theorem exists_cut_of_not_continues (h : ¬op.Continues n.text) :
    ∃ cut : BinaryOperator, cut.symbol ∈ n.text ∧ op ∉ cut.preceding ∧
      ∀ other ∈ cut.preceding, other.symbol ∉ n.text := by
  rw [Continues, not_or, not_or] at h
  obtain ⟨hpower, hplus, hsigns⟩ := h
  have hnotpower : power.symbol ∉ n.text := by
    intro hmem
    simpa using n.eq_plus_or_minus_of_symbol_mem hmem
  by_cases hmem : plus.symbol ∈ n.text
  · refine ⟨plus, hmem, by simpa [preceding] using hpower, ?_⟩
    simpa [preceding] using hnotpower
  · -- without a plus, only a minus can keep the operator from continuing
    have hne : op ≠ plus := fun hop => hplus ⟨hop, hmem⟩
    have hminus : minus.symbol ∈ n.text :=
      Decidable.byContradiction fun hnot => hsigns ⟨hmem, hnot⟩
    refine ⟨minus, hminus, by simp [preceding, hpower, hne], ?_⟩
    simp [preceding, hnotpower, hmem]

end BinaryOperator

/-! ### Numerals with an operator and digits behind them -/

/-- **Numerals continued.** A numeral with an operator and digits behind it has the value of
the operation when the operator continues the numeral, and no value otherwise. -/
theorem Numeral.evaluate?_text_append_operator (n : Numeral) (op : BinaryOperator) {digits : Text}
    (hdigit : ∀ c ∈ digits, c.isDigit) :
    evaluate? (n.text ++ op.symbol :: digits) =
      if op.Continues n.text then
        (evaluate? n.text).bind fun a => (evaluate? digits).bind fun b => op.value? a b
      else none := by
  split
  · rename_i h
    refine evaluate?_append_operator n.endsInMantissa_text (h.symbol_not_mem (Or.inl rfl)) ?_
    intro other hother hmem
    rcases (BinaryOperator.symbol_mem_append_iff hdigit).1 hmem with hnumeral | rfl
    · exact h.symbol_not_mem (Or.inr hother) hnumeral
    · cases other <;> simp [BinaryOperator.preceding] at hother
  · rename_i h
    obtain ⟨cut, hmem, hnot, hpreceding⟩ := BinaryOperator.exists_cut_of_not_continues h
    refine evaluate?_text_append_eq_none (read?_append_operator n.endsInMantissa_text) hmem ?_
    intro other hother hsymbol
    rcases (BinaryOperator.symbol_mem_append_iff hdigit).1 hsymbol with hnumeral | rfl
    · exact hpreceding other hother hnumeral
    · exact hnot hother

/-! ### On the keypad -/

/-- The display after an evaluation, an operator, digits and another evaluation. -/
theorem Calculator.display_run_continuing (calculator : Calculator) (op : BinaryOperator)
    (keys : List Text) :
    (calculator.run
      (.equals :: .append [op.symbol] :: (keys.map .append ++ [.equals]))).display =
      showResult (evaluate?
        (showResult (evaluate? calculator.display) ++ op.symbol :: keys.flatten)) := by
  rw [run_cons, run_cons, run_append, run_map_append, run_cons, run_nil]
  simp [perform]

/-- **Continuing from a result.** When the display has a value, evaluating it, typing an
operator and digits and evaluating again shows the operation on that value and the digits,
provided that the shown value is read back and the operator continues its text. In every other
case it shows an error. -/
theorem continue_from_result {text : Text} {a : Decimal} (hvalue : evaluate? text = some a)
    (op : BinaryOperator) {keys : List Text} (hdigit : ∀ c ∈ keys.flatten, c.isDigit)
    (hne : keys.flatten ≠ []) :
    ∃ b, Decimal.read? keys.flatten = some b ∧
      ((⟨text⟩ : Calculator).run
        (.equals :: .append [op.symbol] :: (keys.map .append ++ [.equals]))).display =
        if (Decimal.read? a.render).isSome ∧
            (op = .power ∨ (op = .plus ∧ '+' ∉ a.render) ∨
              ('+' ∉ a.render ∧ '-' ∉ a.render)) then
          showResult (op.value? a b)
        else errorText := by
  have hread := Decimal.read?_of_isDigit hdigit hne
  have hcontinued := a.numeral.evaluate?_text_append_operator op hdigit
  rw [a.spells_numeral.text_eq, evaluate?_render_eq_read?, evaluate?_of_read? hread] at hcontinued
  refine ⟨_, hread, ?_⟩
  rw [Calculator.display_run_continuing, hvalue, showResult, hcontinued]
  by_cases hoverflow : a.ExponentOverflows
  · rw [Decimal.read?_render_eq_none hoverflow]
    simp [showResult]
  · rw [Decimal.read?_render hoverflow]
    by_cases h : op.Continues a.render
    · rw [if_pos h, if_pos ⟨rfl, h⟩]
      rfl
    · rw [if_neg h, if_neg fun hboth => h hboth.2]
      rfl

/-- From `-5`, a plus and `1`, `2` give `7`, and a times in place of the plus an error. -/
theorem continue_from_negative_result :
    evaluate? ['-', '5'] = some (.ofInt (-5)) ∧
      ((⟨['-', '5']⟩ : Calculator).run
        [.equals, .append ['+'], .append ['1'], .append ['2'], .equals]).display = ['7'] ∧
      ((⟨['-', '5']⟩ : Calculator).run
        [.equals, .append ['*'], .append ['1'], .append ['2'], .equals]).display = errorText := by
  have hvalue : evaluate? ['-', '5'] = some (.ofInt (-5)) := evaluate?_of_read? (by decide +kernel)
  have hdigit : ∀ c ∈ [['1'], ['2']].flatten, c.isDigit := by simp
  have hne : [['1'], ['2']].flatten ≠ [] := by decide
  refine ⟨hvalue, ?_, ?_⟩
  · obtain ⟨b, hread, hdisplay⟩ := continue_from_result hvalue .plus hdigit hne
    obtain rfl : .ofInt 12 = b := Option.some.inj (Eq.trans (by decide +kernel) hread)
    exact hdisplay.trans (by decide +kernel)
  · obtain ⟨b, -, hdisplay⟩ := continue_from_result hvalue .times hdigit hne
    exact hdisplay.trans (if_neg (by decide +kernel))

end SplitCalc
