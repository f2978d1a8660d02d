import SplitCalc.Proofs.OperatorPosition
import SplitCalc.Proofs.Rendering

/-!
# Evaluating a displayed result

The display shows a result as its canonical text, and that text can be evaluated again. It
gives the same decimal and so the same display, unless the exponent that the text writes
overflows: then the text is no literal, and like every numeral that cannot be read it has no
value.

`showResult_evaluate?_showResult_iff` says exactly when evaluating the display again changes
nothing.
-/

namespace SplitCalc

section Redisplay

variable {a : Decimal}

variable (a) in
/-- A canonical text has the value that is read from it. -/
theorem evaluate?_render_eq_read? : evaluate? a.render = Decimal.read? a.render := by
  rw [← a.spells_numeral.text_eq, Numeral.evaluate?_text]

/-- A canonical text evaluates to its decimal unless its exponent overflows. -/
theorem evaluate?_render (h : ¬a.ExponentOverflows) : evaluate? a.render = some a := by
  rw [evaluate?_render_eq_read?, Decimal.read?_render h]

/-- A canonical text has no value when its exponent overflows. -/
theorem evaluate?_render_eq_none (h : a.ExponentOverflows) : evaluate? a.render = none := by
  rw [evaluate?_render_eq_read?, Decimal.read?_render_eq_none h]

/-- The text of a missing value has no value. -/
theorem evaluate?_errorText : evaluate? errorText = none := by
  have h := evaluate?_errorText_append []
  rwa [List.append_nil] at h

/-- No decimal is written as the text of a missing value. -/
theorem render_ne_errorText (a : Decimal) : a.render ≠ errorText := by
  intro h
  have hnone : Literal.parse? errorText = none := by decide
  rw [← h, ← a.spells_numeral.text_eq, Numeral.parse?_text] at hnone
  simp at hnone

/-- Evaluating a displayed result again changes the display exactly when the result has an
exponent that overflows. -/
theorem showResult_evaluate?_showResult_iff {result : Option Decimal} :
    showResult (evaluate? (showResult result)) = showResult result ↔
      ∀ a, result = some a → ¬a.ExponentOverflows := by
  cases result with
  | none =>
    rw [showResult, evaluate?_errorText]
    simp [showResult]
  | some a =>
    simp only [Option.some.injEq, forall_eq', showResult]
    by_cases h : a.ExponentOverflows
    · rw [evaluate?_render_eq_none h]
      exact iff_of_false (render_ne_errorText a).symm (not_not_intro h)
    · rw [evaluate?_render h]
      exact iff_of_true rfl h

/-- **Redisplaying.** For every text with a value, the displayed text of the value is read and
evaluated as the same decimal, unless the exponent it writes overflows; then it is no
literal, has no value, and evaluating the display again shows an error. In all other cases,
that of a missing value included, evaluating the display again changes nothing. -/
theorem redisplay_iff (text : Text) :
    (∀ a, evaluate? text = some a →
      if a.scale < 0 ∧ 2147483647 < (Digits.count a.unscaled.natAbs : Int) - 1 - a.scale then
        Decimal.read? a.render = none ∧ evaluate? a.render = none ∧
          showResult (evaluate? (showResult (evaluate? text))) = errorText
      else Decimal.read? a.render = some a ∧ evaluate? a.render = some a) ∧
      (showResult (evaluate? (showResult (evaluate? text))) = showResult (evaluate? text) ↔
        ∀ a, evaluate? text = some a →
          ¬(a.scale < 0 ∧
            2147483647 < (Digits.count a.unscaled.natAbs : Int) - 1 - a.scale)) := by
  refine ⟨fun a ha => ?_, showResult_evaluate?_showResult_iff⟩
  split
  · rename_i h
    refine ⟨Decimal.read?_render_eq_none h, evaluate?_render_eq_none h, ?_⟩
    rw [ha, showResult, evaluate?_render_eq_none h]
    rfl
  · rename_i h
    exact ⟨Decimal.read?_render h, evaluate?_render h⟩

/-- Ten with the greatest exponent of a literal is shown with an exponent one greater, which
is no literal: evaluating the display again replaces it by an error. -/
theorem redisplay_ten_with_greatest_exponent :
    evaluate? ['1', '0', 'E', '2', '1', '4', '7', '4', '8', '3', '6', '4', '7'] =
        some ⟨10, -2147483647, by decide⟩ ∧
      (⟨10, -2147483647, by decide⟩ : Decimal).render =
        ['1', '.', '0', 'E', '+', '2', '1', '4', '7', '4', '8', '3', '6', '4', '8'] ∧
      Decimal.read? (⟨10, -2147483647, by decide⟩ : Decimal).render = none ∧
      evaluate? (⟨10, -2147483647, by decide⟩ : Decimal).render = none ∧
      ¬∀ text, showResult (evaluate? (showResult (evaluate? text))) =
        showResult (evaluate? text) := by
  have hoverflow : (⟨10, -2147483647, by decide⟩ : Decimal).ExponentOverflows := by
    decide +kernel
  have hvalue : evaluate? ['1', '0', 'E', '2', '1', '4', '7', '4', '8', '3', '6', '4', '7'] =
      some ⟨10, -2147483647, by decide⟩ := evaluate?_of_read? (by decide +kernel)
  refine ⟨hvalue, by decide +kernel, Decimal.read?_render_eq_none hoverflow,
    evaluate?_render_eq_none hoverflow, fun h => ?_⟩
  exact showResult_evaluate?_showResult_iff.1 (h _) _ hvalue hoverflow

end Redisplay

end SplitCalc
