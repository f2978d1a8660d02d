import SplitCalc.Keypad
import SplitCalc.Proofs.FunctionPosition
import SplitCalc.Proofs.Redisplay

/-!
# Function keys

The key of a function replaces the display by the function of its value. Two other ways are
compared with it:

* to type the name of the function in front of the display, or the factorial behind it, and to
  evaluate the whole. This shows the same when the rule of the function is the one that splits
  the whole (`display_apply_eq_typed`);
* to evaluate the display first and then to press the key. The value then passes through its
  text, and the same is shown unless that text cannot be read and the function has a value
  (`display_equals_apply_eq_iff`).
-/

namespace SplitCalc

/-- The key of a function shows the function of the value of the display. -/
theorem Calculator.display_perform_apply (text : Text) (f : UnaryFunction) :
    ((⟨text⟩ : Calculator).perform (.apply f)).display =
      showResult ((evaluate? text).bind f.value?) :=
  rfl

/-! ### Typed functions -/

/-- **Typed functions.** On a display without operators the key of a function shows what the
evaluation of the display with the name of the function beside it shows: in front for the
square root, the sine, the cosine and the logarithm, and for the tangent if the display does
not end in a factorial; behind for the factorial, if none of the first four opens the
display. -/
theorem display_apply_eq_typed {text : Text} (hfree : ∀ op : BinaryOperator, op.symbol ∉ text) :
    (∀ f ∈ [UnaryFunction.squareRoot, .sine, .cosine, .logarithm],
      ((⟨text⟩ : Calculator).perform (.apply f)).display =
        showResult (evaluate? (f.symbol ++ text))) ∧
      (¬['!'] <:+ text →
        ((⟨text⟩ : Calculator).perform (.apply .tangent)).display =
          showResult (evaluate? (UnaryFunction.tangent.symbol ++ text))) ∧
      ((∀ f ∈ [UnaryFunction.squareRoot, .sine, .cosine, .logarithm], ¬f.symbol <+: text) →
        ((⟨text⟩ : Calculator).perform (.apply .factorial)).display =
          showResult (evaluate? (text ++ ['!']))) := by
  refine ⟨fun f hf => ?_, fun hend => ?_, fun hearly => ?_⟩
  · rw [Calculator.display_perform_apply, evaluate?_early_append hf hfree]
  · rw [Calculator.display_perform_apply, evaluate?_tangent_append hfree hend]
  · have htyped := evaluate?_append_factorial hfree hearly
    rw [Calculator.display_perform_apply, ← htyped]
    rfl

/-- On `tan45` the keys of the cosine, the tangent and the factorial show what `costan45`,
`tantan45` and `tan45!` show. -/
theorem display_apply_eq_typed_tangent :
    (∀ op : BinaryOperator, op.symbol ∉ ['t', 'a', 'n', '4', '5']) ∧
      ¬['!'] <:+ ['t', 'a', 'n', '4', '5'] ∧
      (∀ f ∈ [UnaryFunction.squareRoot, .sine, .cosine, .logarithm],
        ¬f.symbol <+: ['t', 'a', 'n', '4', '5']) ∧
      ((⟨['t', 'a', 'n', '4', '5']⟩ : Calculator).perform (.apply .cosine)).display =
        showResult (evaluate? ['c', 'o', 's', 't', 'a', 'n', '4', '5']) ∧
      ((⟨['t', 'a', 'n', '4', '5']⟩ : Calculator).perform (.apply .tangent)).display =
        showResult (evaluate? ['t', 'a', 'n', 't', 'a', 'n', '4', '5']) ∧
      ((⟨['t', 'a', 'n', '4', '5']⟩ : Calculator).perform (.apply .factorial)).display =
        showResult (evaluate? ['t', 'a', 'n', '4', '5', '!']) := by
  have hfree : ∀ op : BinaryOperator, op.symbol ∉ ['t', 'a', 'n', '4', '5'] := by
    intro op
    cases op <;> decide
  have hend : ¬['!'] <:+ ['t', 'a', 'n', '4', '5'] := by decide
  have hearly : ∀ f ∈ [UnaryFunction.squareRoot, .sine, .cosine, .logarithm],
      ¬f.symbol <+: ['t', 'a', 'n', '4', '5'] := by decide
  obtain ⟨hfront, htangent, hbehind⟩ := display_apply_eq_typed hfree
  exact ⟨hfree, hend, hearly, hfront .cosine (by decide), htangent hend, hbehind hearly⟩

/-! ### Evaluating first -/

/-- Only a missing value is shown as its text. -/
theorem showResult_eq_errorText_iff {result : Option Decimal} :
    showResult result = errorText ↔ result = none := by
  cases result with
  | none => exact iff_of_true rfl rfl
  | some a => exact iff_of_false (render_ne_errorText a) (by simp)

/-- The display after an evaluation and the key of a function. -/
theorem Calculator.display_run_equals_apply (text : Text) (f : UnaryFunction) :
    ((⟨text⟩ : Calculator).run [.equals, .apply f]).display =
      showResult ((evaluate? (showResult (evaluate? text))).bind f.value?) :=
  rfl

/-- **Evaluating first.** An evaluation before the key of a function changes nothing when the
display has no value, when the text of its value can be read, or when the function has no
value there; in all other cases it does. -/
theorem display_equals_apply_eq_iff (text : Text) (f : UnaryFunction) :
    ((⟨text⟩ : Calculator).run [.equals, .apply f]).display =
        ((⟨text⟩ : Calculator).run [.apply f]).display ↔
      evaluate? text = none ∨
        ∃ a, evaluate? text = some a ∧ ((Decimal.read? a.render).isSome ∨ f.value? a = none) := by
  rw [Calculator.display_run_equals_apply, Calculator.run_cons, Calculator.run_nil,
    Calculator.display_perform_apply]
  cases hvalue : evaluate? text with
  | none =>
    rw [showResult, evaluate?_errorText]
    exact iff_of_true rfl (Or.inl rfl)
  | some a =>
    simp only [showResult, Option.bind_some, reduceCtorEq, false_or, Option.some.injEq,
      exists_eq_left']
    by_cases hoverflow : a.ExponentOverflows
    · -- the text of the value is no literal, so the display turns into an error
      rw [evaluate?_render_eq_none hoverflow, Decimal.read?_render_eq_none hoverflow, eq_comm]
      simpa [showResult] using showResult_eq_errorText_iff
    · rw [evaluate?_render hoverflow, Decimal.read?_render hoverflow]
      exact iff_of_true rfl (Or.inl rfl)

end SplitCalc
