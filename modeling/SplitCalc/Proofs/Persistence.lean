import SplitCalc.Keypad
import SplitCalc.Proofs.Acceptance

/-!
# Errors persist

A missing value is shown as `Error`, and the keys add to that text like to any other. What
comes out never has a value, whatever is added: no accepted text begins with the letter `E`.
So the display keeps its error until it is emptied, and every evaluation on the way shows the
bare `Error` again (`error_persists`).
-/

namespace SplitCalc

namespace Calculator

/-- A calculator **shows an error** when its display begins with the text of a missing
value. -/
def ShowsError (calculator : Calculator) : Prop :=
  errorText <+: calculator.display

variable {calculator : Calculator}

/-- The bare error is an error. -/
theorem showsError_of_display_eq (h : calculator.display = errorText) :
    calculator.ShowsError :=
  ⟨[], by rw [List.append_nil, h]⟩

/-- A display with an error has no value. -/
theorem ShowsError.evaluate?_display (h : calculator.ShowsError) :
    evaluate? calculator.display = none := by
  obtain ⟨text, htext⟩ := h
  rw [← htext, evaluate?_errorText_append]

/-- An evaluation of an error shows the bare error, since neither the display nor a function
of it has a value. -/
theorem ShowsError.display_perform (h : calculator.ShowsError) {command : Command}
    (hcommand : command = .equals ∨ ∃ f, command = .apply f) :
    (calculator.perform command).display = errorText := by
  rcases hcommand with rfl | ⟨f, rfl⟩
  · rw [perform, h.evaluate?_display]
    rfl
  · rw [perform, h.evaluate?_display]
    rfl

/-- **Step.** Every command but the one that empties the display keeps an error. -/
theorem ShowsError.perform (h : calculator.ShowsError) {command : Command}
    (hcommand : command ≠ .clear) : (calculator.perform command).ShowsError := by
  cases command with
  | append text => exact h.trans (List.prefix_append _ _)
  | clear => exact absurd rfl hcommand
  | equals => exact showsError_of_display_eq (h.display_perform (Or.inl rfl))
  | apply f => exact showsError_of_display_eq (h.display_perform (Or.inr ⟨f, rfl⟩))

/-- **Run.** Commands keep an error as long as none of them empties the display. -/
theorem ShowsError.run (h : calculator.ShowsError) {commands : List Command}
    (hcommands : Command.clear ∉ commands) : (calculator.run commands).ShowsError := by
  induction commands generalizing calculator with
  | nil => exact h
  | cons command rest ih =>
    rw [List.mem_cons, not_or] at hcommands
    obtain ⟨hcommand, hrest⟩ := hcommands
    exact ih (h.perform (Ne.symm hcommand)) hrest

end Calculator

/-- **Errors persist.** No text that begins with `Error` has a value. So, from a display that
begins with it, every step of a run that never empties the display leaves one that begins
with it, and every step that evaluates leaves exactly `Error`. -/
theorem error_persists :
    (∀ text, evaluate? (errorText ++ text) = none) ∧
      ∀ (calculator : Calculator) (commands : List Command),
        errorText <+: calculator.display → Command.clear ∉ commands →
          ∀ before command after, commands = before ++ command :: after →
            errorText <+: (calculator.run (before ++ [command])).display ∧
              ((command = .equals ∨ ∃ f, command = .apply f) →
                (calculator.run (before ++ [command])).display = errorText) := by
  refine ⟨evaluate?_errorText_append, ?_⟩
  rintro calculator _ herror hclear before command after rfl
  rw [List.mem_append, List.mem_cons, not_or, not_or] at hclear
  obtain ⟨hbefore, hcommand, -⟩ := hclear
  have hshows : (calculator.run before).ShowsError := Calculator.ShowsError.run herror hbefore
  rw [Calculator.run_append, Calculator.run_cons, Calculator.run_nil]
  exact ⟨hshows.perform (Ne.symm hcommand), hshows.display_perform⟩

/-- `Error5`, a plus, a factorial sign and a digit: evaluating it and then asking for a sine
shows the bare error both times. -/
theorem error_persists_through_evaluations :
    errorText <+: (errorText ++ ['5']) ∧
      Command.clear ∉ [.append ['+', '!', '2'], .equals, .apply .sine] ∧
      ((⟨errorText ++ ['5']⟩ : Calculator).run [.append ['+', '!', '2'], .equals]).display =
        errorText ∧
      ((⟨errorText ++ ['5']⟩ : Calculator).run
        [.append ['+', '!', '2'], .equals, .apply .sine]).display = errorText := by
  have hstart : errorText <+: (errorText ++ ['5']) := List.prefix_append _ _
  have hclear : Command.clear ∉ [.append ['+', '!', '2'], .equals, .apply .sine] := by decide
  have hsteps := error_persists.2 ⟨errorText ++ ['5']⟩ _ hstart hclear
  refine ⟨hstart, hclear, ?_, ?_⟩
  · exact (hsteps [.append ['+', '!', '2']] .equals [.apply .sine] rfl).2 (Or.inl rfl)
  · exact (hsteps [.append ['+', '!', '2'], .equals] (.apply .sine) [] rfl).2 (Or.inr ⟨_, rfl⟩)

end SplitCalc
