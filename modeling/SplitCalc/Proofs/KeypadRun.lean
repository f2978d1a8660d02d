import SplitCalc.Keypad
import SplitCalc.Proofs.Nesting
import SplitCalc.Proofs.Rendering

/-!
# Runs on the keypad

The keys of the functions add nothing to the display, they replace it. So a calculator that is only
clicked, from the empty display on, never shows the name of a function: its display is a text of
digits, points, exponent letters and operators, or an error with digits and operators behind it
(`IsKeypadDisplay`).

Every click keeps this form (`IsKeypadDisplay.click`); for a click that evaluates, this is a fact on
the characters of a canonical text (`Decimal.isShown_of_mem_render`). Pieces hold no new
characters, and every name of a function holds one that no such display has, so whatever an
evaluation of the display examines is split at an operator (`keypad_run`).
-/

namespace SplitCalc

/-! ### Characters -/

/-- A character is **keyed** when a key adds it to the display: a digit or an operator. -/
def IsKeyed (c : Char) : Prop :=
  c.isDigit ∨ c ∈ BinaryOperator.all.map BinaryOperator.symbol

instance : DecidablePred IsKeyed := fun _ =>
  inferInstanceAs (Decidable (_ ∨ _))

/-- A character is **shown** when a display without an error may hold it: it is keyed, the point or
the letter of an exponent. -/
def IsShown (c : Char) : Prop :=
  IsKeyed c ∨ c = '.' ∨ c = 'E'

instance : DecidablePred IsShown := fun _ =>
  inferInstanceAs (Decidable (_ ∨ _))

theorem isShown_of_isDigit {c : Char} (h : c.isDigit) : IsShown c :=
  Or.inl (Or.inl h)

/-- What the keys do: they empty the display, replace it by a result, or add keyed characters. -/
theorem Keypad.ofLabel_cases :
    ∀ label ∈ labels,
      Command.ofLabel label = .clear ∨ Command.ofLabel label = .equals ∨
        (∃ f ∈ UnaryFunction.all, Command.ofLabel label = .apply f) ∨
        Command.ofLabel label = .append label ∧ label.all fun c => IsKeyed c := by
  decide

/-! ### The characters of a canonical text -/

namespace Decimal

/-- The digits of a number are shown. -/
theorem isShown_of_mem_ofNat (n : Nat) : ∀ c ∈ Digits.ofNat n, IsShown c :=
  fun _ hc => isShown_of_isDigit (Digits.isDigit_of_mem_ofNat hc)

/-- An exponent is written with digits and a sign. -/
theorem isShown_of_mem_exponentText (exponent : Int) :
    ∀ c ∈ exponentText exponent, IsShown c := by
  rw [exponentText]
  split
  · exact List.forall_mem_cons.2 ⟨by decide, isShown_of_mem_ofNat _⟩
  · split
    · exact List.forall_mem_cons.2 ⟨by decide, isShown_of_mem_ofNat _⟩
    · exact isShown_of_mem_ofNat 0

variable (a : Decimal)

/-- In plain notation there are digits and a point. -/
theorem isShown_of_mem_plainText : ∀ c ∈ a.plainText, IsShown c := by
  have hdigits : ∀ c ∈ a.digits, IsShown c := isShown_of_mem_ofNat _
  have hpoint : IsShown '.' := by decide
  have hzero : IsShown '0' := by decide
  rw [plainText]
  split
  · refine List.forall_mem_append.2 ⟨fun c hc => ?_, List.forall_mem_cons.2 ⟨hpoint, fun c hc => ?_⟩⟩
    · exact hdigits c (List.mem_of_mem_take hc)
    · exact hdigits c (List.mem_of_mem_drop hc)
  · have hpadding : ∀ c ∈ List.replicate a.padding '0', IsShown c := by
      intro c hc
      rwa [List.eq_of_mem_replicate hc]
    exact List.forall_mem_cons.2
      ⟨hzero, List.forall_mem_cons.2 ⟨hpoint, List.forall_mem_append.2 ⟨hpadding, hdigits⟩⟩⟩

/-- In scientific notation there are digits, perhaps a point, and an exponent. -/
theorem isShown_of_mem_scientificText : ∀ c ∈ a.scientificText, IsShown c := by
  have hdigits : ∀ c ∈ a.digits, IsShown c := isShown_of_mem_ofNat _
  have hpoint : IsShown '.' := by decide
  have hletter : IsShown 'E' := by decide
  rw [scientificText]
  refine List.forall_mem_append.2 ⟨List.forall_mem_append.2 ⟨?_, ?_⟩, ?_⟩
  · exact fun c hc => hdigits c (List.mem_of_mem_take hc)
  · split
    · exact List.forall_mem_nil _
    · exact List.forall_mem_cons.2 ⟨hpoint, fun c hc => hdigits c (List.mem_of_mem_drop hc)⟩
  · exact List.forall_mem_cons.2 ⟨hletter, isShown_of_mem_exponentText _⟩

/-- **A canonical text** is made of digits, signs, the point and the letter of the exponent. -/
theorem isShown_of_mem_render : ∀ c ∈ a.render, IsShown c := by
  have hsign : ∀ c ∈ a.signText, IsShown c := by
    rw [signText]
    split
    · exact List.forall_mem_singleton.2 (by decide)
    · exact List.forall_mem_nil _
  rw [render]
  refine List.forall_mem_append.2 ⟨hsign, ?_⟩
  split
  · exact isShown_of_mem_ofNat _
  · split
    · exact a.isShown_of_mem_plainText
    · exact a.isShown_of_mem_scientificText

end Decimal

/-! ### Displays -/

/-- The displays that clicks lead to. -/
inductive IsKeypadDisplay : Text → Prop
  /-- An error, with keyed characters behind it. -/
  | error {keyed : Text} (h : ∀ c ∈ keyed, IsKeyed c) : IsKeypadDisplay (errorText ++ keyed)
  /-- Characters that are shown. -/
  | shown {text : Text} (h : ∀ c ∈ text, IsShown c) : IsKeypadDisplay text

namespace IsKeypadDisplay

variable {text : Text} {calculator : Calculator}

/-- A result is such a display, and so is a missing one. -/
theorem of_showResult (result : Option Decimal) : IsKeypadDisplay (showResult result) := by
  cases result with
  | none => exact error (List.forall_mem_nil _)
  | some a => exact shown a.isShown_of_mem_render

/-- Keyed characters may be added to every display. -/
theorem append (h : IsKeypadDisplay text) {keyed : Text} (hkeyed : ∀ c ∈ keyed, IsKeyed c) :
    IsKeypadDisplay (text ++ keyed) := by
  cases h with
  | error h =>
    rw [List.append_assoc]
    exact error (List.forall_mem_append.2 ⟨h, hkeyed⟩)
  | shown h => exact shown (List.forall_mem_append.2 ⟨h, fun c hc => Or.inl (hkeyed c hc)⟩)

/-! ### Clicks -/

/-- **Step.** A click on a key leads from one such display to another. -/
theorem click (h : IsKeypadDisplay calculator.display) {label : Text}
    (hlabel : label ∈ Keypad.labels) : IsKeypadDisplay (calculator.click label).display := by
  rw [Calculator.click]
  rcases Keypad.ofLabel_cases label hlabel with hclear | hequals | ⟨f, -, happly⟩ | ⟨happend, hkeyed⟩
  · rw [hclear]
    exact shown (List.forall_mem_nil _)
  · rw [hequals]
    exact of_showResult _
  · rw [happly]
    exact of_showResult _
  · rw [happend]
    exact h.append fun c hc => of_decide_eq_true (List.all_eq_true.1 hkeyed c hc)

/-- **Run.** So does every run of clicks. -/
theorem run (h : IsKeypadDisplay calculator.display) {labels : List Text}
    (hlabels : ∀ label ∈ labels, label ∈ Keypad.labels) :
    IsKeypadDisplay (labels.foldl Calculator.click calculator).display := by
  induction labels generalizing calculator with
  | nil => exact h
  | cons label rest ih =>
    obtain ⟨hlabel, hrest⟩ := List.forall_mem_cons.1 hlabels
    exact ih (h.click hlabel) hrest

/-! ### Splits -/

/-- Every name of a function holds a character that no such display has. -/
theorem exists_mem_symbol (h : IsKeypadDisplay text) (f : UnaryFunction) :
    ∃ c ∈ f.symbol, c ∉ text := by
  have hforeign : f.symbol.any fun c => ¬IsShown c ∧ c ∉ errorText := by
    cases f <;> decide
  obtain ⟨c, hc, hnot⟩ := List.any_eq_true.1 hforeign
  obtain ⟨hshown, herror⟩ := of_decide_eq_true hnot
  refine ⟨c, hc, fun hmem => ?_⟩
  cases h with
  | error h =>
    rcases List.mem_append.1 hmem with hmem | hmem
    · exact herror hmem
    · exact hshown (Or.inl (h c hmem))
  | shown h => exact hshown (h c hmem)

end IsKeypadDisplay

/-- A text that is split at a function holds its whole name. -/
theorem mem_of_firstSplit?_eq_unary {text operand : Text} {f : UnaryFunction}
    (h : firstSplit? text = some (.unary f operand)) {c : Char} (hc : c ∈ f.symbol) : c ∈ text := by
  rcases assembled_of_firstSplit? h with
    ⟨op, left, right, hsplit, -⟩ | ⟨g, rest, -, hsplit, rfl⟩ | ⟨rest, hsplit, rfl⟩
  · simp at hsplit
  · obtain ⟨rfl, rfl⟩ := Split.unary.inj hsplit
    exact List.mem_append_left _ hc
  · obtain ⟨rfl, rfl⟩ := Split.unary.inj hsplit
    exact List.mem_append_right _ hc

/-- **Runs on the keypad.** After any run of clicks on keys, from the empty display on, the display
is an error with digits and operators behind it, or a text of digits, operators, points and
exponent letters. Every text that an evaluation of the display examines, at whatever depth, is
split at an operator if it is split at all. -/
theorem keypad_run {labels : List Text} (hlabels : ∀ label ∈ labels, label ∈ Keypad.labels) :
    IsKeypadDisplay (labels.foldl Calculator.click .start).display ∧
      ∀ depth examined split,
        Examines depth (labels.foldl Calculator.click .start).display examined →
          firstSplit? examined = some split →
            ∃ op left right, split = .binary op left right := by
  have hdisplay : IsKeypadDisplay (labels.foldl Calculator.click .start).display :=
    IsKeypadDisplay.run (.shown (List.forall_mem_nil _)) hlabels
  refine ⟨hdisplay, fun depth examined split hexamined hsplit => ?_⟩
  cases split with
  | binary op left right => exact ⟨op, left, right, rfl⟩
  | unary f operand =>
    obtain ⟨c, hc, hnot⟩ := hdisplay.exists_mem_symbol f
    exact absurd (hexamined.mem (mem_of_firstSplit?_eq_unary hsplit hc)) hnot

/-- One divided by four, evaluated, less one: the display is `0.25-1`, and nothing in it is split at
a function. -/
theorem keypad_run_quarter_less_one :
    (∀ label ∈ [['1'], ['/'], ['4'], ['='], ['-'], ['1']], label ∈ Keypad.labels) ∧
      ([['1'], ['/'], ['4'], ['='], ['-'], ['1']].foldl Calculator.click .start).display =
        ['0', '.', '2', '5', '-', '1'] ∧
      IsKeypadDisplay ['0', '.', '2', '5', '-', '1'] ∧
      ∀ depth examined split, Examines depth ['0', '.', '2', '5', '-', '1'] examined →
        firstSplit? examined = some split → ∃ op left right, split = .binary op left right := by
  have hlabels : ∀ label ∈ [['1'], ['/'], ['4'], ['='], ['-'], ['1']], label ∈ Keypad.labels := by
    decide
  have hquotient : evaluate? ['1', '/', '4'] = some ⟨25, 2, by decide⟩ := by
    have hsplit : firstSplit? ['1', '/', '4'] = some (.binary .divide ['1'] ['4']) := by decide
    have hone : evaluate? ['1'] = some (.ofInt 1) := evaluate?_of_read? (by decide)
    have hfour : evaluate? ['4'] = some (.ofInt 4) := evaluate?_of_read? (by decide)
    rw [evaluate?_of_binary (by decide) hsplit, hone, hfour]
    decide +kernel
  have hdisplay :
      ([['1'], ['/'], ['4'], ['='], ['-'], ['1']].foldl Calculator.click .start).display =
        showResult (evaluate? ['1', '/', '4']) ++ ['-'] ++ ['1'] := rfl
  rw [hquotient] at hdisplay
  have hrun := keypad_run hlabels
  rw [hdisplay] at hrun
  exact ⟨hlabels, hdisplay, hrun⟩

end SplitCalc
