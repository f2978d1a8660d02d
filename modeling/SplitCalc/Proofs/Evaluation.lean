import SplitCalc.Evaluate

/-!
# Evaluation as plain recursion

The evaluator runs along the right pieces of a text with a stack of pending operations. What
it computes needs no stack: `recursiveValue?` takes the value of a literal, and otherwise
applies the operation of the first split to the values of the pieces, with a missing value
of any piece making the whole value missing.

`evaluateThen?_eq_recursiveValue?_bind` relates the run to the recursion for an arbitrary
text and an arbitrary stack; the conclusion for the empty stack ends this file. The recursion
equation determines its solution, since every piece of a split is shorter than the text
(`eq_of_forall_evaluateStep?`); so the evaluator is the *only* function that satisfies it.
-/

namespace SplitCalc

/-! ### The recursion equation -/

/-- The value of a text in terms of the values `value?` of shorter texts. -/
def evaluateStep? (value? : Text → Option Decimal) (text : Text) : Option Decimal :=
  match Decimal.read? text with
  | some a => some a
  | none =>
    match firstSplit? text with
    | none => none
    | some (.binary op left right) =>
      (value? left).bind fun a => (value? right).bind fun b => op.value? a b
    | some (.unary f operand) => (value? operand).bind f.value?

/-- The value of a text by plain recursion on the pieces of its first split. -/
def recursiveValue? (text : Text) : Option Decimal :=
  match Decimal.read? text with
  | some a => some a
  | none =>
    match _h : firstSplit? text with
    | none => none
    | some (.binary op left right) =>
      (recursiveValue? left).bind fun a =>
        (recursiveValue? right).bind fun b => op.value? a b
    | some (.unary f operand) => (recursiveValue? operand).bind f.value?
termination_by text.length
decreasing_by
  all_goals exact length_lt_of_mem_pieces _h (by simp [Split.pieces])

/-- Definitional unfolding of `recursiveValue?`. -/
theorem recursiveValue?_eq_evaluateStep? (text : Text) :
    recursiveValue? text = evaluateStep? recursiveValue? text := by
  rw [recursiveValue?, evaluateStep?]
  cases Decimal.read? text with
  | some a => rfl
  | none =>
    dsimp only
    split <;> simp_all

/-- The value of a text depends on the values of its pieces only. -/
theorem evaluateStep?_congr {first second : Text → Option Decimal} {text : Text}
    (h : ∀ piece, piece.length < text.length → first piece = second piece) :
    evaluateStep? first text = evaluateStep? second text := by
  simp only [evaluateStep?]
  cases Decimal.read? text with
  | some a => rfl
  | none =>
    cases hsplit : firstSplit? text with
    | none => rfl
    | some split =>
      have hpiece : ∀ piece ∈ split.pieces, first piece = second piece := fun piece hmem =>
        h piece (length_lt_of_mem_pieces hsplit hmem)
      cases split with
      | binary op left right =>
        dsimp only
        rw [hpiece left (by simp [Split.pieces]), hpiece right (by simp [Split.pieces])]
      | unary f operand =>
        dsimp only
        rw [hpiece operand (by simp [Split.pieces])]

/-- **Uniqueness.** Two functions that satisfy the recursion equation are equal: by induction
on the length of the text, since the equation only asks for shorter texts. -/
theorem eq_of_forall_evaluateStep? {first second : Text → Option Decimal}
    (hfirst : ∀ text, first text = evaluateStep? first text)
    (hsecond : ∀ text, second text = evaluateStep? second text) : first = second := by
  funext text
  induction hlength : text.length using Nat.strongRecOn generalizing text with
  | ind n ih =>
    subst hlength
    rw [hfirst, hsecond]
    exact evaluateStep?_congr fun piece hlt => ih piece.length hlt piece rfl

/-! ### The evaluator satisfies it -/

/-- A literal is its own value. -/
theorem evaluate?_of_read? {text : Text} {a : Decimal} (hread : Decimal.read? text = some a) :
    evaluate? text = some a :=
  evaluateThen?_of_read? hread

/-- A text that is neither a literal nor can be split has no value. -/
theorem evaluate?_of_not_split {text : Text} (hread : Decimal.read? text = none)
    (hsplit : firstSplit? text = none) : evaluate? text = none :=
  evaluateThen?_of_not_split hread hsplit

/-- The value of a text split at an operator. -/
theorem evaluate?_of_binary {text left right : Text} {op : BinaryOperator}
    (hread : Decimal.read? text = none)
    (hsplit : firstSplit? text = some (.binary op left right)) :
    evaluate? text =
      (evaluate? left).bind fun a => (evaluate? right).bind fun b => op.value? a b := by
  rw [evaluate?, evaluateThen?_of_binary hread hsplit]
  -- the value of the left piece waits on the stack while the right one is evaluated
  refine congrArg _ (funext fun a => ?_)
  rw [evaluateThen?_eq_bind]
  refine congrArg _ (funext fun b => ?_)
  simp only [resumeAll?, Pending.resume?, Option.bind_fun_some]

/-- The value of a text split at a function. -/
theorem evaluate?_of_unary {text operand : Text} {f : UnaryFunction}
    (hread : Decimal.read? text = none) (hsplit : firstSplit? text = some (.unary f operand)) :
    evaluate? text = (evaluate? operand).bind f.value? := by
  rw [evaluate?, evaluateThen?_of_unary hread hsplit, evaluateThen?_eq_bind]
  refine congrArg _ (funext fun a => ?_)
  simp only [resumeAll?, Pending.resume?, Option.bind_fun_some]

/-- The evaluator satisfies the recursion equation. -/
theorem evaluate?_eq_evaluateStep? (text : Text) :
    evaluate? text = evaluateStep? evaluate? text := by
  rw [evaluateStep?]
  cases hread : Decimal.read? text with
  | some a => exact evaluate?_of_read? hread
  | none =>
    cases hsplit : firstSplit? text with
    | none => exact evaluate?_of_not_split hread hsplit
    | some split =>
      cases split with
      | binary op left right => exact evaluate?_of_binary hread hsplit
      | unary f operand => exact evaluate?_of_unary hread hsplit

/-- The evaluator and the plain recursion agree as functions. -/
theorem evaluate?_eq : evaluate? = recursiveValue? :=
  eq_of_forall_evaluateStep? evaluate?_eq_evaluateStep? recursiveValue?_eq_evaluateStep?

/-- **Runs with a filled stack.** The run on a text with any stack of pending operations
resumes them all on the recursive value of the text, and fails if that value is missing. -/
theorem evaluateThen?_eq_recursiveValue?_bind (pending : List Pending) (text : Text) :
    evaluateThen? pending text = (recursiveValue? text).bind (resumeAll? pending) := by
  rw [evaluateThen?_eq_bind, evaluate?_eq]

/-- **Evaluation is plain recursion.** The run on a text resumes its pending operations, with
whatever it started, on the recursive value of the text; so evaluation gives the recursive
value of every text, whatever its length and wherever a value is missing. The recursion is
well-founded, every piece being shorter than the text, and its equation has no other
solution. -/
theorem evaluate?_eq_recursiveValue? :
    (∀ text, evaluate? text = recursiveValue? text) ∧
      (∀ pending text,
        evaluateThen? pending text = (recursiveValue? text).bind (resumeAll? pending)) ∧
      (∀ value? : Text → Option Decimal,
        (∀ text, value? text = evaluateStep? value? text) ↔ value? = recursiveValue?) ∧
      ∀ text split, firstSplit? text = some split →
        ∀ piece ∈ split.pieces, piece.length < text.length := by
  refine ⟨fun text => by rw [evaluate?_eq], evaluateThen?_eq_recursiveValue?_bind,
    fun value? => ⟨fun h => ?_, ?_⟩,
    fun text split hsplit piece hmem => length_lt_of_mem_pieces hsplit hmem⟩
  · exact eq_of_forall_evaluateStep? h recursiveValue?_eq_evaluateStep?
  · rintro rfl
    exact recursiveValue?_eq_evaluateStep?

end SplitCalc
