import SplitCalc.Decimal.Literal
import SplitCalc.Decimal.Canonical
import SplitCalc.Rule

/-!
# Evaluation by splitting

A text that is a literal is its own value. Any other text is split, its pieces are evaluated
in the same way, and the operation of the split is applied to their values. A text that is
neither a literal nor can be split has no value, and neither has one with a piece or an
operation that has none.

Long chains such as `1+1+1` nest to the right. So the evaluator takes the left piece of a
split at once, keeps its value as a pending operation and goes on with the right piece; the
pending operations are applied, last first, once a literal is reached.
-/

namespace SplitCalc

/-! ### Pending operations -/

/-- An operation that waits for its last operand. -/
inductive Pending
  /-- A binary operator with the value of its left operand. -/
  | binary (op : BinaryOperator) (left : Decimal)
  /-- A function. -/
  | unary (f : UnaryFunction)

/-- The value of a pending operation once its last operand is known. -/
def Pending.resume? : Pending → Decimal → Option Decimal
  | binary op left, value => op.value? left value
  | unary f, value => f.value? value

/-- Applies pending operations, the last one first. -/
def resumeAll? : List Pending → Decimal → Option Decimal
  | [], value => some value
  | operation :: rest, value => (operation.resume? value).bind (resumeAll? rest)

/-! ### The evaluator -/

/-- Evaluates a text and applies the pending operations to its value. -/
def evaluateThen? (pending : List Pending) (text : Text) : Option Decimal :=
  match Decimal.read? text with
  | some value => resumeAll? pending value
  | none =>
    match _h : firstSplit? text with
    | none => none
    | some (.binary op left right) =>
      (evaluateThen? [] left).bind fun value => evaluateThen? (.binary op value :: pending) right
    | some (.unary f operand) => evaluateThen? (.unary f :: pending) operand
termination_by text.length
decreasing_by
  all_goals exact length_lt_of_mem_pieces _h (by simp [Split.pieces])

/-- The value of a text. -/
def evaluate? (text : Text) : Option Decimal :=
  evaluateThen? [] text

/-! ### The cases of the evaluator -/

/-- Two runs of pending operations are applied one after the other. -/
theorem resumeAll?_append (first second : List Pending) (value : Decimal) :
    resumeAll? (first ++ second) value = (resumeAll? first value).bind (resumeAll? second) := by
  induction first generalizing value with
  | nil => rfl
  | cons operation rest ih =>
    rw [List.cons_append, resumeAll?, resumeAll?, Option.bind_assoc]
    exact congrArg _ (funext ih)

/-- A literal is its own value. -/
theorem evaluateThen?_of_read? {pending : List Pending} {text : Text} {value : Decimal}
    (hread : Decimal.read? text = some value) :
    evaluateThen? pending text = resumeAll? pending value := by
  rw [evaluateThen?, hread]

/-- A text that is neither a literal nor can be split has no value. -/
theorem evaluateThen?_of_not_split {pending : List Pending} {text : Text}
    (hread : Decimal.read? text = none) (hsplit : firstSplit? text = none) :
    evaluateThen? pending text = none := by
  rw [evaluateThen?, hread]
  dsimp only
  split <;> simp_all

/-- Of a text split at an operator, the left piece is evaluated first. -/
theorem evaluateThen?_of_binary {pending : List Pending} {text left right : Text}
    {op : BinaryOperator} (hread : Decimal.read? text = none)
    (hsplit : firstSplit? text = some (.binary op left right)) :
    evaluateThen? pending text =
      (evaluate? left).bind fun value => evaluateThen? (.binary op value :: pending) right := by
  rw [evaluateThen?, hread]
  dsimp only
  split <;> simp_all [evaluate?]

/-- Of a text split at a function, the operand is evaluated. -/
theorem evaluateThen?_of_unary {pending : List Pending} {text operand : Text}
    {f : UnaryFunction} (hread : Decimal.read? text = none)
    (hsplit : firstSplit? text = some (.unary f operand)) :
    evaluateThen? pending text = evaluateThen? (.unary f :: pending) operand := by
  rw [evaluateThen?, hread]
  dsimp only
  split <;> simp_all

/-- Pending operations are applied to the value of the text. -/
theorem evaluateThen?_eq_bind (pending : List Pending) (text : Text) :
    evaluateThen? pending text = (evaluate? text).bind (resumeAll? pending) := by
  rw [evaluate?]
  induction hlength : text.length using Nat.strongRecOn generalizing pending text with
  | ind n ih =>
    subst hlength
    cases hread : Decimal.read? text with
    | some value => rw [evaluateThen?_of_read? hread, evaluateThen?_of_read? hread]; rfl
    | none =>
      cases hsplit : firstSplit? text with
      | none =>
        rw [evaluateThen?_of_not_split hread hsplit, evaluateThen?_of_not_split hread hsplit]
        rfl
      | some split =>
        cases split with
        | binary op left right =>
          have hright (pending : List Pending) :=
            ih _ (length_lt_of_mem_pieces hsplit (by simp [Split.pieces])) pending right rfl
          rw [evaluateThen?_of_binary hread hsplit, evaluateThen?_of_binary hread hsplit,
            Option.bind_assoc]
          refine congrArg _ (funext fun value => ?_)
          rw [hright (.binary op value :: pending), hright [.binary op value],
            Option.bind_assoc]
          exact congrArg _ (funext (resumeAll?_append [.binary op value] pending))
        | unary f operand =>
          have hoperand (pending : List Pending) :=
            ih _ (length_lt_of_mem_pieces hsplit (by simp [Split.pieces])) pending operand rfl
          rw [evaluateThen?_of_unary hread hsplit, evaluateThen?_of_unary hread hsplit,
            hoperand (.unary f :: pending), hoperand [.unary f], Option.bind_assoc]
          exact congrArg _ (funext (resumeAll?_append [.unary f] pending))

/-! ### Showing a result -/

/-- The text that stands for a missing value. -/
def errorText : Text :=
  ['E', 'r', 'r', 'o', 'r']

/-- The text of a result: its canonical form, or `Error` when there is none. -/
def showResult : Option Decimal → Text
  | some value => value.render
  | none => errorText

end SplitCalc
