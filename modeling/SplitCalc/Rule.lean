import SplitCalc.Operation

/-!
# Splitting rules

A text that is no literal is split by the first rule of a fixed table that applies to it.
A rule looks for a mark: a binary operator anywhere in the text, a function at its head, or a
function at its end. There is no grammar and no precedence besides the order of the table.

A binary operator splits at its first occurrence, whatever else the text holds, so the
operators that come first in the table bind loosest and all of them group to the right.
Every piece is shorter than the text (`length_lt_of_mem_pieces`), so splitting comes to an
end.
-/

namespace SplitCalc

/-! ### Splits -/

/-- A text taken apart: an operation and the texts of its operands. -/
inductive Split
  /-- A binary operator, what stands before it, and what stands behind it. -/
  | binary (op : BinaryOperator) (left right : Text)
  /-- A function and its operand. -/
  | unary (f : UnaryFunction) (operand : Text)
deriving DecidableEq

namespace Split

/-- The texts of the operands. -/
def pieces : Split → List Text
  | binary _ left right => [left, right]
  | unary _ operand => [operand]

end Split

/-! ### Rules -/

/-- A rule: which mark to look for, and where. -/
inductive Rule
  /-- An operator between its operands, at its first occurrence. -/
  | between (op : BinaryOperator)
  /-- A function at the head of the text. -/
  | leading (f : UnaryFunction)
  /-- A function at the end of the text. -/
  | trailing (f : UnaryFunction)
deriving DecidableEq

namespace Rule

/-- The text that a rule looks for. -/
def mark : Rule → Text
  | between op => [op.symbol]
  | leading f => f.symbol
  | trailing f => f.symbol

/-- The split of a text by a rule, when the rule applies. -/
def split? : Rule → Text → Option Split
  | between op, text => (Text.cutAt? op.symbol text).map fun (left, right) => .binary op left right
  | leading f, text => (Text.afterHead? f.symbol text).map (.unary f)
  | trailing f, text => (Text.beforeEnd? f.symbol text).map (.unary f)

/-- The rules in the order in which they are tried; the tangent comes behind the factorial. -/
def table : List Rule :=
  [ between .power, between .plus, between .minus, between .times, between .divide,
    leading .squareRoot, leading .sine, leading .cosine, leading .logarithm,
    trailing .factorial, leading .tangent ]

end Rule

/-- The split of a text by the first rule that applies. -/
def firstSplit? (text : Text) : Option Split :=
  Rule.table.findSome? fun rule => rule.split? text

/-! ### Pieces are shorter -/

/-- No mark is empty. -/
theorem UnaryFunction.symbol_ne_nil (f : UnaryFunction) : f.symbol ≠ [] := by
  cases f <;> simp [symbol]

/-- Every piece that a rule splits off is shorter than the text. -/
theorem Rule.length_lt_of_mem_pieces {rule : Rule} {text piece : Text} {split : Split}
    (h : rule.split? text = some split) (hmem : piece ∈ split.pieces) :
    piece.length < text.length := by
  cases rule with
  | between op =>
    obtain ⟨⟨left, right⟩, hcut, rfl⟩ := Option.map_eq_some_iff.1 h
    obtain ⟨rfl, -⟩ := Text.cutAt?_eq_some_iff.1 hcut
    simp only [Split.pieces, List.mem_cons, List.not_mem_nil, or_false] at hmem
    rcases hmem with rfl | rfl
    · rw [List.length_append, List.length_cons]
      omega
    · rw [List.length_append, List.length_cons]
      omega
  | leading f =>
    obtain ⟨operand, hhead, rfl⟩ := Option.map_eq_some_iff.1 h
    rw [Text.afterHead?_eq_some_iff] at hhead
    simp only [Split.pieces, List.mem_singleton] at hmem
    have := List.length_pos_iff.2 f.symbol_ne_nil
    rw [hhead, hmem, List.length_append]
    omega
  | trailing f =>
    obtain ⟨operand, hend, rfl⟩ := Option.map_eq_some_iff.1 h
    rw [Text.beforeEnd?_eq_some_iff] at hend
    simp only [Split.pieces, List.mem_singleton] at hmem
    have := List.length_pos_iff.2 f.symbol_ne_nil
    rw [hend, hmem, List.length_append]
    omega

/-- Every piece of the first split is shorter than the text. -/
theorem length_lt_of_mem_pieces {text piece : Text} {split : Split}
    (h : firstSplit? text = some split) (hmem : piece ∈ split.pieces) :
    piece.length < text.length := by
  obtain ⟨rule, -, hrule⟩ := List.exists_of_findSome?_eq_some h
  exact Rule.length_lt_of_mem_pieces hrule hmem

end SplitCalc
