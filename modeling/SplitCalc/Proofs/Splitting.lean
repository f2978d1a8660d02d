import SplitCalc.Rule

/-!
# The first split

What a split says about its text, and which texts a rule splits. A text is split by a rule of
the table when none of the rules before it applies (`firstSplit?_eq_some_iff`), so each kind
of rule comes with a condition on the marks that are tried earlier:

* an operator splits a text that holds none of the preceding operators
  (`firstSplit?_eq_binary_iff`);
* a function other than the tangent splits at the head of every text without operators
  (`firstSplit?_of_early`);
* the factorial splits at the end of such a text when none of these functions opens it
  (`firstSplit?_of_factorial`), and the tangent at the head when no factorial ends it
  (`firstSplit?_of_tangent`).

The pieces and the mark put back together give the text (`assembled_of_firstSplit?`).
-/

namespace SplitCalc

namespace BinaryOperator

/-- All operators, in the order in which they are tried. -/
def all : List BinaryOperator :=
  [power, plus, minus, times, divide]

/-- The operators that are tried before an operator. -/
def preceding : BinaryOperator → List BinaryOperator
  | power => []
  | plus => [power]
  | minus => [power, plus]
  | times => [power, plus, minus]
  | divide => [power, plus, minus, times]

end BinaryOperator

/-- The functions that are tried at the head of a text before the factorial is tried at its
end. -/
def UnaryFunction.early : List UnaryFunction :=
  [squareRoot, sine, cosine, logarithm]

/-- All functions are early but the factorial and the tangent. -/
theorem UnaryFunction.mem_early_iff {f : UnaryFunction} :
    f ∈ early ↔ f ≠ .factorial ∧ f ≠ .tangent := by
  cases f <;> decide

/-! ### The order of the rules -/

namespace Rule

/-- The rules that are tried before a rule. -/
def earlier (rule : Rule) : List Rule :=
  table.takeWhile (· ≠ rule)

/-- The earlier rules are those in front of the first occurrence in the table. -/
theorem earlier_eq {rule : Rule} {before after : List Rule}
    (htable : table = before ++ rule :: after) (hnot : rule ∉ before) :
    rule.earlier = before := by
  have hne : ∀ other ∈ before, other ≠ rule := by
    rintro other hmem rfl
    exact hnot hmem
  rw [earlier, htable, List.takeWhile_append_of_pos (by simpa using hne)]
  simp

/-- Before an operator the preceding operators are tried. -/
theorem earlier_between (op : BinaryOperator) :
    (between op).earlier = op.preceding.map between := by
  cases op <;> rfl

/-- Before an early function the operators and some other early functions are tried. -/
theorem earlier_leading {f : UnaryFunction} (hf : f ∈ UnaryFunction.early) :
    (leading f).earlier =
      BinaryOperator.all.map between ++ (UnaryFunction.early.takeWhile (· ≠ f)).map leading := by
  revert hf
  cases f <;> decide

/-- Before the factorial the operators and the early functions are tried. -/
theorem earlier_trailing_factorial :
    (trailing .factorial).earlier =
      BinaryOperator.all.map between ++ UnaryFunction.early.map leading :=
  rfl

/-- Before the tangent the operators, the early functions and the factorial are tried. -/
theorem earlier_leading_tangent :
    (leading .tangent).earlier =
      BinaryOperator.all.map between ++
        (UnaryFunction.early.map leading ++ [trailing .factorial]) :=
  rfl

end Rule

/-- **The first rule.** A text is split by a rule of the table that applies, when none of those
before it does. -/
theorem firstSplit?_eq_some_iff {text : Text} {split : Split} :
    firstSplit? text = some split ↔
      ∃ rule ∈ Rule.table, rule.split? text = some split ∧
        ∀ other ∈ rule.earlier, other.split? text = none := by
  rw [firstSplit?, List.findSome?_eq_some_iff]
  constructor
  · rintro ⟨before, rule, after, htable, hrule, hbefore⟩
    have hnot : rule ∉ before := by
      intro hmem
      simp [hbefore rule hmem] at hrule
    refine ⟨rule, by simp [htable], hrule, ?_⟩
    rwa [Rule.earlier_eq htable hnot]
  · rintro ⟨rule, hmem, hrule, hearlier⟩
    obtain ⟨before, after, htable, hnot⟩ := List.eq_append_cons_of_mem hmem
    rw [Rule.earlier_eq htable hnot] at hearlier
    exact ⟨before, rule, after, htable, hrule, hearlier⟩

/-! ### Operators -/

/-- The rule of an operator does not apply exactly when its symbol does not occur. -/
theorem Rule.split?_between_eq_none_iff {op : BinaryOperator} {text : Text} :
    (between op).split? text = none ↔ op.symbol ∉ text := by
  rw [split?, Option.map_eq_none_iff, Text.cutAt?_eq_none_iff]

/-- A text is split at the first occurrence of an operator exactly when it holds none of the
operators that are tried before. -/
theorem firstSplit?_eq_binary_iff {op : BinaryOperator} {text left right : Text} :
    firstSplit? text = some (.binary op left right) ↔
      text = left ++ op.symbol :: right ∧ op.symbol ∉ left ∧
        ∀ other ∈ op.preceding, other.symbol ∉ text := by
  have hearlier : (∀ other ∈ (Rule.between op).earlier, other.split? text = none) ↔
      ∀ other ∈ op.preceding, other.symbol ∉ text := by
    simp [Rule.earlier_between, Rule.split?_between_eq_none_iff]
  rw [firstSplit?_eq_some_iff, ← hearlier]
  constructor
  · rintro ⟨rule, -, hrule, hnone⟩
    -- only the rule of the operator gives a split at it
    cases rule with
    | between other =>
      obtain ⟨⟨first, second⟩, hcut, hsplit⟩ := Option.map_eq_some_iff.1 hrule
      obtain ⟨rfl, rfl, rfl⟩ := Split.binary.inj hsplit
      obtain ⟨htext, hnot⟩ := Text.cutAt?_eq_some_iff.1 hcut
      exact ⟨htext, hnot, hnone⟩
    | leading f => simp [Rule.split?] at hrule
    | trailing f => simp [Rule.split?] at hrule
  · rintro ⟨htext, hnot, hnone⟩
    refine ⟨.between op, by cases op <;> decide, ?_, hnone⟩
    rw [Rule.split?, Text.cutAt?_eq_some_iff.2 ⟨htext, hnot⟩, Option.map_some]

/-- A text is split at the first occurrence of an operator when it holds none of the operators
that are tried before. -/
theorem firstSplit?_of_between {op : BinaryOperator} {left right : Text}
    (hleft : op.symbol ∉ left)
    (hpreceding : ∀ other ∈ op.preceding, other.symbol ∉ left ++ op.symbol :: right) :
    firstSplit? (left ++ op.symbol :: right) = some (.binary op left right) :=
  firstSplit?_eq_binary_iff.2 ⟨rfl, hleft, hpreceding⟩

/-! ### Functions -/

/-- A text **has no operator** when the symbol of none occurs in it. -/
def HasNoOperator (text : Text) : Prop :=
  ∀ op : BinaryOperator, op.symbol ∉ text

/-- Two texts without operators make one. -/
theorem HasNoOperator.append {first second : Text} (hfirst : HasNoOperator first)
    (hsecond : HasNoOperator second) : HasNoOperator (first ++ second) := by
  intro op
  rw [List.mem_append, not_or]
  exact ⟨hfirst op, hsecond op⟩

/-- No name of a function holds an operator. -/
theorem UnaryFunction.hasNoOperator_symbol (f : UnaryFunction) : HasNoOperator f.symbol := by
  intro op
  cases f <;> cases op <;> decide

/-- Texts begin with one function at most: no two names have the same first character. -/
theorem UnaryFunction.eq_of_prefix {f g : UnaryFunction} {text : Text} (hf : f.symbol <+: text)
    (hg : g.symbol <+: text) : f = g := by
  obtain ⟨first, rfl⟩ := hf
  obtain ⟨second, h⟩ := hg
  have hhead := congrArg List.head? h
  revert hhead
  cases f <;> cases g <;> simp [symbol]

section Functions

variable {text operand : Text} {f : UnaryFunction}

/-- No rule of an operator applies to a text without operators. -/
theorem HasNoOperator.split?_eq_none (h : HasNoOperator text) {rule : Rule}
    (hrule : rule ∈ BinaryOperator.all.map Rule.between) : rule.split? text = none := by
  obtain ⟨op, -, rfl⟩ := List.mem_map.1 hrule
  exact Rule.split?_between_eq_none_iff.2 (h op)

/-- The rule of a leading function does not apply exactly when the text does not begin with the
name of the function. -/
theorem Rule.split?_leading_eq_none_iff : (leading f).split? text = none ↔ ¬f.symbol <+: text := by
  rw [split?, Option.map_eq_none_iff, Text.afterHead?_eq_none_iff]

/-- The rule of a trailing function does not apply exactly when the text does not end in the
name of the function. -/
theorem Rule.split?_trailing_eq_none_iff :
    (trailing f).split? text = none ↔ ¬f.symbol <:+ text := by
  rw [split?, Option.map_eq_none_iff, Text.beforeEnd?_eq_none_iff]

/-- An early function is split off the head of a text without operators. -/
theorem firstSplit?_of_early (hf : f ∈ UnaryFunction.early)
    (hfree : HasNoOperator (f.symbol ++ operand)) :
    firstSplit? (f.symbol ++ operand) = some (.unary f operand) := by
  refine firstSplit?_eq_some_iff.2 ⟨.leading f, ?_, ?_, fun other hother => ?_⟩
  · revert hf
    cases f <;> decide
  · rw [Rule.split?, Text.afterHead?_eq_some_iff.2 rfl, Option.map_some]
  · rw [Rule.earlier_leading hf, List.mem_append] at hother
    rcases hother with hoperator | hleading
    · exact hfree.split?_eq_none hoperator
    · obtain ⟨g, hg, rfl⟩ := List.mem_map.1 hleading
      have hne : g ≠ f := by simpa using List.all_eq_true.1 List.all_takeWhile g hg
      refine Rule.split?_leading_eq_none_iff.2 fun hprefix => hne ?_
      exact UnaryFunction.eq_of_prefix hprefix (List.prefix_append _ _)

/-- The factorial is split off the end of a text without operators that no early function
opens. -/
theorem firstSplit?_of_factorial
    (hfree : HasNoOperator (operand ++ UnaryFunction.factorial.symbol))
    (hearly : ∀ f ∈ UnaryFunction.early, ¬f.symbol <+: operand ++ UnaryFunction.factorial.symbol) :
    firstSplit? (operand ++ UnaryFunction.factorial.symbol) =
      some (.unary .factorial operand) := by
  refine firstSplit?_eq_some_iff.2 ⟨.trailing .factorial, by decide, ?_, fun other hother => ?_⟩
  · rw [Rule.split?, Text.beforeEnd?_eq_some_iff.2 rfl, Option.map_some]
  · rw [Rule.earlier_trailing_factorial, List.mem_append] at hother
    rcases hother with hoperator | hleading
    · exact hfree.split?_eq_none hoperator
    · obtain ⟨g, hg, rfl⟩ := List.mem_map.1 hleading
      exact Rule.split?_leading_eq_none_iff.2 (hearly g hg)

/-- The tangent is split off the head of a text without operators that does not end in a
factorial. -/
theorem firstSplit?_of_tangent
    (hfree : HasNoOperator (UnaryFunction.tangent.symbol ++ operand))
    (hend : ¬UnaryFunction.factorial.symbol <:+ UnaryFunction.tangent.symbol ++ operand) :
    firstSplit? (UnaryFunction.tangent.symbol ++ operand) = some (.unary .tangent operand) := by
  refine firstSplit?_eq_some_iff.2 ⟨.leading .tangent, by decide, ?_, fun other hother => ?_⟩
  · rw [Rule.split?, Text.afterHead?_eq_some_iff.2 rfl, Option.map_some]
  · rw [Rule.earlier_leading_tangent, List.mem_append, List.mem_append,
      List.mem_singleton] at hother
    rcases hother with hoperator | hleading | rfl
    · exact hfree.split?_eq_none hoperator
    · obtain ⟨g, hg, rfl⟩ := List.mem_map.1 hleading
      refine Rule.split?_leading_eq_none_iff.2 fun hprefix => ?_
      obtain rfl := UnaryFunction.eq_of_prefix hprefix (List.prefix_append _ _)
      exact (UnaryFunction.mem_early_iff.1 hg).2 rfl
    · exact Rule.split?_trailing_eq_none_iff.2 hend

end Functions

/-! ### What a split says about its text -/

/-- A split takes its text apart: at an operator, behind a function other than the factorial,
or before the factorial. -/
theorem assembled_of_firstSplit? {text : Text} {split : Split} (h : firstSplit? text = some split) :
    (∃ op left right, split = .binary op left right ∧ text = left ++ op.symbol :: right) ∨
      (∃ f operand, f ≠ .factorial ∧ split = .unary f operand ∧ text = f.symbol ++ operand) ∨
      ∃ operand, split = .unary .factorial operand ∧
        text = operand ++ UnaryFunction.factorial.symbol := by
  obtain ⟨rule, hmem, hrule⟩ := List.exists_of_findSome?_eq_some h
  cases rule with
  | between op =>
    obtain ⟨⟨left, right⟩, hcut, rfl⟩ := Option.map_eq_some_iff.1 hrule
    exact Or.inl ⟨op, left, right, rfl, (Text.cutAt?_eq_some_iff.1 hcut).1⟩
  | leading f =>
    obtain ⟨operand, hhead, rfl⟩ := Option.map_eq_some_iff.1 hrule
    refine Or.inr (Or.inl ⟨f, operand, ?_, rfl, Text.afterHead?_eq_some_iff.1 hhead⟩)
    rintro rfl
    simp [Rule.table] at hmem
  | trailing f =>
    obtain ⟨operand, hend, rfl⟩ := Option.map_eq_some_iff.1 hrule
    obtain rfl : f = .factorial := by simpa [Rule.table] using hmem
    exact Or.inr (Or.inr ⟨operand, rfl, Text.beforeEnd?_eq_some_iff.1 hend⟩)

/-- Every character of a piece is a character of the text. -/
theorem mem_of_mem_pieces {text piece : Text} {split : Split} (h : firstSplit? text = some split)
    (hmem : piece ∈ split.pieces) {c : Char} (hc : c ∈ piece) : c ∈ text := by
  rcases assembled_of_firstSplit? h with
    ⟨op, left, right, rfl, rfl⟩ | ⟨f, operand, -, rfl, rfl⟩ | ⟨operand, rfl, rfl⟩
  · simp only [Split.pieces, List.mem_cons, List.not_mem_nil, or_false] at hmem
    rcases hmem with rfl | rfl <;> simp [hc]
  · obtain rfl : piece = operand := by simpa [Split.pieces] using hmem
    exact List.mem_append_right _ hc
  · obtain rfl : piece = operand := by simpa [Split.pieces] using hmem
    exact List.mem_append_left _ hc

end SplitCalc
