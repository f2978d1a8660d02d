import SplitCalc.Proofs.Splitting

/-!
# The first split of every text

Which split a text has can be said without the table of rules and without running through it.
`IsFirstSplit` says it by the marks that occur in the text: a text with operators is split at the
first occurrence of the one that is tried first, and a text without them is split at a function,
where the early functions win over the factorial and the factorial wins over the tangent.

`firstSplit?_characterized` is the result: the split that is found is the one described, nothing is
found exactly when nothing is described, and the parts of a split put back together give the text.
-/

namespace SplitCalc

/-! ### The split that is due -/

/-- A text is **opened early** when it begins with one of the functions that are tried before the
factorial. -/
def IsOpenedEarly (text : Text) : Prop :=
  ∃ f ∈ UnaryFunction.early, f.symbol <+: text

/-- When a split is the **first split** of a text, by the marks in the text. -/
def IsFirstSplit (text : Text) : Split → Prop
  | .binary op left right =>
    text = left ++ op.symbol :: right ∧ op.symbol ∉ left ∧
      ∀ other ∈ op.preceding, other.symbol ∉ text
  | .unary .factorial operand =>
    HasNoOperator text ∧ ¬IsOpenedEarly text ∧ text = operand ++ UnaryFunction.factorial.symbol
  | .unary .tangent operand =>
    HasNoOperator text ∧ ¬IsOpenedEarly text ∧ ¬UnaryFunction.factorial.symbol <:+ text ∧
      text = UnaryFunction.tangent.symbol ++ operand
  | .unary f operand => HasNoOperator text ∧ text = f.symbol ++ operand

/-- The text of which a split is made: the pieces with the mark between, before or behind them. -/
def Split.assembled : Split → Text
  | binary op left right => left ++ op.symbol :: right
  | unary .factorial operand => operand ++ UnaryFunction.factorial.symbol
  | unary f operand => f.symbol ++ operand

/-- The mark of a function stands in front of its operand, unless it is the factorial. -/
theorem Split.assembled_unary {f : UnaryFunction} (hf : f ≠ .factorial) (operand : Text) :
    (unary f operand).assembled = f.symbol ++ operand := by
  cases f with
  | factorial => exact absurd rfl hf
  | _ => rfl

/-- An early function splits a text without operators that begins with it. -/
theorem isFirstSplit_early_iff {f : UnaryFunction} (hf : f ∈ UnaryFunction.early)
    {text operand : Text} :
    IsFirstSplit text (.unary f operand) ↔ HasNoOperator text ∧ text = f.symbol ++ operand := by
  obtain ⟨hfactorial, htangent⟩ := UnaryFunction.mem_early_iff.1 hf
  cases f with
  | factorial => exact absurd rfl hfactorial
  | tangent => exact absurd rfl htangent
  | _ => rfl

section Marks

variable {text operand : Text} {f : UnaryFunction} {split : Split}

/-! ### Rules that do not apply -/

/-- A text has no operator exactly when no rule of an operator applies to it. -/
theorem hasNoOperator_iff :
    HasNoOperator text ↔ ∀ rule ∈ BinaryOperator.all.map Rule.between, rule.split? text = none := by
  refine ⟨fun h rule => h.split?_eq_none, fun h op => ?_⟩
  have hall : op ∈ BinaryOperator.all := by cases op <;> decide
  exact Rule.split?_between_eq_none_iff.1 (h _ (List.mem_map_of_mem hall))

/-- A text is not opened early exactly when no rule of an early function applies to it. -/
theorem not_isOpenedEarly_iff :
    ¬IsOpenedEarly text ↔
      ∀ rule ∈ UnaryFunction.early.map Rule.leading, rule.split? text = none := by
  simp [IsOpenedEarly, Rule.split?_leading_eq_none_iff]

/-- A text is split at a function when the rule of the function applies, in front or behind, and
none of the earlier rules does. -/
theorem firstSplit?_eq_unary_iff :
    firstSplit? text = some (.unary f operand) ↔
      (f ≠ .factorial ∧ text = f.symbol ++ operand ∧
        ∀ rule ∈ (Rule.leading f).earlier, rule.split? text = none) ∨
      (f = .factorial ∧ text = operand ++ UnaryFunction.factorial.symbol ∧
        ∀ rule ∈ (Rule.trailing .factorial).earlier, rule.split? text = none) := by
  rw [firstSplit?_eq_some_iff]
  constructor
  · rintro ⟨rule, hmem, hrule, hearlier⟩
    cases rule with
    | between op => simp [Rule.split?] at hrule
    | leading g =>
      obtain ⟨rest, hhead, hsplit⟩ := Option.map_eq_some_iff.1 hrule
      obtain ⟨rfl, rfl⟩ := Split.unary.inj hsplit
      refine Or.inl ⟨?_, Text.afterHead?_eq_some_iff.1 hhead, hearlier⟩
      rintro rfl
      simp [Rule.table] at hmem
    | trailing g =>
      obtain ⟨rest, hend, hsplit⟩ := Option.map_eq_some_iff.1 hrule
      obtain ⟨rfl, rfl⟩ := Split.unary.inj hsplit
      obtain rfl : g = .factorial := by simpa [Rule.table] using hmem
      exact Or.inr ⟨rfl, Text.beforeEnd?_eq_some_iff.1 hend, hearlier⟩
  · rintro (⟨hf, htext, hearlier⟩ | ⟨rfl, htext, hearlier⟩)
    · refine ⟨.leading f, ?_, ?_, hearlier⟩
      · revert hf
        cases f <;> decide
      · rw [Rule.split?, Text.afterHead?_eq_some_iff.2 htext, Option.map_some]
    · refine ⟨.trailing .factorial, by decide, ?_, hearlier⟩
      rw [Rule.split?, Text.beforeEnd?_eq_some_iff.2 htext, Option.map_some]

/-! ### One kind of split after the other -/

/-- A text is split at an early function exactly when it has no operator and begins with it: no
other early function can stand there. -/
theorem firstSplit?_eq_early_iff (hf : f ∈ UnaryFunction.early) :
    firstSplit? text = some (.unary f operand) ↔
      HasNoOperator text ∧ text = f.symbol ++ operand := by
  constructor
  · intro h
    obtain ⟨hne, -⟩ := UnaryFunction.mem_early_iff.1 hf
    rcases firstSplit?_eq_unary_iff.1 h with ⟨-, htext, hearlier⟩ | ⟨rfl, -⟩
    · rw [Rule.earlier_leading hf] at hearlier
      exact ⟨hasNoOperator_iff.2 (List.forall_mem_append.1 hearlier).1, htext⟩
    · exact absurd rfl hne
  · rintro ⟨hfree, rfl⟩
    exact firstSplit?_of_early hf hfree

/-- A text is split at the factorial exactly when it has no operator, no early function opens it
and it ends in the factorial. -/
theorem firstSplit?_eq_factorial_iff :
    firstSplit? text = some (.unary .factorial operand) ↔
      HasNoOperator text ∧ ¬IsOpenedEarly text ∧
        text = operand ++ UnaryFunction.factorial.symbol := by
  rw [firstSplit?_eq_unary_iff, Rule.earlier_trailing_factorial, List.forall_mem_append,
    ← hasNoOperator_iff, ← not_isOpenedEarly_iff]
  grind

/-- A text is split at the tangent exactly when it has no operator, no early function opens it, no
factorial ends it and it begins with the tangent. -/
theorem firstSplit?_eq_tangent_iff :
    firstSplit? text = some (.unary .tangent operand) ↔
      HasNoOperator text ∧ ¬IsOpenedEarly text ∧ ¬UnaryFunction.factorial.symbol <:+ text ∧
        text = UnaryFunction.tangent.symbol ++ operand := by
  rw [firstSplit?_eq_unary_iff, Rule.earlier_leading_tangent, List.forall_mem_append,
    List.forall_mem_append, List.forall_mem_singleton, ← hasNoOperator_iff,
    ← not_isOpenedEarly_iff, Rule.split?_trailing_eq_none_iff]
  grind

/-- **The split that is found is the one that is due.** -/
theorem firstSplit?_eq_some_iff_isFirstSplit :
    firstSplit? text = some split ↔ IsFirstSplit text split := by
  cases split with
  | binary op left right => exact firstSplit?_eq_binary_iff
  | unary f operand =>
    by_cases hf : f ∈ UnaryFunction.early
    · rw [firstSplit?_eq_early_iff hf, isFirstSplit_early_iff hf]
    · have hlate : f = .factorial ∨ f = .tangent := by
        rw [UnaryFunction.mem_early_iff] at hf
        grind
      rcases hlate with rfl | rfl
      · exact firstSplit?_eq_factorial_iff
      · exact firstSplit?_eq_tangent_iff

/-- A text is not split exactly when it holds no operator, begins with no function and does not
end in the factorial. -/
theorem firstSplit?_eq_none_iff :
    firstSplit? text = none ↔
      HasNoOperator text ∧ ¬IsOpenedEarly text ∧ ¬UnaryFunction.factorial.symbol <:+ text ∧
        ¬UnaryFunction.tangent.symbol <+: text := by
  have htable : Rule.table = BinaryOperator.all.map Rule.between ++
      (UnaryFunction.early.map Rule.leading ++ [.trailing .factorial, .leading .tangent]) := rfl
  rw [firstSplit?, List.findSome?_eq_none_iff, htable, List.forall_mem_append,
    List.forall_mem_append, ← hasNoOperator_iff, ← not_isOpenedEarly_iff, List.forall_mem_cons,
    List.forall_mem_singleton, Rule.split?_trailing_eq_none_iff, Rule.split?_leading_eq_none_iff]

/-- The pieces and the mark of a split put back together give the text. -/
theorem assembled_eq_of_firstSplit? (h : firstSplit? text = some split) :
    split.assembled = text := by
  rcases assembled_of_firstSplit? h with
    ⟨op, left, right, rfl, rfl⟩ | ⟨f, operand, hf, rfl, rfl⟩ | ⟨operand, rfl, rfl⟩
  · rfl
  · exact Split.assembled_unary hf operand
  · rfl

variable (text) in
/-- **The first split of every text.** It is the one that the marks in the text make due; there is
none exactly when no split is due, which is when the text has no operator, no function at its head
and no factorial at its end. Put back together, the pieces and the mark of a split give the text,
and each piece is shorter than the text. -/
theorem firstSplit?_characterized :
    (∀ split, firstSplit? text = some split ↔ IsFirstSplit text split) ∧
      (firstSplit? text = none ↔ ∀ split, ¬IsFirstSplit text split) ∧
      (firstSplit? text = none ↔
        HasNoOperator text ∧ ¬IsOpenedEarly text ∧ ¬UnaryFunction.factorial.symbol <:+ text ∧
          ¬UnaryFunction.tangent.symbol <+: text) ∧
      ∀ split, firstSplit? text = some split →
        split.assembled = text ∧ ∀ piece ∈ split.pieces, piece.length < text.length := by
  have hnone : firstSplit? text = none ↔ ∀ split, ¬IsFirstSplit text split := by
    rw [Option.eq_none_iff_forall_ne_some]
    exact forall_congr' fun split => not_congr firstSplit?_eq_some_iff_isFirstSplit
  refine ⟨fun split => firstSplit?_eq_some_iff_isFirstSplit, hnone, firstSplit?_eq_none_iff,
    fun split h => ⟨assembled_eq_of_firstSplit? h, fun piece => length_lt_of_mem_pieces h⟩⟩

/-- Between a tangent in front and a factorial behind, the factorial is split off first. -/
example : firstSplit? ['t', 'a', 'n', '3', '!'] = some (.unary .factorial ['t', 'a', 'n', '3']) := by
  decide

end Marks

end SplitCalc
