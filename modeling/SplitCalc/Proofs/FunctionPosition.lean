import SplitCalc.Proofs.Acceptance

/-!
# Functions beside a text

What a function in front of a text or behind it does to the value of the text. A text with a
function at an end is no literal, so it is split; without operators it is split at a function,
and the order of the rules decides at which one:

* an early function in front always wins (`evaluate?_early_append`);
* a factorial behind wins unless an early function opens the text
  (`evaluate?_append_factorial`);
* a tangent in front wins unless a factorial ends the text (`evaluate?_tangent_append`).

Both conditions are on the text alone: a factorial behind it makes no name at its head, and a
name in front of it makes no factorial at its end.
-/

namespace SplitCalc

variable {f : UnaryFunction} {operand : Text}

/-! ### Literals -/

/-- A text that begins with the name of a function is no literal. -/
theorem read?_symbol_append (f : UnaryFunction) (operand : Text) :
    Decimal.read? (f.symbol ++ operand) = none := by
  rw [Option.eq_none_iff_forall_ne_some]
  intro a h
  obtain ⟨n, htext⟩ := Numeral.exists_of_read? h
  obtain ⟨c, hhead, hc⟩ := n.head?_text
  rw [htext] at hhead
  cases f <;> cases hhead <;> revert hc <;> decide

/-- A text that ends in a factorial is no literal. -/
theorem read?_append_factorial (operand : Text) :
    Decimal.read? (operand ++ UnaryFunction.factorial.symbol) = none := by
  rw [Option.eq_none_iff_forall_ne_some]
  intro a h
  obtain ⟨n, htext⟩ := Numeral.exists_of_read? h
  obtain ⟨c, hlast, hc⟩ := n.getLast?_text
  obtain rfl : '!' = c := by simpa [htext, UnaryFunction.symbol] using hlast
  revert hc
  decide

/-! ### Names at the head, factorials at the end -/

/-- A factorial behind a text does not complete a name at its head. -/
theorem symbol_prefix_append_factorial_iff (hf : f ≠ .factorial) :
    f.symbol <+: operand ++ UnaryFunction.factorial.symbol ↔ f.symbol <+: operand := by
  refine List.prefix_concat_iff.trans (or_iff_right fun h => ?_)
  -- no other name ends in the mark of the factorial
  have hlast := congrArg List.getLast? h
  rw [List.getLast?_concat] at hlast
  revert hf hlast
  cases f <;> decide

/-- A name in front of a text does not make a factorial at its end. -/
theorem factorial_suffix_symbol_append_iff (hf : f ≠ .factorial) :
    UnaryFunction.factorial.symbol <:+ f.symbol ++ operand ↔
      UnaryFunction.factorial.symbol <:+ operand := by
  change ['!'] <:+ f.symbol ++ operand ↔ ['!'] <:+ operand
  rw [List.singleton_suffix_iff_getLast?_eq_some, List.singleton_suffix_iff_getLast?_eq_some,
    List.getLast?_append]
  cases operand.getLast? with
  | some c => rfl
  | none =>
    revert hf
    cases f <;> decide

/-! ### Values -/

/-- An early function in front of a text without operators applies to its value. -/
theorem evaluate?_early_append (hf : f ∈ UnaryFunction.early) (hfree : HasNoOperator operand) :
    evaluate? (f.symbol ++ operand) = (evaluate? operand).bind f.value? :=
  evaluate?_of_unary (read?_symbol_append f operand)
    (firstSplit?_of_early hf (f.hasNoOperator_symbol.append hfree))

/-- A factorial behind a text without operators applies to its value, unless an early function
opens the text. -/
theorem evaluate?_append_factorial (hfree : HasNoOperator operand)
    (hearly : ∀ f ∈ UnaryFunction.early, ¬f.symbol <+: operand) :
    evaluate? (operand ++ UnaryFunction.factorial.symbol) =
      (evaluate? operand).bind UnaryFunction.factorial.value? := by
  refine evaluate?_of_unary (read?_append_factorial operand)
    (firstSplit?_of_factorial (hfree.append (UnaryFunction.hasNoOperator_symbol _)) ?_)
  intro f hf hprefix
  have hne := (UnaryFunction.mem_early_iff.1 hf).1
  exact hearly f hf ((symbol_prefix_append_factorial_iff hne).1 hprefix)

/-- A tangent in front of a text without operators applies to its value, unless a factorial
ends the text. -/
theorem evaluate?_tangent_append (hfree : HasNoOperator operand)
    (hend : ¬UnaryFunction.factorial.symbol <:+ operand) :
    evaluate? (UnaryFunction.tangent.symbol ++ operand) =
      (evaluate? operand).bind UnaryFunction.tangent.value? := by
  refine evaluate?_of_unary (read?_symbol_append .tangent operand)
    (firstSplit?_of_tangent ((UnaryFunction.hasNoOperator_symbol _).append hfree) ?_)
  rwa [factorial_suffix_symbol_append_iff (by decide)]

end SplitCalc
