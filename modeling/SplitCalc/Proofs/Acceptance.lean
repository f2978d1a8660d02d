import SplitCalc.Proofs.Evaluation
import SplitCalc.Proofs.Numeral
import SplitCalc.Proofs.Splitting

/-!
# Accepted texts

A text can only have a value when it belongs to the grammar of literals, operators between
texts, functions in front of a text and factorials behind one. `Derivable` is that grammar,
and `derivable_of_evaluate?` says that every text with a value is derivable: a missing value
of any piece, at whatever depth, makes the value of the whole missing.

Properties of accepted texts follow by induction on their derivation. The first character of
one is a digit, a point or a sign, or it opens the name of a function (`Derivable.isOpened`),
and the last one is a digit, a point or the mark of the factorial (`Derivable.getLast?_eq`).
-/

namespace SplitCalc

/-- The grammar of the texts that can have a value. -/
inductive Derivable : Text → Prop
  /-- A literal. -/
  | literal {text : Text} {a : Decimal} (h : Decimal.read? text = some a) : Derivable text
  /-- An operator between two derivable texts. -/
  | binary (op : BinaryOperator) {left right : Text} :
      Derivable left → Derivable right → Derivable (left ++ op.symbol :: right)
  /-- A function other than the factorial in front of a derivable text. -/
  | leading {f : UnaryFunction} (h : f ≠ .factorial) {operand : Text} :
      Derivable operand → Derivable (f.symbol ++ operand)
  /-- A factorial behind a derivable text. -/
  | trailing {operand : Text} :
      Derivable operand → Derivable (operand ++ UnaryFunction.factorial.symbol)

/-- **Soundness of acceptance.** A text with a value is derivable, by induction along the
splits of the evaluator. -/
theorem derivable_of_evaluate? {text : Text} {a : Decimal} (h : evaluate? text = some a) :
    Derivable text := by
  induction hlength : text.length using Nat.strongRecOn generalizing text a with
  | ind n ih =>
    subst hlength
    cases hread : Decimal.read? text with
    | some b => exact .literal hread
    | none =>
      cases hsplit : firstSplit? text with
      | none =>
        rw [evaluate?_of_not_split hread hsplit] at h
        simp at h
      | some split =>
        -- every piece of the split has a value, since the whole has one
        have hpiece : ∀ piece ∈ split.pieces, ∀ b, evaluate? piece = some b → Derivable piece :=
          fun piece hmem b hb => ih _ (length_lt_of_mem_pieces hsplit hmem) hb rfl
        rcases assembled_of_firstSplit? hsplit with
          ⟨op, left, right, rfl, rfl⟩ | ⟨f, operand, hf, rfl, rfl⟩ | ⟨operand, rfl, rfl⟩
        · rw [evaluate?_of_binary hread hsplit] at h
          obtain ⟨b, hleft, h⟩ := Option.bind_eq_some_iff.1 h
          obtain ⟨c, hright, -⟩ := Option.bind_eq_some_iff.1 h
          exact .binary op (hpiece left (by simp [Split.pieces]) b hleft)
            (hpiece right (by simp [Split.pieces]) c hright)
        · rw [evaluate?_of_unary hread hsplit] at h
          obtain ⟨b, hoperand, -⟩ := Option.bind_eq_some_iff.1 h
          exact .leading hf (hpiece operand (by simp [Split.pieces]) b hoperand)
        · rw [evaluate?_of_unary hread hsplit] at h
          obtain ⟨b, hoperand, -⟩ := Option.bind_eq_some_iff.1 h
          exact .trailing (hpiece operand (by simp [Split.pieces]) b hoperand)

/-- A text that is not derivable has no value. -/
theorem evaluate?_eq_none_of_not_derivable {text : Text} (h : ¬Derivable text) :
    evaluate? text = none := by
  rw [Option.eq_none_iff_forall_ne_some]
  intro a hvalue
  exact h (derivable_of_evaluate? hvalue)

/-! ### The first and the last character -/

/-- A text is **opened** when it begins with a digit, a point or a sign, or with the name of a
function. -/
def IsOpened (text : Text) : Prop :=
  (∃ c, text.head? = some c ∧ (Literal.isMantissa c ∨ c = '+' ∨ c = '-')) ∨
    ∃ f : UnaryFunction, f ≠ .factorial ∧ f.symbol <+: text

/-- Whatever stands behind, the beginning decides. -/
theorem IsOpened.append {text : Text} (h : IsOpened text) (rest : Text) :
    IsOpened (text ++ rest) := by
  rcases h with ⟨c, hhead, hc⟩ | ⟨f, hf, hprefix⟩
  · exact Or.inl ⟨c, by rw [List.head?_append, hhead]; rfl, hc⟩
  · exact Or.inr ⟨f, hf, hprefix.trans (List.prefix_append _ _)⟩

/-- An accepted text is opened. -/
theorem Derivable.isOpened {text : Text} (h : Derivable text) : IsOpened text := by
  induction h with
  | literal h =>
    obtain ⟨n, rfl⟩ := Numeral.exists_of_read? h
    obtain ⟨c, hhead, hc⟩ := n.head?_text
    refine Or.inl ⟨c, hhead, ?_⟩
    rwa [Literal.isMantissa, Bool.or_eq_true, beq_iff_eq, or_assoc]
  | binary _ _ _ ih _ => exact ih.append _
  | @leading f hf => exact Or.inr ⟨f, hf, List.prefix_append _ _⟩
  | trailing _ ih => exact ih.append _

/-- An accepted text ends in a digit, a point or the mark of the factorial. -/
theorem Derivable.getLast?_eq {text : Text} (h : Derivable text) :
    ∃ c, text.getLast? = some c ∧ (c.isDigit ∨ c = '.' ∨ c = '!') := by
  induction h with
  | literal h =>
    obtain ⟨n, rfl⟩ := Numeral.exists_of_read? h
    obtain ⟨c, hlast, hc⟩ := n.getLast?_text
    exact ⟨c, hlast, hc.imp_right Or.inl⟩
  | binary op _ _ _ ih =>
    obtain ⟨c, hlast, hc⟩ := ih
    exact ⟨c, by rw [List.getLast?_append, List.getLast?_cons, hlast]; rfl, hc⟩
  | leading _ _ ih =>
    obtain ⟨c, hlast, hc⟩ := ih
    exact ⟨c, by rw [List.getLast?_append, hlast]; rfl, hc⟩
  | trailing =>
    exact ⟨'!', by rw [List.getLast?_append]; rfl, Or.inr (Or.inr rfl)⟩

/-- The text of a missing value has no value, whatever stands behind it: its first letter opens
no accepted text. -/
theorem evaluate?_errorText_append (text : Text) : evaluate? (errorText ++ text) = none := by
  refine evaluate?_eq_none_of_not_derivable fun h => ?_
  rcases h.isOpened with ⟨c, hhead, hc⟩ | ⟨f, -, hprefix⟩
  · obtain rfl : 'E' = c := Option.some.inj hhead
    revert hc
    decide
  · cases f <;> simp [errorText, UnaryFunction.symbol] at hprefix

end SplitCalc
