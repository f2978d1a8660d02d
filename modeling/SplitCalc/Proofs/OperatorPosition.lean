import SplitCalc.Proofs.Acceptance

/-!
# Operators beside literals

Two of the operator symbols are signs as well, so a literal can hold them; it does so at its
head and behind the letter of its exponent, and nowhere else. This settles what a symbol does
inside a literal and what it does behind one:

* a cut inside a literal leaves on its left nothing, or a text that ends in the letter of the
  exponent, so no literal gets a value by being cut (`Numeral.evaluate?_text`), and neither
  does a text that begins with it (`Numeral.evaluate?_text_append_eq_none`);
* behind a digit or a point the symbol is an operator, so the text around it is no literal and
  has the value of the operation, if the text is cut there (`evaluate?_append_operator`).
-/

namespace SplitCalc

/-! ### The symbols -/

namespace BinaryOperator

/-- Operators have different symbols. -/
theorem symbol_injective : Function.Injective symbol := by
  intro op other
  cases op <;> cases other <;> decide

/-- No symbol belongs to a mantissa. -/
theorem isMantissa_symbol (op : BinaryOperator) : Literal.isMantissa op.symbol = false := by
  cases op <;> rfl

/-- No symbol is a digit. -/
theorem isDigit_symbol (op : BinaryOperator) : op.symbol.isDigit = false := by
  cases op <;> rfl

/-- No symbol is the letter of an exponent. -/
theorem symbol_ne_letter (op : BinaryOperator) : op.symbol ≠ 'e' ∧ op.symbol ≠ 'E' := by
  cases op <;> decide

end BinaryOperator

variable {op : BinaryOperator} {left right : Text}

/-! ### Symbols inside a literal -/

namespace Numeral

variable {n : Numeral}

/-- Only plus and minus occur in a numeral. -/
theorem eq_plus_or_minus_of_symbol_mem (h : op.symbol ∈ n.text) : op = .plus ∨ op = .minus := by
  obtain ⟨left, right, htext, -⟩ := List.eq_append_cons_of_mem h
  obtain ⟨hsign, -⟩ := n.text_eq_append_cons htext op.isMantissa_symbol op.symbol_ne_letter
  exact hsign.imp (fun h => BinaryOperator.symbol_injective h)
    fun h => BinaryOperator.symbol_injective h

/-- What stands before an operator symbol in a numeral is empty or ends in the letter of the
exponent. -/
theorem letter_of_mem_getLast? (h : n.text = left ++ op.symbol :: right) {c : Char}
    (hc : c ∈ left.getLast?) : c = 'e' ∨ c = 'E' :=
  (n.text_eq_append_cons h op.isMantissa_symbol op.symbol_ne_letter).2 c hc

/-- What stands before an operator symbol in a numeral is not accepted: accepted texts have
another end. -/
theorem not_derivable_of_text_eq (h : n.text = left ++ op.symbol :: right) :
    ¬Derivable left := by
  intro hleft
  obtain ⟨c, hlast, hc⟩ := hleft.getLast?_eq
  rcases letter_of_mem_getLast? h hlast with rfl | rfl <;> simp at hc

variable (n) in
/-- **Numerals evaluate as they are read.** A numeral out of range has no value either: its
signs cannot be cut, and it neither begins nor ends with a function. -/
theorem evaluate?_text : evaluate? n.text = Decimal.read? n.text := by
  cases hread : Decimal.read? n.text with
  | some a => exact evaluate?_of_read? hread
  | none =>
    refine evaluate?_eq_none_of_not_derivable fun h => ?_
    obtain ⟨first, hhead, hfirst⟩ := n.head?_text
    obtain ⟨last, hlast, hend⟩ := n.getLast?_text
    generalize htext : n.text = text at h hread hhead hlast
    cases h with
    | literal h => simp [hread] at h
    | binary op hleft _ => exact not_derivable_of_text_eq htext hleft
    | @leading f =>
      -- no name of a function begins like a numeral
      cases f <;> cases hhead <;> revert hfirst <;> decide
    | trailing =>
      obtain rfl : '!' = last := by simpa [UnaryFunction.symbol] using hlast
      simp at hend

/-- A text that is no literal but begins with one has no value when an operator that occurs in
this literal cuts it. -/
theorem evaluate?_text_append_eq_none {rest : Text}
    (hread : Decimal.read? (n.text ++ rest) = none) (hmem : op.symbol ∈ n.text)
    (hpreceding : ∀ other ∈ op.preceding, other.symbol ∉ n.text ++ rest) :
    evaluate? (n.text ++ rest) = none := by
  obtain ⟨left, right, htext, hleft⟩ := List.eq_append_cons_of_mem hmem
  have hnone : evaluate? left = none :=
    evaluate?_eq_none_of_not_derivable (not_derivable_of_text_eq htext)
  rw [htext, List.append_assoc, List.cons_append] at hread hpreceding ⊢
  rw [evaluate?_of_binary hread (firstSplit?_of_between hleft hpreceding), hnone,
    Option.bind_none]

end Numeral

/-! ### Symbols behind a literal -/

/-- A text **ends in a mantissa** when its last character is a digit or a point. -/
def EndsInMantissa (text : Text) : Prop :=
  ∃ c, text.getLast? = some c ∧ Literal.isMantissa c

/-- Every numeral ends in a mantissa. -/
theorem Numeral.endsInMantissa_text (n : Numeral) : EndsInMantissa n.text := by
  obtain ⟨c, hlast, hc⟩ := n.getLast?_text
  refine ⟨c, hlast, ?_⟩
  rw [Literal.isMantissa, Bool.or_eq_true, beq_iff_eq]
  exact hc

/-- Whatever stands in front, the end decides. -/
theorem EndsInMantissa.append_cons (h : EndsInMantissa right) (left : Text) (c : Char) :
    EndsInMantissa (left ++ c :: right) := by
  obtain ⟨d, hlast, hd⟩ := h
  exact ⟨d, by rw [List.getLast?_append, List.getLast?_cons, hlast]; rfl, hd⟩

/-- A text with an operator symbol behind a digit or a point is no literal. -/
theorem read?_append_operator (hleft : EndsInMantissa left) :
    Decimal.read? (left ++ op.symbol :: right) = none := by
  rw [Option.eq_none_iff_forall_ne_some]
  intro a h
  obtain ⟨n, htext⟩ := Numeral.exists_of_read? h
  obtain ⟨c, hlast, hc⟩ := hleft
  rcases Numeral.letter_of_mem_getLast? htext hlast with rfl | rfl <;>
    simp [Literal.isMantissa] at hc

/-- The value of two texts with an operator between them, when the left one ends in a mantissa
and the text is cut at this operator. -/
theorem evaluate?_append_operator (hmantissa : EndsInMantissa left) (hleft : op.symbol ∉ left)
    (hpreceding : ∀ other ∈ op.preceding, other.symbol ∉ left ++ op.symbol :: right) :
    evaluate? (left ++ op.symbol :: right) =
      (evaluate? left).bind fun a => (evaluate? right).bind fun b => op.value? a b :=
  evaluate?_of_binary (read?_append_operator hmantissa) (firstSplit?_of_between hleft hpreceding)

end SplitCalc
