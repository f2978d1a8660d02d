import Mathlib.Logic.Relation
import SplitCalc.Proofs.OperatorPosition

/-!
# Rejected texts

The evaluator gives no value to a text outside the grammar, nor to a text that it takes apart
into one, however deep the offending piece lies. Three parts make this up:

* a text that holds a character of no mark and no literal, that ends in an operator, that
  nothing opens, or that is a bare function is not derivable (`Malformed.not_derivable`);
* `HasPiece` is one split of the evaluator, and a piece without a value leaves the whole text
  without one (`evaluate?_eq_none_of_hasPiece`); by induction so does a piece of a piece
  (`evaluate?_eq_none_of_reaches`);
* texts with a value are derivable, so a piece that is not derivable has none.
-/

namespace SplitCalc

/-! ### Foreign characters -/

/-- A character is **foreign** when it occurs in no literal, in no operator and in no name of a
function. -/
structure IsForeign (c : Char) : Prop where
  /-- It is neither a digit nor the point. -/
  isMantissa_eq : Literal.isMantissa c = false
  /-- It is not the letter of an exponent. -/
  ne_letter : c ≠ 'e' ∧ c ≠ 'E'
  /-- It is no operator. -/
  ne_symbol : ∀ op : BinaryOperator, c ≠ op.symbol
  /-- It occurs in no name of a function. -/
  not_mem_symbol : ∀ f : UnaryFunction, c ∉ f.symbol

/-- A blank is foreign. -/
theorem isForeign_blank : IsForeign ' ' where
  isMantissa_eq := by decide
  ne_letter := by decide
  ne_symbol op := by cases op <;> decide
  not_mem_symbol f := by cases f <;> decide

/-- No foreign character occurs in a numeral: its only characters beside digits, the point and
the letter are signs, and these are operators too. -/
theorem IsForeign.not_mem_text {c : Char} (hc : IsForeign c) (n : Numeral) : c ∉ n.text := by
  intro hmem
  obtain ⟨left, right, htext, -⟩ := List.eq_append_cons_of_mem hmem
  rcases (n.text_eq_append_cons htext hc.isMantissa_eq hc.ne_letter).1 with rfl | rfl
  · exact hc.ne_symbol .plus rfl
  · exact hc.ne_symbol .minus rfl

/-- No foreign character occurs in an accepted text. -/
theorem IsForeign.not_mem {c : Char} (hc : IsForeign c) {text : Text} (h : Derivable text) :
    c ∉ text := by
  induction h with
  | literal h =>
    obtain ⟨n, rfl⟩ := Numeral.exists_of_read? h
    exact hc.not_mem_text n
  | binary op _ _ ihleft ihright =>
    simp only [List.mem_append, List.mem_cons, not_or]
    exact ⟨ihleft, hc.ne_symbol op, ihright⟩
  | @leading f _ _ _ ih =>
    rw [List.mem_append, not_or]
    exact ⟨hc.not_mem_symbol f, ih⟩
  | trailing _ ih =>
    rw [List.mem_append, not_or]
    exact ⟨ih, hc.not_mem_symbol .factorial⟩

/-! ### Malformed texts -/

/-- Some forms of texts outside the grammar. -/
inductive Malformed : Text → Prop
  /-- The empty text. -/
  | empty : Malformed []
  /-- A function without an operand. -/
  | bareFunction (f : UnaryFunction) : Malformed f.symbol
  /-- A foreign character anywhere. -/
  | foreign {c : Char} (hc : IsForeign c) {text : Text} (hmem : c ∈ text) : Malformed text
  /-- An operator at the end. -/
  | operatorLast (op : BinaryOperator) (text : Text) : Malformed (text ++ [op.symbol])
  /-- An operator at the head that is no sign. -/
  | operatorFirst {op : BinaryOperator} (hplus : op ≠ .plus) (hminus : op ≠ .minus)
      (text : Text) : Malformed (op.symbol :: text)
  /-- A letter at the head with which no name of a function begins there. -/
  | letterFirst {c : Char} (hc : c.isAlpha) {text : Text}
      (hname : ∀ f : UnaryFunction, f ≠ .factorial → ¬f.symbol <+: c :: text) :
      Malformed (c :: text)

/-- A function without an operand is not accepted. -/
theorem UnaryFunction.not_derivable_symbol (f : UnaryFunction) : ¬Derivable f.symbol := by
  intro h
  obtain ⟨c, hlast, hc⟩ := h.getLast?_eq
  cases f
  case factorial =>
    -- the mark of the factorial may stand at an end, but it opens nothing
    rcases h.isOpened with ⟨d, hhead, hd⟩ | ⟨f, hf, hprefix⟩
    · cases hhead
      revert hd
      decide
    · cases f <;> simp_all [symbol]
  all_goals
    cases hlast
    revert hc
    decide

/-- An operator that is no sign opens no text. -/
theorem BinaryOperator.not_isOpened_cons {op : BinaryOperator} (hplus : op ≠ .plus)
    (hminus : op ≠ .minus) (text : Text) : ¬IsOpened (op.symbol :: text) := by
  rintro (⟨c, hhead, hc⟩ | ⟨f, -, hprefix⟩)
  · obtain rfl : op.symbol = c := Option.some.inj hhead
    rcases hc with hc | hc | hc
    · simp [op.isMantissa_symbol] at hc
    · exact hplus (symbol_injective hc)
    · exact hminus (symbol_injective hc)
  · -- no name of a function begins with the symbol of an operator
    cases op <;> cases f <;> simp [symbol, UnaryFunction.symbol] at hprefix

/-- A letter is no digit: all digits stand before it. -/
private theorem isDigit_eq_false_of_isAlpha {c : Char} (hc : c.isAlpha) : c.isDigit = false := by
  have hletter : 'A'.val ≤ c.val := by
    rcases Bool.or_eq_true_iff.1 hc with hupper | hlower
    · exact (of_decide_eq_true hupper).1
    · have ha : 'a'.val ≤ c.val := of_decide_eq_true (Bool.and_eq_true_iff.1 hlower).1
      exact UInt32.le_trans (by decide) ha
  rw [Bool.eq_false_iff]
  intro hdigit
  have hnine : c.val ≤ '9'.val := of_decide_eq_true (Bool.and_eq_true_iff.1 hdigit).2
  exact absurd (UInt32.le_trans hletter hnine) (by decide)

/-- A letter opens a text only as the first one of a name. -/
theorem not_isOpened_cons_of_isAlpha {c : Char} (hc : c.isAlpha) {text : Text}
    (hname : ∀ f : UnaryFunction, f ≠ .factorial → ¬f.symbol <+: c :: text) :
    ¬IsOpened (c :: text) := by
  rintro (⟨d, hhead, hd⟩ | ⟨f, hf, hprefix⟩)
  · obtain rfl : c = d := Option.some.inj hhead
    rw [Literal.isMantissa, Bool.or_eq_true, beq_iff_eq] at hd
    rcases hd with (hdigit | rfl) | rfl | rfl
    · simp [isDigit_eq_false_of_isAlpha hc] at hdigit
    · simp at hc
    · simp at hc
    · simp at hc
  · exact hname f hf hprefix

/-- **Malformed texts are not derivable.** -/
theorem Malformed.not_derivable {text : Text} (h : Malformed text) : ¬Derivable text := by
  intro hderivable
  cases h with
  | empty =>
    obtain ⟨c, hlast, -⟩ := hderivable.getLast?_eq
    simp at hlast
  | bareFunction f => exact f.not_derivable_symbol hderivable
  | foreign hc hmem => exact hc.not_mem hderivable hmem
  | operatorLast op text =>
    obtain ⟨c, hlast, hc⟩ := hderivable.getLast?_eq
    obtain rfl : op.symbol = c := by simpa using hlast
    revert hc
    cases op <;> decide
  | operatorFirst hplus hminus text =>
    exact BinaryOperator.not_isOpened_cons hplus hminus text hderivable.isOpened
  | letterFirst hc hname => exact not_isOpened_cons_of_isAlpha hc hname hderivable.isOpened

/-! ### Pieces -/

/-- A text **has a piece** when the evaluator splits the text into it and perhaps another one.
A literal has none. -/
def HasPiece (text piece : Text) : Prop :=
  Decimal.read? text = none ∧ ∃ split, firstSplit? text = some split ∧ piece ∈ split.pieces

/-- **Step.** A text has no value when one of its pieces has none. -/
theorem evaluate?_eq_none_of_hasPiece {text piece : Text} (h : HasPiece text piece)
    (hnone : evaluate? piece = none) : evaluate? text = none := by
  obtain ⟨hread, split, hsplit, hmem⟩ := h
  cases split with
  | binary op left right =>
    rw [evaluate?_of_binary hread hsplit]
    simp only [Split.pieces, List.mem_cons, List.not_mem_nil, or_false] at hmem
    rcases hmem with rfl | rfl
    · rw [hnone, Option.bind_none]
    · simp [hnone]
  | unary f operand =>
    obtain rfl : piece = operand := by simpa [Split.pieces] using hmem
    rw [evaluate?_of_unary hread hsplit, hnone, Option.bind_none]

/-- **Run.** A text has no value when splitting comes to a text that has none, at whatever
depth. -/
theorem evaluate?_eq_none_of_reaches {text piece : Text}
    (h : Relation.ReflTransGen HasPiece text piece) (hnone : evaluate? piece = none) :
    evaluate? text = none := by
  induction h using Relation.ReflTransGen.head_induction_on with
  | refl => exact hnone
  | head hpiece _ ih => exact evaluate?_eq_none_of_hasPiece hpiece ih

/-! ### Soundness of acceptance -/

/-- **Acceptance is sound.** Every text with a value is derivable. Malformed texts are not: a
foreign character such as a blank, an operator at the end, at the head an operator that is no
sign or a letter that opens no name, nothing at all, or a bare function. And a text has no
value when splitting it comes to a text that is not derivable, at whatever depth. -/
theorem acceptance_sound :
    (∀ text a, evaluate? text = some a → Derivable text) ∧
      (∀ text, Malformed text → ¬Derivable text) ∧ IsForeign ' ' ∧
      ∀ text piece, Relation.ReflTransGen HasPiece text piece → ¬Derivable piece →
        evaluate? text = none := by
  refine ⟨fun text a => derivable_of_evaluate?, fun text => Malformed.not_derivable,
    isForeign_blank, fun text piece hreach hpiece => ?_⟩
  exact evaluate?_eq_none_of_reaches hreach (evaluate?_eq_none_of_not_derivable hpiece)

/-- A blank in the operand of a function to the right of a product: `2*sin 3` has no value. -/
theorem acceptance_sound_blank_operand :
    Relation.ReflTransGen HasPiece ['2', '*', 's', 'i', 'n', ' ', '3'] [' ', '3'] ∧
      ¬Derivable [' ', '3'] ∧ evaluate? ['2', '*', 's', 'i', 'n', ' ', '3'] = none := by
  have hproduct : HasPiece ['2', '*', 's', 'i', 'n', ' ', '3'] ['s', 'i', 'n', ' ', '3'] :=
    ⟨by decide, .binary .times ['2'] ['s', 'i', 'n', ' ', '3'], by decide, by decide⟩
  have hsine : HasPiece ['s', 'i', 'n', ' ', '3'] [' ', '3'] :=
    ⟨by decide, .unary .sine [' ', '3'], by decide, by decide⟩
  have hreach := Relation.ReflTransGen.head hproduct (.single hsine)
  have hblank : ¬Derivable [' ', '3'] :=
    acceptance_sound.2.1 _ (.foreign acceptance_sound.2.2.1 (by decide))
  exact ⟨hreach, hblank, acceptance_sound.2.2.2 _ _ hreach hblank⟩

end SplitCalc
