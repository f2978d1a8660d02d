import SplitCalc.Proofs.OperatorPosition
import SplitCalc.Proofs.Precedence

/-!
# Chains of literals

A chain of literals without signs is evaluated as the precedence parser reads it, although
the evaluator knows no tokens: it cuts the text at the first occurrence of the loosest
operator. `evaluate?_text_chain` shows this for every tree of the precedence grammar, by
induction on the tree: the operator at its root is the loosest of the text, it does not occur
on its left, and the whole is no literal. The parser gives such a tree for every chain, so
the value of the text is the value of this tree (`evaluate?_eq_value?_parse`).
-/

namespace SplitCalc

/-! ### Operands -/

/-- The text of a literal in range that holds no sign. -/
structure Operand where
  /-- The text. -/
  text : Text
  /-- It can be read. -/
  isSome_read? : (Decimal.read? text).isSome
  /-- It holds no plus. -/
  plus_not_mem : '+' ∉ text
  /-- It holds no minus. -/
  minus_not_mem : '-' ∉ text

namespace Operand

variable (x : Operand)

/-- An operand is a numeral. -/
theorem exists_numeral : ∃ n : Numeral, n.text = x.text := by
  obtain ⟨a, hread⟩ := Option.isSome_iff_exists.1 x.isSome_read?
  exact Numeral.exists_of_read? hread

/-- No operator occurs in an operand. -/
theorem symbol_not_mem (op : BinaryOperator) : op.symbol ∉ x.text := by
  intro hmem
  obtain ⟨n, htext⟩ := x.exists_numeral
  rcases n.eq_plus_or_minus_of_symbol_mem (htext ▸ hmem) with rfl | rfl
  · exact x.plus_not_mem hmem
  · exact x.minus_not_mem hmem

theorem endsInMantissa_text : EndsInMantissa x.text := by
  obtain ⟨n, htext⟩ := x.exists_numeral
  exact htext ▸ n.endsInMantissa_text

/-- An operand has the value that is read from it. -/
theorem evaluate?_text : evaluate? x.text = Decimal.read? x.text := by
  obtain ⟨n, htext⟩ := x.exists_numeral
  rw [← htext, n.evaluate?_text]

end Operand

/-! ### The text of a chain -/

namespace Chain

/-- The operands of a chain with the operator symbols between them. -/
def text (chain : Chain Operand) : Text :=
  chain.first.text ++ chain.rest.flatMap fun (op, x) => op.symbol :: x.text

/-- The text of one operand. -/
theorem text_single (x : Operand) : (single x).text = x.text := by
  simp [text, single]

/-- The text of two joined chains. -/
theorem text_join (op : BinaryOperator) (left right : Chain Operand) :
    (left.join op right).text = left.text ++ op.symbol :: right.text := by
  simp [text, join]

/-- The operator symbols in a text are those of its operators. -/
theorem exists_mem_rest_of_symbol_mem {chain : Chain Operand} {op : BinaryOperator}
    (h : op.symbol ∈ chain.text) : ∃ x, (op, x) ∈ chain.rest := by
  rw [text, List.mem_append, List.mem_flatMap] at h
  rcases h with hfirst | ⟨⟨other, x⟩, hmem, hsymbol⟩
  · exact absurd hfirst (chain.first.symbol_not_mem op)
  · rcases List.mem_cons.1 hsymbol with heq | hoperand
    · obtain rfl := BinaryOperator.symbol_injective heq
      exact ⟨x, hmem⟩
    · exact absurd hoperand (x.symbol_not_mem op)

end Chain

/-! ### The value of a tree -/

namespace ParseTree

/-- The value of a tree: the operators applied to the values of the literals, where a missing
value of any part makes the whole value missing. -/
def value? : ParseTree Operand → Option Decimal
  | operand x => Decimal.read? x.text
  | node op left right => left.value?.bind fun a => right.value?.bind fun b => op.value? a b

theorem endsInMantissa_text_chain (tree : ParseTree Operand) :
    EndsInMantissa tree.chain.text := by
  induction tree with
  | operand x =>
    rw [chain, Chain.text_single]
    exact x.endsInMantissa_text
  | node op left right _ ihright =>
    rw [chain, Chain.text_join]
    exact ihright.append_cons _ _

end ParseTree

/-- The operators that are tried before an operator are the looser ones. -/
theorem BinaryOperator.strength_lt_of_mem_preceding {op other : BinaryOperator}
    (h : other ∈ op.preceding) : other.strength < op.strength := by
  revert h
  cases op <;> cases other <;> decide

/-- **Trees of the grammar.** The text of every tree of the precedence grammar has the value
of the tree. -/
theorem evaluate?_text_chain {level : Nat} {tree : ParseTree Operand}
    (h : tree.AtLevel level) : evaluate? tree.chain.text = tree.value? := by
  induction h with
  | operand x =>
    rw [ParseTree.chain, Chain.text_single, ParseTree.value?]
    exact x.evaluate?_text
  | @node level op left right hlevel hleft hright ihleft ihright =>
    -- on the left stand tighter operators only, and looser ones nowhere
    have hnotleft : op.symbol ∉ left.chain.text := by
      intro hmem
      obtain ⟨x, hrest⟩ := Chain.exists_mem_rest_of_symbol_mem hmem
      exact Nat.lt_irrefl _ (hleft.le_strength hrest)
    have hpreceding : ∀ other ∈ op.preceding,
        other.symbol ∉ left.chain.text ++ op.symbol :: right.chain.text := by
      intro other hother hmem
      rw [← Chain.text_join] at hmem
      obtain ⟨x, hrest⟩ := Chain.exists_mem_rest_of_symbol_mem hmem
      have hnode : (ParseTree.node op left right).AtLevel op.strength :=
        .node (Nat.le_refl _) hleft hright
      have hle : op.strength ≤ other.strength := hnode.le_strength hrest
      have hlt := BinaryOperator.strength_lt_of_mem_preceding hother
      omega
    rw [ParseTree.chain, Chain.text_join, ParseTree.value?, ← ihleft, ← ihright]
    exact evaluate?_append_operator left.endsInMantissa_text_chain hnotleft hpreceding

/-- **Chains of literals.** The text of literals without signs and operators between them has
the value of the tree that the precedence parser makes of these tokens. This tree is the one
with these tokens in which the power binds loosest, then the plus, the minus, the times and
the division, all of them to the right. -/
theorem evaluate?_eq_value?_parse (chain : Chain Operand) :
    evaluate? chain.text = chain.parse.value? ∧
      ∀ tree : ParseTree Operand, chain.parse = tree ↔ tree.AtLevel 0 ∧ tree.chain = chain := by
  refine ⟨?_, fun tree => Chain.parse_eq_iff⟩
  obtain ⟨hlevel, hchain⟩ := Chain.parse_eq_iff.1 (rfl : chain.parse = chain.parse)
  calc evaluate? chain.text
      = evaluate? chain.parse.chain.text := by rw [hchain]
    _ = chain.parse.value? := evaluate?_text_chain hlevel

end SplitCalc
