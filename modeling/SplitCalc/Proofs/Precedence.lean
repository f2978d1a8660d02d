import SplitCalc.Operation

/-!
# Precedence

A parser for operands with operators between them. It sees tokens only, not the characters
of a text: it reads the tokens once from left to right and keeps the operators whose right
operand is still open on a stack (`ParseTree.shift`). An operator closes the operators on the
stack that bind tighter than itself, and leaves those that bind as tightly open, so that all
operators group to the right.

The grammar behind it has one level for each strength (`ParseTree.AtLevel`): at the level of
an operator stand a tighter tree on its left and a tree of the same level on its right. The
main statement, `Chain.parse_eq_iff`, says that the parser gives the one tree of the grammar
that has the given tokens.
-/

namespace SplitCalc

/-- How tightly an operator binds: the power binds loosest and the division tightest. -/
def BinaryOperator.strength : BinaryOperator → Nat
  | power => 0
  | plus => 1
  | minus => 2
  | times => 3
  | divide => 4

/-! ### Chains -/

/-- Operands with an operator between each two neighbours. -/
structure Chain (α : Type) where
  /-- The first operand. -/
  first : α
  /-- The other operands, each with the operator in front of it. -/
  rest : List (BinaryOperator × α)
deriving DecidableEq

namespace Chain

variable {α : Type}

/-- A chain of one operand. -/
def single (a : α) : Chain α :=
  ⟨a, []⟩

/-- Two chains with an operator between them. -/
def join (op : BinaryOperator) (left right : Chain α) : Chain α :=
  ⟨left.first, left.rest ++ (op, right.first) :: right.rest⟩

/-- A chain with more operands behind it. -/
def extend (chain : Chain α) (more : List (BinaryOperator × α)) : Chain α :=
  ⟨chain.first, chain.rest ++ more⟩

@[simp]
theorem extend_nil (chain : Chain α) : chain.extend [] = chain := by
  simp [extend]

@[simp]
theorem extend_extend (chain : Chain α) (more others : List (BinaryOperator × α)) :
    (chain.extend more).extend others = chain.extend (more ++ others) := by
  simp [extend]

/-- What is added behind a joined chain is added behind its right part. -/
theorem join_extend (op : BinaryOperator) (left right : Chain α)
    (more : List (BinaryOperator × α)) :
    (left.join op right).extend more = left.join op (right.extend more) := by
  simp [extend, join]

end Chain

/-! ### Trees -/

/-- Operators applied to operands and to each other. -/
inductive ParseTree (α : Type)
  /-- A single operand. -/
  | operand (a : α)
  /-- An operator with what stands on its left and on its right. -/
  | node (op : BinaryOperator) (left right : ParseTree α)
deriving DecidableEq

namespace ParseTree

variable {α : Type}

/-- The operands and operators of a tree from left to right. -/
def chain : ParseTree α → Chain α
  | operand a => .single a
  | node op left right => left.chain.join op right.chain

/-- The grammar of the trees of a **level**: an operand, or an operator of at least that
strength between a tree of the next tighter level and a tree of its own level. -/
inductive AtLevel : Nat → ParseTree α → Prop
  /-- An operand has every level. -/
  | operand {level : Nat} (a : α) : AtLevel level (.operand a)
  /-- Only on the right may an operator of the same strength follow. -/
  | node {level : Nat} {op : BinaryOperator} {left right : ParseTree α} :
      level ≤ op.strength → AtLevel (op.strength + 1) left → AtLevel op.strength right →
        AtLevel level (.node op left right)

/-- Every operator of a tree binds at least as tightly as its level. -/
theorem AtLevel.le_strength {level : Nat} {tree : ParseTree α} (h : AtLevel level tree)
    {op : BinaryOperator} {a : α} (hmem : (op, a) ∈ tree.chain.rest) : level ≤ op.strength := by
  induction h with
  | operand => simp [chain, Chain.single] at hmem
  | node hlevel hleft hright ihleft ihright =>
    simp only [chain, Chain.join, List.mem_append, List.mem_cons, Prod.mk.injEq] at hmem
    rcases hmem with hmem | ⟨rfl, -⟩ | hmem
    · have := ihleft hmem
      omega
    · exact hlevel
    · exact Nat.le_trans hlevel (ihright hmem)

/-! ### The parser -/

/-- Operators whose right operand is still open, each with its left operand; the last one
that was read comes first. -/
abbrev Waiting (α : Type) :=
  List (ParseTree α × BinaryOperator)

/-- Closes the waiting operators that bind tighter than the next one. -/
def reduce (next : BinaryOperator) : Waiting α → ParseTree α → Waiting α × ParseTree α
  | [], right => ([], right)
  | (left, op) :: waiting, right =>
    if next.strength < op.strength then reduce next waiting (.node op left right)
    else ((left, op) :: waiting, right)

/-- Closes all waiting operators. -/
def close : Waiting α → ParseTree α → ParseTree α
  | [], right => right
  | (left, op) :: waiting, right => close waiting (.node op left right)

/-- Reads the other operands, with the waiting operators and the tree behind them so far. -/
def shift (waiting : Waiting α) (tree : ParseTree α) :
    List (BinaryOperator × α) → ParseTree α
  | [] => close waiting tree
  | (op, a) :: rest =>
    let (stillOpen, left) := reduce op waiting tree
    shift ((left, op) :: stillOpen) (.operand a) rest

end ParseTree

/-- The tree of a chain. -/
def Chain.parse {α : Type} (chain : Chain α) : ParseTree α :=
  ParseTree.shift [] (.operand chain.first) chain.rest

namespace ParseTree

variable {α : Type}

/-! ### The parser keeps all tokens -/

/-- Closing some operators first and the others later closes them all. -/
theorem close_reduce (next : BinaryOperator) (waiting : Waiting α) (tree : ParseTree α) :
    close (reduce next waiting tree).1 (reduce next waiting tree).2 = close waiting tree := by
  induction waiting generalizing tree with
  | nil => rfl
  | cons head waiting ih =>
    rw [reduce]
    split
    · exact ih _
    · rfl

/-- More operands behind the last tree stand behind the whole. -/
theorem chain_close_extend {waiting : Waiting α} {tree longer : ParseTree α}
    {more : List (BinaryOperator × α)} (h : longer.chain = tree.chain.extend more) :
    (close waiting longer).chain = (close waiting tree).chain.extend more := by
  induction waiting generalizing tree longer with
  | nil => exact h
  | cons head waiting ih =>
    refine ih ?_
    rw [chain, chain, h, Chain.join_extend]

/-- Nothing is lost and nothing moves while the tokens are read. -/
theorem chain_shift (waiting : Waiting α) (tree : ParseTree α)
    (rest : List (BinaryOperator × α)) :
    (shift waiting tree rest).chain = (close waiting tree).chain.extend rest := by
  induction rest generalizing waiting tree with
  | nil => rw [shift, Chain.extend_nil]
  | cons token rest ih =>
    obtain ⟨op, a⟩ := token
    -- the operator is pushed with what the reduction leaves, so its token joins the tree
    have hnode : (ParseTree.node op (reduce op waiting tree).2 (.operand a)).chain =
        (reduce op waiting tree).2.chain.extend [(op, a)] := rfl
    rw [shift, ih, close, chain_close_extend hnode, close_reduce, Chain.extend_extend]
    rfl

/-! ### The parser gives a tree of the grammar -/

/-- The level that the right operand of the last waiting operator must have. -/
def Waiting.level : Waiting α → Nat
  | [] => 0
  | (_, op) :: _ => op.strength

/-- Waiting operators are **nested** when each is at least as strong as the one before it and
has a tighter tree on its left. -/
def Waiting.Nested : Waiting α → Prop
  | [] => True
  | (left, op) :: waiting =>
    Waiting.level waiting ≤ op.strength ∧ AtLevel (op.strength + 1) left ∧ Waiting.Nested waiting

/-- After a reduction, the next operator can be pushed: it is at least as strong as those
that still wait, and the tree in front of it is tighter. -/
theorem nested_reduce {next : BinaryOperator} {waiting : Waiting α} {tree : ParseTree α}
    (hwaiting : waiting.Nested) (hlevel : AtLevel waiting.level tree)
    (hnext : AtLevel (next.strength + 1) tree) :
    Waiting.Nested (((reduce next waiting tree).2, next) :: (reduce next waiting tree).1) := by
  induction waiting generalizing tree with
  | nil => exact ⟨Nat.zero_le _, hnext, trivial⟩
  | cons head waiting ih =>
    obtain ⟨left, op⟩ := head
    obtain ⟨hle, hleft, hrest⟩ := hwaiting
    rw [reduce]
    split
    · rename_i hlt
      exact ih hrest (.node hle hleft hlevel) (.node hlt hleft hlevel)
    · rename_i hlt
      exact ⟨Nat.le_of_not_lt hlt, hnext, hle, hleft, hrest⟩

/-- Closing nested operators gives a tree of the loosest level. -/
theorem atLevel_close {waiting : Waiting α} {tree : ParseTree α} (hwaiting : waiting.Nested)
    (hlevel : AtLevel waiting.level tree) : AtLevel 0 (close waiting tree) := by
  induction waiting generalizing tree with
  | nil => exact hlevel
  | cons head waiting ih =>
    obtain ⟨hle, hleft, hrest⟩ := hwaiting
    exact ih hrest (.node hle hleft hlevel)

/-- Reading operands keeps the waiting operators nested, so a tree of the grammar comes out. -/
theorem atLevel_shift {waiting : Waiting α} (hwaiting : waiting.Nested) (a : α)
    (rest : List (BinaryOperator × α)) : AtLevel 0 (shift waiting (.operand a) rest) := by
  induction rest generalizing waiting a with
  | nil => exact atLevel_close hwaiting (.operand a)
  | cons token rest ih =>
    exact ih (nested_reduce hwaiting (.operand a) (.operand a)) token.2

/-! ### The parser finds every tree of the grammar -/

/-- Operators that bind no tighter than the next one are not closed. -/
theorem reduce_eq_self {next : BinaryOperator} {waiting : Waiting α} {tree : ParseTree α}
    (h : waiting.level ≤ next.strength) : reduce next waiting tree = (waiting, tree) := by
  cases waiting with
  | nil => rfl
  | cons head waiting => exact if_neg (Nat.not_lt.2 h)

/-- Reading the tokens of a tree amounts to having read the tree, when no operator that waits
is tighter than its level and the operator that follows is looser. -/
theorem shift_chain {level : Nat} {tree : ParseTree α} (h : AtLevel level tree)
    (waiting : Waiting α) (more : List (BinaryOperator × α)) (hwaiting : waiting.level ≤ level)
    (hmore : ∀ token ∈ more.head?, token.1.strength < level) :
    shift waiting (.operand tree.chain.first) (tree.chain.rest ++ more) =
      shift waiting tree more := by
  induction h generalizing waiting more with
  | operand a => rfl
  | @node level op left right hlevel hleft hright ihleft ihright =>
    have hopen : waiting.level ≤ op.strength := Nat.le_trans hwaiting hlevel
    calc shift waiting (.operand left.chain.first)
          ((left.chain.rest ++ (op, right.chain.first) :: right.chain.rest) ++ more)
        = shift waiting left ((op, right.chain.first) :: (right.chain.rest ++ more)) := by
          rw [List.append_assoc, List.cons_append]
          refine ihleft _ _ (Nat.le_trans hopen (Nat.le_succ _)) ?_
          simp
      _ = shift ((left, op) :: waiting) (.operand right.chain.first)
            (right.chain.rest ++ more) := by
          rw [shift, reduce_eq_self hopen]
      _ = shift ((left, op) :: waiting) right more := by
          refine ihright _ _ (Nat.le_refl _) fun token hmem => ?_
          exact Nat.lt_of_lt_of_le (hmore token hmem) hlevel
      _ = shift waiting (.node op left right) more := by
          cases more with
          | nil => rfl
          | cons token more =>
            -- the next operator is looser than the root and closes it
            have hlt : token.1.strength < op.strength :=
              Nat.lt_of_lt_of_le (hmore token rfl) hlevel
            rw [shift, shift, reduce, if_pos hlt]

end ParseTree

/-- **The parser is right and misses nothing.** The tree of a chain is the one tree of the
precedence grammar whose operands and operators are those of the chain. -/
theorem Chain.parse_eq_iff {α : Type} {chain : Chain α} {tree : ParseTree α} :
    chain.parse = tree ↔ tree.AtLevel 0 ∧ tree.chain = chain := by
  constructor
  · rintro rfl
    refine ⟨ParseTree.atLevel_shift ?_ _ _, ParseTree.chain_shift _ _ _⟩
    exact trivial
  · rintro ⟨hlevel, rfl⟩
    have hshift := ParseTree.shift_chain hlevel [] [] (Nat.le_refl 0) (by simp)
    rwa [List.append_nil] at hshift

/-- Equal operators group to the right, and a looser one behind a tighter one takes it whole. -/
example : (⟨1, [(.minus, 2), (.minus, 3), (.plus, 4)]⟩ : Chain Nat).parse =
    .node .plus (.node .minus (.operand 1) (.node .minus (.operand 2) (.operand 3)))
      (.operand 4) := by
  decide

end SplitCalc
