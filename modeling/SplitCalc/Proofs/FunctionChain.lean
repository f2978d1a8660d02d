import SplitCalc.Proofs.ChainEvaluation
import SplitCalc.Proofs.FunctionPosition

/-!
# Chains of functions

A literal without signs can have any number of names of functions in front of it and of
factorials behind it. The names apply from the literal outwards, and so do the factorials. How
the two mix is decided by the first tangent: the rules try the other names before the
factorial and the tangent after it, so the names ahead of the first tangent are split off
first, then all factorials, and last the tangent and the names behind it.

`evaluate?_functionChain` follows the names. An early one is split off; at the first tangent
the factorials are, one by one (`evaluate?_append_factorials`), and only names are left
(`evaluate?_namesText_append`).
-/

namespace SplitCalc

/-! ### Functions one after another -/

/-- The value of functions applied one after another, the last of the list first; a missing
value of any of them makes the whole value missing. -/
def applyAll? : List UnaryFunction → Decimal → Option Decimal
  | [], a => some a
  | f :: inner, a => (applyAll? inner a).bind f.value?

/-- One more function is applied to the value of the others. -/
theorem bind_applyAll?_cons (value? : Option Decimal) (f : UnaryFunction)
    (inner : List UnaryFunction) :
    value?.bind (applyAll? (f :: inner)) = (value?.bind (applyAll? inner)).bind f.value? := by
  rw [Option.bind_assoc]
  rfl

/-- Of two lists of functions the second one is applied first. -/
theorem bind_applyAll?_append (value? : Option Decimal) (outer inner : List UnaryFunction) :
    value?.bind (applyAll? (outer ++ inner)) =
      (value?.bind (applyAll? inner)).bind (applyAll? outer) := by
  induction outer with
  | nil => exact (Option.bind_fun_some _).symm
  | cons f outer ih => rw [List.cons_append, bind_applyAll?_cons, ih, bind_applyAll?_cons]

/-! ### The parts of a chain -/

/-- Names of functions one behind the other. -/
def namesText (names : List UnaryFunction) : Text :=
  names.flatMap UnaryFunction.symbol

theorem namesText_cons (f : UnaryFunction) (names : List UnaryFunction) :
    namesText (f :: names) = f.symbol ++ namesText names :=
  List.flatMap_cons

theorem hasNoOperator_namesText (names : List UnaryFunction) : HasNoOperator (namesText names) := by
  induction names with
  | nil => exact fun op => List.not_mem_nil
  | cons f names ih =>
    rw [namesText_cons]
    exact f.hasNoOperator_symbol.append ih

theorem hasNoOperator_replicate (count : Nat) : HasNoOperator (List.replicate count '!') := by
  intro op hmem
  have heq := List.eq_of_mem_replicate hmem
  revert heq
  cases op <;> decide

namespace Operand

variable (x : Operand)

theorem hasNoOperator_text : HasNoOperator x.text :=
  x.symbol_not_mem

/-- No name of a function opens an operand. -/
theorem not_symbol_prefix (f : UnaryFunction) : ¬f.symbol <+: x.text := by
  rintro ⟨rest, htext⟩
  have hsome := x.isSome_read?
  rw [← htext, read?_symbol_append] at hsome
  simp at hsome

/-- A text that ends in an operand does not end in a factorial. -/
theorem not_factorial_suffix (front : Text) :
    ¬UnaryFunction.factorial.symbol <:+ front ++ x.text := by
  intro hsuffix
  obtain ⟨c, hlast, hc⟩ := x.endsInMantissa_text
  have hmark := List.singleton_suffix_iff_getLast?_eq_some.1 hsuffix
  rw [List.getLast?_append, hlast] at hmark
  obtain rfl : c = '!' := Option.some.inj hmark
  revert hc
  decide

end Operand

/-! ### Evaluation -/

/-- Factorials behind a text without operators that no early function opens apply to its
value, by induction on their number. -/
theorem evaluate?_append_factorials {text : Text} (hfree : HasNoOperator text)
    (hearly : ∀ f ∈ UnaryFunction.early, ¬f.symbol <+: text) (count : Nat) :
    evaluate? (text ++ List.replicate count '!') =
      (evaluate? text).bind (applyAll? (List.replicate count .factorial)) := by
  -- the factorials open no early function either
  have hopened : ∀ count, ∀ f ∈ UnaryFunction.early,
      ¬f.symbol <+: text ++ List.replicate count '!' := by
    intro count f hf
    induction count with
    | zero => simpa using hearly f hf
    | succ count ih =>
      rw [List.replicate_succ', ← List.append_assoc]
      exact mt (symbol_prefix_append_factorial_iff (UnaryFunction.mem_early_iff.1 hf).1).1 ih
  induction count with
  | zero => simp [applyAll?]
  | succ count ih =>
    have hlonger := hfree.append (hasNoOperator_replicate count)
    rw [List.replicate_succ', ← List.append_assoc, List.replicate_succ, bind_applyAll?_cons, ← ih]
    exact evaluate?_append_factorial hlonger (hopened count)

variable {names : List UnaryFunction}

/-- Names in front of an operand apply to it, by induction on their list. -/
theorem evaluate?_namesText_append (hnames : ∀ f ∈ names, f ≠ .factorial) (x : Operand) :
    evaluate? (namesText names ++ x.text) = (Decimal.read? x.text).bind (applyAll? names) := by
  induction names with
  | nil => simp [namesText, x.evaluate?_text, applyAll?]
  | cons f names ih =>
    rw [List.forall_mem_cons] at hnames
    have hfree := (hasNoOperator_namesText names).append x.hasNoOperator_text
    rw [namesText_cons, List.append_assoc, bind_applyAll?_cons, ← ih hnames.2]
    by_cases htangent : f = .tangent
    · rw [htangent]
      exact evaluate?_tangent_append hfree (x.not_factorial_suffix _)
    · exact evaluate?_early_append (UnaryFunction.mem_early_iff.2 ⟨hnames.1, htangent⟩) hfree

/-- **Chains of functions.** The value of names of functions, an operand and factorials: the
names from the first tangent on apply to the operand, then the factorials, and then the names
ahead of the first tangent. -/
theorem evaluate?_functionChain (hnames : ∀ f ∈ names, f ≠ .factorial) (x : Operand)
    (count : Nat) :
    evaluate? (namesText names ++ x.text ++ List.replicate count '!') =
      (Decimal.read? x.text).bind (applyAll?
        (names.takeWhile (· ≠ .tangent) ++ List.replicate count .factorial ++
          names.dropWhile (· ≠ .tangent))) := by
  induction names with
  | nil =>
    rw [namesText, List.flatMap_nil, List.nil_append, ← x.evaluate?_text,
      evaluate?_append_factorials x.hasNoOperator_text fun f _ => x.not_symbol_prefix f]
    simp
  | cons f names ih =>
    have hfree := (hasNoOperator_namesText names).append x.hasNoOperator_text
    by_cases htangent : f = .tangent
    · -- the factorials are split off the whole text, which the tangent opens
      have hopened : UnaryFunction.tangent.symbol <+: namesText (f :: names) ++ x.text := by
        rw [namesText_cons, htangent, List.append_assoc]
        exact List.prefix_append _ _
      have hearly : ∀ g ∈ UnaryFunction.early, ¬g.symbol <+: namesText (f :: names) ++ x.text := by
        intro g hg hprefix
        exact (UnaryFunction.mem_early_iff.1 hg).2 (UnaryFunction.eq_of_prefix hprefix hopened)
      rw [evaluate?_append_factorials
          ((hasNoOperator_namesText (f :: names)).append x.hasNoOperator_text) hearly,
        evaluate?_namesText_append hnames, ← bind_applyAll?_append]
      simp [htangent]
    · rw [List.forall_mem_cons] at hnames
      rw [namesText_cons, List.append_assoc, List.append_assoc,
        evaluate?_early_append (UnaryFunction.mem_early_iff.2 ⟨hnames.1, htangent⟩)
          (by simpa using hfree.append (hasNoOperator_replicate count)),
        ← List.append_assoc, ih hnames.2, ← bind_applyAll?_cons]
      simp [htangent]

/-- In `costan45!` the factorial applies to the tangent and the cosine to the factorial. -/
theorem evaluate?_functionChain_cosine_tangent :
    (∀ f ∈ [UnaryFunction.cosine, .tangent], f ≠ .factorial) ∧
      evaluate? ['c', 'o', 's', 't', 'a', 'n', '4', '5', '!'] =
        some ⟨9998476951563913, 16, by decide⟩ := by
  have hnames : ∀ f ∈ [UnaryFunction.cosine, .tangent], f ≠ .factorial := by decide
  have hchain := evaluate?_functionChain hnames ⟨['4', '5'], by decide, by decide, by decide⟩ 1
  exact ⟨hnames, hchain.trans (by decide +kernel)⟩

end SplitCalc
