import SplitCalc.Proofs.Evaluation
import SplitCalc.Proofs.Splitting

/-!
# Nested calls of the evaluator

The evaluator goes on with the right piece of a split, or with the operand of a function, in
the same call; it calls itself on left pieces only. A left piece holds neither the operator
that was cut nor one that is tried before, and pieces of pieces hold no new characters, so
inside a nested call all these operators are gone for good. Hence at most five calls are
nested, however long the text is.

* `Examines` says which texts an evaluation examines, and how many calls below the first one;
  `Calls` is the call on a left piece.
* Every nested call has fewer operators left (`Calls.length_operatorsIn_lt`), and by induction
  a text is examined no deeper than it has operators (`Examines.depth_le`).
* `evaluateWithin` is the evaluator with a budget of nested calls. It exhausts the budget
  exactly when a text is examined deeper than that, and otherwise it finishes with the value
  of the text (`evaluateWithin_spec`).
-/

namespace SplitCalc

/-! ### Calls -/

/-- The evaluation of a text **examines** another one at some depth: within so many calls on
left pieces, each nested in the one before. -/
inductive Examines : Nat → Text → Text → Prop
  /-- The first text of a call is examined in it. -/
  | start (text : Text) : Examines 0 text text
  /-- The left piece of a split has a call of its own. -/
  | left {depth : Nat} {text left right examined : Text} {op : BinaryOperator} :
      Decimal.read? text = none → firstSplit? text = some (.binary op left right) →
        Examines depth left examined → Examines (depth + 1) text examined
  /-- The right piece is examined in the same call, once the left one has a value. -/
  | right {depth : Nat} {text left right examined : Text} {op : BinaryOperator} :
      Decimal.read? text = none → firstSplit? text = some (.binary op left right) →
        (evaluate? left).isSome → Examines depth right examined → Examines depth text examined
  /-- The operand of a function is examined in the same call. -/
  | operand {depth : Nat} {text operand examined : Text} {f : UnaryFunction} :
      Decimal.read? text = none → firstSplit? text = some (.unary f operand) →
        Examines depth operand examined → Examines depth text examined

/-- The call on a text **calls** the evaluator on a left piece, having cut at an operator a text
that it examines itself. -/
def Calls (op : BinaryOperator) (text left : Text) : Prop :=
  ∃ examined right, Examines 0 text examined ∧ Decimal.read? examined = none ∧
    firstSplit? examined = some (.binary op left right)

section Calls

variable {depth : Nat} {text left examined : Text} {op : BinaryOperator}

/-- What is examined at a greater depth is examined inside a call on a left piece. -/
theorem Examines.exists_calls (h : Examines (depth + 1) text examined) :
    ∃ op left, Calls op text left ∧ Examines depth left examined := by
  generalize hnext : depth + 1 = next at h
  induction h with
  | start => simp at hnext
  | left hread hsplit h =>
    obtain rfl := Nat.succ.inj hnext
    exact ⟨_, _, ⟨_, _, .start _, hread, hsplit⟩, h⟩
  | right hread hsplit hvalue _ ih =>
    obtain ⟨op, left, ⟨other, rest, hother, hcut⟩, h⟩ := ih hnext
    exact ⟨op, left, ⟨other, rest, .right hread hsplit hvalue hother, hcut⟩, h⟩
  | operand hread hsplit _ ih =>
    obtain ⟨op, left, ⟨other, rest, hother, hcut⟩, h⟩ := ih hnext
    exact ⟨op, left, ⟨other, rest, .operand hread hsplit hother, hcut⟩, h⟩

/-! ### Operators that are left -/

/-- Every character of a text that is examined is a character of the text. -/
theorem Examines.mem (h : Examines depth text examined) {c : Char} (hc : c ∈ examined) :
    c ∈ text := by
  induction h with
  | start => exact hc
  | left _ hsplit _ ih => exact mem_of_mem_pieces hsplit (by simp [Split.pieces]) (ih hc)
  | right _ hsplit _ _ ih => exact mem_of_mem_pieces hsplit (by simp [Split.pieces]) (ih hc)
  | operand _ hsplit _ ih => exact mem_of_mem_pieces hsplit (by simp [Split.pieces]) (ih hc)

/-- **Step.** A left piece that the evaluator is called on holds neither the operator that was
cut nor one that is tried before. -/
theorem Calls.symbol_not_mem (h : Calls op text left) :
    op.symbol ∉ left ∧
      ∀ other, .between other ∈ (Rule.between op).earlier → other.symbol ∉ left := by
  obtain ⟨examined, right, -, -, hsplit⟩ := h
  obtain ⟨-, hop, hpreceding⟩ := firstSplit?_eq_binary_iff.1 hsplit
  refine ⟨hop, fun other hother hmem => ?_⟩
  rw [Rule.earlier_between] at hother
  have hmem' := mem_of_mem_pieces hsplit (by simp [Split.pieces]) hmem
  exact hpreceding other (by simpa using hother) hmem'

/-- The operators whose symbols occur in a text. -/
def operatorsIn (text : Text) : List BinaryOperator :=
  BinaryOperator.all.filter fun op => op.symbol ∈ text

theorem mem_operatorsIn : op ∈ operatorsIn text ↔ op.symbol ∈ text := by
  have hall : op ∈ BinaryOperator.all := by cases op <;> decide
  simp [operatorsIn, hall]

theorem length_operatorsIn_le (text : Text) : (operatorsIn text).length ≤ 5 :=
  List.length_filter_le _ _

/-- The operators of a text with no new characters are some of those before. -/
theorem operatorsIn_eq_filter (h : ∀ c ∈ examined, c ∈ text) :
    operatorsIn examined = (operatorsIn text).filter fun op => op.symbol ∈ examined := by
  rw [operatorsIn, operatorsIn, List.filter_filter]
  refine List.filter_congr fun op _ => ?_
  have := h op.symbol
  grind

/-- A call on a left piece has fewer operators left: the one that was cut is gone. -/
theorem Calls.length_operatorsIn_lt (h : Calls op text left) :
    (operatorsIn left).length < (operatorsIn text).length := by
  have hgone := h.symbol_not_mem.1
  obtain ⟨examined, right, hexamined, -, hsplit⟩ := h
  have hmem : op.symbol ∈ text := by
    refine hexamined.mem ?_
    rw [(firstSplit?_eq_binary_iff.1 hsplit).1]
    exact List.mem_append_right _ List.mem_cons_self
  have hchars : ∀ c ∈ left, c ∈ text := fun c hc =>
    hexamined.mem (mem_of_mem_pieces hsplit (by simp [Split.pieces]) hc)
  rw [operatorsIn_eq_filter hchars, List.length_filter_lt_length_iff_exists]
  exact ⟨op, mem_operatorsIn.2 hmem, by simpa using hgone⟩

/-- **Run.** A text is examined no deeper than there are operators to cut at. -/
theorem Examines.depth_le (h : Examines depth text examined) :
    depth ≤ (operatorsIn text).length := by
  induction depth generalizing text with
  | zero => exact Nat.zero_le _
  | succ depth ih =>
    obtain ⟨op, left, hcall, hleft⟩ := h.exists_calls
    exact Nat.lt_of_le_of_lt (ih hleft) hcall.length_operatorsIn_lt

/-- Five calls are nested in one another when each cuts at the next tighter operator. -/
theorem exists_examines_five : ∃ text examined, Examines 5 text examined := by
  refine ⟨['8', '/', '2', '*', '3', '-', '1', '+', '1', '^', '2'], ['8'], ?_⟩
  have hpower : firstSplit? ['8', '/', '2', '*', '3', '-', '1', '+', '1', '^', '2'] =
      some (.binary .power ['8', '/', '2', '*', '3', '-', '1', '+', '1'] ['2']) := by decide
  have hplus : firstSplit? ['8', '/', '2', '*', '3', '-', '1', '+', '1'] =
      some (.binary .plus ['8', '/', '2', '*', '3', '-', '1'] ['1']) := by decide
  have hminus : firstSplit? ['8', '/', '2', '*', '3', '-', '1'] =
      some (.binary .minus ['8', '/', '2', '*', '3'] ['1']) := by decide
  have htimes : firstSplit? ['8', '/', '2', '*', '3'] =
      some (.binary .times ['8', '/', '2'] ['3']) := by decide
  have hdivide : firstSplit? ['8', '/', '2'] = some (.binary .divide ['8'] ['2']) := by decide
  exact .left (by decide) hpower (.left (by decide) hplus (.left (by decide) hminus
    (.left (by decide) htimes (.left (by decide) hdivide (.start _)))))

end Calls

/-! ### The evaluator with a budget -/

/-- What an evaluation with a budget of nested calls comes to. -/
inductive Metered
  /-- A call was needed that the budget does not allow. -/
  | exhausted
  /-- The evaluation came to its end, with a value or without one. -/
  | finished (result : Option Decimal)
deriving DecidableEq

/-- Goes on with the value of an evaluation, if it finished with one. -/
def Metered.andThen : Metered → (Decimal → Metered) → Metered
  | exhausted, _ => exhausted
  | finished none, _ => finished none
  | finished (some value), next => next value

/-- The evaluator with a budget of nested calls: it runs like `evaluateThen?`, but a call on a
left piece takes one level from the budget. -/
def evaluateWithin (budget : Nat) (pending : List Pending) (text : Text) : Metered :=
  match Decimal.read? text with
  | some value => .finished (resumeAll? pending value)
  | none =>
    match _h : firstSplit? text with
    | none => .finished none
    | some (.binary op left right) =>
      match budget with
      | 0 => .exhausted
      | below + 1 =>
        (evaluateWithin below [] left).andThen fun value =>
          evaluateWithin (below + 1) (.binary op value :: pending) right
    | some (.unary f operand) => evaluateWithin budget (.unary f :: pending) operand
termination_by text.length
decreasing_by
  all_goals exact length_lt_of_mem_pieces _h (by simp [Split.pieces])

section Budget

variable {budget : Nat} {pending : List Pending} {text left right operand : Text}
  {op : BinaryOperator} {f : UnaryFunction}

theorem evaluateWithin_of_read? {a : Decimal} (hread : Decimal.read? text = some a) :
    evaluateWithin budget pending text = .finished (resumeAll? pending a) := by
  rw [evaluateWithin, hread]

theorem evaluateWithin_of_not_split (hread : Decimal.read? text = none)
    (hsplit : firstSplit? text = none) :
    evaluateWithin budget pending text = .finished none := by
  rw [evaluateWithin, hread]
  dsimp only
  split <;> simp_all

/-- Without a budget no left piece is evaluated. -/
theorem evaluateWithin_zero_of_binary (hread : Decimal.read? text = none)
    (hsplit : firstSplit? text = some (.binary op left right)) :
    evaluateWithin 0 pending text = .exhausted := by
  rw [evaluateWithin, hread]
  dsimp only
  split <;> simp_all

theorem evaluateWithin_succ_of_binary (hread : Decimal.read? text = none)
    (hsplit : firstSplit? text = some (.binary op left right)) :
    evaluateWithin (budget + 1) pending text =
      (evaluateWithin budget [] left).andThen fun value =>
        evaluateWithin (budget + 1) (.binary op value :: pending) right := by
  rw [evaluateWithin, hread]
  dsimp only
  split <;> simp_all

theorem evaluateWithin_of_unary (hread : Decimal.read? text = none)
    (hsplit : firstSplit? text = some (.unary f operand)) :
    evaluateWithin budget pending text = evaluateWithin budget (.unary f :: pending) operand := by
  rw [evaluateWithin, hread]
  dsimp only
  split <;> simp_all

/-! ### Exceeding a budget -/

/-- The evaluation of a text **exceeds** a budget when it examines a text deeper than that. -/
def Exceeds (budget : Nat) (text : Text) : Prop :=
  ∃ examined, Examines (budget + 1) text examined

/-- Below a literal nothing is examined. -/
theorem not_exceeds_of_read? {a : Decimal} (hread : Decimal.read? text = some a) :
    ¬Exceeds budget text := by
  rintro ⟨examined, h⟩
  cases h <;> simp_all

/-- Below a text that cannot be split nothing is examined. -/
theorem not_exceeds_of_not_split (hsplit : firstSplit? text = none) : ¬Exceeds budget text := by
  rintro ⟨examined, h⟩
  cases h <;> simp_all

/-- The left piece of a split needs a nested call. -/
theorem exceeds_zero_of_binary (hread : Decimal.read? text = none)
    (hsplit : firstSplit? text = some (.binary op left right)) : Exceeds 0 text :=
  ⟨left, .left hread hsplit (.start left)⟩

/-- Of a text split at an operator, the left piece has one nested call less, and the right one
as many if it is examined. -/
theorem exceeds_succ_iff_of_binary (hread : Decimal.read? text = none)
    (hsplit : firstSplit? text = some (.binary op left right)) :
    Exceeds (budget + 1) text ↔
      Exceeds budget left ∨ (evaluate? left).isSome ∧ Exceeds (budget + 1) right := by
  constructor
  · rintro ⟨examined, h⟩
    cases h with
    | left _ hother h =>
      obtain ⟨rfl, rfl, rfl⟩ := Split.binary.inj (Option.some.inj (hsplit.symm.trans hother))
      exact Or.inl ⟨examined, h⟩
    | right _ hother hvalue h =>
      obtain ⟨rfl, rfl, rfl⟩ := Split.binary.inj (Option.some.inj (hsplit.symm.trans hother))
      exact Or.inr ⟨hvalue, examined, h⟩
    | operand _ hother => simp [hsplit] at hother
  · rintro (⟨examined, h⟩ | ⟨hvalue, examined, h⟩)
    · exact ⟨examined, .left hread hsplit h⟩
    · exact ⟨examined, .right hread hsplit hvalue h⟩

/-- The operand of a function is examined in the same call. -/
theorem exceeds_iff_of_unary (hread : Decimal.read? text = none)
    (hsplit : firstSplit? text = some (.unary f operand)) :
    Exceeds budget text ↔ Exceeds budget operand := by
  constructor
  · rintro ⟨examined, h⟩
    cases h with
    | left _ hother => simp [hsplit] at hother
    | right _ hother => simp [hsplit] at hother
    | operand _ hother h =>
      obtain ⟨rfl, rfl⟩ := Split.unary.inj (Option.some.inj (hsplit.symm.trans hother))
      exact ⟨examined, h⟩
  · rintro ⟨examined, h⟩
    exact ⟨examined, .operand hread hsplit h⟩

variable (budget pending text) in
/-- **The budgeted run.** A budget is exhausted when the evaluation exceeds it, and otherwise the
run finishes like the one without a budget; by induction on the length of the text, for every
budget and every stack. -/
theorem evaluateWithin_spec :
    (Exceeds budget text → evaluateWithin budget pending text = .exhausted) ∧
      (¬Exceeds budget text →
        evaluateWithin budget pending text = .finished (evaluateThen? pending text)) := by
  induction hlength : text.length using Nat.strongRecOn generalizing budget pending text with
  | ind n ih =>
    subst hlength
    cases hread : Decimal.read? text with
    | some a =>
      refine ⟨fun h => absurd h (not_exceeds_of_read? hread), fun _ => ?_⟩
      rw [evaluateWithin_of_read? hread, evaluateThen?_of_read? hread]
    | none =>
      cases hsplit : firstSplit? text with
      | none =>
        refine ⟨fun h => absurd h (not_exceeds_of_not_split hsplit), fun _ => ?_⟩
        rw [evaluateWithin_of_not_split hread hsplit, evaluateThen?_of_not_split hread hsplit]
      | some split =>
        have hpiece : ∀ piece ∈ split.pieces, ∀ budget pending,
            (Exceeds budget piece → evaluateWithin budget pending piece = .exhausted) ∧
              (¬Exceeds budget piece →
                evaluateWithin budget pending piece = .finished (evaluateThen? pending piece)) :=
          fun piece hmem budget pending =>
            ih _ (length_lt_of_mem_pieces hsplit hmem) budget pending piece rfl
        cases split with
        | unary f operand =>
          rw [evaluateWithin_of_unary hread hsplit, evaluateThen?_of_unary hread hsplit,
            exceeds_iff_of_unary hread hsplit]
          exact hpiece operand (by simp [Split.pieces]) budget (.unary f :: pending)
        | binary op left right =>
          have hleft := hpiece left (by simp [Split.pieces])
          have hright := hpiece right (by simp [Split.pieces])
          cases budget with
          | zero =>
            have hexceeds := exceeds_zero_of_binary hread hsplit
            exact ⟨fun _ => evaluateWithin_zero_of_binary hread hsplit, fun h => absurd hexceeds h⟩
          | succ budget =>
            rw [evaluateWithin_succ_of_binary hread hsplit, evaluateThen?_of_binary hread hsplit,
              exceeds_succ_iff_of_binary hread hsplit]
            by_cases hdeep : Exceeds budget left
            · rw [(hleft budget []).1 hdeep]
              exact ⟨fun _ => rfl, fun h => absurd (Or.inl hdeep) h⟩
            · -- the left piece finishes, so the budget depends on the right one if it is reached
              rw [(hleft budget []).2 hdeep, or_iff_right hdeep, ← evaluate?]
              cases hvalue : evaluate? left with
              | none => simp [Metered.andThen]
              | some value =>
                simpa [Metered.andThen] using hright (budget + 1) (.binary op value :: pending)

/-- **Left recursion is bounded.** Calls of the evaluator are nested at most five levels below
the first one, which some text needs. When a call cuts at an operator and calls itself on the
left piece, no text examined inside the nested call, at whatever depth, holds this operator or
one with an earlier rule. So a budget of five nested calls is never exhausted and gives the
value of every text; a smaller one is exhausted exactly by the texts that exceed it. -/
theorem nesting_bounded :
    (∀ depth text examined, Examines depth text examined → depth ≤ 5) ∧
      (∃ text examined, Examines 5 text examined) ∧
      (∀ op text left, Calls op text left →
        ∀ depth examined, Examines depth left examined →
          op.symbol ∉ examined ∧
            ∀ other, .between other ∈ (Rule.between op).earlier → other.symbol ∉ examined) ∧
      (∀ text, evaluateWithin 5 [] text = .finished (evaluate? text)) ∧
      ∀ budget pending text, evaluateWithin budget pending text = .exhausted ↔
        ∃ examined, Examines (budget + 1) text examined := by
  have hbound : ∀ depth text examined, Examines depth text examined → depth ≤ 5 :=
    fun depth text examined h => Nat.le_trans h.depth_le (length_operatorsIn_le text)
  refine ⟨hbound, exists_examines_five, fun op text left hcall depth examined hexamined => ?_,
    fun text => ?_, fun budget pending text => ⟨fun h => ?_, ?_⟩⟩
  · obtain ⟨hop, hearlier⟩ := hcall.symbol_not_mem
    exact ⟨fun hmem => hop (hexamined.mem hmem),
      fun other hother hmem => hearlier other hother (hexamined.mem hmem)⟩
  · refine (evaluateWithin_spec 5 [] text).2 ?_
    rintro ⟨examined, hexamined⟩
    exact absurd (hbound _ _ _ hexamined) (by decide)
  · refine Classical.byContradiction fun hnot => ?_
    rw [(evaluateWithin_spec budget pending text).2 hnot] at h
    simp at h
  · exact (evaluateWithin_spec budget pending text).1

end Budget

end SplitCalc
