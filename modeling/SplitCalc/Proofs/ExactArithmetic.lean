import Mathlib.Tactic.Ring
import SplitCalc.Decimal.Arithmetic
import SplitCalc.Proofs.Quotient

/-!
# Exact arithmetic

Sums, differences and products of decimals, read as rational numbers. `Decimal.Returns` says of
an operation when it has a result, and which value and which scale the result has; these two
determine a decimal (`Decimal.eq_of_value_eq`). So the laws of arithmetic carry over from the
rational numbers to the digits and the scales, as far as all the operations in them have
results.

The quotient of a product by one of its factors is exact, and the preferred scale of the
quotient is the scale of the other factor. So division gives that factor back, trailing zeros
and all, provided that its digits are at most `precision` (`Decimal.div?_of_mul?`).
-/

namespace SplitCalc

/-! ### Values -/

/-- At one scale, values add as their digits do. -/
theorem decimalValue_add_left (u v s : ℤ) :
    decimalValue (u + v) s = decimalValue u s + decimalValue v s := by
  simp only [decimalValue]
  push_cast
  ring

/-- Values multiply as their digits do, at the sum of the scales. -/
theorem decimalValue_mul (u v s t : ℤ) :
    decimalValue (u * v) (s + t) = decimalValue u s * decimalValue v t := by
  simp only [decimalValue]
  rw [neg_add, zpow_add₀ (by norm_num)]
  push_cast
  ring

namespace Decimal

variable {a b c : Decimal}

/-- **The value and the scale determine a decimal.** -/
theorem eq_of_value_eq (hvalue : a.value = b.value) (hscale : a.scale = b.scale) : a = b := by
  rw [value, value, hscale] at hvalue
  exact Decimal.ext (eq_of_decimalValue_eq hvalue) hscale

/-- Only a decimal with digits that are zero has the value zero. -/
theorem value_ne_zero (h : a.unscaled ≠ 0) : a.value ≠ 0 :=
  mul_ne_zero (Int.cast_ne_zero.2 h) (ten_zpow_pos _).ne'

/-! ### Exact operations -/

/-- An operation **returns** the decimal of value `q` and scale `s` under a condition, and has
no result otherwise. -/
structure Returns (result : Option Decimal) (condition : Prop) (q : ℚ) (s : ℤ) : Prop where
  /-- There is no result exactly when the condition fails. -/
  eq_none_iff : result = none ↔ ¬condition
  /-- A result has the value `q`. -/
  value_eq : ∀ r, result = some r → r.value = q
  /-- A result has the scale `s`. -/
  scale_eq : ∀ r, result = some r → r.scale = s

namespace Returns

variable {result other : Option Decimal} {condition condition' : Prop} {q : ℚ} {s : ℤ}

/-- Two results of the same value and scale are one. -/
theorem eq_of_eq_some (h : Returns result condition q s) (h' : Returns other condition' q s)
    {l r : Decimal} (hl : result = some l) (hr : other = some r) : l = r :=
  eq_of_value_eq ((h.value_eq l hl).trans (h'.value_eq r hr).symm)
    ((h.scale_eq l hl).trans (h'.scale_eq r hr).symm)

/-- Operations that return the same under the same condition agree. -/
theorem unique (h : Returns result condition q s) (h' : Returns other condition q s) :
    result = other := by
  cases hresult : result with
  | none => rw [eq_comm, h'.eq_none_iff, ← h.eq_none_iff, hresult]
  | some l =>
    cases hother : other with
    | none =>
      rw [h'.eq_none_iff, ← h.eq_none_iff, hresult] at hother
      simp at hother
    | some r => rw [h.eq_of_eq_some h' hresult hother]

/-- A decimal that is given returns itself. -/
theorem self (a : Decimal) : Returns (some a) True a.value a.scale :=
  ⟨by simp, by simp, by simp⟩

end Returns

/-! ### Sums and differences -/

/-- Zeros behind the digits do not change the value. -/
theorem decimalValue_alignedTo (a b : Decimal) :
    decimalValue (a.alignedTo b) (max a.scale b.scale) = a.value := by
  have hzeros : (max a.scale b.scale - a.scale).toNat = a.alignment b := by
    rw [alignment]
    omega
  rw [value, decimalValue_of_le (le_max_left a.scale b.scale), hzeros]
  rfl

/-- Decimals are alignable when their scales are at most `maxDigits` apart. -/
theorem alignable_iff_abs_le : a.Alignable b ↔ |a.scale - b.scale| ≤ maxDigits := by
  rw [alignable_iff, Int.abs_eq_natAbs, Nat.cast_le]

/-- Digits at the larger of two scales are returned if the decimals are alignable. -/
theorem returns_of_aligned {u : ℤ} {q : ℚ} (hvalue : decimalValue u (max a.scale b.scale) = q) :
    Returns (if a.Alignable b then some ⟨u, max a.scale b.scale, isWord_max_scale a b⟩ else none)
      (|a.scale - b.scale| ≤ maxDigits) q (max a.scale b.scale) := by
  rw [← alignable_iff_abs_le, ← hvalue]
  split
  · rename_i h
    exact ⟨by simp [h], by simp [value], by simp⟩
  · rename_i h
    exact ⟨by simp [h], by simp, by simp⟩

/-- **Sums are exact.** -/
theorem returns_add? (a b : Decimal) :
    Returns (a.add? b) (|a.scale - b.scale| ≤ maxDigits) (a.value + b.value)
      (max a.scale b.scale) := by
  refine returns_of_aligned ?_
  rw [decimalValue_add_left, decimalValue_alignedTo, max_comm, decimalValue_alignedTo]

/-- **Differences are exact.** -/
theorem returns_sub? (a b : Decimal) :
    Returns (a.sub? b) (|a.scale - b.scale| ≤ maxDigits) (a.value - b.value)
      (max a.scale b.scale) := by
  refine returns_of_aligned ?_
  rw [sub_eq_add_neg, decimalValue_add_left, decimalValue_neg, decimalValue_alignedTo, max_comm,
    decimalValue_alignedTo, ← sub_eq_add_neg]

/-! ### Products -/

/-- **Products are exact.** -/
theorem returns_mul? (a b : Decimal) :
    Returns (a.mul? b) (IsWord (a.scale + b.scale)) (a.value * b.value) (a.scale + b.scale) where
  eq_none_iff := ofParts?_eq_none_iff
  value_eq r hr := by
    obtain ⟨hunscaled, hscale⟩ := ofParts?_eq_some_iff.1 hr
    rw [value, hunscaled, hscale, decimalValue_mul]
    rfl
  scale_eq r hr := (ofParts?_eq_some_iff.1 hr).2

/-! ### Laws -/

section Operands

variable {first second : Option Decimal} {condition condition' : Prop} {p q : ℚ} {s t : ℤ}

/-- The sum of two results. -/
theorem Returns.add? (h : Returns first condition p s) (h' : Returns second condition' q t)
    (ha : first = some a) (hb : second = some b) :
    Returns (a.add? b) (|s - t| ≤ maxDigits) (p + q) (max s t) := by
  rw [← h.value_eq a ha, ← h.scale_eq a ha, ← h'.value_eq b hb, ← h'.scale_eq b hb]
  exact returns_add? a b

/-- The product of two results. -/
theorem Returns.mul? (h : Returns first condition p s) (h' : Returns second condition' q t)
    (ha : first = some a) (hb : second = some b) :
    Returns (a.mul? b) (IsWord (s + t)) (p * q) (s + t) := by
  rw [← h.value_eq a ha, ← h.scale_eq a ha, ← h'.value_eq b hb, ← h'.scale_eq b hb]
  exact returns_mul? a b

end Operands

/-- Sums do not depend on the order of the operands. -/
theorem add?_comm (a b : Decimal) : a.add? b = b.add? a := by
  have h := returns_add? b a
  rw [abs_sub_comm, add_comm, max_comm] at h
  exact (returns_add? a b).unique h

/-- Products do not depend on the order of the operands. -/
theorem mul?_comm (a b : Decimal) : a.mul? b = b.mul? a := by
  have h := returns_mul? b a
  rw [mul_comm, add_comm] at h
  exact (returns_mul? a b).unique h

/-- Sums associate where they exist. -/
theorem add?_assoc {ab bc l r : Decimal} (hab : a.add? b = some ab) (hbc : b.add? c = some bc)
    (hl : ab.add? c = some l) (hr : a.add? bc = some r) : l = r := by
  have hleft := (returns_add? a b).add? (.self c) hab rfl
  have hright := (Returns.self a).add? (returns_add? b c) rfl hbc
  rw [← add_assoc, ← max_assoc] at hright
  exact hleft.eq_of_eq_some hright hl hr

/-- Products associate where they exist. -/
theorem mul?_assoc {ab bc l r : Decimal} (hab : a.mul? b = some ab) (hbc : b.mul? c = some bc)
    (hl : ab.mul? c = some l) (hr : a.mul? bc = some r) : l = r := by
  have hleft := (returns_mul? a b).mul? (.self c) hab rfl
  have hright := (Returns.self a).mul? (returns_mul? b c) rfl hbc
  rw [← mul_assoc, ← add_assoc] at hright
  exact hleft.eq_of_eq_some hright hl hr

/-- Products distribute over sums where all of them exist. -/
theorem mul?_add? {bc ab ac l r : Decimal} (hbc : b.add? c = some bc) (hl : a.mul? bc = some l)
    (hab : a.mul? b = some ab) (hac : a.mul? c = some ac) (hr : ab.add? ac = some r) : l = r := by
  have hleft := (Returns.self a).mul? (returns_add? b c) rfl hbc
  have hright := (returns_mul? a b).add? (returns_mul? a c) hab hac
  rw [← mul_add, max_add_add_left] at hright
  exact hleft.eq_of_eq_some hright hl hr

/-- **Arithmetic is exact.** Sums and differences exist for decimals whose scales are at most
100000 apart, and products for those whose scales add up to a word; each has the exact value,
and the larger scale or the sum of the scales. Sums and products are commutative, missing
results included; where all the operations involved have results, both are associative and
products distribute over sums, in the digits and in the scales. -/
theorem arithmetic_exact (a b c : Decimal) :
    Returns (a.add? b) (|a.scale - b.scale| ≤ 100000) (a.value + b.value)
        (max a.scale b.scale) ∧
      Returns (a.sub? b) (|a.scale - b.scale| ≤ 100000) (a.value - b.value)
        (max a.scale b.scale) ∧
      Returns (a.mul? b) (IsWord (a.scale + b.scale)) (a.value * b.value)
        (a.scale + b.scale) ∧
      a.add? b = b.add? a ∧ a.mul? b = b.mul? a ∧
      (∀ ab bc l r, a.add? b = some ab → b.add? c = some bc → ab.add? c = some l →
        a.add? bc = some r → l = r) ∧
      (∀ ab bc l r, a.mul? b = some ab → b.mul? c = some bc → ab.mul? c = some l →
        a.mul? bc = some r → l = r) ∧
      (∀ bc ab ac l r, b.add? c = some bc → a.mul? bc = some l → a.mul? b = some ab →
        a.mul? c = some ac → ab.add? ac = some r → l = r) :=
  ⟨returns_add? a b, returns_sub? a b, returns_mul? a b, add?_comm a b, mul?_comm a b,
    fun _ _ _ _ => add?_assoc, fun _ _ _ _ => mul?_assoc, fun _ _ _ _ _ => mul?_add?⟩

/-- Grouped to the left, three summands with scales 100000 apart have a sum; grouped to the
right they have none. -/
example : let a : Decimal := ⟨1, 0, by decide⟩
    let b : Decimal := ⟨1, 100000, by decide⟩
    let c : Decimal := ⟨1, 200000, by decide⟩
    ((a.add? b).bind (·.add? c)).isSome ∧ (b.add? c).bind a.add? = none := by
  decide +kernel

/-! ### Dividing back a product -/

/-- **A product is divided back.** The quotient of a product by a nonzero factor is the other
factor, digit by digit and at its own scale, if that factor has at most 34 digits. -/
theorem div?_of_mul? {p : Decimal} (ha : Digits.count a.unscaled.natAbs ≤ 34)
    (hb : b.unscaled ≠ 0) (hp : a.mul? b = some p) : p.div? b = some a := by
  refine div?_eq_some_of_value_eq ha hb ?_ ?_
  · rw [(returns_mul? a b).value_eq p hp, mul_div_cancel_right₀ _ (value_ne_zero hb)]
  · rw [(returns_mul? a b).scale_eq p hp, add_sub_cancel_right]

/-- Trailing zeros and the least scale survive: `-1200` at that scale, times seven thousandths
and divided by them again. -/
theorem div?_of_mul?_least_scale :
    Digits.count (-1200 : ℤ).natAbs ≤ 34 ∧ (7 : ℤ) ≠ 0 ∧
      (⟨-1200, -2147483648, by decide⟩ : Decimal).mul? ⟨7, 3, by decide⟩ =
        some ⟨-8400, -2147483645, by decide⟩ ∧
      (⟨-8400, -2147483645, by decide⟩ : Decimal).div? ⟨7, 3, by decide⟩ =
        some ⟨-1200, -2147483648, by decide⟩ := by
  have hcount : Digits.count (-1200 : ℤ).natAbs ≤ 34 := by decide +kernel
  have hfactor : (7 : ℤ) ≠ 0 := by decide
  have hproduct : (⟨-1200, -2147483648, by decide⟩ : Decimal).mul? ⟨7, 3, by decide⟩ =
      some ⟨-8400, -2147483645, by decide⟩ := by decide +kernel
  exact ⟨hcount, hfactor, hproduct, div?_of_mul? hcount hfactor hproduct⟩

end Decimal

end SplitCalc
