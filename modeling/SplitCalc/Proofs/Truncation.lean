import Mathlib.Algebra.Order.Floor.Ring
import Mathlib.Data.Rat.Floor
import SplitCalc.Decimal.Truncation
import SplitCalc.Proofs.Value

/-!
# The integer part is the truncated value

`towardZero` cuts a rational number to the integer next to it on the side of zero. The integer
part of a decimal is its value cut in this way, as far as the result is a word
(`Decimal.truncate?_eq_asWord?`).

The integer part is computed without forming a large power of ten, and two shortcuts see to
that. Ten or more zeros behind nonzero digits are refused unseen: the value is out of range
whatever the digits are (`not_isWord_mul_ten_pow`). A decimal with fewer digits than places is
cut to zero unseen: its magnitude is below one (`tdiv_ten_pow_eq_zero`).
-/

namespace SplitCalc

/-! ### Cutting a rational number -/

/-- The integer part of a rational number, cut towards zero. -/
def towardZero (q : ℚ) : ℤ :=
  if 0 ≤ q then ⌊q⌋ else ⌈q⌉

/-- An integer is not cut. -/
@[simp]
theorem towardZero_intCast (n : ℤ) : towardZero n = n := by
  rw [towardZero, Int.floor_intCast, Int.ceil_intCast, ite_self]

/-- The sign is kept apart from the cut. -/
theorem towardZero_neg (q : ℚ) : towardZero (-q) = -towardZero q := by
  rcases lt_trichotomy q 0 with hneg | rfl | hpos
  · rw [towardZero, if_pos (by linarith), towardZero, if_neg (by linarith), Int.floor_neg]
  · rw [neg_zero, ← Int.cast_zero, towardZero_intCast, neg_zero]
  · rw [towardZero, if_neg (by linarith), towardZero, if_pos hpos.le, Int.ceil_neg]

/-- A quotient of integers is cut by the division that rounds towards zero. -/
theorem towardZero_div (n : ℤ) (d : ℕ) : towardZero (n / d) = n.tdiv d := by
  -- a negative numerator is brought back to a positive one by the sign
  have hnonneg : ∀ m : ℤ, 0 ≤ m → towardZero (m / d) = m.tdiv d := by
    intro m hm
    have hquotient : (0 : ℚ) ≤ m / d := div_nonneg (by exact_mod_cast hm) d.cast_nonneg
    rw [towardZero, if_pos hquotient, Rat.floor_intCast_div_natCast,
      Int.tdiv_eq_ediv_of_nonneg hm]
  rcases le_total 0 n with hn | hn
  · exact hnonneg n hn
  · have hneg := hnonneg (-n) (neg_nonneg.2 hn)
    rw [Int.cast_neg, neg_div, towardZero_neg, Int.neg_tdiv] at hneg
    exact neg_injective hneg

/-! ### Cutting the value of a decimal -/

/-- Without digits behind the point the value is an integer, and zeros stand for the rest. -/
theorem towardZero_decimalValue_of_nonpos {s : ℤ} (hs : s ≤ 0) (u : ℤ) :
    towardZero (decimalValue u s) = u * 10 ^ (-s).toNat := by
  rw [decimalValue_of_le hs, decimalValue_zero_right, towardZero_intCast, zero_sub]

/-- With digits behind the point the value is cut by a division. -/
theorem towardZero_decimalValue_of_nonneg {s : ℤ} (hs : 0 ≤ s) (u : ℤ) :
    towardZero (decimalValue u s) = u.tdiv ((10 ^ s.toNat : ℕ) : ℤ) := by
  have hvalue : decimalValue u s = u / (10 ^ s.toNat : ℕ) := by
    rw [decimalValue, zpow_neg, ← div_eq_mul_inv]
    push_cast
    rw [← zpow_natCast, Int.toNat_of_nonneg hs]
  rw [hvalue, towardZero_div]

/-! ### The shortcuts -/

/-- Ten zeros behind nonzero digits are too many for a word. -/
theorem not_isWord_mul_ten_pow {u : ℤ} {k : ℕ} (hu : u ≠ 0) (hk : 10 ≤ k) :
    ¬IsWord (u * 10 ^ k) := by
  have hpow : 10 ^ 10 ≤ (u * 10 ^ k).natAbs := by
    rw [Int.natAbs_mul, Int.natAbs_pow]
    calc 10 ^ 10 ≤ 10 ^ k := Nat.pow_le_pow_right (by norm_num) hk
      _ ≤ u.natAbs * 10 ^ k := Nat.le_mul_of_pos_left _ (Int.natAbs_pos.2 hu)
  rw [isWord_iff]
  omega

/-- Digits that are fewer than the places behind the point make no whole part. -/
theorem tdiv_ten_pow_eq_zero {u : ℤ} {k : ℕ} (h : Digits.count u.natAbs ≤ k) :
    u.tdiv ((10 ^ k : ℕ) : ℤ) = 0 := by
  have hlt : u.natAbs < 10 ^ k :=
    (Digits.lt_ten_pow_count u.natAbs).trans_le (Nat.pow_le_pow_right (by norm_num) h)
  rw [← Int.natAbs_eq_zero, Int.natAbs_tdiv, Int.natAbs_natCast]
  exact Nat.div_eq_of_lt hlt

namespace Decimal

/-! ### Words -/

/-- An integer is a word or none, and as a word it is itself. -/
theorem asWord?_eq_some_iff {n k : ℤ} : asWord? k = some n ↔ n = k ∧ IsWord n := by
  rw [asWord?, Option.ite_none_right_eq_some, Option.some.injEq]
  constructor
  · rintro ⟨hword, rfl⟩
    exact ⟨rfl, hword⟩
  · rintro ⟨rfl, hword⟩
    exact ⟨hword, rfl⟩

/-- An integer that is no word is refused. -/
theorem asWord?_eq_none_iff {k : ℤ} : asWord? k = none ↔ ¬IsWord k := by
  rw [asWord?, ite_eq_right_iff]
  simp

/-- Zero is a word. -/
theorem asWord?_zero : asWord? 0 = some 0 := rfl

/-! ### The integer part -/

/-- **The integer part is the value cut towards zero**, when that is a word. -/
theorem truncate?_eq_asWord? (a : Decimal) : a.truncate? = asWord? (towardZero a.value) := by
  rw [truncate?, value]
  split
  · rename_i hscale
    rw [towardZero_decimalValue_of_nonpos hscale]
    split
    · -- zero has the value zero at every scale
      rename_i hzero
      rw [isZero_iff.1 hzero, zero_mul, asWord?_zero]
    · rename_i hzero
      split
      · rename_i hsmall
        have hunscaled : a.unscaled ≠ 0 := fun h => hzero (isZero_iff.2 h)
        exact (asWord?_eq_none_iff.2 (not_isWord_mul_ten_pow hunscaled (by omega))).symm
      · rw [Nat.pow_eq, Nat.cast_pow, Nat.cast_ofNat]
  · rename_i hscale
    rw [towardZero_decimalValue_of_nonneg (by omega)]
    split
    · rename_i hcount
      rw [digitCount] at hcount
      rw [tdiv_ten_pow_eq_zero (by omega), asWord?_zero]
    · rw [Nat.pow_eq]

/-- **Truncation.** The integer part of a decimal is its exact value cut towards zero. It exists
exactly when that integer is a word. -/
theorem truncate?_iff (a : Decimal) :
    (∀ n, a.truncate? = some n ↔ n = towardZero (a.unscaled * 10 ^ (-a.scale)) ∧ IsWord n) ∧
      (a.truncate? = none ↔ ¬IsWord (towardZero (a.unscaled * 10 ^ (-a.scale)))) := by
  rw [truncate?_eq_asWord?]
  exact ⟨fun n => asWord?_eq_some_iff, asWord?_eq_none_iff⟩

/-- Just above the greatest word the fraction is cut off first; the least scale is no obstacle
for zero. -/
example : (⟨21474836479, 1, by decide⟩ : Decimal).truncate? = some 2147483647 ∧
    (⟨0, -2147483648, by decide⟩ : Decimal).truncate? = some 0 := by
  decide +kernel

end Decimal

end SplitCalc
