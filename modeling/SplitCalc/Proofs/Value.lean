import Mathlib.Algebra.Order.Field.Power
import Mathlib.Data.Rat.Cast.Order
import Mathlib.Tactic.Ring
import SplitCalc.Decimal.Basic

/-!
# The value of a decimal

A decimal denotes the rational number `unscaled * 10 ^ (-scale)`. Its two parts may vary
together without changing that number, so `decimalValue` takes them apart from the word that
bounds the scale: raising the scale by `p` divides the value by `10 ^ p`, and a value at one
scale can be written at any larger one.

The digit count of a natural number says between which powers of ten it lies.
-/

namespace SplitCalc

/-- The rational number `unscaled * 10 ^ (-scale)`. -/
def decimalValue (unscaled scale : ℤ) : ℚ :=
  unscaled * 10 ^ (-scale)

/-- The rational number that a decimal denotes. -/
def Decimal.value (a : Decimal) : ℚ :=
  decimalValue a.unscaled a.scale

/-- Every power of ten is positive. -/
theorem ten_zpow_pos (k : ℤ) : (0 : ℚ) < 10 ^ k :=
  zpow_pos (by norm_num) k

/-! ### Values -/

/-- Negating the digits negates the value. -/
@[simp]
theorem decimalValue_neg (u s : ℤ) : decimalValue (-u) s = -decimalValue u s := by
  simp [decimalValue]

/-- Without a scale the value is the integer itself. -/
@[simp]
theorem decimalValue_zero_right (u : ℤ) : decimalValue u 0 = u := by
  simp [decimalValue]

/-- A value is `q` exactly when its digits are `q` moved up by the scale. -/
theorem decimalValue_eq_iff {u s : ℤ} {q : ℚ} : decimalValue u s = q ↔ (u : ℚ) = q * 10 ^ s := by
  rw [decimalValue, zpow_neg, ← div_eq_mul_inv, div_eq_iff (ten_zpow_pos s).ne']

/-- Raising the scale by `p` divides the value by the `p`-th power of ten. -/
theorem decimalValue_add (u s p : ℤ) :
    decimalValue u (s + p) = decimalValue u s * 10 ^ (-p) := by
  rw [decimalValue, decimalValue, neg_add, zpow_add₀ (by norm_num), mul_assoc]

/-- A value is written at any larger scale with zeros behind its digits. -/
theorem decimalValue_of_le {s t : ℤ} (h : s ≤ t) (u : ℤ) :
    decimalValue u s = decimalValue (u * 10 ^ (t - s).toNat) t := by
  have hpow : ((10 : ℚ) ^ (t - s).toNat) = 10 ^ (t - s) := by
    rw [← zpow_natCast, Int.toNat_of_nonneg (by omega)]
  rw [decimalValue_eq_iff, decimalValue]
  push_cast
  rw [hpow, mul_assoc, mul_assoc, ← zpow_add₀ (by norm_num), ← zpow_add₀ (by norm_num)]
  simp

/-- At one scale the value determines the digits. -/
theorem eq_of_decimalValue_eq {u v s : ℤ} (h : decimalValue u s = decimalValue v s) : u = v := by
  rw [decimalValue_eq_iff, ← decimalValue_eq_iff.1 (Eq.refl (decimalValue v s))] at h
  exact_mod_cast h

/-- At one scale, values are ordered as their digits are. -/
theorem decimalValue_lt_iff {u v s : ℤ} : decimalValue u s < decimalValue v s ↔ u < v := by
  rw [decimalValue, decimalValue, mul_lt_mul_iff_of_pos_right (ten_zpow_pos (-s)), Int.cast_lt]

/-- At one scale, values are ordered as their digits are. -/
theorem decimalValue_le_iff {u v s : ℤ} : decimalValue u s ≤ decimalValue v s ↔ u ≤ v := by
  rw [← not_lt, decimalValue_lt_iff, not_lt]

/-- A power of ten stays one at any scale. -/
theorem decimalValue_ten_pow (n : ℕ) (s : ℤ) : decimalValue (10 ^ n) s = 10 ^ ((n : ℤ) - s) := by
  rw [decimalValue, sub_eq_add_neg, zpow_add₀ (by norm_num), zpow_natCast]
  push_cast
  rfl

/-- Values divide as their digits do, at the difference of the scales. -/
theorem decimalValue_div (u s v t : ℤ) :
    decimalValue u s / decimalValue v t = (u / v : ℚ) * 10 ^ (-(s - t)) := by
  have hpow : (10 : ℚ) ^ (-(s - t)) = 10 ^ (-s) / 10 ^ (-t) := by
    rw [← zpow_sub₀ (by norm_num)]
    congr 1
    ring
  rw [decimalValue, decimalValue, hpow, mul_div_mul_comm]

/-! ### Digit counts -/

/-- A positive number reaches the power of ten of its first digit. -/
theorem Digits.ten_pow_le_of_pos {n : ℕ} (hn : 0 < n) : 10 ^ (Digits.count n - 1) ≤ n := by
  rcases Nat.eq_zero_or_pos (Digits.count n - 1) with hone | hmany
  · rw [hone, pow_zero]
    exact hn
  · have hcount : ¬Digits.count n ≤ Digits.count n - 1 := by omega
    exact Nat.le_of_not_lt fun hlt => hcount ((Digits.count_le_iff hmany).2 hlt)

/-- The digit count of a positive number bounds it by powers of ten. -/
theorem Digits.count_bounds {n : ℕ} (hn : 0 < n) :
    (10 : ℚ) ^ ((Digits.count n : ℤ) - 1) ≤ n ∧ (n : ℚ) < 10 ^ (Digits.count n : ℤ) := by
  have hcast : (Digits.count n : ℤ) - 1 = (Digits.count n - 1 : ℕ) := by
    have := Digits.count_pos n
    omega
  rw [hcast, zpow_natCast, zpow_natCast]
  exact ⟨by exact_mod_cast Digits.ten_pow_le_of_pos hn,
    by exact_mod_cast Digits.lt_ten_pow_count n⟩

/-- A number with exactly `k` digits lies between two consecutive powers of ten. -/
theorem Digits.count_eq_iff {n k : ℕ} (hn : 0 < n) (hk : 0 < k) :
    Digits.count n = k ↔ 10 ^ (k - 1) ≤ n ∧ n < 10 ^ k := by
  constructor
  · rintro rfl
    exact ⟨Digits.ten_pow_le_of_pos hn, Digits.lt_ten_pow_count n⟩
  · rintro ⟨hlow, hhigh⟩
    have hle : Digits.count n ≤ k := (Digits.count_le_iff hk).2 hhigh
    have hge : 10 ^ (k - 1) < 10 ^ Digits.count n :=
      lt_of_le_of_lt hlow (Digits.lt_ten_pow_count n)
    have hlt : k - 1 < Digits.count n := (Nat.pow_lt_pow_iff_right (by norm_num)).1 hge
    omega

end SplitCalc
