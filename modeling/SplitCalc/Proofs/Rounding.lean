import Mathlib.Algebra.Order.Field.Power
import Mathlib.Algebra.Order.Ring.Abs
import Mathlib.Data.Rat.Cast.Order
import Mathlib.Tactic.Linarith
import Mathlib.Tactic.Positivity
import Mathlib.Tactic.Ring
import SplitCalc.Scaled
import SplitCalc.Proofs.Value

/-!
# Rounding over the rationals

The integer formulas of the rounding rule, read as statements on rational numbers: the
rounded quotient is an integer nearest to the exact one and is even when another integer is
equally near, shifting a quotient multiplies it by a power of the base, and the exponent found
for a quotient is that of its first digit.

The rounding error is at most half a unit (`abs_sub_roundHalfEven_le_half`). As two integers
are at least a unit apart, this alone makes the result a nearest integer. Where ties could upset
it, evenness settles that rounding keeps the order of quotients (`roundHalfEven_mono`).
-/

namespace SplitCalc

/-! ### The nearest integer -/

section Nearest

variable {num den : ℕ}

/-- A quotient is its floor and the part of a unit that the remainder makes. -/
theorem div_eq_floor_add (hden : 0 < den) :
    (num / den : ℚ) = (num / den : ℕ) + (num % den : ℕ) / den := by
  have hden' : (den : ℚ) ≠ 0 := by exact_mod_cast hden.ne'
  have hsplit : (num : ℚ) = (num / den : ℕ) * den + (num % den : ℕ) := by
    exact_mod_cast (Nat.div_add_mod' num den).symm
  rw [div_eq_iff hden', add_mul, div_mul_cancel₀ _ hden']
  exact hsplit

/-- The rounding error is at most half a unit. -/
theorem abs_sub_roundHalfEven_le_half (hden : 0 < den) :
    |(num / den : ℚ) - roundHalfEven num den| ≤ 1 / 2 := by
  obtain ⟨hhigh, hlow⟩ : 2 * num ≤ (2 * roundHalfEven num den + 1) * den ∧
      2 * roundHalfEven num den * den ≤ 2 * num + den := roundHalfEven_bounds hden
  have hden' : (0 : ℚ) < den := by exact_mod_cast hden
  have hhigh' : 2 * (num : ℚ) ≤ (2 * roundHalfEven num den + 1) * den := by exact_mod_cast hhigh
  have hlow' : 2 * (roundHalfEven num den : ℚ) * den ≤ 2 * num + den := by exact_mod_cast hlow
  have hup : (num / den : ℚ) ≤ roundHalfEven num den + 1 / 2 := by
    rw [div_le_iff₀ hden']
    linarith
  have hdown : (roundHalfEven num den - 1 / 2 : ℚ) ≤ num / den := by
    rw [le_div_iff₀ hden']
    linarith
  exact abs_sub_le_iff.2 ⟨by linarith, by linarith⟩

/-- An error of exactly half a unit means that the remainder is half the divisor. -/
theorem two_mul_mod_eq_of_error (hden : 0 < den)
    (h : |(num / den : ℚ) - roundHalfEven num den| = 1 / 2) : 2 * (num % den) = den := by
  have hden' : (0 : ℚ) < den := by exact_mod_cast hden
  have hrest : (num % den : ℕ) / (den : ℚ) < 1 := by
    rw [div_lt_one hden']
    exact_mod_cast Nat.mod_lt num hden
  have hpos : (0 : ℚ) ≤ (num % den : ℕ) / (den : ℚ) := by positivity
  have hhalf : ((num % den : ℕ) / den : ℚ) = 1 / 2 := by
    rw [div_eq_floor_add hden] at h
    -- half a unit from the floor is half a unit from the next integer
    rcases roundHalfEven_eq_or num den with hfloor | hceil
    · rw [hfloor, add_sub_cancel_left, abs_of_nonneg hpos] at h
      exact h
    · rw [hceil] at h
      push_cast at h
      rw [add_sub_add_left_eq_sub, abs_of_neg (by linarith)] at h
      linarith
  rw [div_eq_iff hden'.ne'] at hhalf
  have : (2 * (num % den : ℕ) : ℚ) = den := by linarith
  exact_mod_cast this

/-- A tie is resolved to an even integer. -/
theorem even_roundHalfEven (hden : 0 < den)
    (h : |(num / den : ℚ) - roundHalfEven num den| = 1 / 2) : Even (roundHalfEven num den) := by
  have htie : 2 * (num % den) = den := two_mul_mod_eq_of_error hden h
  rw [Nat.even_iff]
  simp only [roundHalfEven, htie, true_and, Nat.lt_irrefl, false_or]
  split
  · rw [Nat.add_mod, ‹num / den % 2 = 1›]
  · exact Nat.mod_two_ne_one.1 ‹_›

/-- Two integers are at least a unit apart, however a number lies between them. -/
private theorem one_le_dist_add_dist (x : ℚ) {m n : ℤ} (hne : m ≠ n) :
    1 ≤ |x - m| + |x - n| := by
  have hgap : (1 : ℚ) ≤ |(m : ℚ) - n| := by
    exact_mod_cast Int.one_le_abs (sub_ne_zero.2 hne)
  have htriangle : |(m : ℚ) - n| ≤ |m - x| + |x - n| := abs_sub_le _ _ _
  rw [abs_sub_comm (m : ℚ) x] at htriangle
  exact hgap.trans htriangle

/-- **No integer is nearer** to a quotient than its rounding. -/
theorem abs_sub_roundHalfEven_le (hden : 0 < den) (m : ℤ) :
    |(num / den : ℚ) - roundHalfEven num den| ≤ |(num / den : ℚ) - m| := by
  have herror : |(num / den : ℚ) - roundHalfEven num den| ≤ 1 / 2 :=
    abs_sub_roundHalfEven_le_half hden
  rcases eq_or_ne m (roundHalfEven num den) with rfl | hne
  · rw [Int.cast_natCast]
  · have hgap := one_le_dist_add_dist (num / den : ℚ) hne
    rw [Int.cast_natCast] at hgap
    linarith

/-- Another integer that is equally near is odd, and the rounding is even. -/
theorem even_and_odd_of_tie (hden : 0 < den) {m : ℤ} (hne : m ≠ roundHalfEven num den)
    (htie : |(num / den : ℚ) - roundHalfEven num den| = |(num / den : ℚ) - m|) :
    Even (roundHalfEven num den) ∧ Odd m := by
  have herror : |(num / den : ℚ) - roundHalfEven num den| ≤ 1 / 2 :=
    abs_sub_roundHalfEven_le_half hden
  have hgap := one_le_dist_add_dist (num / den : ℚ) hne
  rw [Int.cast_natCast] at hgap
  have heven : Even (roundHalfEven num den) := even_roundHalfEven hden (by linarith)
  -- both errors are half a unit, so the two integers are neighbours
  have hnear : |(m : ℚ) - roundHalfEven num den| ≤ 1 := by
    have htriangle := abs_sub_le (m : ℚ) (num / den) (roundHalfEven num den)
    rw [abs_sub_comm (m : ℚ) (num / den)] at htriangle
    linarith
  have hstep : |m - roundHalfEven num den| ≤ 1 := by exact_mod_cast hnear
  refine ⟨heven, ?_⟩
  rw [Nat.even_iff] at heven
  rw [Int.odd_iff]
  rw [abs_le] at hstep
  omega

/-- An integer at a distance below half a unit is the rounding. -/
theorem roundHalfEven_eq_of_abs_sub_lt (hden : 0 < den) {k : ℕ}
    (h : |(num / den : ℚ) - k| < 1 / 2) : roundHalfEven num den = k := by
  by_contra hne
  have herror : |(num / den : ℚ) - roundHalfEven num den| ≤ 1 / 2 :=
    abs_sub_roundHalfEven_le_half hden
  have hgap := one_le_dist_add_dist (num / den : ℚ) (m := roundHalfEven num den) (n := k)
    (by exact_mod_cast hne)
  rw [Int.cast_natCast, Int.cast_natCast] at hgap
  linarith

end Nearest

/-- **Rounding keeps the order** of quotients. -/
theorem roundHalfEven_mono {num den num' den' : ℕ} (hden : 0 < den) (hden' : 0 < den')
    (h : (num / den : ℚ) ≤ num' / den') : roundHalfEven num den ≤ roundHalfEven num' den' := by
  by_contra hlt
  have hnext : (roundHalfEven num' den' : ℚ) + 1 ≤ roundHalfEven num den := by
    exact_mod_cast Nat.lt_of_not_le hlt
  have herror : |(num / den : ℚ) - roundHalfEven num den| ≤ 1 / 2 :=
    abs_sub_roundHalfEven_le_half hden
  have herror' : |(num' / den' : ℚ) - roundHalfEven num' den'| ≤ 1 / 2 :=
    abs_sub_roundHalfEven_le_half hden'
  obtain ⟨-, hlow⟩ := abs_sub_le_iff.1 herror
  obtain ⟨hhigh, -⟩ := abs_sub_le_iff.1 herror'
  -- crossed roundings leave only one place for both quotients, in the middle of two integers
  have htie : |(num / den : ℚ) - roundHalfEven num den| = 1 / 2 := by
    rw [show (num / den : ℚ) - roundHalfEven num den = -(1 / 2) by linarith]
    norm_num
  have htie' : |(num' / den' : ℚ) - roundHalfEven num' den'| = 1 / 2 := by
    rw [show (num' / den' : ℚ) - roundHalfEven num' den' = 1 / 2 by linarith]
    norm_num
  have hsucc : roundHalfEven num den = roundHalfEven num' den' + 1 := by
    have heq : (roundHalfEven num den : ℚ) = roundHalfEven num' den' + 1 := by linarith
    exact_mod_cast heq
  have heven : Even (roundHalfEven num den) := even_roundHalfEven hden htie
  have heven' : Even (roundHalfEven num' den') := even_roundHalfEven hden' htie'
  rw [hsucc, Nat.even_add_one] at heven
  exact heven heven'

/-- An integer is its own rounding. -/
theorem roundHalfEven_one (k : ℕ) : roundHalfEven k 1 = k := by
  rw [roundHalfEven_of_mod_eq_zero one_pos (Nat.mod_one k), Nat.div_one]

/-- A quotient up to an integer is not rounded beyond it. -/
theorem roundHalfEven_le {num den k : ℕ} (hden : 0 < den) (h : (num / den : ℚ) ≤ k) :
    roundHalfEven num den ≤ k := by
  rw [← roundHalfEven_one k]
  refine roundHalfEven_mono hden one_pos ?_
  rwa [Nat.cast_one, div_one]

/-- A quotient from an integer on is not rounded below it. -/
theorem le_roundHalfEven {num den k : ℕ} (hden : 0 < den) (h : (k : ℚ) ≤ num / den) :
    k ≤ roundHalfEven num den := by
  rw [← roundHalfEven_one k]
  refine roundHalfEven_mono one_pos hden ?_
  rwa [Nat.cast_one, div_one]

/-! ### Shifting -/

section Shift

variable {base : ℕ}

/-- Shifting multiplies a quotient by a power of the base. -/
theorem shiftedNum_div_shiftedDen (hbase : 0 < base) (shift : ℤ) (num den : ℕ) :
    (shiftedNum base shift num / shiftedDen base shift den : ℚ) =
      num / den * (base : ℚ) ^ shift := by
  have hbase' : (base : ℚ) ≠ 0 := by exact_mod_cast hbase.ne'
  have hshift : (base : ℚ) ^ shift = base ^ shift.toNat / base ^ (-shift).toNat := by
    rw [← zpow_natCast, ← zpow_natCast, ← zpow_sub₀ hbase']
    congr 1
    omega
  simp only [shiftedNum, shiftedDen, Nat.pow_eq]
  push_cast
  rw [hshift, mul_div_mul_comm]

/-- A shifted denominator stays positive. -/
theorem shiftedDen_pos (hbase : 0 < base) (shift : ℤ) {den : ℕ} (hden : 0 < den) :
    0 < shiftedDen base shift den :=
  Nat.mul_pos hden (Nat.pow_pos hbase)

/-- The exponent found for a quotient is that of its first digit, given the power of the base
up to one. -/
theorem quotientExponent_bounds {guess : ℤ} {num den : ℕ} (hbase : 0 < base) (hden : 0 < den)
    (hlow : (base : ℚ) ^ (guess - 1) ≤ num / den) (hhigh : (num / den : ℚ) < base ^ (guess + 1)) :
    (base : ℚ) ^ quotientExponent base guess num den ≤ num / den ∧
      (num / den : ℚ) < base ^ (quotientExponent base guess num den + 1) := by
  have hbase' : (0 : ℚ) < base := by exact_mod_cast hbase
  have hden' : (0 : ℚ) < shiftedDen base (-guess) den := by
    exact_mod_cast shiftedDen_pos hbase (-guess) hden
  have hbelow : shiftedNum base (-guess) num < shiftedDen base (-guess) den ↔
      (num / den : ℚ) < base ^ guess := by
    rw [← @Nat.cast_lt ℚ, ← div_lt_one hden', shiftedNum_div_shiftedDen hbase, zpow_neg,
      ← div_eq_mul_inv, div_lt_one (zpow_pos hbase' guess)]
  rw [quotientExponent]
  split
  · rw [sub_add_cancel]
    exact ⟨hlow, hbelow.1 ‹_›⟩
  · exact ⟨le_of_not_gt fun h => ‹¬_› (hbelow.2 h), hhigh⟩

end Shift

/-! ### The first digit -/

/-- The first digits of the parts bound a quotient up to one power of the base on each side. -/
theorem div_bounds_of_first_digits {b x y : ℚ} {i j : ℤ} (hb : 0 < b)
    (hx : b ^ i ≤ x ∧ x < b ^ (i + 1)) (hy : b ^ j ≤ y ∧ y < b ^ (j + 1)) :
    b ^ (i - j - 1) ≤ x / y ∧ x / y < b ^ (i - j + 1) := by
  have hy' : 0 < y := (zpow_pos hb j).trans_le hy.1
  constructor
  · rw [le_div_iff₀ hy']
    calc b ^ (i - j - 1) * y ≤ b ^ (i - j - 1) * b ^ (j + 1) :=
          mul_le_mul_of_nonneg_left hy.2.le (zpow_pos hb _).le
      _ = b ^ i := by
          rw [← zpow_add₀ hb.ne']
          congr 1
          ring
      _ ≤ x := hx.1
  · rw [div_lt_iff₀ hy']
    calc x < b ^ (i + 1) := hx.2
      _ = b ^ (i - j + 1) * b ^ j := by
          rw [← zpow_add₀ hb.ne']
          congr 1
          ring
      _ ≤ b ^ (i - j + 1) * y := mul_le_mul_of_nonneg_left hy.1 (zpow_pos hb _).le

/-- A positive number lies between the powers of ten around its first decimal digit. -/
theorem Digits.first_digit_bounds {n : ℕ} (hn : 0 < n) :
    (10 : ℚ) ^ ((Digits.count n : ℤ) - 1) ≤ n ∧
      (n : ℚ) < 10 ^ ((Digits.count n : ℤ) - 1 + 1) := by
  rw [sub_add_cancel]
  exact Digits.count_bounds hn

/-- A positive number lies between the powers of two around its first bit. -/
theorem log2_bounds {n : ℕ} (hn : 0 < n) :
    (2 : ℚ) ^ (Nat.log2 n : ℤ) ≤ n ∧ (n : ℚ) < 2 ^ ((Nat.log2 n : ℤ) + 1) := by
  rw [← Nat.cast_succ, zpow_natCast, zpow_natCast]
  exact ⟨by exact_mod_cast Nat.log2_self_le hn.ne', by exact_mod_cast Nat.lt_log2_self⟩

/-- The exponent found for a quotient from the bit lengths of its parts is that of its first
bit. -/
theorem binaryExponent_bounds {num den : ℕ} (hnum : 0 < num) (hden : 0 < den) :
    (2 : ℚ) ^ quotientExponent 2 (Nat.log2 num - Nat.log2 den) num den ≤ num / den ∧
      (num / den : ℚ) < 2 ^ (quotientExponent 2 (Nat.log2 num - Nat.log2 den) num den + 1) := by
  obtain ⟨hlow, hhigh⟩ := div_bounds_of_first_digits (by norm_num) (log2_bounds hnum)
    (log2_bounds hden)
  exact quotientExponent_bounds (by norm_num) hden hlow hhigh

/-- The digit counts of the parts bound a quotient up to one power of ten on each side. -/
theorem div_bounds_of_count {num den : ℕ} (hnum : 0 < num) (hden : 0 < den) :
    (10 : ℚ) ^ ((Digits.count num : ℤ) - Digits.count den - 1) ≤ num / den ∧
      (num / den : ℚ) < 10 ^ ((Digits.count num : ℤ) - Digits.count den + 1) := by
  have hbounds := div_bounds_of_first_digits (by norm_num) (Digits.first_digit_bounds hnum)
    (Digits.first_digit_bounds hden)
  rwa [sub_sub_sub_cancel_right] at hbounds

/-- The decimal exponent of a quotient is the power of ten of its first digit. -/
theorem decimalExponent_bounds {num den : ℕ} (hnum : 0 < num) (hden : 0 < den) :
    (10 : ℚ) ^ decimalExponent num den ≤ num / den ∧
      (num / den : ℚ) < 10 ^ (decimalExponent num den + 1) := by
  obtain ⟨hlow, hhigh⟩ := div_bounds_of_count hnum hden
  have hbase : 0 < 10 := by norm_num
  exact quotientExponent_bounds hbase hden hlow hhigh

end SplitCalc
