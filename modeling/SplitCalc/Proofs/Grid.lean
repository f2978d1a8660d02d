import Mathlib.Algebra.Order.Field.Power
import Mathlib.Algebra.Order.Ring.Abs
import Mathlib.Algebra.Ring.Parity
import Mathlib.Data.Rat.Cast.Order
import Mathlib.Tactic.Linarith
import Mathlib.Tactic.Positivity
import Mathlib.Tactic.Ring
import SplitCalc.Proofs.CorrectRounding
import SplitCalc.Proofs.Rounding

/-!
# From the nearest grid point to the nearest decimal

The decimals at one scale form a grid. Rounding a quotient half to even on such a grid gives a
nearest point of it (`isNearestPoint_roundShifted`). The scale is chosen so that the number
lies where the points have `precision` digits. Then a decimal of `precision` digits at a
larger scale lies below the first of these points, which is nearer to the number, and one at a
smaller scale lies on the grid. So the nearest point of the grid is the nearest decimal of
all (`IsNearestPoint.isNearest`), also when it is the point where one digit more begins
(`IsNearestPoint.isNearest_carry`).
-/

namespace SplitCalc

/-! ### Nearest points -/

/-- The digits `r` at scale `k` are a **nearest point** of the grid of all decimals at that
scale, a tie going to the even one. -/
structure IsNearestPoint (q : ℚ) (k r : ℤ) : Prop where
  /-- No point of the grid is nearer to the number. -/
  le_dist : ∀ m : ℤ, |q - decimalValue r k| ≤ |q - decimalValue m k|
  /-- The point is even where another one is equally near, and that one is odd. -/
  even_of_tie : ∀ m : ℤ, m ≠ r → |q - decimalValue r k| = |q - decimalValue m k| →
    Even r ∧ Odd m

/-- Distances from points of the grid at scale `k` are distances from integers. -/
theorem abs_sub_decimalValue (q : ℚ) (m k : ℤ) :
    |q - decimalValue m k| = |q * 10 ^ k - m| * 10 ^ (-k) := by
  have h := abs_mul_sub_decimalValue (q * 10 ^ k) m k k
  rw [mul_assoc, ← zpow_add₀ (by norm_num), add_neg_cancel, zpow_zero, mul_one, sub_self,
    decimalValue_zero_right] at h
  exact h

/-- A nearest point has the value of the number when any point has. -/
theorem IsNearestPoint.value_eq {q : ℚ} {k r m : ℤ} (h : IsNearestPoint q k r)
    (hm : decimalValue m k = q) : decimalValue r k = q := by
  have hdist := h.le_dist m
  rw [hm, sub_self, abs_zero, abs_nonpos_iff, sub_eq_zero] at hdist
  exact hdist.symm

/-- A nearest point lies between any two points that enclose the number. -/
theorem IsNearestPoint.mem_of_enclosed {q : ℚ} {k r m n : ℤ} (h : IsNearestPoint q k r)
    (hm : decimalValue m k ≤ q) (hn : q ≤ decimalValue n k) : m ≤ r ∧ r ≤ n := by
  constructor
  · by_contra hr
    have hbelow : decimalValue r k < decimalValue m k := decimalValue_lt_iff.2 (not_le.1 hr)
    have hdist := h.le_dist m
    rw [abs_of_nonneg (by linarith), abs_of_nonneg (by linarith)] at hdist
    linarith
  · by_contra hr
    have habove : decimalValue n k < decimalValue r k := decimalValue_lt_iff.2 (not_le.1 hr)
    have hdist := h.le_dist n
    rw [abs_of_nonpos (by linarith), abs_of_nonpos (by linarith)] at hdist
    linarith

/-! ### Decimals off the grid -/

section Precision

variable {q : ℚ} {k : ℤ}

/-- The least number of `precision` digits as a point of the grid. -/
theorem decimalValue_first (k : ℤ) :
    decimalValue (10 ^ (precision - 1)) k = 10 ^ ((precision : ℤ) - 1 - k) := by
  have hcast : (precision : ℤ) - 1 = (precision - 1 : ℕ) := rfl
  rw [hcast, decimalValue_ten_pow]

/-- A decimal of `precision` digits lies on the grid, or it is farther from a number of that
size than the first point of the grid. -/
theorem scale_le_or_farther {v : ℤ} (hq : 10 ^ ((precision : ℤ) - 1 - k) ≤ q)
    (hv : Digits.count v.natAbs = precision) (t : ℤ) :
    t ≤ k ∨ |q - decimalValue (10 ^ (precision - 1)) k| < |q - decimalValue v t| := by
  refine or_iff_not_imp_left.2 fun htk => ?_
  have hbelow : decimalValue v t < 10 ^ ((precision : ℤ) - 1 - k) :=
    calc decimalValue v t ≤ |decimalValue v t| := le_abs_self _
      _ < 10 ^ ((precision : ℤ) - t) := abs_decimalValue_lt hv.le
      _ ≤ 10 ^ ((precision : ℤ) - 1 - k) := zpow_le_zpow_right₀ (by norm_num) (by omega)
  rw [decimalValue_first, abs_of_nonneg (sub_nonneg.2 hq)]
  exact lt_of_lt_of_le (sub_lt_sub_left hbelow q) (le_abs_self _)

/-- Digits of the value of a nearest point are nearest to the number among all decimals, if
they are `precision` digits and as even as the point. -/
theorem IsNearestPoint.isNearest_of_value_eq {r u s : ℤ} (h : IsNearestPoint q k r)
    (hq : 10 ^ ((precision : ℤ) - 1 - k) ≤ q) (hcount : Digits.count u.natAbs = precision)
    (hpos : 0 < u) (hvalue : decimalValue u s = decimalValue r k) (heven : Even r → Even u) :
    IsNearest q u s := by
  have hfirst : |q - decimalValue r k| ≤ |q - decimalValue (10 ^ (precision - 1)) k| :=
    h.le_dist (10 ^ (precision - 1))
  refine ⟨hcount, ?_, fun v t hv => ?_, fun v t hv hne heq => ?_⟩
  · exact mul_pos (by exact_mod_cast hpos) ((ten_zpow_pos _).trans_le hq)
  · rw [hvalue]
    rcases scale_le_or_farther hq hv t with htk | hfar
    · rw [decimalValue_of_le htk]
      exact h.le_dist (v * 10 ^ (k - t).toNat)
    · exact hfirst.trans hfar.le
  · rw [hvalue] at hne heq
    rcases scale_le_or_farther hq hv t with htk | hfar
    · rw [decimalValue_of_le htk] at hne heq
      have hmr : v * 10 ^ (k - t).toNat ≠ r := fun h => hne (by rw [h])
      obtain ⟨hr, hm⟩ := h.even_of_tie (v * 10 ^ (k - t).toNat) hmr heq
      -- an odd point has no zero behind its digits
      exact ⟨heven hr, (Int.odd_mul.1 hm).1⟩
    · exact absurd (heq.ge.trans hfirst) hfar.not_ge

/-- **A nearest point of `precision` digits is a nearest decimal.** -/
theorem IsNearestPoint.isNearest {r : ℕ} (h : IsNearestPoint q k r)
    (hq : 10 ^ ((precision : ℤ) - 1 - k) ≤ q) (hlow : 10 ^ (precision - 1) ≤ r)
    (hhigh : r < 10 ^ precision) : IsNearest q r k := by
  have hpos : 0 < r := (by positivity : 0 < 10 ^ (precision - 1)).trans_le hlow
  refine h.isNearest_of_value_eq hq ?_ (by exact_mod_cast hpos) rfl id
  rw [Int.natAbs_natCast, Digits.count_eq_iff hpos precision_pos]
  exact ⟨hlow, hhigh⟩

/-- **A nearest point where one digit more begins** is written with `precision` digits at the
next smaller scale, and so is a nearest decimal too. -/
theorem IsNearestPoint.isNearest_carry (h : IsNearestPoint q k ((10 ^ precision : ℕ) : ℤ))
    (hq : 10 ^ ((precision : ℤ) - 1 - k) ≤ q) :
    IsNearest q ((10 ^ (precision - 1) : ℕ) : ℤ) (k - 1) := by
  have hpos : 0 < 10 ^ (precision - 1) := by positivity
  refine h.isNearest_of_value_eq hq ?_ (by exact_mod_cast hpos) ?_ fun _ => ?_
  · rw [Int.natAbs_natCast, Digits.count_eq_iff hpos precision_pos]
    exact ⟨le_rfl, by decide⟩
  · have hone : (k - (k - 1)).toNat = 1 := by omega
    rw [decimalValue_of_le (by omega : k - 1 ≤ k), hone]
    rfl
  · rw [Int.even_coe_nat]
    decide

end Precision

/-! ### Rounding onto a grid -/

section Grid

variable {den : ℕ}

/-- The shifted quotient is the quotient times a power of ten. -/
private theorem shifted_div_eq (k : ℤ) (num den : ℕ) :
    (shiftedNum 10 k num / shiftedDen 10 k den : ℚ) = num / den * 10 ^ k :=
  shiftedNum_div_shiftedDen (by norm_num) k num den

/-- **Rounding half to even on a grid gives a nearest point of it.** -/
theorem isNearestPoint_roundShifted (num : ℕ) (hden : 0 < den) (k : ℤ) :
    IsNearestPoint (num / den) k (roundShifted 10 k num den) := by
  have hpos : 0 < shiftedDen 10 k den := shiftedDen_pos (by norm_num) k hden
  have hten : (0 : ℚ) < 10 ^ (-k) := ten_zpow_pos (-k)
  constructor
  · intro m
    have hnear : |(num / den : ℚ) * 10 ^ k - roundShifted 10 k num den| ≤
        |(num / den : ℚ) * 10 ^ k - m| := by
      rw [← shifted_div_eq]
      exact abs_sub_roundHalfEven_le hpos m
    rw [abs_sub_decimalValue, abs_sub_decimalValue, Int.cast_natCast]
    exact mul_le_mul_of_nonneg_right hnear hten.le
  · intro m hne htie
    rw [abs_sub_decimalValue, abs_sub_decimalValue, Int.cast_natCast, ← shifted_div_eq] at htie
    obtain ⟨heven, hodd⟩ := even_and_odd_of_tie hpos hne (mul_right_cancel₀ hten.ne' htie)
    exact ⟨(Int.even_coe_nat _).2 heven, hodd⟩

/-- The shifted division leaves no remainder exactly when the quotient lies on the grid. -/
theorem shifted_mod_eq_zero_iff (num : ℕ) (hden : 0 < den) (k : ℤ) :
    shiftedNum 10 k num % shiftedDen 10 k den = 0 ↔
      ∃ m : ℤ, decimalValue m k = (num / den : ℚ) := by
  have hpos : 0 < shiftedDen 10 k den := shiftedDen_pos (by norm_num) k hden
  have hpos' : (shiftedDen 10 k den : ℚ) ≠ 0 := by exact_mod_cast hpos.ne'
  have hpoint : ∀ m : ℤ, decimalValue m k = (num / den : ℚ) ↔
      m * (shiftedDen 10 k den : ℤ) = shiftedNum 10 k num := by
    intro m
    rw [decimalValue_eq_iff, ← shifted_div_eq, eq_div_iff hpos']
    exact_mod_cast Iff.rfl
  constructor
  · intro hmod
    obtain ⟨m, hm⟩ := Nat.dvd_of_mod_eq_zero hmod
    refine ⟨m, (hpoint m).2 ?_⟩
    rw [hm, mul_comm]
    push_cast
    rfl
  · rintro ⟨m, hm⟩
    have hdvd : (shiftedDen 10 k den : ℤ) ∣ shiftedNum 10 k num :=
      ⟨m, by rw [← (hpoint m).1 hm, mul_comm]⟩
    exact Nat.mod_eq_zero_of_dvd (by exact_mod_cast hdvd)

end Grid

end SplitCalc
