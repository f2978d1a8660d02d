import Mathlib.Analysis.Complex.ExponentialBounds
import Mathlib.Analysis.Real.Pi.Bounds
import Mathlib.Analysis.SpecialFunctions.Log.Base
import Mathlib.Analysis.SpecialFunctions.Stirling
import SplitCalc.Factorial
import SplitCalc.Proofs.Logarithm

/-!
# The digits of a factorial by Stirling's formula

The ratio between a factorial and Stirling's formula falls as the integer grows, towards one. So
the estimate with one digit to spare lies between half a digit and one digit above the logarithm
of the factorial, for every integer (`logb_factorial_lt_estimate`, `estimate_le_logb_factorial`).

In doubles the estimate is off by less than half a digit. The circle constant, the base of the
natural logarithm and every result before the logarithms are accurate enough for the logarithms to
be off by what their own accuracy of `2 ^ (-40)` allows. The integer that multiplies the first of
them has at most 31 bits, which leaves `2 ^ (-8)` (`approximates_digitEstimate`).
-/

namespace SplitCalc

/-! ### Stirling's formula -/

open Real in
/-- The number of digits of a factorial by Stirling's formula, with one digit to spare. -/
noncomputable def stirlingEstimate (n : ℕ) : ℝ :=
  if n < 2 then 1
  else n * logb 10 (n / exp 1) + 1 / 2 * logb 10 (2 * π * n) + 1

/-- The estimate is the logarithm of the factorial, less that of its ratio to Stirling's formula. -/
theorem stirlingEstimate_eq {n : ℕ} (hn : 2 ≤ n) :
    stirlingEstimate n =
      Real.logb 10 n.factorial +
        (1 / 2 * Real.log Real.pi - Real.log (Stirling.stirlingSeq n)) / Real.log 10 + 1 := by
  have hn' : (n : ℝ) ≠ 0 := by positivity
  have hsplit : Real.log (2 * Real.pi * n) = Real.log Real.pi + Real.log (2 * n) := by
    rw [mul_comm 2 Real.pi, mul_assoc, Real.log_mul Real.pi_ne_zero (by positivity)]
  rw [stirlingEstimate, if_neg (by omega), Stirling.log_stirlingSeq_formula]
  simp only [Real.logb]
  rw [hsplit]
  ring

/-- The estimate is at most one digit above the logarithm of the factorial: the ratio to
Stirling's formula never falls below one. -/
theorem estimate_le_logb_factorial {n : ℕ} (hn : 2 ≤ n) :
    stirlingEstimate n ≤ Real.logb 10 n.factorial + 1 := by
  have hratio : 1 / 2 * Real.log Real.pi ≤ Real.log (Stirling.stirlingSeq n) := by
    have hsqrt : Real.log √Real.pi = 1 / 2 * Real.log Real.pi := by
      rw [Real.log_sqrt Real.pi_pos.le]
      ring
    rw [← hsqrt]
    exact Real.log_le_log (Real.sqrt_pos.2 Real.pi_pos) (Stirling.sqrt_pi_le_stirlingSeq (by omega))
  have hcorrection : (1 / 2 * Real.log Real.pi - Real.log (Stirling.stirlingSeq n)) /
      Real.log 10 ≤ 0 :=
    div_nonpos_of_nonpos_of_nonneg (by linarith) (Real.log_nonneg (by norm_num))
  rw [stirlingEstimate_eq hn]
  linarith

/-- The ratio to Stirling's formula is greatest at one, where it is below the square root of ten. -/
theorem log_stirlingSeq_lt {n : ℕ} (hn : 1 ≤ n) :
    Real.log (Stirling.stirlingSeq n) < 1 / 2 * Real.log Real.pi + 1 / 2 * Real.log 10 := by
  have hfirst : Real.log (Stirling.stirlingSeq n) ≤ Real.log (Stirling.stirlingSeq 1) := by
    obtain ⟨k, rfl⟩ := Nat.exists_eq_add_of_le' hn
    exact Stirling.log_stirlingSeq'_antitone (Nat.zero_le k)
  have hone : Real.log (Stirling.stirlingSeq 1) = 1 - 1 / 2 * Real.log 2 := by
    rw [Stirling.stirlingSeq_one, Real.log_div (Real.exp_pos 1).ne' (by positivity), Real.log_exp,
      Real.log_sqrt (by norm_num)]
    ring
  have htwo : 2 < Real.log 2 + Real.log Real.pi + Real.log 10 := by
    have hexp : Real.exp 2 < 2 * Real.pi * 10 := by
      calc Real.exp 2 = Real.exp 1 * Real.exp 1 := by rw [← Real.exp_add]; norm_num
        _ ≤ 3 * 3 := by
            have hthree := Real.exp_one_lt_three.le
            exact mul_le_mul hthree hthree (Real.exp_pos 1).le (by norm_num)
        _ < 2 * Real.pi * 10 := by linarith [Real.pi_gt_three]
    rw [← Real.log_mul (by norm_num) Real.pi_ne_zero, ← Real.log_mul (by positivity) (by norm_num)]
    exact (Real.lt_log_iff_exp_lt (by positivity)).2 hexp
  linarith

/-- The estimate is more than half a digit above the logarithm of the factorial. -/
theorem logb_factorial_lt_estimate {n : ℕ} (hn : 2 ≤ n) :
    Real.logb 10 n.factorial + 1 / 2 < stirlingEstimate n := by
  have hlog : 0 < Real.log 10 := Real.log_pos (by norm_num)
  have hratio := log_stirlingSeq_lt (show 1 ≤ n by omega)
  have hcorrection : -(1 / 2) < (1 / 2 * Real.log Real.pi - Real.log (Stirling.stirlingSeq n)) /
      Real.log 10 := by
    rw [lt_div_iff₀ hlog]
    linarith
  rw [stirlingEstimate_eq hn]
  linarith

/-! ### The estimate in doubles -/

namespace Double

variable {log10 : Double → Double} {n : ℕ}

/-- The base of the natural logarithm is the double nearest to it. -/
theorem rounds_euler : euler.Rounds (Real.exp 1) := by
  obtain ⟨hlow, hhigh⟩ := abs_le.1 Real.exp_one_near_20
  refine ⟨2718281828459045234, 2718281828459045237, Nat.pow 10 18, Nat.pow 10 18, by decide,
    ⟨?_, ?_⟩, by decide +kernel, by decide +kernel⟩
  · norm_num at hlow ⊢
    linarith
  · norm_num at hhigh ⊢
    linarith

/-- The circle constant is the double nearest to it. -/
theorem rounds_pi : pi.Rounds Real.pi := by
  have hlow := Real.pi_gt_d20
  have hhigh := Real.pi_lt_d20
  refine ⟨314159265358979323846, 314159265358979323847, Nat.pow 10 20, Nat.pow 10 20, by decide,
    ⟨?_, ?_⟩, by decide +kernel, by decide +kernel⟩
  · norm_num at hlow ⊢
    linarith
  · norm_num at hhigh ⊢
    linarith

/-- The error of the base of the natural logarithm. -/
theorem approximates_euler : Approximates (2 ^ (-50 : ℤ)) euler (Real.exp 1) := by
  have hnear := Real.exp_one_near_20
  have hconstant : |(((271828182845904523536028747135266250 : ℤ) : ℝ) / (Nat.pow 10 35 : ℕ)) -
      Real.exp 1| ≤ 1 / 10 ^ 19 := by
    rw [abs_sub_comm]
    refine (abs_sub_le _ _ _).trans ((add_le_add_left hnear _).trans ?_)
    norm_num [abs_of_pos, abs_of_neg]
  refine (approximates_ofQuotient (k := 2) (by decide) (by norm_num) (by norm_num) ?_
    hconstant).mono ?_
  · norm_num [abs_of_pos]
  · norm_num

/-- The error of the circle constant. -/
theorem approximates_pi : Approximates (2 ^ (-50 : ℤ)) pi Real.pi := by
  have hlow := Real.pi_gt_d20
  have hhigh := Real.pi_lt_d20
  have hconstant : |(((314159265358979323846264338327950288 : ℤ) : ℝ) / (Nat.pow 10 35 : ℕ)) -
      Real.pi| ≤ 1 / 10 ^ 19 := by
    norm_num
    exact abs_le.2 ⟨by linarith, by linarith⟩
  refine (approximates_ofQuotient (k := 2) (by decide) (by norm_num) (by norm_num) ?_
    hconstant).mono ?_
  · norm_num [abs_of_pos]
  · norm_num

/-- The decimal logarithm of a number of at most `k` bits before the point. -/
theorem abs_logb_le {r : ℝ} {k : ℕ} (hlow : 1 / 2 ≤ r) (hhigh : r ≤ 2 ^ k) (hk : 1 ≤ k) :
    |Real.logb 10 r| ≤ k := by
  have htwo : 0 < Real.log 2 := Real.log_pos (by norm_num)
  have hten : Real.log 2 ≤ Real.log 10 := Real.log_le_log (by norm_num) (by norm_num)
  have hk' : (1 : ℝ) ≤ k := by exact_mod_cast hk
  have hbelow : -Real.log 2 ≤ Real.log r := by
    rw [← Real.log_inv]
    exact Real.log_le_log (by norm_num) (by linarith)
  have habove : Real.log r ≤ k * Real.log 2 := by
    rw [← Real.log_pow]
    exact Real.log_le_log (by linarith) hhigh
  have hscaled : Real.log 2 ≤ k * Real.log 2 := le_mul_of_one_le_left htwo.le hk'
  have hscaled' : k * Real.log 2 ≤ k * Real.log 10 := mul_le_mul_of_nonneg_left hten (by linarith)
  rw [Real.logb, abs_div, abs_of_pos (htwo.trans_le hten), div_le_iff₀ (htwo.trans_le hten)]
  exact abs_le.2 ⟨by linarith, by linarith⟩

/-- The integer itself is exact. -/
theorem approximates_ofInt (hword : n < 2 ^ 31) : Approximates 0 (ofInt n) n := by
  have hexact := (denotes_ofInt (k := n) (hword.trans (by decide))).approximates
  rwa [Rat.cast_natCast] at hexact

/-- A word over the base of the natural logarithm. -/
theorem div_exp_bounds (n : ℕ) : (n : ℝ) / 3 ≤ n / Real.exp 1 ∧ (n : ℝ) / Real.exp 1 ≤ n / 2 := by
  have hexp := Real.exp_one_gt_d9
  have hexp' := Real.exp_one_lt_d9
  constructor
  · gcongr
    linarith
  · gcongr
    linarith

/-- A word times the full turn. -/
theorem two_pi_mul_bounds (n : ℕ) :
    6 * (n : ℝ) ≤ 2 * Real.pi * n ∧ 2 * Real.pi * n ≤ 8 * (n : ℝ) := by
  have hpi := Real.pi_gt_three
  have hpi' := Real.pi_lt_four
  constructor
  · gcongr
    linarith
  · gcongr
    linarith

/-- The argument of the first logarithm. -/
theorem approximates_div_euler (hn : 2 ≤ n) (hword : n < 2 ^ 31) :
    Approximates (2 ^ (-19 : ℤ)) ((ofInt n).div euler) (n / Real.exp 1) := by
  have hn' : (2 : ℝ) ≤ n := by exact_mod_cast hn
  have hword' : (n : ℝ) ≤ 2 ^ 31 := by exact_mod_cast hword.le
  have hexp := Real.exp_one_gt_d9
  obtain ⟨hlow, hhigh⟩ := div_exp_bounds n
  have hsize : |(n : ℝ) / Real.exp 1| = n / Real.exp 1 := abs_of_nonneg (by linarith)
  refine ((approximates_ofInt hword).div (k := 31) approximates_euler ?_ (by norm_num)
    (by norm_num) ?_).mono ?_
  · norm_num
    linarith
  · rw [hsize]
    norm_num
    linarith
  · rw [hsize]
    norm_num
    linarith

/-- The argument of the second logarithm. -/
theorem approximates_two_pi_mul (hword : n < 2 ^ 31) :
    Approximates (2 ^ (-16 : ℤ)) (((ofInt 2).mul pi).mul (ofInt n)) (2 * Real.pi * n) := by
  have hword' : (n : ℝ) ≤ 2 ^ 31 := by exact_mod_cast hword.le
  have hpi := Real.pi_lt_four
  have htwo : Approximates 0 (ofInt 2) 2 := approximates_ofInt (n := 2) (by norm_num)
  have htwice : Approximates (2 ^ (-48 : ℤ)) ((ofInt 2).mul pi) (2 * Real.pi) := by
    refine (htwo.mul (k := 4) approximates_pi (by norm_num) (by norm_num) ?_).mono ?_
    · rw [abs_of_pos Real.pi_pos]
      norm_num
      linarith
    · norm_num
  have hsize : |2 * Real.pi| = 2 * Real.pi := abs_of_pos (by positivity)
  refine (htwice.mul (k := 35) (approximates_ofInt hword) (by norm_num) (by norm_num) ?_).mono ?_
  · rw [hsize, Nat.abs_cast, add_zero]
    calc (2 * Real.pi + 2 ^ (-48 : ℤ)) * (n : ℝ) ≤ 9 * 2 ^ 31 := by
          gcongr
          norm_num
          linarith
      _ ≤ 2 ^ (35 : ℤ) := by norm_num
  · rw [hsize, Nat.abs_cast]
    norm_num
    linarith

/-- The first logarithm has at most five bits before the point. -/
theorem abs_logb_div_exp_le (hn : 2 ≤ n) (hword : n < 2 ^ 31) :
    |Real.logb 10 (n / Real.exp 1)| ≤ 31 := by
  have hn' : (2 : ℝ) ≤ n := by exact_mod_cast hn
  have hword' : (n : ℝ) ≤ 2 ^ 31 := by exact_mod_cast hword.le
  obtain ⟨hlow, hhigh⟩ := div_exp_bounds n
  exact_mod_cast abs_logb_le (k := 31) (by linarith) (by linarith) (by norm_num)

/-- The second logarithm is not much greater. -/
theorem abs_logb_two_pi_mul_le (hn : 2 ≤ n) (hword : n < 2 ^ 31) :
    |Real.logb 10 (2 * Real.pi * n)| ≤ 34 := by
  have hn' : (2 : ℝ) ≤ n := by exact_mod_cast hn
  have hword' : (n : ℝ) ≤ 2 ^ 31 := by exact_mod_cast hword.le
  obtain ⟨hlow, hhigh⟩ := two_pi_mul_bounds n
  exact_mod_cast abs_logb_le (k := 34) (by linarith) (by linarith) (by norm_num)

/-- The error of the first logarithm. That of its argument counts relative to the argument, so
the share it has shrinks as the integer grows. -/
theorem approximates_log10_div_euler (h : IsDecimalLogarithm log10) (hn : 2 ≤ n)
    (hword : n < 2 ^ 31) :
    Approximates (2 ^ (-40 : ℤ) + 2 ^ (-17 : ℤ) / n) (log10 ((ofInt n).div euler))
      (Real.logb 10 (n / Real.exp 1)) := by
  have hn' : (2 : ℝ) ≤ n := by exact_mod_cast hn
  obtain ⟨hlow, -⟩ := div_exp_bounds n
  have hleast : (n : ℝ) / 4 ≤ n / Real.exp 1 - 2 ^ (-19 : ℤ) := by
    norm_num
    linarith
  refine (h.approximates (approximates_div_euler hn hword) (by linarith)).mono
    (add_le_add_right ?_ _)
  calc (2 : ℝ) ^ (-19 : ℤ) / (n / Real.exp 1 - 2 ^ (-19 : ℤ)) ≤ 2 ^ (-19 : ℤ) / (n / 4) := by
        gcongr
    _ = 2 ^ (-17 : ℤ) / n := by
        rw [div_div_eq_mul_div]
        norm_num

/-- The error of the second logarithm. -/
theorem approximates_log10_two_pi_mul (h : IsDecimalLogarithm log10) (hn : 2 ≤ n)
    (hword : n < 2 ^ 31) :
    Approximates (2 ^ (-10 : ℤ)) (log10 (((ofInt 2).mul pi).mul (ofInt n)))
      (Real.logb 10 (2 * Real.pi * n)) := by
  have hn' : (2 : ℝ) ≤ n := by exact_mod_cast hn
  obtain ⟨hlow, -⟩ := two_pi_mul_bounds n
  refine (h.approximates (approximates_two_pi_mul hword) ?_).mono ?_
  · norm_num
    linarith
  · have hshare : (2 : ℝ) ^ (-16 : ℤ) / (2 * Real.pi * n - 2 ^ (-16 : ℤ)) ≤
        2 ^ (-16 : ℤ) / (1 / 2) := by
      gcongr
      norm_num
      linarith
    norm_num at hshare ⊢
    linarith

/-- The greater part of the estimate. -/
theorem approximates_powerTerm (h : IsDecimalLogarithm log10) (hn : 2 ≤ n) (hword : n < 2 ^ 31) :
    Approximates (2 ^ (-8 : ℤ)) ((ofInt n).mul (log10 ((ofInt n).div euler)))
      (n * Real.logb 10 (n / Real.exp 1)) := by
  have hn' : (2 : ℝ) ≤ n := by exact_mod_cast hn
  have hword' : (n : ℝ) ≤ 2 ^ 31 := by exact_mod_cast hword.le
  have hlogb := abs_logb_div_exp_le hn hword
  have hshare : (2 : ℝ) ^ (-17 : ℤ) / n ≤ 1 := by
    rw [div_le_one (by linarith)]
    norm_num
    linarith
  have hcancel : (n : ℝ) * (2 ^ (-17 : ℤ) / n) = 2 ^ (-17 : ℤ) := mul_div_cancel₀ _ (by linarith)
  refine ((approximates_ofInt hword).mul (k := 37) (approximates_log10_div_euler h hn hword)
    (by norm_num) (by norm_num) ?_).mono ?_
  · rw [Nat.abs_cast, add_zero]
    calc (n : ℝ) * (|Real.logb 10 (n / Real.exp 1)| + (2 ^ (-40 : ℤ) + 2 ^ (-17 : ℤ) / n))
        ≤ 2 ^ 31 * 33 := by
          gcongr
          norm_num at hlogb ⊢
          linarith
      _ ≤ 2 ^ (37 : ℤ) := by norm_num
  · rw [Nat.abs_cast, mul_add, hcancel]
    norm_num
    linarith

/-- The lesser part of the estimate. -/
theorem approximates_rootTerm (h : IsDecimalLogarithm log10) (hn : 2 ≤ n) (hword : n < 2 ^ 31) :
    Approximates (2 ^ (-8 : ℤ))
      ((ofQuotient 1 2).mul (log10 (((ofInt 2).mul pi).mul (ofInt n))))
      (1 / 2 * Real.logb 10 (2 * Real.pi * n)) := by
  have hhalf : Approximates (2 ^ (-53 : ℤ)) (ofQuotient 1 2) (1 / 2) := by
    refine (approximates_ofQuotient (k := 0) (e := 0) (by norm_num) (by norm_num) (by norm_num) ?_
      ?_).mono ?_
    · norm_num
    · norm_num
    · norm_num
  have hlogb := abs_logb_two_pi_mul_le hn hword
  refine (hhalf.mul (k := 6) (approximates_log10_two_pi_mul h hn hword) (by norm_num)
    (by norm_num) ?_).mono ?_
  · calc (|(1 / 2 : ℝ)| + 2 ^ (-53 : ℤ)) * (|Real.logb 10 (2 * Real.pi * n)| + 2 ^ (-10 : ℤ))
        ≤ 1 * 35 := by
          gcongr
          · norm_num [abs_of_pos]
          · norm_num at hlogb ⊢
            linarith
      _ ≤ 2 ^ (6 : ℤ) := by norm_num
  · norm_num [abs_of_pos] at hlogb ⊢
    linarith

/-- **The error of the estimate.** Computed in doubles, with any decimal logarithm of them, the
number of digits is off by less than half a digit. -/
theorem approximates_digitEstimate (h : IsDecimalLogarithm log10) (hword : n < 2 ^ 31) :
    Approximates (1 / 2) (digitEstimate log10 n) (stirlingEstimate n) := by
  have hone : Approximates 0 one 1 := by
    have hexact := approximates_ofInt (n := 1) (by norm_num)
    rwa [ofInt_natCast, Nat.cast_one] at hexact
  rw [digitEstimate, stirlingEstimate]
  rcases Nat.lt_or_ge n 2 with hsmall | hn
  · rw [if_pos hsmall, if_pos (by exact_mod_cast hsmall)]
    exact hone.mono (by norm_num)
  · have hword' : (n : ℝ) ≤ 2 ^ 31 := by exact_mod_cast hword.le
    have hpower : |n * Real.logb 10 (n / Real.exp 1)| ≤ 2 ^ 31 * 31 := by
      rw [abs_mul, Nat.abs_cast]
      exact mul_le_mul hword' (abs_logb_div_exp_le hn hword) (abs_nonneg _) (by norm_num)
    have hroot : |1 / 2 * Real.logb 10 (2 * Real.pi * n)| ≤ 17 := by
      have hlogb := abs_logb_two_pi_mul_le hn hword
      rw [abs_mul]
      norm_num [abs_of_pos]
      linarith
    have hsum := abs_add_le (n * Real.logb 10 (n / Real.exp 1))
      (1 / 2 * Real.logb 10 (2 * Real.pi * n))
    rw [if_neg (Nat.not_lt.2 hn), if_neg (by exact_mod_cast Nat.not_lt.2 hn)]
    refine (((approximates_powerTerm h hn hword).add (k := 37) (approximates_rootTerm h hn hword)
      (by norm_num) (by norm_num) ?_).add (k := 37) hone (by norm_num) (by norm_num) ?_).mono ?_
    · norm_num at hpower hroot ⊢
      linarith
    · norm_num at hpower hroot hsum ⊢
      linarith
    · norm_num

end Double

end SplitCalc
