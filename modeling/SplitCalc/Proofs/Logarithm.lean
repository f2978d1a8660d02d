import Mathlib.Analysis.Complex.ExponentialBounds
import Mathlib.Analysis.SpecialFunctions.Artanh
import Mathlib.Analysis.SpecialFunctions.Log.Base
import Mathlib.Analysis.SpecialFunctions.Log.Deriv
import SplitCalc.Double.Elementary
import SplitCalc.Proofs.Enclosure

/-!
# The decimal logarithm of doubles

The inverse hyperbolic tangent is the sum of a series of odd powers, and the natural logarithm of
`(1 + v) / (1 - v)` is twice that of `v`. This gives the logarithms of two and of ten, and with the
power of two taken out of it, that of every magnitude. So the quotient of two enclosures holds the
decimal logarithm (`encloses_encloseLog10?`), and the errors of its parts are some thousand units
each, at a width where one is more than `2 ^ 128` of them.

The precisions that are tried do not matter for that: at any of them, settled or not, the lower
bound is within `2 ^ (-99)` of the logarithm. What remains is the rounding to a double, so the
decimal logarithm of doubles is accurate to `2 ^ (-40)` (`isDecimalLogarithm_log10`).
-/

namespace SplitCalc

namespace Enclosure

variable {width : ℕ} {x : Enclosure} {v : ℝ}

/-! ### The inverse hyperbolic tangent -/

/-- An odd power of a number, scaled. -/
noncomputable def oddPower (width : ℕ) (v : ℝ) (k : ℕ) : ℝ :=
  v ^ (2 * k + 1) * one width

theorem oddPower_zero : oddPower width v 0 = v * 2 ^ width := by
  rw [oddPower, Nat.mul_zero, Nat.zero_add, pow_one, cast_one]

/-- Odd powers of a number of at most one half fall fast enough. -/
theorem isPowers_oddPower (hv : |v| ≤ 1 / 2) :
    IsPowers width (v * 2 ^ width * (v * 2 ^ width) / 2 ^ width) (fun _ => 1)
      (oddPower width v) where
  succ k := by
    rw [oddPower, oddPower, cast_one, Nat.cast_one, div_one]
    field_simp
    ring
  ratio_le k := two_mul_abs_square_le (by exact_mod_cast two_mul_mul_self_le_one hv)
  step_pos k := Nat.one_pos

/-- The inverse hyperbolic tangent is the sum of the odd powers over the odd numbers. -/
theorem tail_oddPower (hv : |v| ≤ 1 / 2) :
    tail (oddPower width v) (fun k => 2 * k + 1) 0 = Real.artanh v * 2 ^ width := by
  obtain ⟨hlow, hhigh⟩ := abs_le.1 hv
  have hsum := (Real.hasSum_log_sub_log_of_abs_lt_one (show |v| < 1 by linarith)).mul_left
    ((2 : ℝ) ^ width / 2)
  have hlog : Real.artanh v * 2 ^ width =
      2 ^ width / 2 * (Real.log (1 + v) - Real.log (1 - v)) := by
    rw [Real.artanh_eq_half_log ⟨by linarith, by linarith⟩,
      Real.log_div (by linarith) (by linarith)]
    ring
  rw [hlog, ← hsum.tsum_eq, tail]
  refine tsum_congr fun k => ?_
  rw [Nat.zero_add, oddPower, cast_one]
  push_cast
  ring

/-- The enclosure of an inverse hyperbolic tangent is tight. -/
theorem isTight_artanh (hwidth : 6 ≤ width) (hv : |v| ≤ 1 / 2)
    (hx : IsTight 1 x (v * 2 ^ width)) :
    IsTight (17 * width + 36) (artanh width x) (Real.artanh v * 2 ^ width) := by
  have hone : |v| ≤ 1 := hv.trans (by norm_num)
  rw [← tail_oddPower hv]
  exact isTight_series_of_first (isPowers_oddPower hv) (fun k => Nat.succ_pos _) hwidth
    (isTight_square hone hx) hone oddPower_zero hx

/-- A natural logarithm as an inverse hyperbolic tangent. -/
theorem two_mul_artanh (hv : |v| ≤ 1 / 2) : 2 * Real.artanh v = Real.log ((1 + v) / (1 - v)) := by
  obtain ⟨hlow, hhigh⟩ := abs_le.1 hv
  rw [Real.artanh_eq_half_log ⟨by linarith, by linarith⟩]
  ring

/-! ### Constants -/

/-- Two is four thirds over two thirds. -/
theorem two_mul_artanh_third : 2 * Real.artanh (1 / 3) = Real.log 2 := by
  rw [two_mul_artanh (by norm_num [abs_of_pos])]
  norm_num

/-- Eight is the third power of two. -/
theorem three_mul_log_two : 3 * Real.log 2 = Real.log 8 := by
  have hpow : Real.log (2 ^ 3) = 3 * Real.log 2 := by
    rw [Real.log_pow]
    norm_num
  rw [← hpow]
  norm_num

/-- Ten is eight times ten ninths over eight ninths. -/
theorem three_mul_log_two_add : 3 * Real.log 2 + 2 * Real.artanh (1 / 9) = Real.log 10 := by
  rw [two_mul_artanh (by norm_num [abs_of_pos]), three_mul_log_two,
    ← Real.log_mul (by norm_num) (by norm_num)]
  norm_num

/-- The logarithm of ten is at least two. -/
theorem two_le_log_ten : 2 ≤ Real.log 10 := by
  have height : Real.log 8 ≤ Real.log 10 := Real.log_le_log (by norm_num) (by norm_num)
  rw [← three_mul_log_two] at height
  linarith [Real.log_two_gt_d9]

/-- The inverse hyperbolic tangent of a quotient of at most one half. -/
theorem isTight_artanh_ofQuotient (hwidth : 6 ≤ width) {num den : ℤ} (hden : 0 < den)
    (hv : |(num / den : ℝ)| ≤ 1 / 2) :
    IsTight (17 * width + 36) (artanh width (ofQuotient width num den))
      (Real.artanh (num / den) * 2 ^ width) :=
  isTight_artanh hwidth hv (isTight_ofQuotient num hden)

/-- The natural logarithm of two. -/
theorem isTight_logTwo (hwidth : 6 ≤ width) :
    IsTight (2 * (17 * width + 36)) (logTwo width) (Real.log 2 * 2 ^ width) := by
  have hthird : |(((1 : ℤ) : ℝ) / (3 : ℤ))| ≤ 1 / 2 := by norm_num [abs_of_pos]
  have hdouble := (isTight_artanh_ofQuotient hwidth (by norm_num) hthird).scale 2
  have hvalue : Real.log 2 * 2 ^ width =
      ((2 : ℤ) : ℝ) * (Real.artanh (((1 : ℤ) : ℝ) / (3 : ℤ)) * 2 ^ width) := by
    rw [← two_mul_artanh_third]
    push_cast
    ring
  rw [hvalue]
  refine hdouble.mono (le_of_eq ?_)
  norm_num

/-- The natural logarithm of ten. -/
theorem isTight_logTen (hwidth : 6 ≤ width) :
    IsTight (8 * (17 * width + 36)) (logTen width) (Real.log 10 * 2 ^ width) := by
  have hninth : |(((1 : ℤ) : ℝ) / (9 : ℤ))| ≤ 1 / 2 := by norm_num [abs_of_pos]
  have hdouble := (isTight_artanh_ofQuotient hwidth (by norm_num) hninth).scale 2
  have hvalue : Real.log 10 * 2 ^ width = ((3 : ℤ) : ℝ) * (Real.log 2 * 2 ^ width) +
      ((2 : ℤ) : ℝ) * (Real.artanh (((1 : ℤ) : ℝ) / (9 : ℤ)) * 2 ^ width) := by
    rw [← three_mul_log_two_add]
    push_cast
    ring
  rw [hvalue]
  refine (((isTight_logTwo hwidth).scale 3).add hdouble).mono (le_of_eq ?_)
  norm_num
  ring

/-! ### Logarithms of quotients -/

variable {s p : ℕ}

/-- The argument that belongs to the logarithm of a quotient between one and two. -/
theorem abs_sub_div_add_le (hp : 0 < p) (hle : p ≤ s) (hlt : s ≤ 2 * p) :
    |((((s - p : ℕ) : ℤ) : ℝ) / ((s + p : ℕ) : ℤ))| ≤ 1 / 2 := by
  have hp' : (0 : ℝ) < p := by exact_mod_cast hp
  have hle' : (p : ℝ) ≤ s := by exact_mod_cast hle
  have hlt' : (s : ℝ) ≤ 2 * p := by exact_mod_cast hlt
  have hnum : (0 : ℝ) ≤ s - p := sub_nonneg.2 hle'
  rw [Int.cast_natCast, Int.cast_natCast, Nat.cast_sub hle, Nat.cast_add,
    abs_of_nonneg (div_nonneg hnum (by linarith)), div_le_iff₀ (by linarith)]
  linarith

/-- The logarithm of a quotient between one and two. -/
theorem log_div_eq (hp : 0 < p) (hle : p ≤ s) (hlt : s ≤ 2 * p) :
    Real.log (s / p) = 2 * Real.artanh ((((s - p : ℕ) : ℤ) : ℝ) / ((s + p : ℕ) : ℤ)) := by
  have hp' : (0 : ℝ) < p := by exact_mod_cast hp
  have hle' : (p : ℝ) ≤ s := by exact_mod_cast hle
  have hsum : (s + p : ℝ) ≠ 0 := by linarith
  have hplus : 1 + (s - p : ℝ) / (s + p) = 2 * s / (s + p) := by
    field_simp
    ring
  have hminus : 1 - (s - p : ℝ) / (s + p) = 2 * p / (s + p) := by
    field_simp
    ring
  rw [two_mul_artanh (abs_sub_div_add_le hp hle hlt), Int.cast_natCast, Int.cast_natCast,
    Nat.cast_sub hle, Nat.cast_add, hplus, hminus, div_div_div_cancel_right₀ hsum,
    mul_div_mul_left _ _ two_ne_zero]

end Enclosure

namespace Magnitude

variable {m : Magnitude}

/-! ### The power of two in a magnitude -/

/-- The highest power of two in a magnitude. -/
def top (m : Magnitude) : ℤ :=
  m.exponent + Nat.log2 m.significand

/-- The logarithm of a magnitude from that of its highest power of two. -/
theorem log_value (hm : m ≠ zero) :
    Real.log m.value =
      m.top * Real.log 2 + Real.log (m.significand / (2 ^ Nat.log2 m.significand : ℕ)) := by
  have hs : (0 : ℝ) < m.significand := by exact_mod_cast significand_pos hm
  have hvalue : (m.value : ℝ) =
      2 ^ m.top * (m.significand / (2 ^ Nat.log2 m.significand : ℕ)) := by
    rw [value, top, zpow_add₀ two_ne_zero, zpow_natCast]
    push_cast
    field_simp
  rw [hvalue, Real.log_mul (by positivity) (by positivity), Real.log_zpow]

/-- The highest power of two has an exponent of at most eleven bits. -/
theorem abs_top_le (hm : m ≠ zero) : |(m.top : ℝ)| ≤ 1126 := by
  have hexponent := m.natAbs_exponent_le
  have hbits : Nat.log2 m.significand < 53 :=
    (Nat.log2_lt (significand_pos hm).ne').2 m.significand_lt
  have htop : |m.top| ≤ 1126 := by
    rw [top]
    exact abs_le.2 ⟨by omega, by omega⟩
  exact_mod_cast htop

/-- The significand is between its highest power of two and the next. -/
theorem significand_bounds (hm : m ≠ zero) :
    2 ^ Nat.log2 m.significand ≤ m.significand ∧
      m.significand ≤ 2 * 2 ^ Nat.log2 m.significand := by
  refine ⟨Nat.log2_self_le (significand_pos hm).ne', ?_⟩
  rw [← pow_succ']
  exact Nat.lt_log2_self.le

/-- The decimal logarithm of a magnitude has at most eleven bits before the point. -/
theorem abs_logb_value_le (hm : m ≠ zero) : |Real.logb 10 m.value| ≤ 1127 := by
  have htwo : 0 < Real.log 2 := Real.log_pos (by norm_num)
  have hten : Real.log 2 ≤ Real.log 10 := Real.log_le_log (by norm_num) (by norm_num)
  obtain ⟨hlow, hhigh⟩ := significand_bounds hm
  have hp : (0 : ℝ) < (2 ^ Nat.log2 m.significand : ℕ) := by positivity
  have hrest : |Real.log (m.significand / (2 ^ Nat.log2 m.significand : ℕ))| ≤ Real.log 2 := by
    have hone : (1 : ℝ) ≤ m.significand / (2 ^ Nat.log2 m.significand : ℕ) := by
      rw [one_le_div hp]
      exact_mod_cast hlow
    rw [abs_of_nonneg (Real.log_nonneg hone)]
    refine Real.log_le_log (zero_lt_one.trans_le hone) ?_
    rw [div_le_iff₀ hp]
    exact_mod_cast hhigh
  have hlog : |Real.log m.value| ≤ 1127 * Real.log 2 := by
    rw [log_value hm]
    calc _ ≤ |m.top * Real.log 2| + |Real.log (m.significand / (2 ^ Nat.log2 m.significand : ℕ))| :=
          abs_add_le _ _
      _ ≤ 1126 * Real.log 2 + Real.log 2 := by
          rw [abs_mul, abs_of_pos htwo]
          exact add_le_add (mul_le_mul_of_nonneg_right (abs_top_le hm) htwo.le) hrest
      _ = 1127 * Real.log 2 := by ring
  rw [Real.logb, abs_div, abs_of_pos (htwo.trans_le hten), div_le_iff₀ (htwo.trans_le hten)]
  linarith

end Magnitude

namespace Double

variable {m : Magnitude} {w : ℕ}

/-! ### The decimal logarithm -/

/-- The natural logarithm of a magnitude: that of two as often as the highest power says, and
that of the quotient which is left. -/
theorem isTight_natural (hm : m ≠ .zero) (hw : 6 ≤ w) :
    Enclosure.IsTight (1128 * (2 * (17 * w + 36)))
      (((Enclosure.logTwo w).scale m.top).add
        ((Enclosure.artanh w (.ofQuotient w (m.significand - 2 ^ Nat.log2 m.significand : ℕ)
          (m.significand + 2 ^ Nat.log2 m.significand : ℕ))).scale 2))
      (Real.log m.value * 2 ^ w) := by
  obtain ⟨hle, hlt⟩ := Magnitude.significand_bounds hm
  have hp : 0 < 2 ^ Nat.log2 m.significand := Nat.two_pow_pos _
  have hrest := ((Enclosure.isTight_artanh_ofQuotient hw (by positivity)
    (Enclosure.abs_sub_div_add_le hp hle hlt)).scale 2)
  have hnatural := ((Enclosure.isTight_logTwo hw).scale m.top).add hrest
  have hvalue : m.top * (Real.log 2 * 2 ^ w) + ((2 : ℤ) : ℝ) * (Real.artanh
      ((((m.significand - 2 ^ Nat.log2 m.significand : ℕ) : ℤ) : ℝ) /
        ((m.significand + 2 ^ Nat.log2 m.significand : ℕ) : ℤ)) * 2 ^ w) =
      Real.log m.value * 2 ^ w := by
    rw [Magnitude.log_value hm, Enclosure.log_div_eq hp hle hlt]
    push_cast
    ring
  rw [hvalue] at hnatural
  refine hnatural.mono ?_
  have htop := mul_le_mul_of_nonneg_right (Magnitude.abs_top_le hm)
    (show (0 : ℝ) ≤ 2 * (17 * w + 36) by positivity)
  norm_num
  linarith

/-- **The enclosure of a decimal logarithm** exists and is tight, at every width from 128 bits
on that is tried. -/
theorem exists_encloseLog10? (hm : m ≠ .zero) (hw : 128 ≤ w) (hw' : w ≤ 2300) :
    ∃ x, encloseLog10? m w = some x ∧
      Enclosure.IsTight (2 ^ 29) x (Real.logb 10 m.value * 2 ^ w) := by
  have hsix : 6 ≤ w := by omega
  have hw'' : (w : ℝ) ≤ 2300 := by exact_mod_cast hw'
  have hscale : (2 : ℝ) ^ 128 ≤ 2 ^ w := pow_le_pow_right₀ one_le_two hw
  have hscale' : (2 : ℝ) ^ w ≠ 0 := by positivity
  have hten : (2 : ℝ) ^ w + 8 * (17 * w + 36) ≤ Real.log 10 * 2 ^ w := by
    have := mul_le_mul_of_nonneg_right Enclosure.two_le_log_ten (show (0 : ℝ) ≤ 2 ^ w by positivity)
    linarith
  obtain ⟨z, hz, htight⟩ :=
    (isTight_natural hm hsix).exists_div? (Enclosure.isTight_logTen hsix) hten
  rw [mul_div_mul_right _ _ hscale'] at htight
  refine ⟨z, hz, htight.mono ?_⟩
  -- some two thousand errors of the logarithm of two, and nine thousand of that of ten
  have hlogb := Magnitude.abs_logb_value_le hm
  rw [Real.logb] at hlogb
  calc _ ≤ 1128 * (2 * (17 * (w : ℝ) + 36)) + 1127 * (8 * (17 * (w : ℝ) + 36)) + 1 := by
        gcongr
    _ ≤ 2 ^ 29 := by linarith

/-- The enclosure of a decimal logarithm at the widths that are tried. -/
theorem exists_encloseLog10?_width (hm : m ≠ .zero) {precision : ℕ} (h : precision ∈ precisions) :
    ∃ x, encloseLog10? m (width m precision) = some x ∧
      Enclosure.IsTight (2 ^ 29) x (Real.logb 10 m.value * 2 ^ width m precision) := by
  obtain ⟨hlow, hhigh⟩ := width_bounds h
  exact exists_encloseLog10? hm (Nat.le_of_add_right_le hlow) hhigh

/-- The decimal logarithm of one. -/
theorem logb_value_one : Real.logb 10 (Magnitude.nearest 1 1).value = 0 := by
  rw [Magnitude.value_nearest_one (by decide), Nat.cast_one, Rat.cast_one, Real.logb_one]

/-- A **decimal logarithm** of doubles approximates that of every positive finite double to
`2 ^ (-40)`, several times the distance between neighbours among its values. -/
structure IsDecimalLogarithm (log10 : Double → Double) : Prop where
  /-- The logarithm of a positive finite double. -/
  approximates_logb : ∀ m : Magnitude, m ≠ .zero → m ≠ .infinity →
    Approximates (2 ^ (-40 : ℤ)) (log10 (.signed false m)) (Real.logb 10 m.value)

/-- The lower bound of a tight enclosure of a decimal logarithm, rounded to a double. -/
theorem approximates_nearestDouble (hm : m ≠ .zero) (hw : 128 ≤ w) {x : Enclosure}
    (hx : Enclosure.IsTight (2 ^ 29) x (Real.logb 10 m.value * 2 ^ w)) :
    Approximates (2 ^ (-40 : ℤ)) (Enclosure.nearestDouble w x.lo) (Real.logb 10 m.value) := by
  have hscale : (0 : ℝ) < 2 ^ w := by positivity
  have hclose : |(x.lo : ℝ) / (Nat.pow 2 w : ℕ) - Real.logb 10 m.value| ≤ 2 ^ (-41 : ℤ) := by
    have hsplit : (x.lo : ℝ) / (Nat.pow 2 w : ℕ) - Real.logb 10 m.value =
        (x.lo - Real.logb 10 m.value * 2 ^ w) / 2 ^ w := by
      rw [Nat.pow_eq, sub_div, mul_div_cancel_right₀ _ hscale.ne']
      push_cast
      rfl
    rw [hsplit, abs_div, abs_of_pos hscale, div_le_iff₀ hscale]
    calc |(x.lo : ℝ) - Real.logb 10 m.value * 2 ^ w| ≤ 2 ^ 29 := hx.isWithin.1
      _ ≤ 2 ^ (-41 : ℤ) * 2 ^ 128 := by norm_num
      _ ≤ 2 ^ (-41 : ℤ) * 2 ^ w := by
          gcongr
          norm_num
  have hsize : |(x.lo : ℝ) / (Nat.pow 2 w : ℕ)| ≤ 2 ^ (11 : ℤ) := by
    calc _ ≤ |Real.logb 10 m.value| + 2 ^ (-41 : ℤ) := abs_le_add_of_abs_sub_le hclose
      _ ≤ 1127 + 2 ^ (-41 : ℤ) := add_le_add_left (Magnitude.abs_logb_value_le hm) _
      _ ≤ 2 ^ (11 : ℤ) := by norm_num
  refine (approximates_ofQuotient (Nat.two_pow_pos w) (by norm_num) (by norm_num) hsize
    hclose).mono ?_
  norm_num

/-- The decimal logarithm, at whichever precision it is rounded, is accurate. -/
theorem approximates_settle (hm : m ≠ .zero) :
    Approximates (2 ^ (-40 : ℤ)) (settle m (encloseLog10? m) precisions)
      (Real.logb 10 m.value) := by
  have hne : precisions ≠ [] := List.cons_ne_nil _ _
  obtain ⟨precision, hmem, x, htight, heq⟩ :=
    exists_settle_eq hne fun precision hmem => exists_encloseLog10?_width hm hmem
  rw [heq]
  exact approximates_nearestDouble hm (Nat.le_of_add_right_le (width_bounds hmem).1) htight

/-- **The decimal logarithm is accurate.** -/
theorem isDecimalLogarithm_log10 : IsDecimalLogarithm log10 := by
  refine ⟨fun m hzero hinfinity => ?_⟩
  rw [log10, if_neg hzero, if_neg Bool.false_ne_true, if_neg hinfinity]
  split
  · rename_i hone
    refine ⟨0, ⟨false, .zero, rfl, by decide, Magnitude.value_zero.symm⟩, ?_⟩
    rw [hone, logb_value_one, Rat.cast_zero, sub_zero, abs_zero]
    positivity
  · exact approximates_settle hzero

/-- **The decimal logarithm is correctly rounded** where its enclosures settle. -/
theorem rounds_log10 (hzero : m ≠ .zero) (hinfinity : m ≠ .infinity)
    (h : Settles m (encloseLog10? m) precisions) :
    (log10 (.signed false m)).Rounds (Real.logb 10 m.value) := by
  rw [log10, if_neg hzero, if_neg Bool.false_ne_true, if_neg hinfinity]
  split
  · rename_i hone
    rw [hone, logb_value_one]
    exact ⟨0, 0, 1, 1, ⟨one_pos, one_pos⟩, by norm_num, rfl, rfl⟩
  · refine rounds_settle (fun precision hmem x hx => ?_) h
    obtain ⟨y, hy, htight⟩ := exists_encloseLog10?_width hzero hmem
    obtain rfl : y = x := Option.some.inj (hy.symm.trans hx)
    exact htight.encloses

/-- The decimal logarithm of two is the double nearest to it. -/
theorem rounds_logTwo : logTwo.Rounds (Real.logb 10 2) := by
  have htwo : ((Magnitude.nearest 2 1).value : ℝ) = 2 := by
    rw [Magnitude.value_nearest_one (by decide)]
    norm_num
  have hsettles : Settles (.nearest 2 1) (encloseLog10? (.nearest 2 1)) precisions :=
    ⟨64, List.mem_cons_self, (encloseLog10? (.nearest 2 1) (width (.nearest 2 1) 64)).get
      (by decide +kernel), (Option.some_get _).symm, by decide +kernel⟩
  have heq : log10 (.signed false (.nearest 2 1)) = logTwo := by decide +kernel
  rw [← heq, ← htwo]
  exact rounds_log10 (by decide +kernel) (by decide +kernel) hsettles

/-! ### Logarithms of results -/

section Results

variable {x : Double} {a b e r : ℝ}

/-- A logarithm exceeds another one by the relative difference at most. -/
theorem logb_sub_logb_le (ha : 0 < a) (hb : 0 < b) :
    Real.logb 10 a - Real.logb 10 b ≤ |a - b| / b := by
  have hratio : Real.log a - Real.log b ≤ |a - b| / b := by
    rw [← Real.log_div ha.ne' hb.ne']
    calc Real.log (a / b) ≤ a / b - 1 := Real.log_le_sub_one_of_pos (div_pos ha hb)
      _ = (a - b) / b := by rw [sub_div, div_self hb.ne']
      _ ≤ |a - b| / b := div_le_div_of_nonneg_right (le_abs_self _) hb.le
  have hten := Enclosure.two_le_log_ten
  rw [Real.logb, Real.logb, ← sub_div, div_le_iff₀ (by linarith)]
  refine hratio.trans (le_mul_of_one_le_right (div_nonneg (abs_nonneg _) hb.le) (by linarith))

/-- Logarithms of close numbers are close. -/
theorem abs_logb_sub_logb_le (hab : |a - b| ≤ e) (he : e < b) :
    |Real.logb 10 a - Real.logb 10 b| ≤ e / (b - e) := by
  obtain ⟨hlow, -⟩ := abs_le.1 hab
  have he0 : 0 ≤ e := (abs_nonneg _).trans hab
  have hleast : 0 < b - e := sub_pos.2 he
  have ha : 0 < a := by linarith
  have hb : 0 < b := by linarith
  refine abs_sub_le_iff.2 ⟨(logb_sub_logb_le ha hb).trans ?_, (logb_sub_logb_le hb ha).trans ?_⟩
  · exact div_le_div₀ he0 hab hleast (by linarith)
  · rw [abs_sub_comm]
    exact div_le_div₀ he0 hab hleast (by linarith)

/-- The decimal logarithm of a double close to a positive number is close to that of the number. -/
theorem IsDecimalLogarithm.approximates {log10 : Double → Double} (h : IsDecimalLogarithm log10)
    (hx : Approximates e x r) (he : e < r) :
    Approximates (2 ^ (-40 : ℤ) + e / (r - e)) (log10 x) (Real.logb 10 r) := by
  obtain ⟨q, ⟨negative, m, rfl, hfinite, rfl⟩, herror⟩ := hx
  have hpos : (0 : ℝ) < signedValue negative m.value := by
    obtain ⟨hlow, -⟩ := abs_le.1 herror
    linarith
  rw [Rat.cast_pos] at hpos
  have hsign : negative = false := by
    by_contra hminus
    rw [signedValue, if_pos (Bool.eq_true_of_not_eq_false hminus)] at hpos
    exact absurd m.value_nonneg (not_le.2 (neg_pos.1 hpos))
  subst hsign
  have hzero : m ≠ .zero := by
    rintro rfl
    rw [signedValue, Magnitude.value_zero] at hpos
    exact absurd hpos (lt_irrefl _)
  exact (h.approximates_logb m hzero hfinite).trans (abs_logb_sub_logb_le herror he)

end Results

end Double

end SplitCalc
