import Mathlib.Analysis.SpecialFunctions.Sqrt
import SplitCalc.Double.Elementary
import SplitCalc.Proofs.DoubleArithmetic

/-!
# The square root of doubles

The integer root of the widened significand has 56 bits or more, and twice it with the sticky bit
behind it is odd when the root is not exact. The exact root then lies strictly between the two
integers next to it, which are even. The numbers half way between neighbouring doubles are even
multiples of the same power of two, so none of them lies there, and all that does is rounded alike
(`Magnitude.nearest_eq_of_odd`). The square root is therefore correctly rounded
(`Double.rounds_sqrt`).
-/

namespace SplitCalc

namespace Magnitude

variable {num den j : ℕ} {place : ℤ}

/-! ### The sticky bit -/

/-- An odd number is off the multiples of a power of two by less than half of it, and so are the
numbers next to it. -/
theorem abs_sub_mul_two_pow_lt {k e : ℕ} {q : ℚ} (hodd : j % 2 = 1)
    (hk : |(j : ℚ) - k * 2 ^ (e + 2)| ≤ 2 ^ (e + 1)) (hq : |q - j| < 1) :
    |q - k * 2 ^ (e + 2)| < 2 ^ (e + 1) := by
  have hle : |(j : ℤ) - k * 2 ^ (e + 2)| ≤ 2 ^ (e + 1) := by exact_mod_cast hk
  have hsplit : (k : ℤ) * 2 ^ (e + 2) = 4 * (k * 2 ^ e) := by ring
  have hsplit' : (2 : ℤ) ^ (e + 1) = 2 * 2 ^ e := by ring
  -- the multiple and half of the power are even
  have hlt : |(j : ℤ) - k * 2 ^ (e + 2)| ≤ 2 ^ (e + 1) - 1 := by
    rw [hsplit, hsplit'] at hle ⊢
    obtain ⟨hlow, hhigh⟩ := abs_le.1 hle
    generalize (k : ℤ) * 2 ^ e = c at *
    generalize (2 : ℤ) ^ e = c' at *
    exact abs_le.2 ⟨by omega, by omega⟩
  have hlt' : |(j : ℚ) - k * 2 ^ (e + 2)| ≤ 2 ^ (e + 1) - 1 := by exact_mod_cast hlt
  calc |q - k * 2 ^ (e + 2)| ≤ |q - j| + |(j : ℚ) - k * 2 ^ (e + 2)| := abs_sub_le _ _ _
    _ < 1 + (2 ^ (e + 1) - 1) := add_lt_add_of_lt_of_le hq hlt'
    _ = 2 ^ (e + 1) := by ring

/-- The last place of a large odd number, scaled, is that of the numbers next to it as well. -/
theorem isLastPlace_of_odd {q : ℚ} {last : ℤ} (hodd : j % 2 = 1) (hbits : 2 ^ 56 ≤ j)
    (hlast : IsLastPlace (j * 2 ^ place) last) (hq : |q - j| < 1) :
    place + 2 ≤ last ∧ IsLastPlace (q * 2 ^ place) last := by
  have hfraction : (fractionBits : ℤ) = 52 := rfl
  have hbelow : (j : ℚ) < 2 ^ (last - place + 53) := by
    have hlt := hlast.lt
    rw [hfraction, show last + 52 + 1 = last - place + 53 + place by ring,
      zpow_add₀ (by norm_num) _ place] at hlt
    exact lt_of_mul_lt_mul_right hlt (two_zpow_pos place).le
  have hdigits : 3 < last - place := by
    have hpower : (2 : ℚ) ^ (56 : ℤ) < 2 ^ (last - place + 53) :=
      lt_of_le_of_lt (by exact_mod_cast hbits) hbelow
    rw [zpow_lt_zpow_iff_right₀ (by norm_num)] at hpower
    omega
  obtain ⟨d, rfl⟩ : ∃ d : ℕ, last = place + d := ⟨(last - place).toNat, by omega⟩
  obtain ⟨hlow, hhigh⟩ := abs_lt.1 hq
  refine ⟨by omega, hlast.leastPlace_le, ?_, fun hne => ?_⟩
  · rw [hfraction, show place + (d : ℤ) + 52 + 1 = ((d + 53 : ℕ) : ℤ) + place by push_cast; ring,
      zpow_add₀ (by norm_num), zpow_natCast]
    refine mul_lt_mul_of_pos_right ?_ (two_zpow_pos place)
    have hnext : j + 1 ≤ 2 ^ (d + 53) := by
      rw [show place + (d : ℤ) - place + 53 = ((d + 53 : ℕ) : ℤ) by push_cast; ring,
        zpow_natCast] at hbelow
      exact_mod_cast hbelow
    have hnext' : (j : ℚ) + 1 ≤ 2 ^ (d + 53) := by exact_mod_cast hnext
    linarith
  · have hle := hlast.le hne
    rw [hfraction, show place + (d : ℤ) + 52 = ((d + 52 : ℕ) : ℤ) + place by push_cast; ring,
      zpow_add₀ (by norm_num), zpow_natCast] at hle ⊢
    refine mul_le_mul_of_nonneg_right ?_ (two_zpow_pos place).le
    have hfirst : 2 ^ (d + 52) ≤ j := by
      exact_mod_cast le_of_mul_le_mul_right hle (two_zpow_pos place)
    -- the power of two is even, so that the odd number is not equal to it
    have hprevious : 2 ^ (d + 52) + 1 ≤ j := by
      rw [pow_succ] at hfirst ⊢
      omega
    have hprevious' : (2 : ℚ) ^ (d + 52) + 1 ≤ j := by exact_mod_cast hprevious
    linarith

/-- A number in units of a place two or more places up, compared with an integer. -/
theorem abs_scaled_sub {q : ℚ} {e k : ℕ} :
    |q * 2 ^ place * 2 ^ (-(place + (e + 2 : ℕ))) - k| = |q - k * 2 ^ (e + 2)| / 2 ^ (e + 2) := by
  have hpower : (0 : ℚ) < 2 ^ (e + 2) := by positivity
  have hscaled : q * 2 ^ place * 2 ^ (-(place + (e + 2 : ℕ))) = q / 2 ^ (e + 2) := by
    rw [mul_assoc, ← zpow_add₀ (by norm_num), show place + -(place + ((e + 2 : ℕ) : ℤ)) =
      -((e + 2 : ℕ) : ℤ) by ring, zpow_neg, zpow_natCast, div_eq_mul_inv]
  rw [hscaled, ← abs_of_pos hpower, ← abs_div, abs_of_pos hpower, sub_div,
    mul_div_cancel_right₀ _ hpower.ne']

/-- A quotient that is a positive number, scaled, has a positive numerator. -/
theorem num_pos_of_div_eq {q : ℚ} (h : (num / den : ℚ) = q * 2 ^ place) (hq : 0 < q) :
    0 < num := by
  refine Nat.pos_of_ne_zero ?_
  rintro rfl
  rw [Nat.cast_zero, zero_div] at h
  exact absurd h (mul_pos hq (two_zpow_pos place)).ne

/-- **The sticky bit.** A number next to a large odd one, scaled, is rounded as the odd one is. -/
theorem nearest_eq_of_odd {num' den' : ℕ} {q : ℚ} (hden : 0 < den) (hden' : 0 < den')
    (hodd : j % 2 = 1) (hbits : 2 ^ 56 ≤ j) (hj : (num' / den' : ℚ) = j * 2 ^ place)
    (hq : (num / den : ℚ) = q * 2 ^ place) (hnext : |q - j| < 1) :
    nearest num den = nearest num' den' := by
  have hj0 : (1 : ℚ) < j := by exact_mod_cast (show 1 < 2 ^ 56 by norm_num).trans_le hbits
  have hq0 : 0 < q := by
    obtain ⟨hlow, -⟩ := abs_lt.1 hnext
    linarith
  have hnum := num_pos_of_div_eq hq hq0
  have hnum' := num_pos_of_div_eq hj (zero_lt_one.trans hj0)
  have hlast := isLastPlace_lastPlace hnum' hden'
  generalize lastPlace num' den' = last at hlast
  have hlastOdd := hlast
  rw [hj] at hlastOdd
  obtain ⟨hplaces, hlast'⟩ := isLastPlace_of_odd hodd hbits hlastOdd hnext
  rw [← hq] at hlast'
  obtain ⟨e, rfl⟩ : ∃ e : ℕ, last = place + (e + 2 : ℕ) := ⟨(last - place - 2).toNat, by omega⟩
  have hpower : (0 : ℚ) < 2 ^ (e + 2) := by positivity
  have hhalf : (2 : ℚ) ^ (e + 1) = 1 / 2 * 2 ^ (e + 2) := by ring
  have herror : |(num' / den' : ℚ) * 2 ^ (-(place + (e + 2 : ℕ))) -
      (roundShifted 2 (-(place + (e + 2 : ℕ))) num' den' : ℚ)| ≤ 1 / 2 := by
    rw [← shifted_div]
    exact abs_sub_roundHalfEven_le_half (shiftedDen_pos (by norm_num) _ hden')
  rw [hj, abs_scaled_sub, div_le_iff₀ hpower, ← hhalf] at herror
  have hdigits : roundShifted 2 (-(place + (e + 2 : ℕ))) num den =
      roundShifted 2 (-(place + (e + 2 : ℕ))) num' den' := by
    refine roundHalfEven_eq_of_abs_sub_lt (shiftedDen_pos (by norm_num) _ hden) ?_
    rw [shifted_div, hq, abs_scaled_sub, div_lt_iff₀ hpower, ← hhalf]
    exact abs_sub_mul_two_pow_lt hodd herror hnext
  refine Magnitude.ext ?_
  rw [rank_nearest hnum hden hlast', rank_nearest hnum' hden' hlast, hdigits]

end Magnitude

namespace Double

variable {m : Magnitude} {r : ℝ} {j : ℕ} {place : ℤ}

/-! ### Rounding next to an odd number -/

/-- The quotient of a shifted integer is the integer times the power of two. -/
theorem shifted_one_div (place : ℤ) (j : ℕ) :
    ((shiftedNum 2 place j : ℕ) : ℚ) / (shiftedDen 2 place 1 : ℕ) = j * 2 ^ place := by
  rw [shiftedNum_div_shiftedDen (by norm_num), Nat.cast_one, div_one]
  rfl

/-- The double nearest to a shifted integer. -/
def nearestShifted (place : ℤ) (j : ℕ) : Double :=
  .signed false (.nearest (shiftedNum 2 place j) (shiftedDen 2 place 1))

/-- An exact multiple of a power of two rounds to its nearest double. -/
theorem rounds_of_eq (hr : r = j * 2 ^ place) : (nearestShifted place j).Rounds r := by
  have hden : 0 < shiftedDen 2 place 1 := shiftedDen_pos (by norm_num) _ one_pos
  have hvalue : (((shiftedNum 2 place j : ℕ) : ℤ) : ℝ) / (shiftedDen 2 place 1 : ℕ) = r := by
    have hcast := congrArg (Rat.cast (K := ℝ)) (shifted_one_div place j)
    rw [Rat.cast_div, Rat.cast_mul, Rat.cast_natCast, Rat.cast_natCast, Rat.cast_natCast,
      ← two_zpow_eq_cast] at hcast
    rw [hr, Int.cast_natCast, hcast]
  exact ⟨(shiftedNum 2 place j : ℕ), (shiftedNum 2 place j : ℕ), _, _, ⟨hden, hden⟩,
    ⟨hvalue.le, hvalue.ge⟩, ofQuotient_natCast _ _, ofQuotient_natCast _ _⟩

/-- A rational number next to a large odd one is rounded as that one is. -/
theorem ofQuotient_of_odd {q : ℚ} (hodd : j % 2 = 1) (hbits : 2 ^ 56 ≤ j)
    (hlow : ((j : ℝ) - 1) * 2 ^ place < q) (hhigh : (q : ℝ) < (j + 1) * 2 ^ place) :
    ofQuotient q.num q.den = nearestShifted place j := by
  rw [two_zpow_eq_cast] at hlow hhigh
  replace hlow : (j - 1) * 2 ^ place < q := by exact_mod_cast hlow
  replace hhigh : q < (j + 1) * 2 ^ place := by exact_mod_cast hhigh
  have hone : (1 : ℚ) ≤ j := by exact_mod_cast (show 1 ≤ 2 ^ 56 by norm_num).trans hbits
  have hpos : 0 < q := (mul_nonneg (sub_nonneg.2 hone) (two_zpow_pos place).le).trans_lt hlow
  obtain ⟨k, hk⟩ : ∃ k : ℕ, q.num = k := ⟨q.num.natAbs, (Int.natAbs_of_nonneg
    (Rat.num_nonneg.2 hpos.le)).symm⟩
  have hvalue : (k / q.den : ℚ) = q := by
    have hself := q.num_div_den
    rwa [hk] at hself
  have hscaled : (k / q.den : ℚ) = q / 2 ^ place * 2 ^ place := by
    rw [hvalue, div_mul_cancel₀ _ (two_zpow_pos place).ne']
  have hnext : |q / 2 ^ place - j| < 1 := by
    rw [← lt_div_iff₀ (two_zpow_pos place)] at hlow
    rw [← div_lt_iff₀ (two_zpow_pos place)] at hhigh
    exact abs_lt.2 ⟨by linarith, by linarith⟩
  rw [hk, ofQuotient_natCast, nearestShifted, Magnitude.nearest_eq_of_odd q.den_pos
    (shiftedDen_pos (by norm_num) _ one_pos) hodd hbits (shifted_one_div place j) hscaled hnext]

/-- A real number next to a large odd one rounds as that one does. -/
theorem rounds_of_odd (hodd : j % 2 = 1) (hbits : 2 ^ 56 ≤ j) (hlow : (j - 1) * 2 ^ place < r)
    (hhigh : r < (j + 1) * 2 ^ place) : (nearestShifted place j).Rounds r := by
  obtain ⟨low, hlow', hlowr⟩ := exists_rat_btwn hlow
  obtain ⟨high, hrhigh, hhigh'⟩ := exists_rat_btwn hhigh
  refine ⟨low.num, high.num, low.den, high.den, ⟨low.den_pos, high.den_pos⟩, ⟨?_, ?_⟩,
    ofQuotient_of_odd hodd hbits hlow' (hlowr.trans hhigh),
    ofQuotient_of_odd hodd hbits (hlow.trans hrhigh) hhigh'⟩
  · rw [← Rat.cast_def]
    exact hlowr.le
  · rw [← Rat.cast_def]
    exact hrhigh.le

/-! ### The root -/

/-- The root of a magnitude from that of its widened significand. What is left of the exponent is
even, and half of it is the exponent of the root. -/
theorem sqrt_value (m : Magnitude) {widening : ℕ} (heven : (m.exponent - widening) % 2 = 0) :
    √(m.value : ℝ) =
      2 * √((m.significand * 2 ^ widening : ℕ) : ℝ) * 2 ^ ((m.exponent - widening) / 2 - 1) := by
  obtain ⟨half, hhalf⟩ : ∃ half, m.exponent - widening = half + half :=
    ⟨(m.exponent - widening) / 2, by omega⟩
  have hexponent : m.exponent = widening + (half + half) := by omega
  have hplace : (m.exponent - widening) / 2 = half := by omega
  have hvalue : (m.value : ℝ) = (m.significand * 2 ^ widening : ℕ) * ((2 : ℝ) ^ half) ^ 2 := by
    rw [Magnitude.value, hexponent, zpow_add₀ two_ne_zero, zpow_add₀ two_ne_zero, zpow_natCast]
    push_cast
    ring
  rw [hvalue, hplace, Real.sqrt_mul (Nat.cast_nonneg _), Real.sqrt_sq (by positivity),
    zpow_sub_one₀ two_ne_zero]
  ring

/-- The integer root of a widened significand has 56 bits or more. -/
theorem le_sqrt_widened (hzero : m ≠ .zero) {widening : ℕ} (hwidening : 110 ≤ widening) :
    2 ^ 55 ≤ Nat.sqrt (m.significand * 2 ^ widening) := by
  rw [Nat.le_sqrt']
  calc (2 ^ 55) ^ 2 = 1 * 2 ^ 110 := by norm_num
    _ ≤ m.significand * 2 ^ widening :=
        Nat.mul_le_mul (Magnitude.significand_pos hzero) (Nat.pow_le_pow_right two_pos hwidening)

/-- Twice a root lies between the even numbers next to its sticky form. -/
theorem two_mul_sqrt_bounds {square : ℕ} (hexact : Nat.sqrt square * Nat.sqrt square ≠ square) :
    ((2 * Nat.sqrt square + 1 : ℕ) : ℝ) - 1 < 2 * √(square : ℝ) ∧
      2 * √(square : ℝ) < ((2 * Nat.sqrt square + 1 : ℕ) : ℝ) + 1 := by
  have hlow : Nat.sqrt square * Nat.sqrt square < square :=
    lt_of_le_of_ne (Nat.sqrt_le square) hexact
  have hhigh : square < (Nat.sqrt square + 1) * (Nat.sqrt square + 1) := Nat.lt_succ_sqrt square
  have hlow' : (Nat.sqrt square : ℝ) < √(square : ℝ) := by
    rw [Real.lt_sqrt (Nat.cast_nonneg _), pow_two]
    exact_mod_cast hlow
  have hhigh' : √(square : ℝ) < Nat.sqrt square + 1 := by
    rw [Real.sqrt_lt' (by positivity), pow_two]
    exact_mod_cast hhigh
  push_cast
  exact ⟨by linarith, by linarith⟩

/-- **The square root is correctly rounded.** -/
theorem rounds_sqrt (hzero : m ≠ .zero) (hinfinity : m ≠ .infinity) :
    (sqrt (.signed false m)).Rounds √(m.value : ℝ) := by
  have hwidening : 110 ≤ 110 + (m.exponent % 2).toNat := Nat.le_add_right _ _
  have heven : (m.exponent - (110 + (m.exponent % 2).toNat : ℕ)) % 2 = 0 := by omega
  have hbits := le_sqrt_widened hzero hwidening
  rw [sqrt, if_neg hzero, if_neg Bool.false_ne_true, if_neg hinfinity, rootMagnitude,
    sqrt_value m heven]
  simp only [Nat.pow_eq]
  generalize m.significand * 2 ^ (110 + (m.exponent % 2).toNat) = square at *
  generalize (m.exponent - (110 + (m.exponent % 2).toNat : ℕ)) / 2 - 1 = place
  by_cases hexact : Nat.sqrt square * Nat.sqrt square = square
  · rw [if_pos hexact]
    refine rounds_of_eq ?_
    have hroot : √(square : ℝ) = Nat.sqrt square := by
      nth_rewrite 1 [← hexact]
      rw [Nat.cast_mul, Real.sqrt_mul_self (Nat.cast_nonneg _)]
    rw [hroot, Nat.cast_mul, Nat.cast_two]
  · obtain ⟨hlow, hhigh⟩ := two_mul_sqrt_bounds hexact
    have hpower : (0 : ℝ) < 2 ^ place := by positivity
    rw [if_neg hexact]
    exact rounds_of_odd (by omega) (by omega) (mul_lt_mul_of_pos_right hlow hpower)
      (mul_lt_mul_of_pos_right hhigh hpower)

end Double

end SplitCalc
