import Mathlib.Algebra.Order.Field.Power
import Mathlib.Tactic.Linarith
import Mathlib.Tactic.NormNum
import Mathlib.Tactic.Positivity
import Mathlib.Tactic.Ring
import SplitCalc.Double.Basic
import SplitCalc.Proofs.Rounding

/-!
# Rounding to a magnitude

A finite magnitude is a rational number (`Magnitude.value`). Infinity is counted among them as the
power of two that would come next, so that the values ascend with the ranks throughout.

Rounding is governed by the last place of a positive quotient: the power of two up to which its
digits are kept. Three conditions fix that place (`IsLastPlace`), so whoever knows them need not
follow how it is found. From there,

* rounding keeps the order of quotients (`Magnitude.rank_nearest_mono`), and so depends on their
  values only;
* the value of a magnitude is rounded to that magnitude (`Magnitude.nearest_of_eq_value`);
* so is every quotient that is closer to the value than one part in `2 ^ 54`
  (`Magnitude.nearest_of_abs_sub_lt`).

Very large and very small quotients follow from the order alone.
-/

namespace SplitCalc

/-! ### Powers of two -/

/-- Every power of two is positive. -/
theorem two_zpow_pos (k : ℤ) : (0 : ℚ) < 2 ^ k :=
  zpow_pos (by norm_num) k

/-- The hidden bit is the power of two behind which the fraction bits stand. -/
theorem hiddenBit_eq : (hiddenBit : ℚ) = 2 ^ (fractionBits : ℤ) := by
  rw [zpow_natCast]
  exact_mod_cast rfl

theorem hiddenBit_pos : 0 < hiddenBit := by
  decide

/-! ### Values -/

namespace Magnitude

/-- The rational number that a magnitude denotes; infinity counts as the next power of two. -/
def value (m : Magnitude) : ℚ :=
  m.significand * 2 ^ m.exponent

/-- The parts of a magnitude as a quotient make its value. -/
theorem num_div_den (m : Magnitude) : (m.num / m.den : ℚ) = m.value := by
  rw [num, den, shiftedNum_div_shiftedDen (by norm_num), Nat.cast_one, div_one, value]
  rfl

theorem den_pos (m : Magnitude) : 0 < m.den :=
  shiftedDen_pos (by norm_num) _ (by norm_num)

/-- A significand has at most one bit more than its fraction. -/
theorem significand_lt (m : Magnitude) : m.significand < 2 * hiddenBit := by
  have hrest : m.rank % hiddenBit < hiddenBit := Nat.mod_lt _ hiddenBit_pos
  rw [significand]
  split <;> omega

/-- No magnitude has a last place below the least one. -/
theorem leastPlace_le_exponent (m : Magnitude) : leastPlace ≤ m.exponent := by
  rw [exponent]
  split
  · exact le_rfl
  · have hpos : 0 < m.rank / hiddenBit := Nat.div_pos (by omega) hiddenBit_pos
    omega

/-- Above the least place a significand has its hidden bit. -/
theorem hiddenBit_le_significand {m : Magnitude} (h : m.exponent ≠ leastPlace) :
    hiddenBit ≤ m.significand := by
  rw [exponent] at h
  rw [significand]
  split
  · rw [if_pos ‹_›] at h
    exact absurd rfl h
  · omega

/-- The rank counts the places above the least one, and from there the significand. -/
theorem rank_eq (m : Magnitude) :
    m.rank = (m.exponent - leastPlace).toNat * hiddenBit + m.significand := by
  rw [exponent, significand]
  split
  · rw [sub_self, Int.toNat_zero, zero_mul, zero_add]
  · have hpos : 0 < m.rank / hiddenBit := Nat.div_pos (by omega) hiddenBit_pos
    have hplaces : (leastPlace + (m.rank / hiddenBit : ℕ) - 1 - leastPlace).toNat =
        m.rank / hiddenBit - 1 := by omega
    rw [hplaces, ← add_assoc, ← Nat.succ_mul, Nat.succ_eq_add_one, Nat.sub_add_cancel hpos,
      Nat.div_add_mod']

/-- A magnitude other than zero has a significand. -/
theorem significand_pos {m : Magnitude} (h : m ≠ zero) : 0 < m.significand := by
  refine Nat.pos_of_ne_zero fun hzero => h ?_
  have hplace : m.exponent = leastPlace := by
    by_contra hne
    have := hiddenBit_le_significand hne
    have := hiddenBit_pos
    omega
  refine Magnitude.ext ?_
  rw [m.rank_eq, hplace, hzero, sub_self]
  rfl

theorem value_nonneg (m : Magnitude) : 0 ≤ m.value :=
  mul_nonneg (Nat.cast_nonneg _) (two_zpow_pos _).le

theorem num_pos {m : Magnitude} (h : m ≠ zero) : 0 < m.num :=
  Nat.mul_pos (significand_pos h) (Nat.pow_pos (by norm_num))

/-- The value of a magnitude other than zero is positive. -/
theorem value_pos {m : Magnitude} (h : m ≠ zero) : 0 < m.value :=
  mul_pos (by exact_mod_cast significand_pos h) (two_zpow_pos _)

end Magnitude

/-! ### The last place -/

/-- The **last place** of a positive number: 53 bits from its first one, or the least place if
that is higher. -/
structure IsLastPlace (q : ℚ) (place : ℤ) : Prop where
  /-- No place is below the least one. -/
  leastPlace_le : leastPlace ≤ place
  /-- The first bit is at most 52 places higher. -/
  lt : q < 2 ^ (place + fractionBits + 1)
  /-- It is exactly so many places higher, unless the place is the least one. -/
  le : place ≠ leastPlace → 2 ^ (place + fractionBits) ≤ q

namespace IsLastPlace

variable {q q' : ℚ} {place place' : ℤ}

/-- A larger number has no lower last place. -/
theorem mono (h : IsLastPlace q place) (h' : IsLastPlace q' place') (hq : q ≤ q') :
    place ≤ place' := by
  by_contra hlt
  rw [not_le] at hlt
  have hhigher : place ≠ leastPlace := by
    have := h'.leastPlace_le
    omega
  have hpow : (2 : ℚ) ^ (place + fractionBits) < 2 ^ (place' + fractionBits + 1) :=
    ((h.le hhigher).trans hq).trans_lt h'.lt
  rw [zpow_lt_zpow_iff_right₀ (by norm_num)] at hpow
  omega

/-- A number has one last place. -/
theorem unique (h : IsLastPlace q place) (h' : IsLastPlace q place') : place = place' :=
  le_antisymm (h.mono h' le_rfl) (h'.mono h le_rfl)

/-- Counted in units of the last place, a number has at most 53 bits. -/
theorem mul_lt (h : IsLastPlace q place) : q * 2 ^ (-place) < 2 * hiddenBit := by
  have hlt := mul_lt_mul_of_pos_right h.lt (two_zpow_pos (-place))
  rw [← zpow_add₀ (by norm_num), show place + fractionBits + 1 + -place = fractionBits + 1 by ring,
    zpow_add_one₀ (by norm_num), ← hiddenBit_eq] at hlt
  linarith

/-- Above the least place it has exactly 53. -/
theorem le_mul (h : IsLastPlace q place) (hplace : place ≠ leastPlace) :
    (hiddenBit : ℚ) ≤ q * 2 ^ (-place) := by
  have hle := mul_le_mul_of_nonneg_right (h.le hplace) (two_zpow_pos (-place)).le
  rwa [← zpow_add₀ (by norm_num), show place + fractionBits + -place = fractionBits by ring,
    ← hiddenBit_eq] at hle

end IsLastPlace

/-- The last place of a number from its digits in units of that place. -/
theorem isLastPlace_of_mul {q : ℚ} {place : ℤ} (hplace : leastPlace ≤ place)
    (hlt : q * 2 ^ (-place) < 2 * hiddenBit)
    (hle : place ≠ leastPlace → (hiddenBit : ℚ) ≤ q * 2 ^ (-place)) : IsLastPlace q place := by
  have hback : q = q * 2 ^ (-place) * 2 ^ place := by
    rw [mul_assoc, ← zpow_add₀ (by norm_num), neg_add_cancel, zpow_zero, mul_one]
  refine ⟨hplace, ?_, fun hne => ?_⟩
  · calc q = q * 2 ^ (-place) * 2 ^ place := hback
      _ < 2 * hiddenBit * 2 ^ place := mul_lt_mul_of_pos_right hlt (two_zpow_pos place)
      _ = 2 ^ (place + fractionBits + 1) := by
          rw [zpow_add_one₀ (by norm_num), zpow_add₀ (by norm_num), hiddenBit_eq]
          ring
  · calc (2 : ℚ) ^ (place + fractionBits) = hiddenBit * 2 ^ place := by
          rw [zpow_add₀ (by norm_num), hiddenBit_eq, mul_comm]
      _ ≤ q * 2 ^ (-place) * 2 ^ place :=
          mul_le_mul_of_nonneg_right (hle hne) (two_zpow_pos place).le
      _ = q := hback.symm

namespace Magnitude

variable {num den num' den' : ℕ}

/-- The place that is computed is the last place. -/
theorem isLastPlace_lastPlace (hnum : 0 < num) (hden : 0 < den) :
    IsLastPlace (num / den) (lastPlace num den) := by
  obtain ⟨hlow, hhigh⟩ := binaryExponent_bounds hnum hden
  rw [lastPlace]
  refine ⟨le_max_right _ _, hhigh.trans_le ?_, fun hne => ?_⟩
  · refine zpow_le_zpow_right₀ (by norm_num) ?_
    have := le_max_left (quotientExponent 2 (Nat.log2 num - Nat.log2 den) num den - fractionBits)
      leastPlace
    omega
  · refine le_trans (zpow_le_zpow_right₀ (by norm_num) ?_) hlow
    omega

/-! ### Rounding -/

/-- A quotient in units of a place, as the quotient that is rounded to an integer. -/
theorem shifted_div (place : ℤ) (num den : ℕ) :
    (shiftedNum 2 (-place) num / shiftedDen 2 (-place) den : ℚ) = num / den * 2 ^ (-place) := by
  rw [shiftedNum_div_shiftedDen (by norm_num)]
  rfl

/-- A positive quotient is rounded at its last place. -/
theorem rank_nearest (hnum : 0 < num) (hden : 0 < den) {place : ℤ}
    (hplace : IsLastPlace (num / den) place) :
    (nearest num den).rank =
      min ((place - leastPlace).toNat * hiddenBit + roundShifted 2 (-place) num den)
        infinityRank := by
  rw [← (isLastPlace_lastPlace hnum hden).unique hplace, nearest, if_neg hnum.ne']

section Digits

variable {place : ℤ} (hden : 0 < den) (hplace : IsLastPlace (num / den) place)
include hden hplace

/-- The digits of a rounded quotient have at most 53 bits, or they are the first number with one
bit more. -/
theorem roundShifted_le : roundShifted 2 (-place) num den ≤ 2 * hiddenBit := by
  refine roundHalfEven_le (shiftedDen_pos (by norm_num) _ hden) ?_
  rw [shifted_div]
  exact_mod_cast hplace.mul_lt.le

/-- Above the least place the digits of a rounded quotient have at least 53 bits. -/
theorem hiddenBit_le_roundShifted (hne : place ≠ leastPlace) :
    hiddenBit ≤ roundShifted 2 (-place) num den := by
  refine le_roundHalfEven (shiftedDen_pos (by norm_num) _ hden) ?_
  rw [shifted_div]
  exact hplace.le_mul hne

end Digits

/-- **Rounding to a magnitude keeps the order** of quotients. -/
theorem rank_nearest_mono (hden : 0 < den) (hden' : 0 < den')
    (h : (num / den : ℚ) ≤ num' / den') : (nearest num den).rank ≤ (nearest num' den').rank := by
  rcases Nat.eq_zero_or_pos num with rfl | hnum
  · rw [nearest, if_pos rfl]
    exact Nat.zero_le _
  have hpos : (0 : ℚ) < num' / den' :=
    (div_pos (by exact_mod_cast hnum) (by exact_mod_cast hden)).trans_le h
  have hnum' : 0 < num' := by
    refine Nat.pos_of_ne_zero ?_
    rintro rfl
    simp at hpos
  have hplace := isLastPlace_lastPlace hnum hden
  have hplace' := isLastPlace_lastPlace hnum' hden'
  rw [rank_nearest hnum hden hplace, rank_nearest hnum' hden' hplace']
  refine min_le_min_right _ ?_
  generalize lastPlace num den = place at hplace ⊢
  generalize lastPlace num' den' = place' at hplace' ⊢
  rcases (hplace.mono hplace' h).eq_or_lt with rfl | hlt
  · -- at one place the digits decide
    refine Nat.add_le_add_left (roundHalfEven_mono ?_ ?_ ?_) _
    · exact shiftedDen_pos (by norm_num) _ hden
    · exact shiftedDen_pos (by norm_num) _ hden'
    · rw [shifted_div, shifted_div]
      exact mul_le_mul_of_nonneg_right h (two_zpow_pos _).le
  · -- a higher place makes up for any digits
    have hleast := hplace.leastPlace_le
    have hdigits := roundShifted_le hden hplace
    have hdigits' := hiddenBit_le_roundShifted hden' hplace' (by omega)
    have hplaces : (place - leastPlace).toNat + 1 ≤ (place' - leastPlace).toNat := by omega
    have hmul := Nat.mul_le_mul_right hiddenBit hplaces
    rw [Nat.succ_mul] at hmul
    omega

/-- Rounding depends on the value of a quotient only. -/
theorem nearest_congr (hden : 0 < den) (hden' : 0 < den') (h : (num / den : ℚ) = num' / den') :
    nearest num den = nearest num' den' :=
  Magnitude.ext <|
    le_antisymm (rank_nearest_mono hden hden' h.le) (rank_nearest_mono hden' hden h.ge)

/-! ### Quotients close to a magnitude -/

/-- A quotient is rounded to the magnitude whose rank its place and its digits make. -/
theorem nearest_of_digits {m : Magnitude} {place : ℤ} {k : ℕ} (hnum : 0 < num) (hden : 0 < den)
    (hplace : IsLastPlace (num / den) place) (hk : |num / den * 2 ^ (-place) - (k : ℚ)| < 1 / 2)
    (hrank : m.rank = (place - leastPlace).toNat * hiddenBit + k) : nearest num den = m := by
  have hdigits : roundShifted 2 (-place) num den = k := by
    refine roundHalfEven_eq_of_abs_sub_lt (shiftedDen_pos (by norm_num) _ hden) ?_
    rwa [shifted_div]
  refine Magnitude.ext ?_
  rw [rank_nearest hnum hden hplace, hdigits, ← hrank, min_eq_left m.rank_le]

/-- A quotient is rounded to a magnitude if in units of its last place it differs from the
significand by less than half a unit, and that place is its last one too. -/
theorem nearest_of_significand {m : Magnitude} (hnum : 0 < num) (hden : 0 < den)
    (hplace : IsLastPlace (num / den) m.exponent)
    (h : |num / den * 2 ^ (-m.exponent) - (m.significand : ℚ)| < 1 / 2) : nearest num den = m :=
  nearest_of_digits hnum hden hplace h m.rank_eq

/-- Below a power of two the last place is one lower. A quotient is rounded up to the power if in
units of its own last place it is less than half a unit away. -/
theorem nearest_of_below {m : Magnitude} (hnum : 0 < num) (hden : 0 < den)
    (hplace : IsLastPlace (num / den) (m.exponent - 1)) (hpower : m.significand = hiddenBit)
    (h : |num / den * 2 ^ (-(m.exponent - 1)) - ((2 * hiddenBit : ℕ) : ℚ)| < 1 / 2) :
    nearest num den = m := by
  refine nearest_of_digits hnum hden hplace h ?_
  have hleast := hplace.leastPlace_le
  have hplaces : (m.exponent - leastPlace).toNat = (m.exponent - 1 - leastPlace).toNat + 1 := by
    omega
  rw [m.rank_eq, hplaces, hpower, Nat.succ_mul, two_mul, add_assoc]

/-- **A quotient next to a magnitude** is rounded to it: it may differ by less than one part in
`2 ^ 54`. -/
theorem nearest_of_abs_sub_lt {m : Magnitude} (hden : 0 < den)
    (h : |(num / den : ℚ) - m.value| * 2 ^ 54 < m.value) : nearest num den = m := by
  have hvalue : 0 < m.value := lt_of_le_of_lt (by positivity) h
  have hnum : 0 < num := by
    refine Nat.pos_of_ne_zero ?_
    rintro rfl
    rw [Nat.cast_zero, zero_div, zero_sub, abs_neg, abs_of_pos hvalue] at h
    linarith
  -- the quotient and the error in units of the last place of the magnitude
  have hdigits : m.value * 2 ^ (-m.exponent) = m.significand := by
    rw [value, mul_assoc, ← zpow_add₀ (by norm_num), add_neg_cancel, zpow_zero, mul_one]
  have herror : |num / den * 2 ^ (-m.exponent) - (m.significand : ℚ)| * 2 ^ 54 < m.significand := by
    rw [← hdigits, ← sub_mul, abs_mul, abs_of_pos (two_zpow_pos _), mul_right_comm]
    exact mul_lt_mul_of_pos_right h (two_zpow_pos _)
  have hbit : (hiddenBit : ℚ) = 4503599627370496 := by
    rw [hiddenBit_eq]
    norm_num [fractionBits]
  have hsignificand : (m.significand : ℚ) + 1 ≤ 2 * hiddenBit := by exact_mod_cast m.significand_lt
  have hhalf : |num / den * 2 ^ (-m.exponent) - (m.significand : ℚ)| < 1 / 2 := by linarith
  obtain ⟨hlow, hhigh⟩ := abs_lt.1 hhalf
  by_cases hbelow : m.exponent ≠ leastPlace ∧ num / den * 2 ^ (-m.exponent) < (hiddenBit : ℚ)
  · obtain ⟨hexponent, hlt⟩ := hbelow
    have hpower : m.significand = hiddenBit := by
      have hle : (m.significand : ℚ) < hiddenBit + 1 := by linarith
      exact le_antisymm (Nat.lt_succ_iff.1 (by exact_mod_cast hle))
        (hiddenBit_le_significand hexponent)
    -- one place lower, everything is counted twice
    have hdouble : (num / den * 2 ^ (-(m.exponent - 1)) : ℚ) =
        2 * (num / den * 2 ^ (-m.exponent)) := by
      rw [neg_sub, sub_eq_add_neg, zpow_one_add₀ (by norm_num)]
      ring
    have hleast := m.leastPlace_le_exponent
    rw [hpower] at herror hlow
    refine nearest_of_below hnum hden (isLastPlace_of_mul (by omega) ?_ fun _ => ?_) hpower ?_
    · rw [hdouble]
      linarith
    · rw [hdouble]
      linarith
    · rw [hdouble, Nat.cast_mul, Nat.cast_ofNat, ← mul_sub, abs_mul, abs_of_pos (by norm_num)]
      linarith
  · refine nearest_of_significand hnum hden ?_ hhalf
    refine isLastPlace_of_mul m.leastPlace_le_exponent (by linarith) fun hexponent => ?_
    exact le_of_not_gt fun hlt => hbelow ⟨hexponent, hlt⟩

/-- **The value of a magnitude** is rounded to that magnitude. -/
theorem nearest_of_eq_value {m : Magnitude} (hden : 0 < den) (h : (num / den : ℚ) = m.value) :
    nearest num den = m := by
  by_cases hzero : m = zero
  · have hnum : num = 0 := by
      have hvalue : zero.value = 0 := by decide +kernel
      rw [hzero, hvalue, div_eq_zero_iff] at h
      exact_mod_cast h.resolve_right (by exact_mod_cast hden.ne')
    rw [nearest, if_pos hnum, hzero]
  · refine nearest_of_abs_sub_lt hden ?_
    rw [h, sub_self, abs_zero, zero_mul]
    exact value_pos hzero

/-! ### Very large and very small quotients -/

/-- Infinity counts as the power of two behind all finite magnitudes. -/
theorem value_infinity : infinity.value = 2 ^ (1024 : ℤ) := by
  have hsignificand : infinity.significand = hiddenBit := by decide +kernel
  have hexponent : infinity.exponent = 1024 - fractionBits := by decide +kernel
  rw [value, hsignificand, hexponent, hiddenBit_eq, ← zpow_add₀ (by norm_num),
    add_sub_cancel]

/-- A quotient from the value of infinity on is rounded to infinity. -/
theorem nearest_eq_infinity (hden : 0 < den) (h : (2 : ℚ) ^ (1024 : ℤ) ≤ num / den) :
    nearest num den = infinity := by
  have hmono : (nearest infinity.num infinity.den).rank ≤ (nearest num den).rank := by
    refine rank_nearest_mono infinity.den_pos hden ?_
    rwa [num_div_den, value_infinity]
  rw [nearest_of_eq_value infinity.den_pos infinity.num_div_den] at hmono
  exact Magnitude.ext (le_antisymm (nearest num den).rank_le hmono)

/-- A quotient up to half of the least magnitude is rounded to zero. -/
theorem nearest_eq_zero (hden : 0 < den) (h : (num / den : ℚ) ≤ 2 ^ (leastPlace - 1)) :
    nearest num den = zero := by
  rcases Nat.eq_zero_or_pos num with rfl | hnum
  · rw [nearest, if_pos rfl]
  have hunits : num / den * 2 ^ (-leastPlace) ≤ (1 / 2 : ℚ) := by
    calc num / den * 2 ^ (-leastPlace) ≤ (2 : ℚ) ^ (leastPlace - 1) * 2 ^ (-leastPlace) :=
          mul_le_mul_of_nonneg_right h (two_zpow_pos _).le
      _ = 1 / 2 := by
          rw [← zpow_add₀ (by norm_num), show leastPlace - 1 + -leastPlace = -1 by ring]
          norm_num
  have hbit : (1 : ℚ) ≤ hiddenBit := by exact_mod_cast hiddenBit_pos
  have hplace : IsLastPlace (num / den) leastPlace :=
    isLastPlace_of_mul le_rfl (by linarith) fun hne => absurd rfl hne
  -- half a unit is a tie, and zero is even
  have hdigits : roundShifted 2 (-leastPlace) num den ≤ roundHalfEven 1 2 := by
    refine roundHalfEven_mono (shiftedDen_pos (by norm_num) _ hden) (by norm_num) ?_
    rw [shifted_div]
    exact_mod_cast hunits
  have hnone : roundShifted 2 (-leastPlace) num den = 0 := Nat.le_zero.1 hdigits
  refine Magnitude.ext ?_
  rw [rank_nearest hnum hden hplace, hnone, sub_self, Int.toNat_zero, zero_mul, add_zero,
    Nat.zero_min]
  rfl

end Magnitude

end SplitCalc
