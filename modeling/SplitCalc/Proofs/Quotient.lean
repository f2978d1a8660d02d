import Mathlib.Algebra.Order.Field.Power
import Mathlib.Algebra.Order.Ring.Abs
import Mathlib.Data.Rat.Cast.Order
import Mathlib.Tactic.Linarith
import Mathlib.Tactic.Positivity
import Mathlib.Tactic.Ring
import SplitCalc.Proofs.Grid

/-!
# The quotient is correctly rounded

The division of magnitudes rounds the quotient on the grid where its whole part has
`precision` digits. A quotient that can be written with so many digits lies on the grid
itself; dropping zeros then stops where the scale is closest to the preferred one
(`Quotient.writes_rounded`). Any other quotient is rounded to a nearest decimal
(`Quotient.isNearest_rounded`).

Division of decimals adds the signs and the difference of the scales
(`Decimal.isCorrectlyRounded_quotient`).
-/

namespace SplitCalc

/-! ### Dropping zeros -/

/-- Dropping zeros takes some power of ten out of the digits. It stops at the limit or before
a digit that is not zero. -/
theorem Scaled.dropZeros_eq (limit : ℕ) (s : Scaled) :
    ∃ j ≤ limit, (dropZeros limit s).shift = s.shift - j ∧
      s.digits = (dropZeros limit s).digits * 10 ^ j ∧
      (j = limit ∨ ¬10 ∣ (dropZeros limit s).digits) := by
  induction limit generalizing s with
  | zero => exact ⟨0, le_rfl, by simp [dropZeros], by simp [dropZeros], Or.inl rfl⟩
  | succ limit ih =>
    rw [dropZeros]
    split
    · rename_i hzero
      obtain ⟨j, hj, hshift, hdigits, hstop⟩ := ih ⟨s.digits / 10, s.shift - 1⟩
      refine ⟨j + 1, by omega, ?_, ?_, hstop.imp (by omega) id⟩
      · rw [hshift]
        push_cast
        ring
      · rw [pow_succ, ← mul_assoc, ← hdigits, Nat.div_mul_cancel (Nat.dvd_of_mod_eq_zero hzero)]
    · rename_i hdigit
      exact ⟨0, by omega, by simp, by simp, Or.inr fun hdvd => hdigit (Nat.mod_eq_zero_of_dvd hdvd)⟩

/-- The rational number that shifted digits denote. -/
def Scaled.value (s : Scaled) : ℚ :=
  decimalValue s.digits s.shift

theorem Scaled.value_mk (digits : ℕ) (shift : ℤ) :
    (Scaled.mk digits shift).value = decimalValue digits shift :=
  rfl

/-- Dropping zeros keeps the value. -/
theorem Scaled.value_dropZeros (limit : ℕ) (s : Scaled) : (dropZeros limit s).value = s.value := by
  obtain ⟨j, -, hshift, hdigits, -⟩ := dropZeros_eq limit s
  have hzeros : (s.shift - (dropZeros limit s).shift).toNat = j := by omega
  rw [value, value, decimalValue_of_le (by omega : (dropZeros limit s).shift ≤ s.shift), hzeros,
    hdigits]
  push_cast
  rfl

/-- Digits without a last zero have the smallest scale among all that have their value. -/
theorem scale_le_of_not_dvd {u s v t : ℤ} (hu : ¬(10 : ℤ) ∣ u)
    (h : decimalValue v t = decimalValue u s) : s ≤ t := by
  by_contra hts
  -- at a smaller scale the value would be written with a zero behind its digits
  rw [decimalValue_of_le (Int.le_of_lt (not_le.1 hts))] at h
  obtain ⟨n, hn⟩ : ∃ n, (s - t).toNat = n + 1 := ⟨(s - t).toNat - 1, by omega⟩
  refine hu ⟨v * 10 ^ n, ?_⟩
  rw [← eq_of_decimalValue_eq h, hn, pow_succ]
  ring

namespace Quotient

variable {num den : ℕ}

/-! ### The grid of a quotient -/

/-- Shifted, the quotient has a whole part of `precision` digits. -/
theorem bounds_of_shift (hnum : 0 < num) (hden : 0 < den) :
    (10 : ℚ) ^ ((precision : ℤ) - 1 - shift num den) ≤ num / den ∧
      (num / den : ℚ) < 10 ^ ((precision : ℤ) - shift num den) := by
  have hlow : (precision : ℤ) - 1 - shift num den = decimalExponent num den := by
    rw [shift]
    ring
  have hhigh : (precision : ℤ) - shift num den = decimalExponent num den + 1 := by
    rw [shift]
    ring
  rw [hlow, hhigh]
  exact decimalExponent_bounds hnum hden

/-- A point of the grid with the value of the quotient has `precision` digits. -/
theorem bounds_of_value_eq (hnum : 0 < num) (hden : 0 < den) {m : ℤ}
    (hm : decimalValue m (shift num den) = (num / den : ℚ)) :
    10 ^ (precision - 1) ≤ m ∧ m < 10 ^ precision := by
  obtain ⟨hlow, hhigh⟩ := bounds_of_shift hnum hden
  rw [← decimalValue_first, ← hm, decimalValue_le_iff] at hlow
  rw [← decimalValue_ten_pow, ← hm, decimalValue_lt_iff] at hhigh
  exact ⟨hlow, hhigh⟩

/-- The point to which a quotient is rounded has `precision` digits, or it is the first number
with one digit more. -/
theorem bounds_of_roundShifted (hnum : 0 < num) (hden : 0 < den) :
    10 ^ (precision - 1) ≤ roundShifted 10 (shift num den) num den ∧
      roundShifted 10 (shift num den) num den ≤ 10 ^ precision := by
  obtain ⟨hlow, hhigh⟩ := bounds_of_shift hnum hden
  rw [← decimalValue_first] at hlow
  rw [← decimalValue_ten_pow] at hhigh
  exact_mod_cast (isNearestPoint_roundShifted num hden _).mem_of_enclosed hlow hhigh.le

/-- A quotient can be written exactly when the division on its grid leaves no remainder. -/
theorem exists_writes_iff (hnum : 0 < num) (hden : 0 < den) :
    (∃ v t : ℤ, Writes (num / den) v t) ↔
      shiftedNum 10 (shift num den) num % shiftedDen 10 (shift num den) den = 0 := by
  obtain ⟨hlow, -⟩ := bounds_of_shift hnum hden
  rw [shifted_mod_eq_zero_iff num hden]
  constructor
  · rintro ⟨v, t, h⟩
    have hscale : t ≤ shift num den := h.scale_le (hlow.trans (le_abs_self _))
    exact ⟨v * 10 ^ (shift num den - t).toNat, by rw [← decimalValue_of_le hscale, h.value_eq]⟩
  · rintro ⟨m, hm⟩
    obtain ⟨hfirst, hlast⟩ := bounds_of_value_eq hnum hden hm
    have hpos : 0 < m := (by positivity : (0 : ℤ) < 10 ^ (precision - 1)).trans_le hfirst
    have hcount : m.natAbs < 10 ^ precision := by
      zify
      rwa [abs_of_pos hpos]
    exact ⟨m, shift num den, (Digits.count_le_iff precision_pos).2 hcount, hm⟩

/-! ### The rounded quotient -/

/-- **An exact quotient** is written with the scale that is closest to zero. -/
theorem writes_rounded (hnum : 0 < num) (hden : 0 < den)
    (hmod : shiftedNum 10 (shift num den) num % shiftedDen 10 (shift num den) den = 0) :
    Writes (num / den) (rounded num den).digits (rounded num den).shift ∧
      ∀ v t : ℤ, Writes (num / den) v t → t ≠ (rounded num den).shift →
        |(rounded num den).shift| < |t| := by
  obtain ⟨hlow, -⟩ := bounds_of_shift hnum hden
  have hrounded : rounded num den = Scaled.dropZeros (shift num den).toNat
      ⟨roundShifted 10 (shift num den) num den, shift num den⟩ := if_pos hmod
  obtain ⟨m, hm⟩ := (shifted_mod_eq_zero_iff num hden _).1 hmod
  have hpoint : decimalValue (roundShifted 10 (shift num den) num den) (shift num den) =
      (num / den : ℚ) := (isNearestPoint_roundShifted num hden _).value_eq hm
  obtain ⟨-, hlast⟩ := bounds_of_value_eq hnum hden hpoint
  obtain ⟨j, hj, hshift, hdigits, hstop⟩ := Scaled.dropZeros_eq (shift num den).toNat
    ⟨roundShifted 10 (shift num den) num den, shift num den⟩
  rw [← hrounded] at hshift hdigits hstop
  simp only at hshift hdigits
  have hvalue : decimalValue (rounded num den).digits (rounded num den).shift =
      (num / den : ℚ) := by
    have hkept := Scaled.value_dropZeros (shift num den).toNat
      ⟨roundShifted 10 (shift num den) num den, shift num den⟩
    simp only [← hrounded, Scaled.value] at hkept
    exact hkept.trans hpoint
  have hcount : Digits.count (rounded num den).digits ≤ precision := by
    refine (Digits.count_le_iff precision_pos).2 (lt_of_le_of_lt ?_ (by exact_mod_cast hlast))
    rw [hdigits]
    exact Nat.le_mul_of_pos_right _ (Nat.pow_pos (by norm_num))
  refine ⟨⟨hcount, hvalue⟩, fun v t hw hne => ?_⟩
  have hscale : t ≤ shift num den := hw.scale_le (hlow.trans (le_abs_self _))
  -- the zeros run out at the scale zero, or no writing has a smaller scale
  have hend : j = (shift num den).toNat ∨ (rounded num den).shift ≤ t :=
    hstop.imp_right fun hdvd =>
      scale_le_of_not_dvd (by exact_mod_cast hdvd) (hw.value_eq.trans hvalue.symm)
  rw [Int.abs_eq_natAbs, Int.abs_eq_natAbs]
  omega

/-- **A quotient that cannot be written** is rounded to a nearest decimal. -/
theorem isNearest_rounded (hnum : 0 < num) (hden : 0 < den)
    (hmod : shiftedNum 10 (shift num den) num % shiftedDen 10 (shift num den) den ≠ 0) :
    IsNearest (num / den) (rounded num den).digits (rounded num den).shift := by
  obtain ⟨hlow, -⟩ := bounds_of_shift hnum hden
  obtain ⟨hfirst, hlast⟩ := bounds_of_roundShifted hnum hden
  have hpoint := isNearestPoint_roundShifted num hden (shift num den)
  have hrounded : rounded num den =
      if roundShifted 10 (shift num den) num den = 10 ^ precision then
        ⟨10 ^ (precision - 1), shift num den - 1⟩
      else ⟨roundShifted 10 (shift num den) num den, shift num den⟩ := if_neg hmod
  rw [hrounded]
  split
  · rename_i hcarry
    rw [hcarry] at hpoint
    exact hpoint.isNearest_carry hlow
  · rename_i hfits
    dsimp only
    exact hpoint.isNearest hlow hfirst (lt_of_le_of_ne hlast hfits)

/-- **The rounded quotient of two magnitudes is the correct rounding** of the exact quotient,
with zero as the preferred scale. -/
theorem isCorrectlyRounded_rounded (hnum : 0 < num) (hden : 0 < den) :
    IsCorrectlyRounded (num / den) 0 (rounded num den).digits (rounded num den).shift := by
  constructor
  · intro hex
    obtain ⟨hwrites, hclosest⟩ := writes_rounded hnum hden ((exists_writes_iff hnum hden).1 hex)
    refine ⟨hwrites, fun v t hw hne => ?_⟩
    rw [sub_zero, sub_zero]
    exact hclosest v t hw hne
  · intro hinex
    exact isNearest_rounded hnum hden fun hmod => hinex ((exists_writes_iff hnum hden).2 hmod)

end Quotient

namespace Decimal

/-! ### Division -/

/-- The digits of the quotient of two decimals: those of the rounded quotient of the
magnitudes, negative when exactly one of the operands is. -/
def quotientDigits (a b : Decimal) : ℤ :=
  signed (decide (a.unscaled < 0) != decide (b.unscaled < 0))
    (Quotient.rounded a.unscaled.natAbs b.unscaled.natAbs).digits

/-- The scale of the quotient of two decimals, be it a word or not. -/
def quotientScale (a b : Decimal) : ℤ :=
  (Quotient.rounded a.unscaled.natAbs b.unscaled.natAbs).shift + (a.scale - b.scale)

variable {a b : Decimal}

/-- There is no quotient by zero. -/
theorem div?_of_divisor_zero (hb : b.unscaled = 0) : a.div? b = none := by
  rw [div?]
  exact if_pos (isZero_iff.2 hb)

/-- Zero divided by a nonzero decimal is zero, with the nearest word to the preferred scale. -/
theorem div?_of_dividend_zero (ha : a.unscaled = 0) (hb : b.unscaled ≠ 0) :
    a.div? b = ofParts? 0 (nearestWord (a.scale - b.scale)) := by
  rw [div?, if_neg (mt isZero_iff.1 hb), if_pos (isZero_iff.2 ha)]

/-- Two nonzero decimals have the quotient of these parts, if the scale is a word. -/
theorem div?_of_ne_zero (ha : a.unscaled ≠ 0) (hb : b.unscaled ≠ 0) :
    a.div? b = ofParts? (a.quotientDigits b) (a.quotientScale b) := by
  rw [div?, if_neg (mt isZero_iff.1 hb), if_neg (mt isZero_iff.1 ha)]
  rfl

/-- The nearest word is a word. -/
theorem isWord_nearestWord (n : ℤ) : IsWord (nearestWord n) := by
  rw [isWord_iff, nearestWord]
  omega

/-- A word is the nearest word to itself. -/
theorem nearestWord_of_isWord {n : ℤ} (h : IsWord n) : nearestWord n = n := by
  rw [isWord_iff] at h
  rw [nearestWord]
  omega

/-- The quotient of two integers is that of their magnitudes, negated when exactly one of
them is negative. -/
theorem int_div_eq (u v : ℤ) :
    (u / v : ℚ) = if decide (u < 0) != decide (v < 0) then -((u.natAbs : ℚ) / v.natAbs)
      else (u.natAbs : ℚ) / v.natAbs := by
  simp only [Nat.cast_natAbs, Int.cast_abs]
  rcases lt_or_ge u 0 with hu | hu <;> rcases lt_or_ge v 0 with hv | hv
  · have hu' : (u : ℚ) < 0 := by exact_mod_cast hu
    have hv' : (v : ℚ) < 0 := by exact_mod_cast hv
    rw [if_neg (by simp [hu, hv]), abs_of_neg hu', abs_of_neg hv', neg_div_neg_eq]
  · have hu' : (u : ℚ) < 0 := by exact_mod_cast hu
    have hv' : (0 : ℚ) ≤ v := by exact_mod_cast hv
    rw [if_pos (by simp [hu, hv.not_gt]), abs_of_neg hu', abs_of_nonneg hv', neg_div, neg_neg]
  · have hu' : (0 : ℚ) ≤ u := by exact_mod_cast hu
    have hv' : (v : ℚ) < 0 := by exact_mod_cast hv
    rw [if_pos (by simp [hu.not_gt, hv]), abs_of_nonneg hu', abs_of_neg hv', div_neg, neg_neg]
  · have hu' : (0 : ℚ) ≤ u := by exact_mod_cast hu
    have hv' : (0 : ℚ) ≤ v := by exact_mod_cast hv
    rw [if_neg (by simp [hu.not_gt, hv.not_gt]), abs_of_nonneg hu', abs_of_nonneg hv']

/-- **The quotient of two nonzero decimals has the parts of the correct rounding**, with the
difference of the scales as the preferred scale. -/
theorem isCorrectlyRounded_quotient (ha : a.unscaled ≠ 0) (hb : b.unscaled ≠ 0) :
    IsCorrectlyRounded (a.value / b.value) (a.scale - b.scale) (a.quotientDigits b)
      (a.quotientScale b) := by
  have hmagnitude := (Quotient.isCorrectlyRounded_rounded (Int.natAbs_pos.2 ha)
    (Int.natAbs_pos.2 hb)).mul (a.scale - b.scale)
  rw [zero_add] at hmagnitude
  rw [value, value, decimalValue_div, int_div_eq, quotientDigits, quotientScale, signed]
  split
  · rw [neg_mul]
    exact hmagnitude.neg
  · exact hmagnitude

/-- **Exact quotients are found.** A decimal of at most `precision` digits is the quotient
whenever it has the exact value of the quotient and the preferred scale. -/
theorem div?_eq_some_of_value_eq {r : Decimal} (hr : Digits.count r.unscaled.natAbs ≤ precision)
    (hb : b.unscaled ≠ 0) (hvalue : a.value / b.value = r.value)
    (hscale : a.scale - b.scale = r.scale) : a.div? b = some r := by
  rcases eq_or_ne a.unscaled 0 with ha | ha
  · have hzero : decimalValue r.unscaled r.scale = decimalValue 0 r.scale := by
      rw [← value, ← hvalue, value, ha]
      simp [decimalValue]
    rw [div?_of_dividend_zero ha hb, hscale, nearestWord_of_isWord r.isWord_scale]
    exact ofParts?_eq_some_iff.2 ⟨eq_of_decimalValue_eq hzero, rfl⟩
  · have hround := isCorrectlyRounded_quotient ha hb
    rw [hvalue, hscale] at hround
    obtain ⟨hdigits, hplaces⟩ := hround.eq_of_writes ⟨hr, rfl⟩
    rw [div?_of_ne_zero ha hb]
    exact ofParts?_eq_some_iff.2 ⟨hdigits.symm, hplaces.symm⟩

/-- **Division is correctly rounded.** There is no quotient by zero. A zero dividend gives
zero, at the word nearest to the difference of the scales. Between nonzero operands the exact
quotient has one correct rounding; the division returns its two parts, and has no result
exactly when the scale so determined is no word. -/
theorem div?_isCorrectlyRounded (a b : Decimal) :
    (b.unscaled = 0 → a.div? b = none) ∧
      (b.unscaled ≠ 0 → a.unscaled = 0 →
        ∃ r, a.div? b = some r ∧ r.unscaled = 0 ∧
          r.scale = max (-2147483648) (min 2147483647 (a.scale - b.scale))) ∧
      (b.unscaled ≠ 0 → a.unscaled ≠ 0 →
        ∃ u s : ℤ, IsCorrectlyRounded (a.value / b.value) (a.scale - b.scale) u s ∧
          (∀ u' s' : ℤ, IsCorrectlyRounded (a.value / b.value) (a.scale - b.scale) u' s' →
            u' = u ∧ s' = s) ∧
          (∀ r, a.div? b = some r ↔ r.unscaled = u ∧ r.scale = s) ∧
          (a.div? b = none ↔ ¬IsWord s)) := by
  refine ⟨div?_of_divisor_zero, fun hb ha => ?_, fun hb ha => ?_⟩
  · refine ⟨⟨0, nearestWord (a.scale - b.scale), isWord_nearestWord _⟩, ?_, rfl, rfl⟩
    rw [div?_of_dividend_zero ha hb]
    exact ofParts?_eq_some_iff.2 ⟨rfl, rfl⟩
  · have hround := isCorrectlyRounded_quotient ha hb
    refine ⟨a.quotientDigits b, a.quotientScale b, hround, fun u' s' => hround.unique,
      fun r => ?_, ?_⟩
    · rw [div?_of_ne_zero ha hb]
      exact ofParts?_eq_some_iff
    · rw [div?_of_ne_zero ha hb]
      exact ofParts?_eq_none_iff

/-- Two thirds end in a rounded digit; one eighth is exact and keeps three. -/
example : (ofInt 2).div? (ofInt 3) =
      some ⟨6666666666666666666666666666666667, 34, by decide⟩ ∧
    (ofInt 1).div? (ofInt 8) = some ⟨125, 3, by decide⟩ := by
  decide +kernel

end Decimal

end SplitCalc
