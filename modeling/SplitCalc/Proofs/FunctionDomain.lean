import Mathlib.Tactic.Linarith
import Mathlib.Tactic.NormNum
import SplitCalc.Operation
import SplitCalc.Proofs.DoubleConversion

/-!
# The domain of the root and of the logarithm

Neither function looks at the sign of its operand: it takes the nearest double, and what the double
gives for numbers outside the domain is no decimal. A conversion keeps the sign, but it brings the
numbers next to zero to a zero of either sign (`Decimal.toMagnitude_eq_zero_iff`). That settles both
functions on negative numbers of every size:

* the logarithm has no value at any number that is not positive, since the zeros of either sign give
  an infinity;
* the square root has no value at negative numbers that become one of the negative doubles, but
  those that become the negative zero have its root, which is zero (`squareRoot_value?_of_neg`).
-/

namespace SplitCalc

/-! ### Rounding to zero -/

namespace Magnitude

/-- The least magnitude above zero. -/
def least : Magnitude :=
  ⟨1, by decide⟩

/-- The least magnitude is a power of two. -/
theorem value_least : least.value = 2 ^ leastPlace := by
  have hsignificand : least.significand = 1 := by decide +kernel
  have hexponent : least.exponent = leastPlace := by decide +kernel
  rw [value, hsignificand, hexponent, Nat.cast_one, one_mul]

/-- A quotient above half of the least magnitude is not rounded to zero. -/
theorem nearest_ne_zero {num den : ℕ} (hden : 0 < den)
    (h : (2 : ℚ) ^ (leastPlace - 1) < num / den) : nearest num den ≠ zero := by
  rcases le_total (num / den : ℚ) (2 ^ leastPlace) with hle | hge
  · -- in units of the least place the quotient is between a half and one
    have hnum : 0 < num := by
      refine Nat.pos_of_ne_zero ?_
      rintro rfl
      rw [Nat.cast_zero, zero_div] at h
      exact absurd h (two_zpow_pos _).not_gt
    have hlow : (1 / 2 : ℚ) < num / den * 2 ^ (-leastPlace) := by
      calc (1 / 2 : ℚ) = 2 ^ (leastPlace - 1) * 2 ^ (-leastPlace) := by
            rw [← zpow_add₀ (by norm_num), show leastPlace - 1 + -leastPlace = -1 by ring]
            norm_num
        _ < num / den * 2 ^ (-leastPlace) := mul_lt_mul_of_pos_right h (two_zpow_pos _)
    have hhigh : num / den * 2 ^ (-leastPlace) ≤ (1 : ℚ) := by
      calc num / den * 2 ^ (-leastPlace) ≤ (2 : ℚ) ^ leastPlace * 2 ^ (-leastPlace) :=
            mul_le_mul_of_nonneg_right hle (two_zpow_pos _).le
        _ = 1 := by rw [← zpow_add₀ (by norm_num), add_neg_cancel, zpow_zero]
    have hbit : (1 : ℚ) ≤ hiddenBit := by exact_mod_cast hiddenBit_pos
    have hplace : IsLastPlace (num / den) leastPlace :=
      isLastPlace_of_mul le_rfl (by linarith) fun hne => absurd rfl hne
    have hunit : |num / den * 2 ^ (-leastPlace) - ((1 : ℕ) : ℚ)| < 1 / 2 := by
      rw [Nat.cast_one, abs_lt]
      constructor <;> linarith
    rw [nearest_of_digits (m := least) hnum hden hplace hunit (by decide)]
    decide
  · have hmono : (nearest least.num least.den).rank ≤ (nearest num den).rank := by
      refine rank_nearest_mono least.den_pos hden ?_
      rwa [num_div_den, value_least]
    rw [nearest_of_eq_value least.den_pos least.num_div_den] at hmono
    intro hzero
    rw [hzero] at hmono
    exact absurd hmono (by decide)

/-- **Underflow.** A quotient is rounded to zero exactly when it is at most half of the least
magnitude. -/
theorem nearest_eq_zero_iff {num den : ℕ} (hden : 0 < den) :
    nearest num den = zero ↔ (num / den : ℚ) ≤ 2 ^ (leastPlace - 1) :=
  ⟨fun h => not_lt.1 fun hlt => nearest_ne_zero hden hlt h, nearest_eq_zero hden⟩

end Magnitude

namespace Decimal

/-! ### The sign and the size of a decimal -/

/-- The value has the sign of the digits. -/
theorem value_neg_iff {a : Decimal} : a.value < 0 ↔ a.unscaled < 0 := by
  have h := decimalValue_lt_iff (u := a.unscaled) (v := 0) (s := a.scale)
  rwa [decimalValue, decimalValue, Int.cast_zero, zero_mul] at h

/-- The digits without their sign make the magnitude of the value. -/
theorem value_natAbs (a : Decimal) :
    (Scaled.mk a.unscaled.natAbs a.scale).value = |a.value| := by
  rw [Scaled.value_mk, value, decimalValue, decimalValue, abs_mul, abs_of_pos (ten_zpow_pos _),
    Int.natCast_natAbs, Int.cast_abs]

/-- The decimals that become a zero are those up to half of the least positive double. -/
theorem toMagnitude_eq_zero_iff (a : Decimal) :
    (Scaled.mk a.unscaled.natAbs a.scale).toMagnitude = .zero ↔
      |a.value| ≤ 2 ^ (leastPlace - 1) := by
  rw [Scaled.toMagnitude, Magnitude.nearest_eq_zero_iff (Scaled.shiftedDen_one_pos _),
    Scaled.shifted_div_eq_value, value_natAbs]

/-- A negative decimal becomes a negative double, which may be the negative zero. -/
theorem toDouble_of_neg {a : Decimal} (h : a.value < 0) :
    a.toDouble = .signed true (Scaled.mk a.unscaled.natAbs a.scale).toMagnitude := by
  rw [toDouble_eq, decide_eq_true (value_neg_iff.1 h)]

end Decimal

/-! ### The functions of negative doubles -/

/-- The root of a negative double is its zero, or no number. -/
theorem Double.sqrt_negative (m : Magnitude) :
    sqrt (.signed true m) = if m = .zero then .signed true .zero else .nan := by
  rw [sqrt]
  split <;> rfl

/-- No decimal is the logarithm of a negative double, nor that of a zero. -/
theorem Double.ofDouble?_log10_eq_none {negative : Bool} {m : Magnitude}
    (h : negative ∨ m = .zero) : Decimal.ofDouble? (log10 (.signed negative m)) = none := by
  rw [log10]
  split
  · rfl
  · rw [if_pos (h.resolve_right ‹_›)]
    rfl

namespace UnaryFunction

variable {a : Decimal}

/-- **The root of a negative number.** There is none, unless the number is so close to zero that it
becomes the negative zero; then its root is zero. -/
theorem squareRoot_value?_of_neg (h : a.value < 0) :
    squareRoot.value? a =
      if -2 ^ (leastPlace - 1) ≤ a.value then some ⟨0, 1, by decide⟩ else none := by
  have hunderflow : (Scaled.mk a.unscaled.natAbs a.scale).toMagnitude = .zero ↔
      -2 ^ (leastPlace - 1) ≤ a.value := by
    rw [Decimal.toMagnitude_eq_zero_iff, abs_of_neg h, neg_le]
  rw [value?, throughDouble, Decimal.toDouble_of_neg h, Double.sqrt_negative]
  by_cases hzero : (Scaled.mk a.unscaled.natAbs a.scale).toMagnitude = .zero
  · rw [if_pos hzero, if_pos (hunderflow.1 hzero)]
    rfl
  · rw [if_neg hzero, if_neg (mt hunderflow.2 hzero)]
    rfl

/-- **The logarithm of a number that is not positive.** There is none. -/
theorem logarithm_value?_of_nonpos (h : a.value ≤ 0) : logarithm.value? a = none := by
  rw [value?, throughDouble, Decimal.toDouble_eq]
  refine Double.ofDouble?_log10_eq_none ?_
  rcases h.lt_or_eq with hneg | hzero
  · exact Or.inl (decide_eq_true (Decimal.value_neg_iff.1 hneg))
  · refine Or.inr ((Decimal.toMagnitude_eq_zero_iff a).2 ?_)
    rw [hzero, abs_zero]
    exact (two_zpow_pos _).le

/-- **The domain of the root and of the logarithm**, for decimals of any size. The logarithm has no
value at numbers that are not positive. The square root has none at negative numbers below
`-2 ^ (-1075)`, half of the least positive double; from there on up to zero it is zero. -/
theorem domain_of_root_and_logarithm (a : Decimal) :
    (a.value ≤ 0 → logarithm.value? a = none) ∧
      (a.value < 0 → (squareRoot.value? a = none ↔ a.value < -2 ^ (-1075 : ℤ))) ∧
      (-2 ^ (-1075 : ℤ) ≤ a.value → a.value < 0 →
        squareRoot.value? a = some ⟨0, 1, by decide⟩) := by
  refine ⟨logarithm_value?_of_nonpos, fun h => ?_, fun hlow h => ?_⟩
  · have hplace : leastPlace - 1 = -1075 := rfl
    rw [squareRoot_value?_of_neg h, hplace]
    split
    · exact iff_of_false (by simp) (not_lt.2 ‹_›)
    · exact iff_of_true rfl (not_le.1 ‹_›)
  · exact (squareRoot_value?_of_neg h).trans (if_pos hlow)

/-- At minus four neither function has a value, and at minus `10 ^ (-400)` the square root is
zero. -/
theorem domain_of_root_and_logarithm_negative :
    (Decimal.ofInt (-4)).value ≤ 0 ∧ (Decimal.ofInt (-4)).value < -2 ^ (-1075 : ℤ) ∧
      logarithm.value? (.ofInt (-4)) = none ∧ squareRoot.value? (.ofInt (-4)) = none ∧
      (⟨-1, 400, by decide⟩ : Decimal).value < 0 ∧
      -2 ^ (-1075 : ℤ) ≤ (⟨-1, 400, by decide⟩ : Decimal).value ∧
      squareRoot.value? ⟨-1, 400, by decide⟩ = some ⟨0, 1, by decide⟩ := by
  have hfour : (Decimal.ofInt (-4)).value = -4 := by
    rw [Decimal.value, Decimal.ofInt, decimalValue_zero_right]
    norm_num
  have hneg : (Decimal.ofInt (-4)).value < 0 := by
    rw [hfour]
    norm_num
  have hbelow : (Decimal.ofInt (-4)).value < -2 ^ (-1075 : ℤ) := by
    have hone : (2 : ℚ) ^ (-1075 : ℤ) ≤ 1 := zpow_le_one_of_nonpos₀ (by norm_num) (by norm_num)
    linarith
  have htiny : (⟨-1, 400, by decide⟩ : Decimal).value < 0 := Decimal.value_neg_iff.2 (by decide)
  have habove : -2 ^ (-1075 : ℤ) ≤ (⟨-1, 400, by decide⟩ : Decimal).value := by
    decide +kernel
  obtain ⟨hlogarithm, hroot, -⟩ := domain_of_root_and_logarithm (.ofInt (-4))
  obtain ⟨-, -, hzero⟩ := domain_of_root_and_logarithm ⟨-1, 400, by decide⟩
  exact ⟨hneg.le, hbelow, hlogarithm hneg.le, (hroot hneg).2 hbelow, htiny, habove,
    hzero habove htiny⟩

/-- Not every negative number is without a root: minus `10 ^ (-400)` becomes the negative zero and
has the root zero. -/
theorem squareRoot_of_underflow :
    (⟨-1, 400, by decide⟩ : Decimal).value < 0 ∧
      squareRoot.value? ⟨-1, 400, by decide⟩ = some ⟨0, 1, by decide⟩ ∧
      ¬∀ a : Decimal, a.value < 0 → squareRoot.value? a = none := by
  have hneg : (⟨-1, 400, by decide⟩ : Decimal).value < 0 := Decimal.value_neg_iff.2 (by decide)
  have hroot : squareRoot.value? ⟨-1, 400, by decide⟩ = some ⟨0, 1, by decide⟩ := by
    decide +kernel
  refine ⟨hneg, hroot, fun h => ?_⟩
  rw [h _ hneg] at hroot
  simp at hroot

end UnaryFunction

end SplitCalc
