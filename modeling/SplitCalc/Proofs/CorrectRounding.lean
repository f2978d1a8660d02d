import Mathlib.Algebra.Order.Field.Power
import Mathlib.Algebra.Order.Ring.Abs
import Mathlib.Algebra.Ring.Parity
import Mathlib.Data.Rat.Cast.Order
import Mathlib.Tactic.Linarith
import Mathlib.Tactic.Ring
import SplitCalc.Decimal.Quotient
import SplitCalc.Proofs.Value

/-!
# Correct rounding to 34 digits

What it means that digits `u` and a scale `s` are the correct rounding of a rational number
`q`, without reference to any algorithm (`IsCorrectlyRounded`). When some decimal of at most
`precision` digits has the value `q`, then `u` and `s` do, and of all such representations
theirs has the scale closest to a preferred one. When none has, then `u` has exactly
`precision` digits and the sign of `q`, no other such decimal is nearer to `q`, and where
another one is equally near, `u` is the even one.

The relation determines both parts (`IsCorrectlyRounded.unique`), and it is invariant under
negation and under multiplication by a power of ten, which moves both scales.
-/

namespace SplitCalc

/-! ### The relation -/

/-- Digits and a scale **write** a number when that is their value and the digits are at most
`precision`. -/
structure Writes (q : ℚ) (u s : ℤ) : Prop where
  /-- The digits are at most `precision`. -/
  count_le : Digits.count u.natAbs ≤ precision
  /-- The value is the number. -/
  value_eq : decimalValue u s = q

/-- Digits and a scale are **nearest** to a number when no decimal of exactly `precision`
digits is nearer, a tie going to the even last digit. -/
structure IsNearest (q : ℚ) (u s : ℤ) : Prop where
  /-- The digits are exactly `precision`. -/
  count_eq : Digits.count u.natAbs = precision
  /-- The digits have the sign of the number. -/
  sign_eq : 0 < u * q
  /-- No decimal of as many digits is nearer to the number. -/
  le_dist : ∀ v t : ℤ, Digits.count v.natAbs = precision →
    |q - decimalValue u s| ≤ |q - decimalValue v t|
  /-- The last digit is even where another value is equally near, and that one's is odd. -/
  even_of_tie : ∀ v t : ℤ, Digits.count v.natAbs = precision →
    decimalValue v t ≠ decimalValue u s →
    |q - decimalValue u s| = |q - decimalValue v t| → Even u ∧ Odd v

/-- Digits and a scale are the **correct rounding** of a number, given the scale that is
preferred when the number can be written exactly. -/
structure IsCorrectlyRounded (q : ℚ) (preferred u s : ℤ) : Prop where
  /-- A number that can be written is written, as closely to the preferred scale as can be. -/
  exact : (∃ v t : ℤ, Writes q v t) →
    Writes q u s ∧ ∀ v t : ℤ, Writes q v t → t ≠ s → |s - preferred| < |t - preferred|
  /-- Any other number is rounded to a nearest decimal. -/
  inexact : (¬∃ v t : ℤ, Writes q v t) → IsNearest q u s

/-! ### Digits and magnitude -/

/-- There is at least one digit of precision. -/
theorem precision_pos : 0 < precision := by
  decide

/-- At most `precision` digits bound the value by a power of ten. -/
theorem abs_decimalValue_lt {v t : ℤ} (hv : Digits.count v.natAbs ≤ precision) :
    |decimalValue v t| < 10 ^ ((precision : ℤ) - t) := by
  have hnat : v.natAbs < 10 ^ precision := (Digits.count_le_iff precision_pos).1 hv
  have hdigits : |(v : ℚ)| < 10 ^ (precision : ℤ) := by
    rw [zpow_natCast, ← Int.cast_abs, Int.abs_eq_natAbs]
    exact_mod_cast hnat
  rw [decimalValue, abs_mul, abs_of_pos (ten_zpow_pos (-t)), sub_eq_add_neg,
    zpow_add₀ (by norm_num)]
  exact mul_lt_mul_of_pos_right hdigits (ten_zpow_pos (-t))

/-- Exactly `precision` digits bound the value from below. -/
theorem le_abs_decimalValue {v t : ℤ} (hv : Digits.count v.natAbs = precision) :
    10 ^ ((precision : ℤ) - 1 - t) ≤ |decimalValue v t| := by
  have hpos : 0 < v.natAbs := by
    refine Nat.pos_of_ne_zero fun hzero => ?_
    rw [hzero] at hv
    exact absurd hv (by decide)
  have hdigits : 10 ^ ((precision : ℤ) - 1) ≤ |(v : ℚ)| := by
    rw [← hv, ← Int.cast_abs, Int.abs_eq_natAbs, Int.cast_natCast]
    exact (Digits.count_bounds hpos).1
  rw [decimalValue, abs_mul, abs_of_pos (ten_zpow_pos (-t)), sub_eq_add_neg _ t,
    zpow_add₀ (by norm_num)]
  exact mul_le_mul_of_nonneg_right hdigits (ten_zpow_pos (-t)).le

/-- A number of the size of `precision` digits at scale `k` is written at no larger scale. -/
theorem Writes.scale_le {q : ℚ} {v t k : ℤ} (h : Writes q v t)
    (hq : 10 ^ ((precision : ℤ) - 1 - k) ≤ |q|) : t ≤ k := by
  have hbelow : |q| < 10 ^ ((precision : ℤ) - t) := h.value_eq ▸ abs_decimalValue_lt h.count_le
  have hpow : (10 : ℚ) ^ ((precision : ℤ) - 1 - k) < 10 ^ ((precision : ℤ) - t) :=
    hq.trans_lt hbelow
  rw [zpow_lt_zpow_iff_right₀ (by norm_num)] at hpow
  omega

/-- One value has one writing with exactly `precision` digits. -/
theorem eq_of_decimalValue_eq_of_count {u s v t : ℤ} (hu : Digits.count u.natAbs = precision)
    (hv : Digits.count v.natAbs = precision) (h : decimalValue v t = decimalValue u s) :
    v = u ∧ t = s := by
  have hts : t ≤ s := Writes.scale_le ⟨hv.le, h⟩ (le_abs_decimalValue hu)
  have hst : s ≤ t := Writes.scale_le ⟨hu.le, h.symm⟩ (le_abs_decimalValue hv)
  obtain rfl : t = s := le_antisymm hts hst
  exact ⟨eq_of_decimalValue_eq h, rfl⟩

/-! ### Uniqueness -/

/-- There is at most one nearest decimal. -/
theorem IsNearest.unique {q : ℚ} {u s v t : ℤ} (h : IsNearest q u s) (h' : IsNearest q v t) :
    v = u ∧ t = s := by
  have hdist : |q - decimalValue u s| = |q - decimalValue v t| :=
    le_antisymm (h.le_dist v t h'.count_eq) (h'.le_dist u s h.count_eq)
  rcases eq_or_ne (decimalValue v t) (decimalValue u s) with heq | hne
  · exact eq_of_decimalValue_eq_of_count h.count_eq h'.count_eq heq
  · -- in a tie each of the two would have to be even and the other one odd
    obtain ⟨heven, -⟩ := h.even_of_tie v t h'.count_eq hne hdist
    obtain ⟨-, hodd⟩ := h'.even_of_tie u s h.count_eq hne.symm hdist.symm
    exact absurd heven (Int.not_even_iff_odd.2 hodd)

/-- **The correct rounding is unique**, in its digits and in its scale. -/
theorem IsCorrectlyRounded.unique {q : ℚ} {preferred u s v t : ℤ}
    (h : IsCorrectlyRounded q preferred u s) (h' : IsCorrectlyRounded q preferred v t) :
    v = u ∧ t = s := by
  rcases Classical.em (∃ w r : ℤ, Writes q w r) with hex | hinex
  · obtain ⟨hwrites, hclosest⟩ := h.exact hex
    obtain ⟨hwrites', hclosest'⟩ := h'.exact hex
    -- of two different scales each would have to be strictly closer than the other
    have hscale : t = s := by
      by_contra hne
      exact absurd (hclosest v t hwrites' hne) (hclosest' u s hwrites (Ne.symm hne)).not_gt
    subst hscale
    exact ⟨eq_of_decimalValue_eq (hwrites'.value_eq.trans hwrites.value_eq.symm), rfl⟩
  · exact (h.inexact hinex).unique (h'.inexact hinex)

/-- A number that is written at the preferred scale is its own correct rounding. -/
theorem IsCorrectlyRounded.eq_of_writes {q : ℚ} {preferred u s v : ℤ}
    (h : IsCorrectlyRounded q preferred u s) (hw : Writes q v preferred) :
    u = v ∧ s = preferred := by
  obtain ⟨hwrites, hclosest⟩ := h.exact ⟨v, preferred, hw⟩
  -- no scale is strictly closer to the preferred one than that one itself
  have hscale : s = preferred := by
    by_contra hne
    have hlt := hclosest v preferred hw (Ne.symm hne)
    rw [sub_self, abs_zero] at hlt
    exact absurd hlt (abs_nonneg _).not_gt
  subst hscale
  exact ⟨eq_of_decimalValue_eq (hwrites.value_eq.trans hw.value_eq.symm), rfl⟩

/-! ### Negation -/

/-- Negating the digits writes the negated number. -/
theorem Writes.neg {q : ℚ} {u s : ℤ} (h : Writes q u s) : Writes (-q) (-u) s :=
  ⟨by rw [Int.natAbs_neg]; exact h.count_le, by rw [decimalValue_neg, h.value_eq]⟩

/-- Negating both sides keeps a distance. -/
private theorem abs_neg_sub_decimalValue (q : ℚ) (u s : ℤ) :
    |-q - decimalValue u s| = |q - decimalValue (-u) s| := by
  rw [decimalValue_neg, ← abs_neg]
  congr 1
  ring

/-- A nearest decimal of a number gives one of its negation. -/
theorem IsNearest.neg {q : ℚ} {u s : ℤ} (h : IsNearest q u s) : IsNearest (-q) (-u) s where
  count_eq := by
    rw [Int.natAbs_neg]
    exact h.count_eq
  sign_eq := by
    have hsign := h.sign_eq
    push_cast
    rwa [neg_mul_neg]
  le_dist v t hv := by
    rw [abs_neg_sub_decimalValue, abs_neg_sub_decimalValue, neg_neg]
    exact h.le_dist (-v) t (by rwa [Int.natAbs_neg])
  even_of_tie v t hv hne htie := by
    rw [abs_neg_sub_decimalValue, abs_neg_sub_decimalValue, neg_neg] at htie
    have hne' : decimalValue (-v) t ≠ decimalValue u s := by
      rw [decimalValue_neg] at hne ⊢
      exact fun heq => hne (by rw [← heq, neg_neg])
    obtain ⟨heven, hodd⟩ := h.even_of_tie (-v) t (by rwa [Int.natAbs_neg]) hne' htie
    exact ⟨heven.neg, by simpa using hodd.neg⟩

/-- The correct rounding of the negated number has the negated digits. -/
theorem IsCorrectlyRounded.neg {q : ℚ} {preferred u s : ℤ}
    (h : IsCorrectlyRounded q preferred u s) : IsCorrectlyRounded (-q) preferred (-u) s := by
  have hback : ∀ {v t : ℤ}, Writes (-q) v t → Writes q (-v) t := fun hw => by
    simpa using hw.neg
  constructor
  · rintro ⟨v, t, hw⟩
    obtain ⟨hwrites, hclosest⟩ := h.exact ⟨-v, t, hback hw⟩
    exact ⟨hwrites.neg, fun v' t' hw' => hclosest (-v') t' (hback hw')⟩
  · intro hinex
    refine (h.inexact ?_).neg
    rintro ⟨v, t, hw⟩
    exact hinex ⟨-v, t, hw.neg⟩

/-! ### Powers of ten -/

/-- Digits write a number over `10 ^ p` exactly when they write the number at a scale lower
by `p`. -/
theorem writes_mul_iff {q : ℚ} {u s p : ℤ} :
    Writes (q * 10 ^ (-p)) u s ↔ Writes q u (s - p) := by
  have hvalue : decimalValue u s = q * 10 ^ (-p) ↔ decimalValue u (s - p) = q := by
    rw [decimalValue_eq_iff, decimalValue_eq_iff, mul_assoc, ← zpow_add₀ (by norm_num),
      neg_add_eq_sub]
  exact ⟨fun h => ⟨h.count_le, hvalue.1 h.value_eq⟩, fun h => ⟨h.count_le, hvalue.2 h.value_eq⟩⟩

/-- Dividing by a power of ten divides the distances. -/
theorem abs_mul_sub_decimalValue (q : ℚ) (u s p : ℤ) :
    |q * 10 ^ (-p) - decimalValue u s| = |q - decimalValue u (s - p)| * 10 ^ (-p) := by
  have hshift : decimalValue u s = decimalValue u (s - p) * 10 ^ (-p) := by
    rw [← decimalValue_add, sub_add_cancel]
  rw [hshift, ← sub_mul, abs_mul, abs_of_pos (ten_zpow_pos (-p))]

/-- A nearest decimal keeps its digits when number and scale move by a power of ten. -/
theorem IsNearest.mul {q : ℚ} {u s : ℤ} (h : IsNearest q u s) (p : ℤ) :
    IsNearest (q * 10 ^ (-p)) u (s + p) where
  count_eq := h.count_eq
  sign_eq := by
    rw [← mul_assoc]
    exact mul_pos h.sign_eq (ten_zpow_pos (-p))
  le_dist v t hv := by
    rw [abs_mul_sub_decimalValue, abs_mul_sub_decimalValue, add_sub_cancel_right]
    exact mul_le_mul_of_nonneg_right (h.le_dist v (t - p) hv) (ten_zpow_pos (-p)).le
  even_of_tie v t hv hne htie := by
    rw [abs_mul_sub_decimalValue, abs_mul_sub_decimalValue, add_sub_cancel_right] at htie
    refine h.even_of_tie v (t - p) hv (fun heq => hne ?_)
      (mul_right_cancel₀ (ten_zpow_pos (-p)).ne' htie)
    rw [decimalValue_add u s p, ← heq, ← decimalValue_add, sub_add_cancel]

/-- The correct rounding keeps its digits when the number moves by a power of ten, and its
scale moves with the preferred one. -/
theorem IsCorrectlyRounded.mul {q : ℚ} {preferred u s : ℤ}
    (h : IsCorrectlyRounded q preferred u s) (p : ℤ) :
    IsCorrectlyRounded (q * 10 ^ (-p)) (preferred + p) u (s + p) := by
  constructor
  · rintro ⟨v, t, hw⟩
    obtain ⟨hwrites, hclosest⟩ := h.exact ⟨v, t - p, writes_mul_iff.1 hw⟩
    refine ⟨writes_mul_iff.2 (by rwa [add_sub_cancel_right]), fun v' t' hw' hne => ?_⟩
    have hlt := hclosest v' (t' - p) (writes_mul_iff.1 hw') fun heq => hne (by omega)
    rwa [add_sub_add_right_eq_sub, ← sub_sub, sub_right_comm]
  · intro hinex
    refine (h.inexact ?_).mul p
    rintro ⟨v, t, hw⟩
    exact hinex ⟨v, t + p, writes_mul_iff.2 (by rwa [add_sub_cancel_right])⟩

end SplitCalc
