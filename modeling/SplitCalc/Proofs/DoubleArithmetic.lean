import Mathlib.Data.Rat.Cast.Order
import Mathlib.Data.Real.Basic
import Mathlib.Tactic.FieldSimp
import Mathlib.Tactic.GCongr
import Mathlib.Tactic.Linarith
import Mathlib.Tactic.NormNum
import SplitCalc.Double.Arithmetic
import SplitCalc.Proofs.Magnitude

/-!
# The values of doubles and the error of their arithmetic

The value of a magnitude can be read off the place and the digits that make its rank
(`Magnitude.value_of_rank`), so values ascend with ranks and a rounded quotient is within half a
unit of its last place. A quotient of at most `2 ^ k` is therefore rounded to a finite magnitude
with an error of at most `2 ^ (k - 53)` (`Magnitude.abs_value_nearest_sub_le`), and integers
below `2 ^ 53` are kept as they are.

A finite double denotes a rational number (`Double.Denotes`). The sum, the product and the quotient
of two of them denote a number that close to the exact result, provided that it is not too large,
and the order of doubles is the order of the numbers. A real number is approximated by a double when
the number that this denotes is close (`Double.Approximates`), and errors add up accordingly.

A double rounds a real number when the number lies between two quotients whose nearest double it is
(`Double.Rounds`). There is at most one such double (`Double.Rounds.unique`).
-/

namespace SplitCalc

/-! ### Numbers close to others -/

section Close

variable {e f t u : ℝ}

/-- A number close to another one exceeds its magnitude by the error at most. -/
theorem abs_le_add_of_abs_sub_le {a : ℝ} (h : |a - t| ≤ e) : |a| ≤ |t| + e := by
  have hsplit := abs_add_le t (a - t)
  rw [add_sub_cancel] at hsplit
  exact hsplit.trans (add_le_add_right h _)

/-- Products of numbers close to two others are close to theirs. -/
theorem abs_mul_sub_mul_le {a b : ℝ} (ha : |a - t| ≤ e) (hb : |b - u| ≤ f) :
    |a * b - t * u| ≤ |t| * f + |u| * e + e * f := by
  have hsplit : a * b - t * u = t * (b - u) + u * (a - t) + (a - t) * (b - u) := by ring
  calc |a * b - t * u| = |t * (b - u) + u * (a - t) + (a - t) * (b - u)| := by rw [hsplit]
    _ ≤ |t * (b - u)| + |u * (a - t)| + |(a - t) * (b - u)| := abs_add_three _ _ _
    _ = |t| * |b - u| + |u| * |a - t| + |a - t| * |b - u| := by rw [abs_mul, abs_mul, abs_mul]
    _ ≤ |t| * f + |u| * e + e * f := by
        have he : 0 ≤ e := (abs_nonneg _).trans ha
        gcongr

/-- Quotients of numbers close to two others are close to theirs, when the divisor is at least
one. -/
theorem abs_mul_div_sub_le {a b scale : ℝ} (ha : |a - t| ≤ e) (hb : |b - u| ≤ f)
    (hscale : 0 < scale) (hle : scale ≤ b) (hu : u ≠ 0) :
    |a * scale / b - t / u * scale| ≤ e + |t / u| * f := by
  have hpos : 0 < b := hscale.trans_le hle
  have hshare : scale / b ≤ 1 := (div_le_one hpos).2 hle
  have hsplit : a * scale / b - t / u * scale = ((a - t) - t / u * (b - u)) * (scale / b) := by
    field_simp
    ring
  calc |a * scale / b - t / u * scale| = |(a - t) - t / u * (b - u)| * (scale / b) := by
        rw [hsplit, abs_mul, abs_of_pos (div_pos hscale hpos)]
    _ ≤ |(a - t) - t / u * (b - u)| := mul_le_of_le_one_right (abs_nonneg _) hshare
    _ ≤ |a - t| + |t / u| * |b - u| := by
        rw [← abs_mul]
        exact abs_sub _ _
    _ ≤ e + |t / u| * f := by gcongr

end Close

namespace Magnitude

variable {m n : Magnitude} {num den : ℕ}

/-! ### Values and ranks -/

/-- The value of the magnitude whose rank counts whole binades and the digits behind the hidden
bit. -/
theorem value_of_binade {p k : ℕ} (hk : k < hiddenBit)
    (hrank : m.rank = k + (p + 1) * hiddenBit) :
    m.value = (hiddenBit + k : ℕ) * 2 ^ (leastPlace + p) := by
  have habove : ¬m.rank < hiddenBit := by
    rw [hrank, Nat.succ_mul]
    omega
  have hdiv : m.rank / hiddenBit = p + 1 := by
    rw [hrank, Nat.add_mul_div_right _ _ hiddenBit_pos, Nat.div_eq_of_lt hk, zero_add]
  have hmod : m.rank % hiddenBit = k := by
    rw [hrank, Nat.add_mul_mod_self_right, Nat.mod_eq_of_lt hk]
  have hplace : leastPlace + ((p + 1 : ℕ) : ℤ) - 1 = leastPlace + p := by
    push_cast
    ring
  rw [value, significand, exponent, if_neg habove, if_neg habove, hdiv, hmod, hplace]

/-- The value of the magnitude whose rank a place and digits in units of it make. -/
theorem value_of_rank {place : ℤ} {k : ℕ} (hleast : leastPlace ≤ place) (hhigh : k ≤ 2 * hiddenBit)
    (hlow : place ≠ leastPlace → hiddenBit ≤ k)
    (hrank : m.rank = (place - leastPlace).toNat * hiddenBit + k) : m.value = k * 2 ^ place := by
  rcases Nat.lt_or_ge k hiddenBit with hsmall | hlarge
  · have hplace : place = leastPlace := by
      by_contra hne
      exact absurd (hlow hne) (Nat.not_le.2 hsmall)
    rw [hplace, sub_self, Int.toNat_zero, zero_mul, zero_add] at hrank
    have hbelow : m.rank < hiddenBit := hrank ▸ hsmall
    rw [value, significand, exponent, if_pos hbelow, if_pos hbelow, hrank, hplace]
  · obtain ⟨p, rfl⟩ : ∃ p : ℕ, place = leastPlace + p :=
      ⟨(place - leastPlace).toNat, by omega⟩
    rw [add_sub_cancel_left, Int.toNat_natCast] at hrank
    rcases hhigh.lt_or_eq with hbits | hcarry
    · -- the digits have their hidden bit
      have hsplit : m.rank = (k - hiddenBit) + (p + 1) * hiddenBit := by
        rw [hrank, Nat.succ_mul]
        omega
      rw [value_of_binade (by omega) hsplit, Nat.add_sub_cancel' hlarge]
    · -- one bit more is the next power of two
      have hsplit : m.rank = 0 + (p + 1 + 1) * hiddenBit := by
        rw [hrank, hcarry]
        ring
      rw [value_of_binade hiddenBit_pos hsplit, hcarry, Nat.cast_add_one, ← add_assoc,
        zpow_add_one₀ (by norm_num)]
      push_cast
      ring

/-- Values ascend with ranks. -/
theorem rank_le_iff : m.rank ≤ n.rank ↔ m.value ≤ n.value := by
  have hmono : ∀ {m n : Magnitude}, m.value ≤ n.value → m.rank ≤ n.rank := by
    intro m n h
    have hnearest : (nearest m.num m.den).rank ≤ (nearest n.num n.den).rank := by
      refine rank_nearest_mono m.den_pos n.den_pos ?_
      rwa [num_div_den, num_div_den]
    rwa [nearest_of_eq_value m.den_pos m.num_div_den,
      nearest_of_eq_value n.den_pos n.num_div_den] at hnearest
  refine ⟨fun h => ?_, hmono⟩
  by_contra hlt
  have heq : n = m := Magnitude.ext (le_antisymm (hmono (not_le.1 hlt).le) h)
  exact hlt (heq ▸ le_rfl)

/-- Values ascend with ranks, strictly. -/
theorem rank_lt_iff : m.rank < n.rank ↔ m.value < n.value := by
  rw [← not_le, ← not_le, rank_le_iff]

theorem value_zero : zero.value = 0 := by
  decide +kernel

theorem rank_pos_iff : 0 < m.rank ↔ 0 < m.value := by
  rw [← value_zero, ← rank_lt_iff]
  rfl

/-- Finite magnitudes are those below the value of infinity. -/
theorem ne_infinity_iff : m ≠ infinity ↔ m.value < 2 ^ (1024 : ℤ) := by
  rw [← value_infinity, ← rank_lt_iff]
  exact ⟨fun h => lt_of_le_of_ne m.rank_le fun heq => h (Magnitude.ext heq),
    fun h heq => absurd h (heq ▸ lt_irrefl _)⟩

/-- Rounding keeps the order, of the values as well. -/
theorem value_nearest_mono {num' den' : ℕ} (hden : 0 < den) (hden' : 0 < den')
    (h : (num / den : ℚ) ≤ num' / den') : (nearest num den).value ≤ (nearest num' den').value :=
  rank_le_iff.1 (rank_nearest_mono hden hden' h)

/-- The parts of a product make the product of the values. -/
theorem num_mul_div (m n : Magnitude) :
    ((m.num * n.num : ℕ) : ℚ) / (m.den * n.den : ℕ) = m.value * n.value := by
  rw [Nat.cast_mul, Nat.cast_mul, mul_div_mul_comm, m.num_div_den, n.num_div_den]

/-- Products ascend with their values. -/
theorem value_mul_mono {m' n' : Magnitude} (h : m.value * n.value ≤ m'.value * n'.value) :
    (m.mul n).value ≤ (m'.mul n').value := by
  refine value_nearest_mono (Nat.mul_pos m.den_pos n.den_pos) (Nat.mul_pos m'.den_pos n'.den_pos) ?_
  rwa [num_mul_div, num_mul_div]

/-! ### The error of rounding -/

/-- A finite rounded quotient has the digits that are rounded, in units of the last place. -/
theorem value_nearest (hnum : 0 < num) (hden : 0 < den) {place : ℤ}
    (hplace : IsLastPlace (num / den) place) (hfinite : nearest num den ≠ infinity) :
    (nearest num den).value = roundShifted 2 (-place) num den * 2 ^ place := by
  refine value_of_rank hplace.leastPlace_le (roundShifted_le hden hplace)
    (hiddenBit_le_roundShifted hden hplace) ?_
  have hrank := rank_nearest hnum hden hplace
  rcases min_choice ((place - leastPlace).toNat * hiddenBit + roundShifted 2 (-place) num den)
    infinityRank with hmin | hmin
  · rw [hrank, hmin]
  · rw [hmin] at hrank
    exact absurd (Magnitude.ext hrank) hfinite

/-- A finite rounded quotient is within half a unit of its last place. -/
theorem abs_value_nearest_sub_le_half (hnum : 0 < num) (hden : 0 < den) {place : ℤ}
    (hplace : IsLastPlace (num / den) place) (hfinite : nearest num den ≠ infinity) :
    |(nearest num den).value - num / den| ≤ 2 ^ (place - 1) := by
  have hpos : 0 < shiftedDen 2 (-place) den := shiftedDen_pos (by norm_num) _ hden
  have herror : |num / den * 2 ^ (-place) - (roundShifted 2 (-place) num den : ℚ)| ≤ 1 / 2 := by
    rw [← shifted_div]
    exact abs_sub_roundHalfEven_le_half hpos
  have hback : (num / den : ℚ) = num / den * 2 ^ (-place) * 2 ^ place := by
    rw [mul_assoc, ← zpow_add₀ (by norm_num), neg_add_cancel, zpow_zero, mul_one]
  calc |(nearest num den).value - num / den|
      = |(num / den * 2 ^ (-place) - roundShifted 2 (-place) num den : ℚ)| * 2 ^ place := by
        rw [value_nearest hnum hden hplace hfinite, ← abs_of_pos (two_zpow_pos place), ← abs_mul,
          abs_of_pos (two_zpow_pos place), sub_mul, ← hback, abs_sub_comm]
    _ ≤ 1 / 2 * 2 ^ place := mul_le_mul_of_nonneg_right herror (two_zpow_pos place).le
    _ = 2 ^ (place - 1) := by
        rw [zpow_sub_one₀ (by norm_num)]
        ring

/-- The largest power of two among the finite magnitudes. -/
def lastPower : Magnitude :=
  ⟨2045 * hiddenBit + hiddenBit, by decide⟩

theorem value_lastPower : lastPower.value = 2 ^ (1023 : ℤ) := by
  have hrank : lastPower.rank = (971 - leastPlace).toNat * hiddenBit + hiddenBit := rfl
  have hbits : (fractionBits : ℤ) + 971 = 1023 := rfl
  rw [value_of_rank (by decide) (by decide) (fun _ => le_rfl) hrank, hiddenBit_eq,
    ← zpow_add₀ (by norm_num), hbits]

/-- A quotient up to the largest power of two is rounded to a finite magnitude. -/
theorem nearest_ne_infinity (hden : 0 < den) (h : (num / den : ℚ) ≤ 2 ^ (1023 : ℤ)) :
    nearest num den ≠ infinity := by
  have hmono : (nearest num den).value ≤ lastPower.value := by
    rw [← nearest_of_eq_value lastPower.den_pos lastPower.num_div_den]
    refine value_nearest_mono hden lastPower.den_pos ?_
    rwa [lastPower.num_div_den, value_lastPower]
  rw [ne_infinity_iff]
  rw [value_lastPower] at hmono
  exact hmono.trans_lt (zpow_lt_zpow_right₀ (by norm_num) (by norm_num))

/-- **The error of rounding.** A quotient of at most `2 ^ k` is rounded with an error of at most
`2 ^ (k - 53)`. -/
theorem abs_value_nearest_sub_le (hden : 0 < den) {k : ℤ} (hlow : -1021 ≤ k) (hhigh : k ≤ 1023)
    (h : (num / den : ℚ) ≤ 2 ^ k) :
    nearest num den ≠ infinity ∧ |(nearest num den).value - num / den| ≤ 2 ^ (k - 53) := by
  have hfinite : nearest num den ≠ infinity :=
    nearest_ne_infinity hden (h.trans (zpow_le_zpow_right₀ (by norm_num) hhigh))
  refine ⟨hfinite, ?_⟩
  rcases Nat.eq_zero_or_pos num with rfl | hnum
  · rw [nearest, if_pos rfl, value_zero, Nat.cast_zero, zero_div, sub_zero, abs_zero]
    exact (two_zpow_pos _).le
  · have hplace := isLastPlace_lastPlace hnum hden
    generalize lastPlace num den = place at hplace
    have hbound : place ≤ k - 52 := by
      by_contra hlt
      have hne : place ≠ leastPlace := by
        have hleast : leastPlace = -1074 := rfl
        omega
      have hpow : (2 : ℚ) ^ (place + fractionBits) ≤ 2 ^ k := (hplace.le hne).trans h
      rw [zpow_le_zpow_iff_right₀ (by norm_num)] at hpow
      have hbits : (fractionBits : ℤ) = 52 := rfl
      omega
    exact (abs_value_nearest_sub_le_half hnum hden hplace hfinite).trans
      (zpow_le_zpow_right₀ (by norm_num) (by omega))

/-- The last place of an integer below `2 ^ 53` does not stand before the point. -/
theorem IsLastPlace.nonpos {k : ℕ} {place : ℤ} (h : IsLastPlace k place)
    (hk : (k : ℚ) < 2 ^ (53 : ℤ)) : place ≤ 0 := by
  by_contra hlt
  have hne : place ≠ leastPlace := by
    have hleast : leastPlace = -1074 := rfl
    omega
  have hpow : (2 : ℚ) ^ (place + fractionBits) < 2 ^ (53 : ℤ) := (h.le hne).trans_lt hk
  rw [zpow_lt_zpow_iff_right₀ (by norm_num)] at hpow
  have hbits : (fractionBits : ℤ) = 52 := rfl
  omega

/-- Integers below `2 ^ 53` are not rounded. -/
theorem value_nearest_one {k : ℕ} (hk : k < 2 * hiddenBit) : (nearest k 1).value = k := by
  rcases Nat.eq_zero_or_pos k with rfl | hpos
  · rw [nearest, if_pos rfl, value_zero, Nat.cast_zero]
  have hk' : (k : ℚ) < 2 ^ (53 : ℤ) := by
    calc (k : ℚ) < 2 * hiddenBit := by exact_mod_cast hk
      _ = 2 ^ (53 : ℤ) := by
          rw [hiddenBit_eq]
          norm_num [fractionBits]
  have hfinite : nearest k 1 ≠ infinity := by
    refine nearest_ne_infinity one_pos ?_
    rw [Nat.cast_one, div_one]
    exact hk'.le.trans (zpow_le_zpow_right₀ (by norm_num) (by norm_num))
  have hplace := isLastPlace_lastPlace hpos one_pos
  generalize lastPlace k 1 = place at hplace
  have hint : place ≤ 0 := by
    refine IsLastPlace.nonpos ?_ hk'
    rwa [Nat.cast_one, div_one] at hplace
  have hden : shiftedDen 2 (-place) 1 = 1 := by
    have hnone : (- -place).toNat = 0 := by omega
    rw [shiftedDen, hnone, Nat.pow_eq, pow_zero, one_mul]
  -- the last place stands behind the point, so nothing is cut off
  have hdigits : ((roundShifted 2 (-place) k 1 : ℕ) : ℚ) = k * 2 ^ (-place) := by
    have hquotient := shifted_div place k 1
    rw [hden, Nat.cast_one, div_one, div_one] at hquotient
    rw [roundShifted, hden, roundHalfEven_one, hquotient]
  rw [value_nearest hpos one_pos hplace hfinite, hdigits, mul_assoc,
    ← zpow_add₀ (by norm_num), neg_add_cancel, zpow_zero, mul_one]

/-- Larger integers are not rounded below them. -/
theorem le_value_nearest_one {j k : ℕ} (hj : j < 2 * hiddenBit) (hjk : j ≤ k) :
    (j : ℚ) ≤ (nearest k 1).value := by
  rw [← value_nearest_one hj]
  refine value_nearest_mono one_pos one_pos ?_
  rw [Nat.cast_one, div_one, div_one]
  exact_mod_cast hjk

/-- A positive integer is not rounded to zero. -/
theorem nearest_one_ne_zero {k : ℕ} (hk : 0 < k) : nearest k 1 ≠ zero := by
  intro hzero
  have hvalue : ((1 : ℕ) : ℚ) ≤ (nearest k 1).value := le_value_nearest_one (by decide) hk
  rw [hzero, value_zero, Nat.cast_one] at hvalue
  exact absurd hvalue (by norm_num)

/-- Integers below `2 ^ 53` are finite magnitudes. -/
theorem nearest_one_ne_infinity {k : ℕ} (hk : k < 2 * hiddenBit) : nearest k 1 ≠ infinity := by
  rw [ne_infinity_iff, value_nearest_one hk]
  have hcast : (k : ℚ) < 2 * hiddenBit := by exact_mod_cast hk
  calc (k : ℚ) < 2 * hiddenBit := hcast
    _ ≤ 2 ^ (1024 : ℤ) := by
        rw [hiddenBit_eq, ← zpow_one_add₀ (by norm_num)]
        exact zpow_le_zpow_right₀ (by norm_num) (by decide)

/-- The least integer from a magnitude on is above another integer when the magnitude is. -/
theorem lt_value_ceil_iff {k : ℕ} (hk : k + 1 < 2 * hiddenBit) :
    (k : ℚ) < m.ceil.value ↔ (k : ℚ) < m.value := by
  have hden : (0 : ℚ) < m.den := by exact_mod_cast m.den_pos
  have hvalue : (k : ℚ) < m.value ↔ k * m.den < m.num := by
    rw [← m.num_div_den, lt_div_iff₀ hden]
    exact_mod_cast Iff.rfl
  have hceil : k * m.den < m.num ↔ k + 1 ≤ (m.num + m.den - 1) / m.den := by
    rw [Nat.le_div_iff_mul_le m.den_pos, Nat.succ_mul]
    have := m.den_pos
    omega
  rw [hvalue, hceil, ceil]
  constructor
  · intro h
    by_contra hle
    have hmono : (nearest ((m.num + m.den - 1) / m.den) 1).value ≤ (nearest k 1).value := by
      refine value_nearest_mono one_pos one_pos ?_
      rw [Nat.cast_one, div_one, div_one]
      exact_mod_cast Nat.lt_succ_iff.1 (not_le.1 hle)
    rw [value_nearest_one (show k < 2 * hiddenBit by omega)] at hmono
    exact absurd h (not_lt.2 hmono)
  · intro h
    calc (k : ℚ) < (k + 1 : ℕ) := by exact_mod_cast Nat.lt_succ_self k
      _ ≤ _ := le_value_nearest_one hk h

end Magnitude

namespace Double

/-! ### The number that a double denotes -/

/-- The number of a sign and a magnitude. -/
def signedValue (negative : Bool) (q : ℚ) : ℚ :=
  if negative then -q else q

/-- A double **denotes** a rational number when it is finite and has this value. -/
def Denotes (x : Double) (q : ℚ) : Prop :=
  ∃ negative m, x = .signed negative m ∧ m ≠ .infinity ∧ q = signedValue negative m.value

variable {x y : Double} {p q : ℚ} {k : ℤ} {den : ℕ}

/-- A rounded quotient with a sign denotes a number close to it. -/
theorem exists_denotes_nearest (negative : Bool) {num : ℕ} (hden : 0 < den) (hlow : -1021 ≤ k)
    (hhigh : k ≤ 1023) (h : (num / den : ℚ) ≤ 2 ^ k) :
    ∃ r, (signed negative (.nearest num den)).Denotes r ∧
      |r - signedValue negative (num / den)| ≤ 2 ^ (k - 53) := by
  obtain ⟨hfinite, herror⟩ := Magnitude.abs_value_nearest_sub_le hden hlow hhigh h
  refine ⟨_, ⟨negative, _, rfl, hfinite, rfl⟩, ?_⟩
  cases negative
  · exact herror
  · rw [signedValue, signedValue, if_pos rfl, if_pos rfl, neg_sub_neg, abs_sub_comm]
    exact herror

/-- A quotient of integers, as a sign and a quotient of natural numbers. -/
theorem signedValue_natAbs (num : ℤ) (den : ℕ) :
    signedValue (decide (num < 0)) (num.natAbs / den) = num / den := by
  rw [signedValue, Nat.cast_natAbs, Int.cast_abs]
  split
  · rename_i hneg
    have hneg' : (num : ℚ) < 0 := by exact_mod_cast of_decide_eq_true hneg
    rw [abs_of_neg hneg']
    ring
  · rename_i hnonneg
    have hnonneg' : (0 : ℚ) ≤ num := by
      exact_mod_cast not_lt.1 fun hneg => hnonneg (decide_eq_true hneg)
    rw [abs_of_nonneg hnonneg']

/-- The double nearest to a quotient denotes a number close to it. -/
theorem exists_denotes_ofQuotient {num : ℤ} (hden : 0 < den) (hlow : -1021 ≤ k) (hhigh : k ≤ 1023)
    (h : |(num / den : ℚ)| ≤ 2 ^ k) :
    ∃ r, (ofQuotient num den).Denotes r ∧ |r - num / den| ≤ 2 ^ (k - 53) := by
  have habs : (num.natAbs / den : ℚ) ≤ 2 ^ k := by
    rwa [Nat.cast_natAbs, Int.cast_abs, ← Nat.abs_cast den, ← abs_div]
  obtain ⟨r, hr, herror⟩ := exists_denotes_nearest (decide (num < 0)) hden hlow hhigh habs
  rw [signedValue_natAbs] at herror
  exact ⟨r, hr, herror⟩

/-- A quotient of natural numbers becomes a double without a minus. -/
theorem ofQuotient_natCast (k den : ℕ) : ofQuotient k den = .signed false (.nearest k den) := by
  have hnonneg : ¬(k : ℤ) < 0 := Int.not_lt.2 (Int.natCast_nonneg k)
  rw [ofQuotient, decide_eq_false hnonneg, Int.natAbs_natCast]

/-- A natural number becomes a double without a minus. -/
theorem ofInt_natCast (k : ℕ) : ofInt k = .signed false (.nearest k 1) :=
  ofQuotient_natCast k 1

/-- A natural number below `2 ^ 53` denotes itself. -/
theorem denotes_ofInt {k : ℕ} (hk : k < 2 * hiddenBit) : (ofInt k).Denotes k :=
  ⟨false, .nearest k 1, ofInt_natCast k, Magnitude.nearest_one_ne_infinity hk,
    (Magnitude.value_nearest_one hk).symm⟩

/-! ### Operations -/

/-- A product of signed numbers. -/
theorem signedValue_mul (s t : Bool) (p q : ℚ) :
    signedValue s p * signedValue t q = signedValue (s != t) (p * q) := by
  cases s <;> cases t <;> simp [signedValue]

/-- A quotient of signed numbers. -/
theorem signedValue_div (s t : Bool) (p q : ℚ) :
    signedValue s p / signedValue t q = signedValue (s != t) (p / q) := by
  cases s <;> cases t <;> simp [signedValue, neg_div, div_neg]

/-- The sign does not count for the size. -/
theorem abs_signedValue (negative : Bool) {q : ℚ} (hq : 0 ≤ q) : |signedValue negative q| = q := by
  cases negative
  · exact abs_of_nonneg hq
  · rw [signedValue, if_pos rfl, abs_neg, abs_of_nonneg hq]

/-- **The error of a product.** -/
theorem Denotes.mul (hx : x.Denotes p) (hy : y.Denotes q) (hlow : -1021 ≤ k) (hhigh : k ≤ 1023)
    (h : |p * q| ≤ 2 ^ k) : ∃ r, (x.mul y).Denotes r ∧ |r - p * q| ≤ 2 ^ (k - 53) := by
  obtain ⟨s, m, rfl, hm, rfl⟩ := hx
  obtain ⟨t, n, rfl, hn, rfl⟩ := hy
  have hbound : (((m.num * n.num : ℕ) : ℚ) / (m.den * n.den : ℕ)) ≤ 2 ^ k := by
    rwa [signedValue_mul, abs_signedValue _ (mul_nonneg m.value_nonneg n.value_nonneg),
      ← Magnitude.num_mul_div] at h
  obtain ⟨r, hr, herror⟩ := exists_denotes_nearest (s != t) (Nat.mul_pos m.den_pos n.den_pos) hlow
    hhigh hbound
  rw [Magnitude.num_mul_div, ← signedValue_mul] at herror
  refine ⟨r, ?_, herror⟩
  rw [Double.mul, if_neg (not_or.2 ⟨hm, hn⟩)]
  exact hr

/-- **The error of a quotient.** -/
theorem Denotes.div (hx : x.Denotes p) (hy : y.Denotes q) (hq : q ≠ 0) (hlow : -1021 ≤ k)
    (hhigh : k ≤ 1023) (h : |p / q| ≤ 2 ^ k) :
    ∃ r, (x.div y).Denotes r ∧ |r - p / q| ≤ 2 ^ (k - 53) := by
  obtain ⟨s, m, rfl, hm, rfl⟩ := hx
  obtain ⟨t, n, rfl, hn, rfl⟩ := hy
  have hzero : n ≠ .zero := by
    rintro rfl
    rw [Magnitude.value_zero] at hq
    cases t <;> simp [signedValue] at hq
  have hquotient : (((m.num * n.den : ℕ) : ℚ) / (m.den * n.num : ℕ)) = m.value / n.value := by
    rw [Nat.cast_mul, Nat.cast_mul, mul_div_mul_comm, m.num_div_den, ← n.num_div_den, ← inv_div,
      div_eq_mul_inv _ ((n.num : ℚ) / n.den)]
  have hbound : (((m.num * n.den : ℕ) : ℚ) / (m.den * n.num : ℕ)) ≤ 2 ^ k := by
    rwa [signedValue_div, abs_signedValue _ (div_nonneg m.value_nonneg n.value_nonneg),
      ← hquotient] at h
  obtain ⟨r, hr, herror⟩ := exists_denotes_nearest (s != t)
    (Nat.mul_pos m.den_pos (Magnitude.num_pos hzero)) hlow hhigh hbound
  rw [hquotient, ← signedValue_div] at herror
  refine ⟨r, ?_, herror⟩
  rw [Double.div, if_neg hm, if_neg hn, if_neg hzero]
  exact hr

/-- A signed part of a sum over a common denominator. -/
theorem signed_div (negative : Bool) (m n : Magnitude) :
    ((Decimal.signed negative (m.num * n.den) : ℤ) : ℚ) / (m.den * n.den : ℕ) =
      signedValue negative m.value := by
  have hden : (n.den : ℚ) ≠ 0 := by exact_mod_cast n.den_pos.ne'
  have hquotient : (((m.num * n.den : ℕ) : ℚ) / (m.den * n.den : ℕ)) = m.value := by
    rw [Nat.cast_mul, Nat.cast_mul, mul_div_mul_right _ _ hden, m.num_div_den]
  cases negative
  · rw [Decimal.signed_false, Int.cast_natCast, hquotient]
    rfl
  · rw [Decimal.signed_true, Int.cast_neg, Int.cast_natCast, neg_div, hquotient]
    rfl

/-- **The error of a sum.** -/
theorem Denotes.add (hx : x.Denotes p) (hy : y.Denotes q) (hlow : -1021 ≤ k) (hhigh : k ≤ 1023)
    (h : |p + q| ≤ 2 ^ k) : ∃ r, (x.add y).Denotes r ∧ |r - (p + q)| ≤ 2 ^ (k - 53) := by
  obtain ⟨s, m, rfl, hm, rfl⟩ := hx
  obtain ⟨t, n, rfl, hn, rfl⟩ := hy
  rw [Double.add, if_neg hm, if_neg hn]
  have hsum : ((Decimal.signed s (m.num * n.den) + Decimal.signed t (n.num * m.den) : ℤ) : ℚ) /
      (m.den * n.den : ℕ) = signedValue s m.value + signedValue t n.value := by
    rw [Int.cast_add, add_div, signed_div, mul_comm m.den, signed_div]
  rw [← hsum] at h ⊢
  generalize Decimal.signed s (m.num * n.den) + Decimal.signed t (n.num * m.den) = sum at h ⊢
  dsimp only
  split
  · rename_i hzero
    refine ⟨0, ⟨s && t, .zero, rfl, by decide, ?_⟩, ?_⟩
    · rw [Magnitude.value_zero]
      cases s && t <;> simp [signedValue]
    · rw [hzero, Int.cast_zero, zero_div, sub_zero, abs_zero]
      exact (two_zpow_pos _).le
  · exact exists_denotes_ofQuotient (Nat.mul_pos m.den_pos n.den_pos) hlow hhigh h

/-! ### Order -/

/-- Positive doubles are ordered as their magnitudes are, infinity included. -/
theorem lt_signed_false {m n : Magnitude} :
    (signed false m).lt (.signed false n) ↔ m.value < n.value := by
  rw [lt, decide_eq_true_eq, ← Magnitude.rank_lt_iff]
  exact Int.ofNat_lt

/-- **The order of doubles** is that of the numbers that they denote. -/
theorem Denotes.lt_iff (hx : x.Denotes p) (hy : y.Denotes q) : x.lt y ↔ p < q := by
  obtain ⟨s, m, rfl, -, rfl⟩ := hx
  obtain ⟨t, n, rfl, -, rfl⟩ := hy
  have hm := m.value_nonneg
  have hn := n.value_nonneg
  rw [lt, decide_eq_true_eq]
  cases s <;> cases t
  · exact Int.ofNat_lt.trans Magnitude.rank_lt_iff
  · rw [Decimal.signed_false, Decimal.signed_true]
    refine iff_of_false (by omega) ?_
    simp only [signedValue, if_true, Bool.false_eq_true, if_false]
    linarith
  · -- zero is not less than its negative
    rw [Decimal.signed_true, Decimal.signed_false]
    simp only [signedValue, if_true, Bool.false_eq_true, if_false]
    have hranks : -(m.rank : ℤ) < n.rank ↔ 0 < m.rank ∨ 0 < n.rank := by omega
    rw [hranks, Magnitude.rank_pos_iff, Magnitude.rank_pos_iff]
    constructor
    · rintro (h | h)
      · linarith
      · linarith
    · intro h
      by_contra! hle
      linarith [hle.1, hle.2]
  · rw [Decimal.signed_true, Decimal.signed_true, Int.neg_lt_neg_iff, Int.ofNat_lt,
      Magnitude.rank_lt_iff]
    exact neg_lt_neg_iff.symm

/-! ### Approximation -/

section Approximation

variable {e f r s : ℝ}

/-- A power of two among the real numbers. -/
theorem two_zpow_eq_cast (k : ℤ) : (2 : ℝ) ^ k = ((2 ^ k : ℚ) : ℝ) := by
  rw [Rat.cast_zpow, Rat.cast_ofNat]

/-- Bounds by a power of two are the same among the real numbers. -/
theorem abs_cast_le_iff : |(q : ℝ)| ≤ 2 ^ k ↔ |q| ≤ 2 ^ k := by
  rw [two_zpow_eq_cast, ← Rat.cast_abs, Rat.cast_le]

/-- A double **approximates** a real number up to an error when it denotes a number that close. -/
def Approximates (e : ℝ) (x : Double) (r : ℝ) : Prop :=
  ∃ q : ℚ, x.Denotes q ∧ |(q : ℝ) - r| ≤ e

theorem Denotes.approximates (hx : x.Denotes q) : Approximates 0 x q :=
  ⟨q, hx, by rw [sub_self, abs_zero]⟩

/-- An error may be taken larger. -/
theorem Approximates.mono (hx : Approximates e x r) (h : e ≤ f) : Approximates f x r := by
  obtain ⟨q, hq, herror⟩ := hx
  exact ⟨q, hq, herror.trans h⟩

/-- The number may be replaced by another one close to it. -/
theorem Approximates.trans (hx : Approximates e x r) (h : |r - s| ≤ f) :
    Approximates (e + f) x s := by
  obtain ⟨q, hq, herror⟩ := hx
  exact ⟨q, hq, (abs_sub_le _ r s).trans (add_le_add herror h)⟩

/-- A result close to an exact one that approximates a real number. -/
theorem Approximates.of_exists {exact : ℚ} (h : ∃ q, x.Denotes q ∧ |q - exact| ≤ 2 ^ k)
    (hexact : |(exact : ℝ) - r| ≤ e) : Approximates (2 ^ k + e) x r := by
  obtain ⟨q, hq, herror⟩ := h
  have herror' : |(q : ℝ) - exact| ≤ 2 ^ k := by
    rw [← Rat.cast_sub]
    exact abs_cast_le_iff.2 herror
  exact Approximates.trans ⟨q, hq, herror'⟩ hexact

theorem Approximates.add (hx : Approximates e x r) (hy : Approximates f y s) (hlow : -1021 ≤ k)
    (hhigh : k ≤ 1023) (h : |r| + e + (|s| + f) ≤ 2 ^ k) :
    Approximates (2 ^ (k - 53) + (e + f)) (x.add y) (r + s) := by
  obtain ⟨p, hp, hpr⟩ := hx
  obtain ⟨q, hq, hqs⟩ := hy
  have hbound : |p + q| ≤ 2 ^ k := by
    rw [← abs_cast_le_iff, Rat.cast_add]
    exact (abs_add_le _ _).trans <|
      (add_le_add (abs_le_add_of_abs_sub_le hpr) (abs_le_add_of_abs_sub_le hqs)).trans h
  refine .of_exists (hp.add hq hlow hhigh hbound) ?_
  rw [Rat.cast_add, add_sub_add_comm]
  exact (abs_add_le _ _).trans (add_le_add hpr hqs)

theorem Approximates.mul (hx : Approximates e x r) (hy : Approximates f y s) (hlow : -1021 ≤ k)
    (hhigh : k ≤ 1023) (h : (|r| + e) * (|s| + f) ≤ 2 ^ k) :
    Approximates (2 ^ (k - 53) + (|r| * f + |s| * e + e * f)) (x.mul y) (r * s) := by
  obtain ⟨p, hp, hpr⟩ := hx
  obtain ⟨q, hq, hqs⟩ := hy
  have hbound : |p * q| ≤ 2 ^ k := by
    have hp' := abs_le_add_of_abs_sub_le hpr
    rw [← abs_cast_le_iff, Rat.cast_mul, abs_mul]
    exact (mul_le_mul hp' (abs_le_add_of_abs_sub_le hqs) (abs_nonneg _)
      ((abs_nonneg _).trans hp')).trans h
  refine .of_exists (hp.mul hq hlow hhigh hbound) ?_
  rw [Rat.cast_mul]
  exact abs_mul_sub_mul_le hpr hqs

/-- Quotients are approximated as long as the divisor is at least one. -/
theorem Approximates.div (hx : Approximates e x r) (hy : Approximates f y s) (hs : 1 ≤ s - f)
    (hlow : -1021 ≤ k) (hhigh : k ≤ 1023) (h : |r / s| + (e + |r / s| * f) ≤ 2 ^ k) :
    Approximates (2 ^ (k - 53) + (e + |r / s| * f)) (x.div y) (r / s) := by
  obtain ⟨p, hp, hpr⟩ := hx
  obtain ⟨q, hq, hqs⟩ := hy
  have hone : (1 : ℝ) ≤ q := by
    obtain ⟨hbelow, -⟩ := abs_le.1 hqs
    linarith
  have hsz : s ≠ 0 := by
    have := (abs_nonneg _).trans hqs
    exact (show 0 < s by linarith).ne'
  have hclose : |(p : ℝ) / q - r / s| ≤ e + |r / s| * f := by
    have hquotient := abs_mul_div_sub_le hpr hqs one_pos hone hsz
    rwa [mul_one, mul_one] at hquotient
  have hbound : |p / q| ≤ 2 ^ k := by
    rw [← abs_cast_le_iff, Rat.cast_div]
    exact (abs_le_add_of_abs_sub_le hclose).trans h
  have hqz : q ≠ 0 := by
    rintro rfl
    rw [Rat.cast_zero] at hone
    exact absurd hone (by norm_num)
  refine .of_exists (hp.div hq hqz hlow hhigh hbound) ?_
  rw [Rat.cast_div]
  exact hclose

/-- A quotient of integers, rounded, approximates what the quotient does. -/
theorem approximates_ofQuotient {num : ℤ} (hden : 0 < den) (hlow : -1021 ≤ k) (hhigh : k ≤ 1023)
    (h : |(num / den : ℝ)| ≤ 2 ^ k) (hr : |(num / den : ℝ) - r| ≤ e) :
    Approximates (2 ^ (k - 53) + e) (ofQuotient num den) r := by
  have hbound : |(num / den : ℚ)| ≤ 2 ^ k := by
    rw [← abs_cast_le_iff]
    push_cast
    exact h
  refine .of_exists (exists_denotes_ofQuotient hden hlow hhigh hbound) ?_
  push_cast
  exact hr

end Approximation

/-! ### Correct rounding -/

section Rounds

variable {r : ℝ}

/-- A double **rounds** a real number when the number lies between two quotients whose nearest
double it is. -/
def Rounds (x : Double) (r : ℝ) : Prop :=
  ∃ (low high : ℤ) (den den' : ℕ), (0 < den ∧ 0 < den') ∧
    ((low / den : ℝ) ≤ r ∧ r ≤ high / den') ∧ ofQuotient low den = x ∧ ofQuotient high den' = x

/-- The sign of a quotient is the sign of every smaller one, when it is negative. -/
theorem neg_of_div_le {num num' : ℤ} {den' : ℕ} (hden : 0 < den) (hden' : 0 < den')
    (h : (num / den : ℝ) ≤ num' / den') (hneg : num' < 0) : num < 0 := by
  have hden0 : (0 : ℝ) < den := by exact_mod_cast hden
  have hden0' : (0 : ℝ) < den' := by exact_mod_cast hden'
  have hneg' : (num' : ℝ) / den' < 0 := div_neg_of_neg_of_pos (by exact_mod_cast hneg) hden0'
  have hquotient : (num : ℝ) / den < 0 := h.trans_lt hneg'
  rw [div_neg_iff] at hquotient
  exact_mod_cast (hquotient.resolve_left fun hpos => absurd hpos.2 hden0.not_gt).1

/-- Rounded magnitudes ascend with the sizes of the quotients. -/
theorem rank_natAbs_mono {num num' : ℤ} {den' : ℕ} (hden : 0 < den) (hden' : 0 < den')
    (h : |(num / den : ℝ)| ≤ |(num' / den' : ℝ)|) :
    (Magnitude.nearest num.natAbs den).rank ≤ (Magnitude.nearest num'.natAbs den').rank := by
  refine Magnitude.rank_nearest_mono hden hden' ?_
  rw [abs_div, abs_div, Nat.abs_cast, Nat.abs_cast, ← Int.cast_abs, ← Int.cast_abs,
    ← Nat.cast_natAbs, ← Nat.cast_natAbs] at h
  rw [← Rat.cast_le (K := ℝ)]
  push_cast
  exact h

/-- **At most one double** rounds a real number. -/
theorem Rounds.unique (hx : x.Rounds r) (hy : y.Rounds r) : x = y := by
  obtain ⟨low, high, den, den₁, ⟨hden, hden₁⟩, ⟨hlow, hhigh⟩, rfl, hx⟩ := hx
  obtain ⟨low', high', den', den₁', ⟨hden', hden₁'⟩, ⟨hlow', hhigh'⟩, rfl, hy⟩ := hy
  rw [ofQuotient, ofQuotient, Double.signed.injEq, decide_eq_decide] at hx hy
  obtain ⟨hxsign, hxrank⟩ := hx
  obtain ⟨hysign, hyrank⟩ := hy
  have hcross : (low / den : ℝ) ≤ high' / den₁' := hlow.trans hhigh'
  have hcross' : (low' / den' : ℝ) ≤ high / den₁ := hlow'.trans hhigh
  have hsign : low < 0 ↔ low' < 0 :=
    ⟨fun h => neg_of_div_le hden' hden₁ hcross' (hxsign.2 h),
      fun h => neg_of_div_le hden hden₁' hcross (hysign.2 h)⟩
  rw [ofQuotient, ofQuotient, Double.signed.injEq, decide_eq_decide]
  refine ⟨hsign, Magnitude.ext ?_⟩
  have hquotient : ∀ {num : ℤ} {den : ℕ}, num < 0 → (num / den : ℝ) ≤ 0 := fun h =>
    div_nonpos_of_nonpos_of_nonneg (by exact_mod_cast h.le) (Nat.cast_nonneg _)
  have hquotient' : ∀ {num : ℤ} {den : ℕ}, ¬num < 0 → 0 ≤ (num / den : ℝ) := fun h =>
    div_nonneg (by exact_mod_cast not_lt.1 h) (Nat.cast_nonneg _)
  by_cases hneg : low < 0
  · have hback := rank_natAbs_mono hden₁' hden
      (abs_le_abs_of_nonpos (hquotient (hysign.2 (hsign.1 hneg))) hcross)
    have hforth := rank_natAbs_mono hden₁ hden'
      (abs_le_abs_of_nonpos (hquotient (hxsign.2 hneg)) hcross')
    rw [hyrank] at hback
    rw [hxrank] at hforth
    exact le_antisymm hforth hback
  · have hforth := rank_natAbs_mono hden hden₁' (abs_le_abs_of_nonneg (hquotient' hneg) hcross)
    have hback := rank_natAbs_mono hden' hden₁
      (abs_le_abs_of_nonneg (hquotient' (mt hsign.2 hneg)) hcross')
    rw [hyrank] at hforth
    rw [hxrank] at hback
    exact le_antisymm hforth hback

end Rounds

end Double

end SplitCalc
