import Mathlib.Analysis.SpecialFunctions.Log.Base
import SplitCalc.Decimal.Arithmetic
import SplitCalc.Proofs.DoubleArithmetic
import SplitCalc.Proofs.Value

/-!
# Powers of a bounded size

A power is exact. It is refused before it is computed when its digits might become too many,
and that is judged by the bit length of the base alone: times the exponent and the logarithm
of two it must not exceed `maxDigits` (`affordable_iff_estimate`).

The estimate is made in doubles. Up to `maxBits` the product of bit length and exponent is exact,
and beyond it stays beyond. Rounding keeps the order, so the estimates at `maxBits` and one further,
on the two sides of the limit, settle all others (`lt_powerDigits_iff`).

The estimate counts `bitLength m` where the binary logarithm of `m` would be exact. It is never
smaller than that logarithm, so an affordable power has at most `maxDigits` digits
(`IsBitCapacity.count_pow_le`). For a base of at least two it is at most twice as large, so
every power of at most half as many digits is affordable (`IsBitCapacity.mul_le_of_count_pow`).
-/

namespace SplitCalc

namespace Decimal

/-! ### Bit lengths -/

/-- A number is below the power of two that its bit length names. -/
theorem lt_two_pow_bitLength (m : ℕ) : m < 2 ^ bitLength m :=
  Nat.lt_log2_self

/-- A positive number reaches the power of two of its first bit. -/
theorem two_pow_le_of_pos {m : ℕ} (hm : 0 < m) : 2 ^ (bitLength m - 1) ≤ m :=
  Nat.log2_self_le hm.ne'

/-- A number of at least two has at least two bits. -/
private theorem two_le_bitLength {m : ℕ} (hm : 2 ≤ m) : 2 ≤ bitLength m := by
  have hlt : 2 ^ 1 < 2 ^ bitLength m := hm.trans_lt (lt_two_pow_bitLength m)
  exact (Nat.pow_lt_pow_iff_right (by norm_num)).1 hlt

/-! ### Bits and digits -/

/-- The **bit capacity** of a number of digits is the greatest number of bits which they are
sure to hold. -/
structure IsBitCapacity (digits bits : ℕ) : Prop where
  /-- So many bits fit. -/
  two_pow_le : 2 ^ bits ≤ 10 ^ digits
  /-- One bit more may not fit. -/
  lt_two_pow_succ : 10 ^ digits < 2 ^ (bits + 1)

/-- Definitional unfolding of `IsBitCapacity`. -/
theorem isBitCapacity_iff {digits bits : ℕ} :
    IsBitCapacity digits bits ↔
      Nat.pow 2 bits ≤ Nat.pow 10 digits ∧ Nat.pow 10 digits < Nat.pow 2 (bits + 1) :=
  ⟨fun h => ⟨h.1, h.2⟩, fun h => ⟨h.1, h.2⟩⟩

/-- The most bits that are sure to make at most `maxDigits` digits. -/
def maxBits : ℕ := 332192

/-- The bit capacity of `maxDigits` digits is `maxBits`. -/
theorem isBitCapacity_maxBits : IsBitCapacity maxDigits maxBits :=
  isBitCapacity_iff.2 (by decide +kernel)

namespace IsBitCapacity

variable {digits bits : ℕ} (h : IsBitCapacity digits bits)
include h

/-- A power of two within the digits has at most as many bits as the capacity. -/
theorem le_of_two_pow_le {k : ℕ} (hk : 2 ^ k ≤ 10 ^ digits) : k ≤ bits := by
  have hlt : 2 ^ k < 2 ^ (bits + 1) := hk.trans_lt h.lt_two_pow_succ
  exact Nat.le_of_lt_succ ((Nat.pow_lt_pow_iff_right (by norm_num)).1 hlt)

/-- Bits are within the capacity exactly when the digits that they make, rounded up, are at most
`digits`. -/
theorem le_iff_ceil_le {k : ℕ} : k ≤ bits ↔ ⌈(k : ℝ) * Real.logb 10 2⌉ ≤ (digits : ℤ) := by
  have hpow : k ≤ bits ↔ 2 ^ k ≤ 10 ^ digits :=
    ⟨fun hk => (Nat.pow_le_pow_right (by norm_num) hk).trans h.two_pow_le, h.le_of_two_pow_le⟩
  rw [hpow, Int.ceil_le, ← Real.logb_pow, Real.logb_le_iff_le_rpow (by norm_num) (by positivity),
    Int.cast_natCast, Real.rpow_natCast]
  exact_mod_cast Iff.rfl

/-- A power whose bits are within the capacity is within the digits. -/
theorem count_pow_le (hdigits : 0 < digits) {m n : ℕ} (hbits : bitLength m * n ≤ bits) :
    Digits.count (m ^ n) ≤ digits := by
  refine (Digits.count_le_iff hdigits).2 ?_
  rcases Nat.eq_zero_or_pos n with rfl | hn
  · rw [pow_zero]
    exact Nat.one_lt_pow hdigits.ne' (by norm_num)
  · calc m ^ n < (2 ^ bitLength m) ^ n := Nat.pow_lt_pow_left (lt_two_pow_bitLength m) hn.ne'
      _ = 2 ^ (bitLength m * n) := (pow_mul _ _ _).symm
      _ ≤ 2 ^ bits := Nat.pow_le_pow_right (by norm_num) hbits
      _ ≤ 10 ^ digits := h.two_pow_le

/-- A power of at most half the digits has bits within the capacity. -/
theorem mul_le_of_count_pow {m n : ℕ} (hm : 2 ≤ m) (hcount : 2 * Digits.count (m ^ n) ≤ digits) :
    bitLength m * n ≤ bits := by
  have hbits : bitLength m * n ≤ (bitLength m - 1) * n * 2 := by
    have := two_le_bitLength hm
    rw [mul_right_comm]
    exact Nat.mul_le_mul_right n (by omega)
  refine h.le_of_two_pow_le ?_
  calc 2 ^ (bitLength m * n) ≤ 2 ^ ((bitLength m - 1) * n * 2) :=
        Nat.pow_le_pow_right (by norm_num) hbits
    _ = ((2 ^ (bitLength m - 1)) ^ n) ^ 2 := by rw [pow_mul, pow_mul]
    _ ≤ (m ^ n) ^ 2 :=
        Nat.pow_le_pow_left (Nat.pow_le_pow_left (two_pow_le_of_pos (by omega)) n) 2
    _ ≤ (10 ^ Digits.count (m ^ n)) ^ 2 :=
        Nat.pow_le_pow_left (Digits.lt_ten_pow_count (m ^ n)).le 2
    _ = 10 ^ (2 * Digits.count (m ^ n)) := by rw [← pow_mul, mul_comm]
    _ ≤ 10 ^ digits := Nat.pow_le_pow_right (by norm_num) hcount

end IsBitCapacity

/-! ### The guard -/

section Guard

open Magnitude (nearest)

variable {m : Magnitude} {bits n : ℕ}

/-- The decimal logarithm of two as a magnitude. -/
def logTwoMagnitude : Magnitude :=
  nearest 301029995663981195213738894724493027 (Nat.pow 10 36)

theorem logTwo_eq : Double.logTwo = .signed false logTwoMagnitude := by
  decide +kernel

/-- In doubles as well, `maxBits` bits make at most `maxDigits` digits, before rounding up. -/
theorem value_mul_logTwo_le (h : m.value ≤ maxBits) :
    (m.mul logTwoMagnitude).value ≤ maxDigits := by
  have hlast : ((nearest maxBits 1).mul logTwoMagnitude).value ≤ (nearest maxDigits 1).value :=
    Magnitude.rank_le_iff.1 (by decide +kernel)
  rw [← Magnitude.value_nearest_one (show maxDigits < 2 * hiddenBit by decide)]
  refine (Magnitude.value_mul_mono ?_).trans hlast
  refine mul_le_mul_of_nonneg_right ?_ logTwoMagnitude.value_nonneg
  rwa [Magnitude.value_nearest_one (by decide)]

/-- In doubles as well, one bit more makes more digits. -/
theorem lt_value_mul_logTwo (h : ((maxBits + 1 : ℕ) : ℚ) ≤ m.value) :
    (maxDigits : ℚ) < (m.mul logTwoMagnitude).value := by
  have hnext : (nearest maxDigits 1).value < ((nearest (maxBits + 1) 1).mul logTwoMagnitude).value :=
    Magnitude.rank_lt_iff.1 (by decide +kernel)
  rw [← Magnitude.value_nearest_one (show maxDigits < 2 * hiddenBit by decide)]
  refine hnext.trans_le (Magnitude.value_mul_mono ?_)
  refine mul_le_mul_of_nonneg_right ?_ logTwoMagnitude.value_nonneg
  rwa [Magnitude.value_nearest_one (by decide)]

/-- The limit is below the next integer when it is below the double itself. -/
theorem lt_ceil_iff : (Double.ofInt maxDigits).lt (Double.ceil (.signed false m)) ↔
    (maxDigits : ℚ) < m.value := by
  have hlimit : maxDigits < 2 * hiddenBit := by decide
  rw [Double.ceil, Double.ofInt_natCast]
  split
  · rename_i hinfinity
    rw [Double.lt_signed_false, Magnitude.value_nearest_one hlimit, hinfinity]
  · rw [← Magnitude.lt_value_ceil_iff (by decide), if_neg (by decide), Double.lt_signed_false,
      Magnitude.value_nearest_one hlimit]

/-- The digits that a product makes are over the limit when the product is more than `maxBits`. -/
theorem lt_ceil_mul_logTwo_iff {k : ℕ} (hlow : k ≤ maxBits → m.value ≤ k)
    (hhigh : maxBits < k → ((maxBits + 1 : ℕ) : ℚ) ≤ m.value) :
    (Double.ofInt maxDigits).lt ((Double.signed false m).mul .logTwo).ceil ↔ maxBits < k := by
  by_cases hinfinity : m = .infinity
  · rw [hinfinity] at hlow ⊢
    refine iff_of_true (by decide +kernel) (Nat.lt_of_not_le fun hk => ?_)
    have hvalue : Magnitude.infinity.value ≤ maxBits := (hlow hk).trans (by exact_mod_cast hk)
    rw [Magnitude.value_infinity] at hvalue
    have hpower : (maxBits : ℚ) < 2 ^ (1024 : ℤ) :=
      calc (maxBits : ℚ) < 2 ^ (19 : ℤ) := by norm_num [maxBits]
        _ < 2 ^ (1024 : ℤ) := zpow_lt_zpow_right₀ (by norm_num) (by norm_num)
    exact absurd hvalue (not_le.2 hpower)
  · have hproduct : (Double.signed false m).mul .logTwo =
        .signed false (m.mul logTwoMagnitude) := by
      have hfinite : logTwoMagnitude ≠ .infinity := by decide +kernel
      rw [logTwo_eq, Double.mul, if_neg (not_or.2 ⟨hinfinity, hfinite⟩)]
      rfl
    rw [hproduct, lt_ceil_iff]
    rcases Nat.lt_or_ge maxBits k with hk | hk
    · exact iff_of_true (lt_value_mul_logTwo (hhigh hk)) hk
    · refine iff_of_false (not_lt.2 (value_mul_logTwo_le ?_)) (Nat.not_lt.2 hk)
      exact (hlow hk).trans (by exact_mod_cast hk)

/-- Up to `maxBits`, a product of integers is exact in doubles. -/
theorem value_mul_nearest_le (hbits : 0 < bits) (h : bits * n ≤ maxBits) :
    ((nearest bits 1).mul (nearest n 1)).value ≤ (bits * n : ℕ) := by
  have hlimit : maxBits < 2 * hiddenBit := by decide
  rcases Nat.eq_zero_or_pos n with rfl | hn
  · have hzero : (nearest bits 1).mul (nearest 0 1) = .zero := by
      rw [Magnitude.mul]
      exact if_pos (Nat.mul_zero _)
    rw [hzero, Magnitude.value_zero, Nat.mul_zero, Nat.cast_zero]
  · have hbits' : bits ≤ maxBits := (Nat.le_mul_of_pos_right bits hn).trans h
    have hn' : n ≤ maxBits := (Nat.le_mul_of_pos_left n hbits).trans h
    have hproduct : (nearest bits 1).mul (nearest n 1) = nearest (bits * n) 1 := by
      refine Magnitude.nearest_congr (Nat.mul_pos (Magnitude.den_pos _) (Magnitude.den_pos _))
        one_pos ?_
      rw [Magnitude.num_mul_div, Magnitude.value_nearest_one (hbits'.trans_lt hlimit),
        Magnitude.value_nearest_one (hn'.trans_lt hlimit), Nat.cast_one, div_one, Nat.cast_mul]
    rw [hproduct, Magnitude.value_nearest_one (h.trans_lt hlimit)]

/-- Beyond `maxBits`, a product of integers stays beyond it in doubles. -/
theorem le_value_mul_nearest (h : maxBits < bits * n) :
    ((maxBits + 1 : ℕ) : ℚ) ≤ ((nearest bits 1).mul (nearest n 1)).value := by
  have hlimit : maxBits + 1 < 2 * hiddenBit := by decide
  have hpos : 0 < bits ∧ 0 < n := by
    refine ⟨Nat.pos_of_ne_zero ?_, Nat.pos_of_ne_zero ?_⟩
    · rintro rfl
      rw [Nat.zero_mul] at h
      exact absurd h (Nat.not_lt_zero _)
    · rintro rfl
      exact absurd h (Nat.not_lt_zero _)
  -- factors beyond the limit count as the first integer beyond it
  have hcut : maxBits + 1 ≤ min bits (maxBits + 1) * min n (maxBits + 1) := by
    rcases Nat.le_total bits (maxBits + 1) with hb | hb
    · rcases Nat.le_total n (maxBits + 1) with hk | hk
      · rw [min_eq_left hb, min_eq_left hk]
        exact h
      · rw [min_eq_left hb, min_eq_right hk]
        exact Nat.le_mul_of_pos_left _ hpos.1
    · rw [min_eq_right hb]
      exact Nat.le_mul_of_pos_right _ (Nat.lt_min.2 ⟨hpos.2, Nat.succ_pos _⟩)
  have hfactor : ∀ k : ℕ, ((min k (maxBits + 1) : ℕ) : ℚ) ≤ (nearest k 1).value := fun k =>
    Magnitude.le_value_nearest_one ((min_le_right _ _).trans_lt hlimit) (min_le_left _ _)
  rw [← Magnitude.value_nearest_one hlimit, Magnitude.mul]
  refine Magnitude.value_nearest_mono one_pos
    (Nat.mul_pos (Magnitude.den_pos _) (Magnitude.den_pos _)) ?_
  rw [Magnitude.num_mul_div, Nat.cast_one, div_one]
  calc ((maxBits + 1 : ℕ) : ℚ) ≤ (min bits (maxBits + 1) * min n (maxBits + 1) : ℕ) := by
        exact_mod_cast hcut
    _ ≤ (nearest bits 1).value * (nearest n 1).value := by
        rw [Nat.cast_mul]
        exact mul_le_mul (hfactor bits) (hfactor n) (Nat.cast_nonneg _) (Magnitude.value_nonneg _)

/-- **The guard in doubles.** The digits that are expected of a power exceed the limit exactly when
its bits, taken as often as the exponent says, are more than `maxBits`. -/
theorem lt_powerDigits_iff (hbits : 0 < bits) :
    (Double.ofInt maxDigits).lt (powerDigits bits n) ↔ maxBits < bits * n := by
  rw [powerDigits, Double.ofInt_natCast bits, Double.ofInt_natCast n, Double.mul]
  by_cases hinfinity : nearest bits 1 = .infinity ∨ nearest n 1 = .infinity
  · rw [if_pos hinfinity]
    rcases Nat.eq_zero_or_pos n with rfl | hn
    · -- not a number, which no limit is below
      have hzero : nearest 0 1 = .zero := if_pos rfl
      rw [if_pos (Or.inr hzero)]
      exact iff_of_false (by decide +kernel) (Nat.not_lt_zero _)
    · rw [if_neg (not_or.2
        ⟨Magnitude.nearest_one_ne_zero hbits, Magnitude.nearest_one_ne_zero hn⟩)]
      refine iff_of_true (by decide +kernel) (Nat.lt_of_not_le fun h => ?_)
      have hlimit : maxBits < 2 * hiddenBit := by decide
      refine hinfinity.elim (Magnitude.nearest_one_ne_infinity ?_)
        (Magnitude.nearest_one_ne_infinity ?_)
      · exact (Nat.le_mul_of_pos_right bits hn).trans_lt (h.trans_lt hlimit)
      · exact (Nat.le_mul_of_pos_left n hbits).trans_lt (h.trans_lt hlimit)
  · rw [if_neg hinfinity]
    exact lt_ceil_mul_logTwo_iff (value_mul_nearest_le hbits) le_value_mul_nearest

/-- A power is affordable when its base is at most one in magnitude, or when its bits, taken as
often as the exponent says, are at most `maxBits`. -/
theorem affordable_iff {unscaled : ℤ} {n : ℕ} :
    Affordable unscaled n ↔ unscaled.natAbs ≤ 1 ∨ bitLength unscaled.natAbs * n ≤ maxBits := by
  have hbits : 0 < bitLength unscaled.natAbs := Nat.succ_pos _
  rw [Affordable, lt_powerDigits_iff hbits, Nat.not_lt]

/-- A power is affordable when its base is at most one in magnitude, or when the digits that its
bits make are at most `maxDigits`. -/
theorem affordable_iff_estimate {unscaled : ℤ} {n : ℕ} :
    Affordable unscaled n ↔ unscaled.natAbs ≤ 1 ∨
      ⌈(bitLength unscaled.natAbs : ℝ) * n * Real.logb 10 2⌉ ≤ (maxDigits : ℤ) := by
  rw [affordable_iff, isBitCapacity_maxBits.le_iff_ceil_le, Nat.cast_mul]

end Guard

variable {a : Decimal} {n : ℤ}

/-! ### Powers -/

/-- The parts of a power. -/
theorem pow?_eq_some_iff {r : Decimal} :
    a.pow? n = some r ↔
      (0 ≤ n ∧ Affordable a.unscaled n.toNat) ∧ r.unscaled = a.unscaled ^ n.toNat ∧
        r.scale = a.scale * n := by
  rw [pow?, Option.ite_none_right_eq_some, ofParts?_eq_some_iff, integerPower_eq]
  rfl

/-- When there is a power. -/
theorem pow?_isSome_iff :
    (a.pow? n).isSome ↔ 0 ≤ n ∧ IsWord (a.scale * n) ∧ Affordable a.unscaled n.toNat := by
  rw [Option.isSome_iff_exists]
  constructor
  · rintro ⟨r, hr⟩
    obtain ⟨⟨hn, hafford⟩, -, hscale⟩ := pow?_eq_some_iff.1 hr
    exact ⟨hn, hscale ▸ r.isWord_scale, hafford⟩
  · rintro ⟨hn, hword, hafford⟩
    exact ⟨⟨a.unscaled ^ n.toNat, a.scale * n, hword⟩,
      pow?_eq_some_iff.2 ⟨⟨hn, hafford⟩, rfl, rfl⟩⟩

/-- An affordable power of a base of at least two in magnitude has at most `maxDigits` digits. -/
theorem count_pow_le_of_affordable {unscaled : ℤ} {n : ℕ} (hbase : 2 ≤ unscaled.natAbs)
    (h : Affordable unscaled n) : Digits.count (unscaled.natAbs ^ n) ≤ maxDigits := by
  refine isBitCapacity_maxBits.count_pow_le (by decide) ((affordable_iff.1 h).resolve_left ?_)
  omega

/-- **Powers are exact and bounded.** A power with a negative exponent, or with a scale that is
no word, does not exist. One that exists has exactly the power of the digits and the multiple
of the scale. From a base of at least two in magnitude it has at most 100000 digits, and it
exists as soon as it has at most 50000; for a smaller base the digits are no obstacle. The last
part says when there is a power: the bits of the base, times the exponent, must not make more
than 100000 digits. -/
theorem pow?_exact_within_bounds (a : Decimal) (n : ℤ) :
    (n < 0 ∨ ¬IsWord (a.scale * n) → a.pow? n = none) ∧
      (∀ r, a.pow? n = some r → r.unscaled = a.unscaled ^ n.toNat ∧ r.scale = a.scale * n) ∧
      (2 ≤ a.unscaled.natAbs → ∀ r, a.pow? n = some r →
        Digits.count r.unscaled.natAbs ≤ 100000) ∧
      (2 ≤ a.unscaled.natAbs → 0 ≤ n → IsWord (a.scale * n) →
        Digits.count (a.unscaled.natAbs ^ n.toNat) ≤ 50000 → ∃ r, a.pow? n = some r) ∧
      (a.unscaled.natAbs ≤ 1 → 0 ≤ n → IsWord (a.scale * n) → ∃ r, a.pow? n = some r) ∧
      ((∃ r, a.pow? n = some r) ↔ 0 ≤ n ∧ IsWord (a.scale * n) ∧
        (a.unscaled.natAbs ≤ 1 ∨
          ⌈(bitLength a.unscaled.natAbs : ℝ) * n.toNat * Real.logb 10 2⌉ ≤ 100000)) := by
  simp only [← Option.isSome_iff_exists]
  refine ⟨fun h => ?_, fun r hr => (pow?_eq_some_iff.1 hr).2, fun hbase r hr => ?_,
    fun hbase hn hword hcount => ?_, fun hbase hn hword => ?_, ?_⟩
  · rw [← Option.not_isSome_iff_eq_none, pow?_isSome_iff]
    rintro ⟨hn, hword, -⟩
    exact h.elim hn.not_gt (absurd hword)
  · obtain ⟨⟨-, hafford⟩, hunscaled, -⟩ := pow?_eq_some_iff.1 hr
    rw [hunscaled, Int.natAbs_pow]
    exact count_pow_le_of_affordable hbase hafford
  · refine pow?_isSome_iff.2 ⟨hn, hword, affordable_iff.2 (Or.inr ?_)⟩
    exact isBitCapacity_maxBits.mul_le_of_count_pow hbase (Nat.mul_le_mul_left 2 hcount)
  · exact pow?_isSome_iff.2 ⟨hn, hword, Or.inl hbase⟩
  · rw [pow?_isSome_iff, affordable_iff_estimate]
    rfl

/-- The factor two is reached. The power of two of exactly 50000 digits exists, and the next one,
of 50001 digits, is refused. -/
theorem pow?_exact_within_bounds_of_two :
    Digits.count ((ofInt 2).unscaled.natAbs ^ Int.toNat 166096) ≤ 50000 ∧
      (∃ r, (ofInt 2).pow? 166096 = some r) ∧
      50000 < Digits.count ((ofInt 2).unscaled.natAbs ^ Int.toNat 166097) ∧
      (ofInt 2).pow? 166097 = none := by
  have hcount : Digits.count ((ofInt 2).unscaled.natAbs ^ Int.toNat 166096) ≤ 50000 :=
    (Digits.count_le_iff (by decide)).2 (by decide +kernel)
  have hnext : 50000 < Digits.count ((ofInt 2).unscaled.natAbs ^ Int.toNat 166097) :=
    Nat.lt_of_not_le fun h => absurd ((Digits.count_le_iff (by decide)).1 h) (by decide +kernel)
  refine ⟨hcount, ?_, hnext, by decide +kernel⟩
  exact (pow?_exact_within_bounds (ofInt 2) 166096).2.2.2.1 (by decide) (by decide) (by decide)
    hcount

end Decimal

end SplitCalc
