import Mathlib.Algebra.Order.Floor.Semifield
import Mathlib.Data.Rat.Floor
import Mathlib.Tactic.Linarith
import Mathlib.Tactic.NormNum
import Mathlib.Tactic.Positivity
import Mathlib.Tactic.Ring
import SplitCalc.Double.Shortest
import SplitCalc.Proofs.Magnitude
import SplitCalc.Proofs.Quotient

/-!
# The shortest digits are the shortest

The digits that are found for a magnitude read back as it, no fewer digits do, and none of the
same number that do are nearer to its value (`Scaled.IsShortest`).

The search looks at one grid after the other, the decimals with one digit, two digits and so on.
What it finds rests on three facts.

* Reading keeps the order of the values. So if any point of a grid reads back as the magnitude,
  then one of the two neighbours of its value does (`Magnitude.exists_readsBackAt?`).
* On the grid of 17 digits the nearer neighbour is close enough to read back
  (`Magnitude.exists_readsBackAt?_seventeen`).
* The upper neighbour may have one digit too many, but then it is a power of ten, and its last zero
  is dropped (`Scaled.count_dropZeros_le`).
-/

namespace SplitCalc

namespace Scaled

variable {m : Magnitude} {s t : Scaled}

/-! ### The value of shifted digits -/

/-- A value is at most `q` exactly when its digits are at most `q` moved up by the shift. -/
theorem value_le_iff {q : ℚ} : s.value ≤ q ↔ (s.digits : ℚ) ≤ q * 10 ^ s.shift := by
  rw [value, decimalValue, zpow_neg, ← div_eq_mul_inv, div_le_iff₀ (ten_zpow_pos _),
    Int.cast_natCast]

/-- A value exceeds `q` exactly when its digits exceed `q` moved up by the shift. -/
theorem lt_value_iff {q : ℚ} : q < s.value ↔ q * 10 ^ s.shift < s.digits := by
  rw [← not_le, value_le_iff, not_le]

/-- The value of digits other than zero reaches the power of ten of the first one. -/
theorem zpow_leadingExponent_le_value (hdigits : s.digits ≠ 0) :
    (10 : ℚ) ^ s.leadingExponent ≤ s.value := by
  obtain ⟨hlow, -⟩ := Digits.count_bounds (Nat.pos_of_ne_zero hdigits)
  rw [leadingExponent, value, decimalValue, sub_eq_add_neg _ s.shift, zpow_add₀ (by norm_num),
    Int.cast_natCast]
  exact mul_le_mul_of_nonneg_right hlow (ten_zpow_pos _).le

/-- The value of shifted digits is below the next power of ten. -/
theorem value_lt_zpow (s : Scaled) : s.value < 10 ^ (s.leadingExponent + 1) := by
  have hhigh : (s.digits : ℚ) < 10 ^ (s.count : ℤ) := by
    rw [zpow_natCast]
    exact_mod_cast Digits.lt_ten_pow_count s.digits
  have hlast : s.leadingExponent + 1 = s.count + -s.shift := by
    rw [leadingExponent]
    ring
  rw [hlast, value, decimalValue, zpow_add₀ (by norm_num), Int.cast_natCast]
  exact mul_lt_mul_of_pos_right hhigh (ten_zpow_pos _)

/-! ### Reading shifted digits -/

/-- The quotient that is rounded to read shifted digits makes their value. -/
theorem shifted_div_eq_value (s : Scaled) :
    (shiftedNum 10 (-s.shift) s.digits / shiftedDen 10 (-s.shift) 1 : ℚ) = s.value := by
  rw [shiftedNum_div_shiftedDen (by norm_num), Nat.cast_one, div_one]
  rfl

theorem shiftedDen_one_pos (s : Scaled) : 0 < shiftedDen 10 (-s.shift) 1 :=
  shiftedDen_pos (by norm_num) _ one_pos

/-- **Reading keeps the order** of values. -/
theorem rank_toMagnitude_mono (h : s.value ≤ t.value) :
    s.toMagnitude.rank ≤ t.toMagnitude.rank := by
  refine Magnitude.rank_nearest_mono s.shiftedDen_one_pos t.shiftedDen_one_pos ?_
  rwa [shifted_div_eq_value, shifted_div_eq_value]

/-- Digits are read by their value only. -/
theorem toMagnitude_congr (h : s.value = t.value) : s.toMagnitude = t.toMagnitude := by
  refine Magnitude.nearest_congr s.shiftedDen_one_pos t.shiftedDen_one_pos ?_
  rwa [shifted_div_eq_value, shifted_div_eq_value]

/-- Digits next to a magnitude are read as it. -/
theorem toMagnitude_of_abs_sub_lt (h : |s.value - m.value| * 2 ^ 54 < m.value) :
    s.toMagnitude = m := by
  refine Magnitude.nearest_of_abs_sub_lt s.shiftedDen_one_pos ?_
  rwa [shifted_div_eq_value]

/-- Digits up to a magnitude are not read as a larger one. -/
theorem rank_toMagnitude_le (h : s.value ≤ m.value) : s.toMagnitude.rank ≤ m.rank := by
  rw [← Magnitude.nearest_of_eq_value m.den_pos m.num_div_den]
  refine Magnitude.rank_nearest_mono s.shiftedDen_one_pos m.den_pos ?_
  rwa [shifted_div_eq_value, Magnitude.num_div_den]

/-- Digits from a magnitude on are not read as a smaller one. -/
theorem le_rank_toMagnitude (h : m.value ≤ s.value) : m.rank ≤ s.toMagnitude.rank := by
  rw [← Magnitude.nearest_of_eq_value m.den_pos m.num_div_den]
  refine Magnitude.rank_nearest_mono m.den_pos s.shiftedDen_one_pos ?_
  rwa [shifted_div_eq_value, Magnitude.num_div_den]

/-- Digits below a magnitude are read as it if smaller ones are. -/
theorem toMagnitude_eq_of_le (hs : s.toMagnitude = m) (hst : s.value ≤ t.value)
    (ht : t.value ≤ m.value) : t.toMagnitude = m := by
  have hmono := rank_toMagnitude_mono hst
  rw [hs] at hmono
  exact Magnitude.ext (le_antisymm (rank_toMagnitude_le ht) hmono)

/-- Digits above a magnitude are read as it if larger ones are. -/
theorem toMagnitude_eq_of_ge (hs : s.toMagnitude = m) (hts : t.value ≤ s.value)
    (ht : m.value ≤ t.value) : t.toMagnitude = m := by
  have hmono := rank_toMagnitude_mono hts
  rw [hs] at hmono
  exact Magnitude.ext (le_antisymm hmono (le_rank_toMagnitude ht))

/-! ### Shortest digits -/

/-- Digits that are read as a magnitude are **shortest** when no fewer digits are, and no digits
of the same number that are nearer to the magnitude. -/
structure IsShortest (s : Scaled) (m : Magnitude) : Prop where
  /-- The digits are read as the magnitude. -/
  toMagnitude_eq : s.toMagnitude = m
  /-- No fewer digits are. -/
  count_le : ∀ t : Scaled, t.toMagnitude = m → s.count ≤ t.count
  /-- Among those of the same number, none are nearer. -/
  abs_sub_le : ∀ t : Scaled, t.toMagnitude = m → t.count = s.count →
    |s.value - m.value| ≤ |t.value - m.value|

/-- Dropping zeros leaves at most as many digits as a power of ten behind them has zeros. -/
theorem count_dropZeros_le {limit count : ℕ} (hlimit : 0 < limit) (hcount : 0 < count)
    (h : s.digits ≤ 10 ^ count) : (dropZeros limit s).count ≤ count := by
  obtain ⟨j, -, -, hdigits, hstop⟩ := dropZeros_eq limit s
  refine (Digits.count_le_iff hcount).2 (lt_of_le_of_ne ?_ fun hpower => ?_)
  · refine le_trans ?_ h
    rw [hdigits]
    exact Nat.le_mul_of_pos_right _ (by positivity)
  · -- a power of ten can lose one more zero, and is not reached with any left
    have hdvd : 10 ∣ (dropZeros limit s).digits := hpower ▸ dvd_pow_self 10 hcount.ne'
    have hzeros : 0 < j := by
      rcases hstop with rfl | hlast
      · exact hlimit
      · exact absurd hdvd hlast
    have hmore : 10 ^ count * 10 ^ j ≤ 10 ^ count := by
      calc 10 ^ count * 10 ^ j = s.digits := by rw [hdigits, hpower]; rfl
        _ ≤ 10 ^ count := h
    have hone : 1 < 10 ^ j := Nat.one_lt_pow hzeros.ne' (by norm_num)
    have hpos : 0 < 10 ^ count := by positivity
    exact hmore.not_gt ((lt_mul_iff_one_lt_right hpos).2 hone)

/-- Dropping as many zeros as a power of ten has leaves none at the end of a positive number up to
it. -/
theorem not_dvd_dropZeros {limit : ℕ} (hpos : s.digits ≠ 0) (h : s.digits ≤ 10 ^ limit) :
    ¬10 ∣ (dropZeros limit s).digits := by
  obtain ⟨j, -, -, hdigits, rfl | hlast⟩ := dropZeros_eq limit s
  · have hle : (dropZeros j s).digits * 10 ^ j ≤ 1 * 10 ^ j := by
      rw [← hdigits, one_mul]
      exact h
    have hone : (dropZeros j s).digits ≤ 1 := Nat.le_of_mul_le_mul_right hle (by positivity)
    have hne : (dropZeros j s).digits ≠ 0 := fun hzero => hpos (by rw [hdigits, hzero, zero_mul])
    omega
  · exact hlast

end Scaled

namespace Magnitude

variable {m : Magnitude} {count : ℕ} {s t : Scaled}

/-! ### The neighbours on a grid -/

variable (m count) in
/-- The scale of the grid of `count` digits around a magnitude. -/
def gridShift : ℤ :=
  (count : ℤ) - 1 - decimalExponent m.num m.den

variable (m count) in
/-- The last point of a grid up to a magnitude. -/
def lower : Scaled :=
  ⟨shiftedNum 10 (m.gridShift count) m.num / shiftedDen 10 (m.gridShift count) m.den,
    m.gridShift count⟩

variable (m count) in
/-- The first point of a grid beyond a magnitude. -/
def upper : Scaled :=
  ⟨(m.lower count).digits + 1, m.gridShift count⟩

/-- The search on one grid, by its two neighbours. -/
theorem readsBackAt?_eq (m : Magnitude) (count : ℕ) :
    m.readsBackAt? count =
      if (m.upper count).toMagnitude = m ∧ ((m.lower count).toMagnitude ≠ m ∨
          shiftedDen 10 (m.gridShift count) m.den ≤ 2 * (shiftedNum 10 (m.gridShift count) m.num %
            shiftedDen 10 (m.gridShift count) m.den)) then
        some (m.upper count)
      else if (m.lower count).toMagnitude = m then some (m.lower count)
      else none :=
  rfl

/-- A magnitude in units of a grid. -/
theorem grid_div (m : Magnitude) (count : ℕ) :
    (shiftedNum 10 (m.gridShift count) m.num / shiftedDen 10 (m.gridShift count) m.den : ℚ) =
      m.value * 10 ^ m.gridShift count := by
  rw [shiftedNum_div_shiftedDen (by norm_num), num_div_den]
  rfl

theorem grid_nonneg (m : Magnitude) (count : ℕ) : 0 ≤ m.value * 10 ^ m.gridShift count :=
  mul_nonneg m.value_nonneg (ten_zpow_pos _).le

theorem digits_lower (m : Magnitude) (count : ℕ) :
    (m.lower count).digits = ⌊m.value * 10 ^ m.gridShift count⌋₊ := by
  rw [← grid_div, Nat.floor_div_eq_div]
  rfl

/-- The lower neighbour is at most the magnitude. -/
theorem value_lower_le (m : Magnitude) (count : ℕ) : (m.lower count).value ≤ m.value := by
  rw [Scaled.value_le_iff, digits_lower]
  exact Nat.floor_le (m.grid_nonneg count)

/-- The upper neighbour is larger than the magnitude. -/
theorem lt_value_upper (m : Magnitude) (count : ℕ) : m.value < (m.upper count).value := by
  rw [Scaled.lt_value_iff, upper, digits_lower, Nat.cast_succ]
  exact Nat.lt_floor_add_one _

/-- The neighbours are one unit of the grid apart. -/
theorem value_upper_sub (m : Magnitude) (count : ℕ) :
    (m.upper count).value - (m.lower count).value = 10 ^ (-m.gridShift count) := by
  simp only [Scaled.value, decimalValue, upper, lower]
  push_cast
  ring

/-- The remainder tells which of the neighbours is nearer. -/
theorem le_two_mul_mod_iff (m : Magnitude) (count : ℕ) :
    shiftedDen 10 (m.gridShift count) m.den ≤
        2 * (shiftedNum 10 (m.gridShift count) m.num % shiftedDen 10 (m.gridShift count) m.den) ↔
      (m.upper count).value - m.value ≤ m.value - (m.lower count).value := by
  have hden : 0 < shiftedDen 10 (m.gridShift count) m.den :=
    shiftedDen_pos (by norm_num) _ m.den_pos
  have hden' : (0 : ℚ) < shiftedDen 10 (m.gridShift count) m.den := by exact_mod_cast hden
  have hunit := value_upper_sub m count
  have hunit_pos := ten_zpow_pos (-m.gridShift count)
  have hrest : m.value - (m.lower count).value =
      (shiftedNum 10 (m.gridShift count) m.num % shiftedDen 10 (m.gridShift count) m.den : ℕ) /
        shiftedDen 10 (m.gridShift count) m.den * 10 ^ (-m.gridShift count) := by
    have hback : m.value = m.value * 10 ^ m.gridShift count * 10 ^ (-m.gridShift count) := by
      rw [mul_assoc, ← zpow_add₀ (by norm_num), add_neg_cancel, zpow_zero, mul_one]
    rw [hback, ← grid_div, div_eq_floor_add hden, Scaled.value, decimalValue, lower,
      Int.cast_natCast]
    ring
  -- both sides say that one unit is at most twice the distance to the lower neighbour
  rw [← @Nat.cast_le ℚ, Nat.cast_mul, Nat.cast_ofNat, ← one_le_div hden', mul_div_assoc,
    ← mul_le_mul_iff_of_pos_right hunit_pos, one_mul, mul_assoc, ← hrest, ← hunit]
  constructor <;> intro h <;> linarith

/-- A grid begins with the power of ten of the first digit. -/
theorem zpow_decimalExponent_le_value (hm : m ≠ zero) :
    (10 : ℚ) ^ decimalExponent m.num m.den ≤ m.value := by
  rw [← num_div_den]
  exact (decimalExponent_bounds (num_pos hm) m.den_pos).1

/-- On a grid, a magnitude has at most as many digits before the point as the grid has. -/
theorem value_mul_lt (hm : m ≠ zero) : m.value * 10 ^ m.gridShift count < 10 ^ count := by
  have hlt := (decimalExponent_bounds (num_pos hm) m.den_pos).2
  have hplaces : decimalExponent m.num m.den + 1 + m.gridShift count = count := by
    rw [gridShift]
    ring
  rw [num_div_den] at hlt
  calc m.value * 10 ^ m.gridShift count
      < 10 ^ (decimalExponent m.num m.den + 1) * 10 ^ m.gridShift count :=
        mul_lt_mul_of_pos_right hlt (ten_zpow_pos _)
    _ = 10 ^ count := by
        rw [← zpow_add₀ (by norm_num), hplaces, zpow_natCast]

/-- The upper neighbour has the digits of its grid, or it is the first number with one digit
more. -/
theorem digits_upper_le (hm : m ≠ zero) : (m.upper count).digits ≤ 10 ^ count := by
  rw [upper, digits_lower]
  refine (Nat.floor_lt (m.grid_nonneg count)).2 ?_
  exact_mod_cast value_mul_lt hm

/-! ### No point lies between the neighbours -/

/-- A number whose shift is at most that of a grid is a point of the grid. -/
theorem exists_value_eq (h : t.shift ≤ m.gridShift count) :
    ∃ k : ℕ, t.value = (Scaled.mk k (m.gridShift count)).value := by
  refine ⟨t.digits * 10 ^ (m.gridShift count - t.shift).toNat, ?_⟩
  rw [Scaled.value, decimalValue_of_le h, Scaled.value_mk]
  push_cast
  rfl

/-- A point of a grid up to a magnitude is at most its lower neighbour. -/
theorem le_value_lower_of_shift_le (hshift : t.shift ≤ m.gridShift count)
    (h : t.value ≤ m.value) : t.value ≤ (m.lower count).value := by
  obtain ⟨k, hk⟩ := exists_value_eq hshift
  rw [hk, Scaled.value_le_iff] at h
  rw [hk]
  refine decimalValue_le_iff.2 (Int.ofNat_le.2 ?_)
  rw [digits_lower]
  exact Nat.le_floor h

/-- A point of a grid beyond a magnitude is at least its upper neighbour. -/
theorem value_upper_le_of_shift_le (hshift : t.shift ≤ m.gridShift count)
    (h : m.value < t.value) : (m.upper count).value ≤ t.value := by
  obtain ⟨k, hk⟩ := exists_value_eq hshift
  rw [hk, Scaled.lt_value_iff] at h
  rw [hk]
  refine decimalValue_le_iff.2 (Int.ofNat_le.2 (Nat.succ_le_of_lt ?_))
  rw [digits_lower]
  exact (Nat.floor_lt (m.grid_nonneg count)).2 h

/-- Numbers of at most `count` digits that are no points of the grid are too small for it. -/
theorem value_lt_of_gridShift_lt (hcount : t.count ≤ count) (hshift : m.gridShift count < t.shift) :
    t.value < 10 ^ decimalExponent m.num m.den := by
  refine t.value_lt_zpow.trans_le (zpow_le_zpow_right₀ (by norm_num) ?_)
  rw [gridShift] at hshift
  rw [Scaled.leadingExponent]
  omega

/-- The lower neighbour has as many digits as the grid. -/
theorem zpow_decimalExponent_le_value_lower (hm : m ≠ zero) (hcount : 0 < count) :
    (10 : ℚ) ^ decimalExponent m.num m.den ≤ (m.lower count).value := by
  have hfirst : (Scaled.mk (10 ^ (count - 1)) (m.gridShift count)).value =
      10 ^ decimalExponent m.num m.den := by
    have hdigits : ((count - 1 : ℕ) : ℤ) - m.gridShift count = decimalExponent m.num m.den := by
      rw [gridShift]
      omega
    rw [Scaled.value_mk, Nat.cast_pow, Nat.cast_ofNat, decimalValue_ten_pow, hdigits]
  rw [← hfirst]
  refine le_value_lower_of_shift_le le_rfl ?_
  rw [hfirst]
  exact zpow_decimalExponent_le_value hm

/-- **No number of so few digits** lies between the lower neighbour and the magnitude. -/
theorem le_value_lower (hm : m ≠ zero) (hpos : 0 < count) (hcount : t.count ≤ count)
    (h : t.value ≤ m.value) : t.value ≤ (m.lower count).value := by
  rcases le_or_gt t.shift (m.gridShift count) with hshift | hshift
  · exact le_value_lower_of_shift_le hshift h
  · exact (value_lt_of_gridShift_lt hcount hshift).le.trans
      (zpow_decimalExponent_le_value_lower hm hpos)

/-- **No number of so few digits** lies between the magnitude and the upper neighbour. -/
theorem value_upper_le (hm : m ≠ zero) (hcount : t.count ≤ count) (h : m.value < t.value) :
    (m.upper count).value ≤ t.value := by
  rcases le_or_gt t.shift (m.gridShift count) with hshift | hshift
  · exact value_upper_le_of_shift_le hshift h
  · have hlt := value_lt_of_gridShift_lt hcount hshift
    exact absurd (hlt.trans_le (zpow_decimalExponent_le_value hm)) h.not_gt

/-! ### One grid -/

/-- A neighbour is found on a grid exactly if one of the two reads back. -/
theorem exists_readsBackAt?_of_neighbour
    (h : (m.upper count).toMagnitude = m ∨ (m.lower count).toMagnitude = m) :
    ∃ s, m.readsBackAt? count = some s := by
  rw [readsBackAt?_eq]
  by_cases hlower : (m.lower count).toMagnitude = m
  · rw [if_pos hlower]
    split <;> exact ⟨_, rfl⟩
  · have hupper := h.resolve_right hlower
    exact ⟨_, if_pos ⟨hupper, Or.inl hlower⟩⟩

/-- **A number of so few digits** that is read as the magnitude makes the search succeed. -/
theorem exists_readsBackAt? (hm : m ≠ zero) (hpos : 0 < count) (hcount : t.count ≤ count)
    (ht : t.toMagnitude = m) : ∃ s, m.readsBackAt? count = some s := by
  refine exists_readsBackAt?_of_neighbour ?_
  rcases le_or_gt t.value m.value with hle | hlt
  · exact Or.inr (Scaled.toMagnitude_eq_of_le ht (le_value_lower hm hpos hcount hle)
      (value_lower_le m count))
  · exact Or.inl (Scaled.toMagnitude_eq_of_ge ht (value_upper_le hm hcount hlt)
      (lt_value_upper m count).le)

/-- What is found on a grid is a neighbour that reads back. -/
theorem readsBackAt?_eq_some (h : m.readsBackAt? count = some s) :
    s.toMagnitude = m ∧ (s = m.upper count ∨ s = m.lower count) := by
  rw [readsBackAt?_eq] at h
  split at h
  · rename_i hupper
    obtain rfl := Option.some.inj h
    exact ⟨hupper.1, Or.inl rfl⟩
  · rw [Option.ite_none_right_eq_some, Option.some.injEq] at h
    obtain ⟨hlower, rfl⟩ := h
    exact ⟨hlower, Or.inr rfl⟩

/-- What is found on a grid is at least as near as any number of so few digits that reads back. -/
theorem abs_sub_le_of_readsBackAt? (hm : m ≠ zero) (hpos : 0 < count)
    (h : m.readsBackAt? count = some s) (hcount : t.count ≤ count) (ht : t.toMagnitude = m) :
    |s.value - m.value| ≤ |t.value - m.value| := by
  have hlow := value_lower_le m count
  have hhigh := lt_value_upper m count
  rw [readsBackAt?_eq] at h
  simp only [le_two_mul_mod_iff] at h
  split at h
  · rename_i hupper
    obtain rfl := Option.some.inj h
    rw [abs_of_pos (sub_pos.2 hhigh)]
    rcases le_or_gt t.value m.value with hle | hlt
    · have hbeyond := le_value_lower hm hpos hcount hle
      -- the lower neighbour reads back too, so the upper one has been taken as the nearer
      have hlower : (m.lower count).toMagnitude = m :=
        Scaled.toMagnitude_eq_of_le ht hbeyond hlow
      have hnear := hupper.2.resolve_left (not_not.2 hlower)
      rw [abs_of_nonpos (sub_nonpos.2 hle)]
      linarith
    · have hbeyond := value_upper_le hm hcount hlt
      rw [abs_of_pos (sub_pos.2 hlt)]
      linarith
  · rename_i hupper
    rw [Option.ite_none_right_eq_some, Option.some.injEq] at h
    obtain ⟨-, rfl⟩ := h
    rw [abs_of_nonpos (sub_nonpos.2 hlow)]
    rcases le_or_gt t.value m.value with hle | hlt
    · have hbeyond := le_value_lower hm hpos hcount hle
      rw [abs_of_nonpos (sub_nonpos.2 hle)]
      linarith
    · have hbeyond := value_upper_le hm hcount hlt
      -- the upper neighbour reads back too, so it has been left as the farther
      have hread : (m.upper count).toMagnitude = m :=
        Scaled.toMagnitude_eq_of_ge ht hbeyond hhigh.le
      have hfar := not_le.1 fun hle => hupper ⟨hread, Or.inr hle⟩
      rw [abs_of_pos (sub_pos.2 hlt)]
      linarith

/-- **Seventeen digits suffice**: the nearer neighbour on their grid reads back. -/
theorem exists_readsBackAt?_seventeen (hm : m ≠ zero) : ∃ s, m.readsBackAt? 17 = some s := by
  have hlow := value_lower_le m 17
  have hhigh := lt_value_upper m 17
  have hunit := value_upper_sub m 17
  have hpos := ten_zpow_pos (-m.gridShift 17)
  have hplaces : -m.gridShift 17 + 16 = decimalExponent m.num m.den := by
    rw [gridShift]
    omega
  -- half a unit of the grid is less than one part in `2 ^ 54`
  have hsmall : (10 : ℚ) ^ (-m.gridShift 17) / 2 * 2 ^ 54 < m.value := by
    calc (10 : ℚ) ^ (-m.gridShift 17) / 2 * 2 ^ 54
        < 10 ^ (-m.gridShift 17) * 10 ^ (16 : ℤ) := by
          rw [show (10 : ℚ) ^ (16 : ℤ) = 10000000000000000 by norm_num]
          linarith
      _ = 10 ^ decimalExponent m.num m.den := by
          rw [← zpow_add₀ (by norm_num), hplaces]
      _ ≤ m.value := zpow_decimalExponent_le_value hm
  refine exists_readsBackAt?_of_neighbour ?_
  rcases le_total ((m.upper 17).value - m.value) (m.value - (m.lower 17).value) with hnear | hnear
  · refine Or.inl (Scaled.toMagnitude_of_abs_sub_lt (lt_of_le_of_lt ?_ hsmall))
    rw [abs_of_pos (sub_pos.2 hhigh)]
    linarith
  · refine Or.inr (Scaled.toMagnitude_of_abs_sub_lt (lt_of_le_of_lt ?_ hsmall))
    rw [abs_of_nonpos (sub_nonpos.2 hlow)]
    linarith

/-! ### The search -/

/-- The search ends on the first grid that has a neighbour which reads back. -/
theorem exists_first_grid (hm : m ≠ zero) :
    ∃ count s, 0 < count ∧ count ≤ 17 ∧ m.readsBackAt? count = some s ∧
      m.shortest = s.dropZeros 17 ∧ ∀ fewer, 0 < fewer → fewer < count →
        m.readsBackAt? fewer = none := by
  obtain ⟨s, hs⟩ : ∃ s, (List.range' 1 17).findSome? m.readsBackAt? = some s := by
    rw [← Option.isSome_iff_exists, List.findSome?_isSome_iff]
    exact ⟨17, by decide, Option.isSome_iff_exists.2 (exists_readsBackAt?_seventeen hm)⟩
  obtain ⟨front, count, back, hsplit, hfound, hnone⟩ := List.findSome?_eq_some_iff.1 hs
  obtain ⟨k, hk, hfront, hback⟩ := List.range'_eq_append_iff.1 hsplit
  obtain ⟨hcount, hrest, -⟩ := List.range'_eq_cons_iff.1 hback.symm
  refine ⟨count, s, by omega, by omega, hfound, ?_, fun fewer hpos hlt => hnone fewer ?_⟩
  · rw [shortest, hs, Option.getD_some]
  · rw [hfront, List.mem_range'_1]
    omega

/-- The digits on a grid are below the first power of ten with one digit more, or they are this
power. -/
theorem digits_le_of_readsBackAt? (hm : m ≠ zero) (h : m.readsBackAt? count = some s) :
    s.digits ≤ 10 ^ count := by
  have hupper : (m.upper count).digits ≤ 10 ^ count := digits_upper_le hm
  obtain ⟨-, rfl | rfl⟩ := readsBackAt?_eq_some h
  · exact hupper
  · exact (Nat.le_succ _).trans hupper

/-- **The digits that are found are shortest.** -/
theorem isShortest_shortest (hm : m ≠ zero) : m.shortest.IsShortest m := by
  obtain ⟨count, s, hpos, hle, hfound, hshortest, hnone⟩ := exists_first_grid hm
  obtain ⟨hread, -⟩ := readsBackAt?_eq_some hfound
  have hcount : m.shortest.count ≤ count := by
    rw [hshortest]
    exact Scaled.count_dropZeros_le (by norm_num) hpos (digits_le_of_readsBackAt? hm hfound)
  have hvalue : m.shortest.value = s.value := by
    rw [hshortest, Scaled.value_dropZeros]
  refine ⟨(Scaled.toMagnitude_congr hvalue).trans hread, fun t ht => hcount.trans ?_,
    fun t ht h => ?_⟩
  · -- with fewer digits the search would have ended before
    by_contra hlt
    have hbefore := hnone t.count (Digits.count_pos _) (by omega)
    obtain ⟨s', hs'⟩ := exists_readsBackAt? hm (Digits.count_pos t.digits) le_rfl ht
    exact Option.some_ne_none s' (hs'.symm.trans hbefore)
  · rw [hvalue]
    exact abs_sub_le_of_readsBackAt? hm hpos hfound (h.trans_le hcount) ht

/-- A double has at most 17 shortest digits. -/
theorem count_shortest_le (hm : m ≠ zero) : m.shortest.count ≤ 17 := by
  obtain ⟨count, s, hpos, hle, hfound, hshortest, -⟩ := exists_first_grid hm
  have hdigits := digits_le_of_readsBackAt? hm hfound
  rw [hshortest]
  exact (Scaled.count_dropZeros_le (by norm_num) hpos hdigits).trans hle

/-- The first of the shortest digits is not zero. -/
theorem digits_shortest_ne_zero (hm : m ≠ zero) : m.shortest.digits ≠ 0 := by
  intro hzero
  refine hm ?_
  rw [← (isShortest_shortest hm).toMagnitude_eq, Scaled.toMagnitude, hzero, nearest,
    if_pos (by simp [shiftedNum])]

/-- The last of the shortest digits is not zero. -/
theorem not_dvd_digits_shortest (hm : m ≠ zero) : ¬10 ∣ m.shortest.digits := by
  obtain ⟨count, s, -, hle, hfound, hshortest, -⟩ := exists_first_grid hm
  have hne := digits_shortest_ne_zero hm
  have hdigits : s.digits ≤ 10 ^ 17 :=
    (digits_le_of_readsBackAt? hm hfound).trans (Nat.pow_le_pow_right (by norm_num) hle)
  rw [hshortest] at hne ⊢
  refine Scaled.not_dvd_dropZeros (fun hzero => hne ?_) hdigits
  obtain ⟨j, -, -, hsplit, -⟩ := Scaled.dropZeros_eq 17 s
  rw [hzero] at hsplit
  exact (Nat.mul_eq_zero.1 hsplit.symm).resolve_right (by positivity)

end Magnitude

end SplitCalc
