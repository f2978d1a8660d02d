import Mathlib.Tactic.Linarith
import Mathlib.Tactic.NormNum
import SplitCalc.Proofs.Shortest
import SplitCalc.Proofs.ShownText

/-!
# From doubles to decimals and back

A finite double becomes the decimal that its text denotes, and the canonical text of that decimal
reads back as the double (`Decimal.ofDouble?_faithful`).

Reading a text as a double is given here for itself: a literal is rounded, once, to the double
nearest to the number it denotes (`Double.read?`). A decimal is converted without its text and with
two shortcuts for very large and very small numbers; this makes no difference
(`Double.read?_render`).

The text of the double, the decimal and its canonical text are three notations. They agree because
reading depends on the value only, and all three have the value of the shortest digits.
-/

namespace SplitCalc

/-! ### Reading a text as a double -/

/-- The double nearest to the number that a literal denotes, with its sign. -/
def Literal.toDouble (literal : Literal) : Double :=
  .signed literal.negative (Scaled.mk (Digits.value literal.digits) literal.scale).toMagnitude

/-- Reads a text that is one whole literal as a double; `none` for any other text. -/
def Double.read? (text : Text) : Option Double :=
  (Literal.parse? text).map Literal.toDouble

/-! ### The range of doubles -/

/-- An inequality of integer powers is one of rational powers. -/
theorem two_zpow_le_ten_zpow {i j : ℕ} (h : Nat.pow 2 i ≤ Nat.pow 10 j) :
    (2 : ℚ) ^ (i : ℤ) ≤ 10 ^ (j : ℤ) := by
  rw [zpow_natCast, zpow_natCast]
  exact_mod_cast h

/-- The least power of ten beyond all finite doubles. -/
theorem two_zpow_le_ten_zpow_309 : (2 : ℚ) ^ (1024 : ℤ) ≤ 10 ^ (309 : ℤ) :=
  two_zpow_le_ten_zpow (i := 1024) (j := 309) (by decide +kernel)

/-- The greatest power of ten below half of the least positive double. -/
theorem ten_zpow_neg_324_le_two_zpow : (10 : ℚ) ^ (-324 : ℤ) ≤ 2 ^ (leastPlace - 1) := by
  have hplace : leastPlace - 1 = -1075 := rfl
  rw [hplace, zpow_neg, zpow_neg]
  exact inv_anti₀ (two_zpow_pos _) (two_zpow_le_ten_zpow (i := 1075) (j := 324) (by decide +kernel))

namespace Scaled

variable {s : Scaled}

/-- No digits are read as zero. -/
theorem toMagnitude_zero (shift : ℤ) : (Scaled.mk 0 shift).toMagnitude = .zero :=
  if_pos (Nat.zero_mul _)

/-- Digits from `10 ^ 309` on are read as infinity. -/
theorem toMagnitude_eq_infinity (hdigits : s.digits ≠ 0) (h : 309 ≤ s.leadingExponent) :
    s.toMagnitude = .infinity := by
  refine Magnitude.nearest_eq_infinity s.shiftedDen_one_pos ?_
  rw [shifted_div_eq_value]
  calc (2 : ℚ) ^ (1024 : ℤ) ≤ 10 ^ (309 : ℤ) := two_zpow_le_ten_zpow_309
    _ ≤ 10 ^ s.leadingExponent := zpow_le_zpow_right₀ (by norm_num) h
    _ ≤ s.value := zpow_leadingExponent_le_value hdigits

/-- Digits below `10 ^ (-324)` are read as zero. -/
theorem toMagnitude_eq_zero (h : s.leadingExponent < -324) : s.toMagnitude = .zero := by
  refine Magnitude.nearest_eq_zero s.shiftedDen_one_pos ?_
  rw [shifted_div_eq_value]
  calc s.value ≤ 10 ^ (s.leadingExponent + 1) := s.value_lt_zpow.le
    _ ≤ 10 ^ (-324 : ℤ) := zpow_le_zpow_right₀ (by norm_num) (by omega)
    _ ≤ 2 ^ (leastPlace - 1) := ten_zpow_neg_324_le_two_zpow

/-- Digits that are read as a finite magnitude other than zero stand near the point. -/
theorem leadingExponent_bounds {m : Magnitude} (hread : s.toMagnitude = m) (hzero : m ≠ .zero)
    (hinfinity : m ≠ .infinity) : -324 ≤ s.leadingExponent ∧ s.leadingExponent < 309 := by
  constructor
  · by_contra hlt
    exact hzero (hread.symm.trans (toMagnitude_eq_zero (not_le.1 hlt)))
  · by_contra hle
    have hdigits : s.digits ≠ 0 := by
      intro hnone
      have hs : s = ⟨0, s.shift⟩ := Scaled.ext hnone rfl
      rw [hs, toMagnitude_zero] at hread
      exact hzero hread.symm
    exact hinfinity (hread.symm.trans (toMagnitude_eq_infinity hdigits (not_lt.1 hle)))

end Scaled

namespace Decimal

/-! ### From decimals to doubles -/

/-- The shortcuts of the conversion make no difference. -/
theorem toMagnitude_eq {a : Decimal} (h : a.unscaled ≠ 0) :
    a.toMagnitude = (Scaled.mk a.unscaled.natAbs a.scale).toMagnitude := by
  have hexponent : (Scaled.mk a.unscaled.natAbs a.scale).leadingExponent = a.leadingExponent := rfl
  rw [toMagnitude]
  split
  · refine (Scaled.toMagnitude_eq_infinity (Int.natAbs_ne_zero.2 h) ?_).symm
    omega
  · split
    · refine (Scaled.toMagnitude_eq_zero ?_).symm
      omega
    · rfl

/-- A decimal becomes the double nearest to it; its sign is that of the digits. -/
theorem toDouble_eq (a : Decimal) :
    a.toDouble = .signed (a.unscaled < 0) (Scaled.mk a.unscaled.natAbs a.scale).toMagnitude := by
  rw [toDouble]
  split
  · rename_i hzero
    rw [isZero_iff.1 hzero, Int.natAbs_zero, Scaled.toMagnitude_zero]
    rfl
  · rename_i hzero
    rw [toMagnitude_eq (mt isZero_iff.2 hzero)]

/-- Signed digits keep their magnitude. -/
theorem natAbs_signed (negative : Bool) (magnitude : ℕ) :
    (signed negative magnitude).natAbs = magnitude := by
  cases negative <;> simp

/-- The canonical text begins with the sign of the decimal. -/
theorem sign_numeral (a : Decimal) : a.numeral.sign = a.writtenSign := by
  rw [numeral]
  split
  · rfl
  · split
    · split <;> rfl
    · rfl

end Decimal

/-- **Converting a decimal is reading its canonical text** as a double. -/
theorem Double.read?_render (a : Decimal) : Double.read? a.render = some a.toDouble := by
  have hspells := a.spells_numeral
  have hdigits : Digits.value a.numeral.digits = a.unscaled.natAbs := by
    rw [← hspells.unscaled_eq, Numeral.unscaled, Decimal.natAbs_signed]
  have hsign : a.numeral.sign.isMinus = decide (a.unscaled < 0) := by
    rw [Decimal.sign_numeral, Decimal.writtenSign]
    split <;> simp [WrittenSign.isMinus, *]
  have hscale : a.numeral.literal.scale = a.scale := hspells.scale_eq
  rw [Double.read?, ← hspells.text_eq, Numeral.parse?_text, Option.map_some, Literal.toDouble,
    hscale, Decimal.toDouble_eq]
  simp only [Numeral.literal, hdigits, hsign]

namespace Decimal

/-! ### From doubles to decimals -/

section Shortest

variable {negative : Bool} {m : Magnitude} {s : Scaled} {a : Decimal}

/-- The decimal of a double has the value of its digits, with its sign. -/
theorem value_of_ofShortest? (h : ofShortest? negative s = some a) :
    a.value = decimalValue (signed negative s.digits) s.shift := by
  obtain ⟨hunscaled, hscale⟩ := ofParts?_eq_some_iff.1 h
  rw [value, hunscaled, hscale, decimalValue_of_le s.shift_le_shownScale]
  cases negative <;> simp

/-- The magnitude of the decimal has the value of the digits. -/
theorem value_natAbs_of_ofShortest? (h : ofShortest? negative s = some a) :
    (Scaled.mk a.unscaled.natAbs a.scale).value = s.value := by
  obtain ⟨hunscaled, hscale⟩ := ofParts?_eq_some_iff.1 h
  rw [hunscaled, hscale, natAbs_signed, Scaled.value_mk, Scaled.value,
    decimalValue_of_le s.shift_le_shownScale]
  push_cast
  rfl

/-- The decimal has the sign of the double. -/
theorem unscaled_neg_of_ofShortest? (hdigits : s.digits ≠ 0)
    (h : ofShortest? negative s = some a) : decide (a.unscaled < 0) = negative := by
  obtain ⟨hunscaled, -⟩ := ofParts?_eq_some_iff.1 h
  have hpos : 0 < s.digits * Nat.pow 10 (shownScale s - s.shift).toNat :=
    Nat.mul_pos (Nat.pos_of_ne_zero hdigits) (Nat.pow_pos (by norm_num))
  rw [hunscaled]
  cases negative
  · rw [signed_false, decide_eq_false_iff_not]
    omega
  · rw [signed_true, decide_eq_true_eq]
    omega

/-- The way back: digits that are read as a magnitude make a decimal that becomes it again. -/
theorem toDouble_of_ofShortest? (hread : s.toMagnitude = m) (hdigits : s.digits ≠ 0)
    (h : ofShortest? negative s = some a) : a.toDouble = .signed negative m := by
  rw [toDouble_eq, unscaled_neg_of_ofShortest? hdigits h,
    Scaled.toMagnitude_congr (value_natAbs_of_ofShortest? h), hread]

/-- Not more than 17 digits that stand near the point have a decimal. -/
theorem exists_ofShortest? (negative : Bool) (hcount : s.count ≤ 17)
    (hexponent : -324 ≤ s.leadingExponent ∧ s.leadingExponent < 309) :
    ∃ a, ofShortest? negative s = some a := by
  have hword : IsWord (shownScale s) := by
    have hshift : s.leadingExponent = (s.count : ℤ) - 1 - s.shift := rfl
    rw [isWord_iff, Scaled.shownScale_eq, fractionCount]
    split <;> split <;> omega
  exact ⟨⟨_, _, hword⟩, ofParts?_eq_some_iff.2 ⟨rfl, rfl⟩⟩

/-- Digits with a point behind the first one, times the power of ten of that one. -/
theorem decimalValue_leadingExponent (u : ℤ) (s : Scaled) :
    decimalValue u s.shift = decimalValue u (s.count - 1) * 10 ^ s.leadingExponent := by
  have hshift : s.shift = (s.count : ℤ) - 1 + -s.leadingExponent := by
    rw [Scaled.leadingExponent]
    ring
  rw [hshift, decimalValue_add, neg_neg]

/-- **Doubles become decimals faithfully.** A finite double other than zero has shortest digits:
they read back as it, no fewer digits do, and none of the same number that do are nearer. The
double becomes a decimal. It is the reading of the text in which these digits are shown, and its
value is that of the digits, with a point behind the first one, times the power of ten. The
decimal becomes the double again, and so does its canonical text. -/
theorem ofDouble?_faithful (negative : Bool) {m : Magnitude} (hzero : m ≠ .zero)
    (hinfinity : m ≠ .infinity) :
    (m.shortest.IsShortest m ∧ ¬10 ∣ m.shortest.digits) ∧
      ∃ a : Decimal, ofDouble? (.signed negative m) = some a ∧
        read? (m.shortest.shownText negative) = some a ∧
        a.value = decimalValue (signed negative m.shortest.digits) (m.shortest.count - 1) *
          10 ^ m.shortest.leadingExponent ∧
        a.toDouble = .signed negative m ∧ Double.read? a.render = some (.signed negative m) := by
  have hshortest := m.isShortest_shortest hzero
  have hdigits := m.digits_shortest_ne_zero hzero
  have hexponent := Scaled.leadingExponent_bounds hshortest.toMagnitude_eq hzero hinfinity
  have hword : IsWord m.shortest.leadingExponent := by
    rw [isWord_iff]
    omega
  obtain ⟨a, ha⟩ := exists_ofShortest? negative (m.count_shortest_le hzero) hexponent
  have hback := toDouble_of_ofShortest? hshortest.toMagnitude_eq hdigits ha
  refine ⟨⟨hshortest, m.not_dvd_digits_shortest hzero⟩, a, ?_, ?_, ?_, hback, ?_⟩
  · rw [ofDouble?, if_neg hinfinity, if_neg hzero, ha]
  · rw [Scaled.read?_shownText _ _ hword, ha]
  · rw [value_of_ofShortest? ha, decimalValue_leadingExponent]
  · rw [Double.read?_render, hback]

end Shortest

/-- One hundred-thousandth is shown as `1.0E-5`. Its decimal has the canonical text `0.000010`,
which is plain, and reads back. -/
theorem ofDouble?_faithful_hundred_thousandth :
    Magnitude.nearest 1 100000 ≠ .zero ∧ Magnitude.nearest 1 100000 ≠ .infinity ∧
      (Magnitude.nearest 1 100000).shortest.shownText true = ['-', '1', '.', '0', 'E', '-', '5'] ∧
      ∃ a : Decimal, ofDouble? (.signed true (.nearest 1 100000)) = some a ∧
        a = ⟨-10, 6, by decide⟩ ∧
        Double.read? ['-', '0', '.', '0', '0', '0', '0', '1', '0'] =
          some (.signed true (.nearest 1 100000)) := by
  have hzero : Magnitude.nearest 1 100000 ≠ .zero := by decide +kernel
  have hinfinity : Magnitude.nearest 1 100000 ≠ .infinity := by decide +kernel
  have htext : (Magnitude.nearest 1 100000).shortest.shownText true =
      ['-', '1', '.', '0', 'E', '-', '5'] := by
    decide +kernel
  obtain ⟨-, a, ha, hread, -, -, hback⟩ := ofDouble?_faithful true hzero hinfinity
  have hparts : a = ⟨-10, 6, by decide⟩ := by
    refine Option.some.inj (hread.symm.trans ?_)
    rw [htext]
    decide +kernel
  refine ⟨hzero, hinfinity, htext, a, ha, hparts, ?_⟩
  rw [← hback, hparts]
  decide +kernel

end Decimal

end SplitCalc
