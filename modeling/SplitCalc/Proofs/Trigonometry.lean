import Mathlib.Analysis.Real.Pi.Bounds
import Mathlib.Analysis.SpecialFunctions.Complex.Arctan
import Mathlib.Analysis.SpecialFunctions.Trigonometric.Arctan
import Mathlib.Analysis.SpecialFunctions.Trigonometric.Series
import SplitCalc.Proofs.Enclosure

/-!
# The trigonometric functions of doubles

The arctangent, the sine and the cosine are sums of series whose powers halve, so their enclosures
are sound. Machin's formula makes a quarter turn of two arctangents.

An angle is taken apart into the nearest number of quarter turns and a rest. However many turns are
taken, the rest is enclosed (`encloses_rest`). That it is at most one in magnitude, as the series
need it, has to be shown of very large angles as well: the error of a quarter turn counts as often as
the angle has turns, which the widths that are tried make up for (`abs_rest_le`). So the enclosures
of sine, cosine and tangent are sound, and where they settle, the functions are correctly rounded.
-/

namespace SplitCalc

namespace Enclosure

variable {width : ℕ} {x : Enclosure} {v : ℝ}

/-! ### The arctangent -/

/-- An odd power of a number with an alternating sign, scaled. -/
noncomputable def alternatingPower (width : ℕ) (v : ℝ) (k : ℕ) : ℝ :=
  (-1) ^ k * v ^ (2 * k + 1) * one width

theorem alternatingPower_zero : alternatingPower width v 0 = v * 2 ^ width := by
  rw [alternatingPower, pow_zero, one_mul, Nat.mul_zero, Nat.zero_add, pow_one, cast_one]

theorem isPowers_alternatingPower (hv : |v| ≤ 1 / 2) :
    IsPowers width (-(v * 2 ^ width * (v * 2 ^ width) / 2 ^ width)) (fun _ => 1)
      (alternatingPower width v) where
  succ k := by
    rw [alternatingPower, alternatingPower, cast_one, Nat.cast_one, div_one]
    field_simp
    ring
  ratio_le k := by
    rw [abs_neg]
    exact two_mul_abs_square_le (by exact_mod_cast two_mul_mul_self_le_one hv)
  step_pos k := Nat.one_pos

/-- The arctangent is the alternating sum of the odd powers over the odd numbers. -/
theorem tail_alternatingPower (hv : |v| ≤ 1 / 2) :
    tail (alternatingPower width v) (fun k => 2 * k + 1) 0 = Real.arctan v * 2 ^ width := by
  have hsum := (Real.hasSum_arctan (show ‖v‖ < 1 from hv.trans_lt (by norm_num))).mul_right
    ((2 : ℝ) ^ width)
  rw [← hsum.tsum_eq, tail]
  refine tsum_congr fun k => ?_
  rw [Nat.zero_add, alternatingPower, cast_one]
  ring

/-- The enclosure of an arctangent is tight. -/
theorem isTight_arctan (hwidth : 6 ≤ width) (hv : |v| ≤ 1 / 2)
    (hx : IsTight 1 x (v * 2 ^ width)) :
    IsTight (17 * width + 36) (arctan width x) (Real.arctan v * 2 ^ width) := by
  have hone : |v| ≤ 1 := hv.trans (by norm_num)
  rw [← tail_alternatingPower hv]
  exact isTight_series_of_first (isPowers_alternatingPower hv) (fun k => Nat.succ_pos _) hwidth
    (isTight_square hone hx).neg hone alternatingPower_zero hx

/-- **A quarter turn** is enclosed tightly. -/
theorem isTight_quarterTurn (hwidth : 6 ≤ width) :
    IsTight (10 * (17 * width + 36)) (quarterTurn width) (Real.pi / 2 * 2 ^ width) := by
  have hfifth : |(((1 : ℤ) : ℝ) / (5 : ℤ))| ≤ 1 / 2 := by norm_num [abs_of_pos]
  have hsmall : |(((1 : ℤ) : ℝ) / (239 : ℤ))| ≤ 1 / 2 := by norm_num [abs_of_pos]
  have hfirst := (isTight_arctan hwidth hfifth (isTight_ofQuotient 1 (by norm_num))).scale 8
  have hsecond := (isTight_arctan hwidth hsmall (isTight_ofQuotient 1 (by norm_num))).scale (-2)
  have hvalue : Real.pi / 2 * 2 ^ width =
      ((8 : ℤ) : ℝ) * (Real.arctan (((1 : ℤ) : ℝ) / (5 : ℤ)) * 2 ^ width) +
        ((-2 : ℤ) : ℝ) * (Real.arctan (((1 : ℤ) : ℝ) / (239 : ℤ)) * 2 ^ width) := by
    have hmachin := Real.four_mul_arctan_inv_5_sub_arctan_inv_239
    rw [← one_div, ← one_div] at hmachin
    push_cast
    linear_combination (-2 * 2 ^ width) * hmachin
  rw [hvalue]
  refine (hfirst.add hsecond).mono (le_of_eq ?_)
  norm_num
  ring

/-! ### Sine and cosine -/

/-- A term of the series of the sine or of the cosine, scaled. The powers of the one are odd and
those of the other even, as `parity` says. -/
noncomputable def taylorTerm (parity width : ℕ) (v : ℝ) (k : ℕ) : ℝ :=
  (-1) ^ k * v ^ (2 * k + parity) / (2 * k + parity).factorial * one width

theorem isPowers_taylorTerm (parity : ℕ) (hv : |v| ≤ 1) :
    IsPowers width (-(v * 2 ^ width * (v * 2 ^ width) / 2 ^ width))
      (fun k => (2 * k + parity + 1) * (2 * k + parity + 2)) (taylorTerm parity width v) where
  succ k := by
    have hfactorial : (2 * (k + 1) + parity).factorial =
        (2 * k + parity).factorial * ((2 * k + parity + 1) * (2 * k + parity + 2)) := by
      rw [show 2 * (k + 1) + parity = 2 * k + parity + 1 + 1 by ring, Nat.factorial_succ,
        Nat.factorial_succ]
      ring
    rw [taylorTerm, taylorTerm, cast_one, hfactorial]
    push_cast
    field_simp
    ring
  ratio_le k := by
    have hsquare : v * v ≤ 1 := by
      rw [← abs_mul_abs_self]
      exact mul_le_one₀ hv (abs_nonneg v) hv
    have hstep : 1 * 2 ≤ (2 * k + parity + 1) * (2 * k + parity + 2) :=
      Nat.mul_le_mul (Nat.le_add_left _ _) (Nat.le_add_left _ _)
    rw [abs_neg]
    refine two_mul_abs_square_le ?_
    calc 2 * (v * v) ≤ ((1 * 2 : ℕ) : ℝ) := by
          push_cast
          linarith
      _ ≤ ((2 * k + parity + 1) * (2 * k + parity + 2) : ℕ) := by exact_mod_cast hstep
  step_pos k := Nat.mul_pos (Nat.succ_pos _) (Nat.succ_pos _)

/-- The sine is the sum of the terms with odd powers. -/
theorem tail_taylorTerm_one :
    tail (taylorTerm 1 width v) (fun _ => 1) 0 = Real.sin v * 2 ^ width := by
  rw [← ((Real.hasSum_sin v).mul_right ((2 : ℝ) ^ width)).tsum_eq, tail]
  refine tsum_congr fun k => ?_
  rw [Nat.zero_add, taylorTerm, cast_one, Nat.cast_one, div_one]

/-- The cosine is the sum of the terms with even powers. -/
theorem tail_taylorTerm_zero :
    tail (taylorTerm 0 width v) (fun _ => 1) 0 = Real.cos v * 2 ^ width := by
  rw [← ((Real.hasSum_cos v).mul_right ((2 : ℝ) ^ width)).tsum_eq, tail]
  refine tsum_congr fun k => ?_
  rw [Nat.zero_add, taylorTerm, cast_one, Nat.cast_one, div_one, Nat.add_zero]

theorem encloses_sin (hv : |v| ≤ 1) (hx : x.Encloses (v * 2 ^ width)) :
    (sin width x).Encloses (Real.sin v * 2 ^ width) := by
  rw [← tail_taylorTerm_one]
  refine encloses_series (isPowers_taylorTerm 1 hv) (fun k => Nat.one_pos) (hx.mul hx).neg width 0 ?_
  rw [taylorTerm, cast_one]
  norm_num
  exact hx

theorem encloses_cos (hv : |v| ≤ 1) (hx : x.Encloses (v * 2 ^ width)) :
    (cos width x).Encloses (Real.cos v * 2 ^ width) := by
  rw [← tail_taylorTerm_zero]
  refine encloses_series (isPowers_taylorTerm 0 hv) (fun k => Nat.one_pos) (hx.mul hx).neg width 0 ?_
  have hfirst : taylorTerm 0 width v 0 = one width := by
    rw [taylorTerm]
    norm_num
  rw [hfirst]
  exact encloses_exact _

end Enclosure

namespace Double

variable {m : Magnitude} {w : ℕ} {rest : Enclosure} {r : ℝ}

/-! ### Reduction of angles -/

/-- Full turns do not count for the sine. -/
theorem sin_add_turns (r : ℝ) (turns : ℤ) :
    Real.sin (r + turns * (Real.pi / 2)) = Real.sin (r + (turns % 4 : ℤ) * (Real.pi / 2)) := by
  have hsplit : (turns : ℝ) = (turns % 4 : ℤ) + 4 * (turns / 4 : ℤ) := by
    exact_mod_cast (Int.emod_add_mul_ediv turns 4).symm
  have hangle : r + turns * (Real.pi / 2) =
      r + (turns % 4 : ℤ) * (Real.pi / 2) + (turns / 4 : ℤ) * (2 * Real.pi) := by
    rw [hsplit]
    ring
  rw [hangle, Real.sin_add_int_mul_two_pi]

/-- The sine of an angle, by the quarter turns in it and the rest. -/
theorem encloses_sinAfter (turns : ℤ) (hr : |r| ≤ 1) (hrest : rest.Encloses (r * 2 ^ w)) :
    (sinAfter w turns rest).Encloses (Real.sin (r + turns * (Real.pi / 2)) * 2 ^ w) := by
  have hsin := Enclosure.encloses_sin hr hrest
  have hcos := Enclosure.encloses_cos hr hrest
  rw [sin_add_turns, sinAfter]
  obtain h | h | h | h : turns % 4 = 0 ∨ turns % 4 = 1 ∨ turns % 4 = 2 ∨ turns % 4 = 3 := by omega
  · rw [h, Int.cast_zero, zero_mul, add_zero]
    exact hsin
  · rw [h, Int.cast_one, one_mul, Real.sin_add_pi_div_two]
    exact hcos
  · have hturn : r + (2 : ℤ) * (Real.pi / 2) = r + Real.pi := by
      push_cast
      ring
    rw [h, hturn, Real.sin_add_pi, neg_mul]
    exact hsin.neg
  · have hturn : r + (3 : ℤ) * (Real.pi / 2) = r + Real.pi / 2 + Real.pi := by
      push_cast
      ring
    rw [h, hturn, Real.sin_add_pi, Real.sin_add_pi_div_two, neg_mul]
    exact hcos.neg

/-- A finite magnitude scaled by a power of two that covers its exponent. -/
theorem cast_fixedPoint (h : 0 ≤ m.exponent + w) :
    (fixedPoint w m : ℝ) = m.value * 2 ^ w := by
  have hpower : ((Nat.pow 2 (m.exponent + w).toNat : ℕ) : ℝ) = 2 ^ (m.exponent + w) := by
    rw [Nat.pow_eq, Nat.cast_pow, Nat.cast_two, ← zpow_natCast, Int.toNat_of_nonneg h]
  rw [fixedPoint, Int.cast_mul, Int.cast_natCast, Int.cast_natCast, hpower, Magnitude.value,
    zpow_add₀ two_ne_zero, zpow_natCast]
  push_cast
  ring

/-- The rounded number of quarter turns leaves at most half a quarter. -/
theorem abs_sub_turns_mul_le (angle : ℤ) {quarter : ℤ} (hquarter : 0 < quarter) :
    |2 * (angle - (2 * angle + quarter) / (2 * quarter) * quarter)| ≤ quarter := by
  have hpos : 0 < 2 * quarter := by omega
  have hlow := Int.ediv_mul_le (2 * angle + quarter) hpos.ne'
  have hhigh := Int.lt_ediv_add_one_mul_self (2 * angle + quarter) hpos
  exact abs_le.2 ⟨by linarith, by linarith⟩

/-- The value of a magnitude in terms of the size of its exponent. -/
theorem value_add_one_le (m : Magnitude) : (m.value : ℝ) + 1 ≤ 2 ^ (54 + m.exponent.natAbs) := by
  have hsignificand : (m.significand : ℝ) ≤ 2 ^ 53 := by
    exact_mod_cast (show m.significand ≤ 2 ^ 53 from m.significand_lt.le)
  have hpower : (2 : ℝ) ^ m.exponent ≤ 2 ^ m.exponent.natAbs := by
    rw [← zpow_natCast]
    exact zpow_le_zpow_right₀ one_le_two Int.le_natAbs
  have hvalue : (m.value : ℝ) ≤ 2 ^ 53 * 2 ^ m.exponent.natAbs := by
    rw [Magnitude.value]
    push_cast
    gcongr
  have hone : (1 : ℝ) ≤ 2 ^ m.exponent.natAbs := one_le_pow₀ one_le_two
  calc (m.value : ℝ) + 1 ≤ 2 ^ 53 * 2 ^ m.exponent.natAbs + 2 ^ 53 * 2 ^ m.exponent.natAbs := by
        linarith
    _ = 2 ^ (54 + m.exponent.natAbs) := by
        rw [pow_add]
        ring

/-- The error of a quarter turn, as often as the angle has quarter turns, is an eighth at most. -/
theorem value_add_one_mul_le {precision : ℕ} (h : precision ∈ precisions) :
    ((m.value : ℝ) + 1) * (10 * (17 * width m precision + 36)) ≤ 2 ^ width m precision / 8 := by
  obtain ⟨hwide, hw⟩ := width_bounds (m := m) h
  have hw' : (width m precision : ℝ) ≤ 2300 := by exact_mod_cast hw
  have hexponent : 76 + m.exponent.natAbs ≤ width m precision := by omega
  rw [le_div_iff₀ (by norm_num)]
  calc ((m.value : ℝ) + 1) * (10 * (17 * width m precision + 36)) * 8
      ≤ 2 ^ (54 + m.exponent.natAbs) * 2 ^ 19 * 2 ^ 3 := by
        have hturn : (10 * (17 * width m precision + 36) : ℝ) ≤ 2 ^ 19 := by linarith
        gcongr
        · exact value_add_one_le m
        · norm_num
    _ = 2 ^ (76 + m.exponent.natAbs) := by
        rw [pow_add, pow_add]
        ring
    _ ≤ 2 ^ width m precision := pow_le_pow_right₀ one_le_two hexponent

/-- Multiples of a quarter turn and of its lower bound are close. -/
theorem abs_sub_mul_le {angle turns low quarter scale error : ℝ}
    (hclose : |2 * (angle * scale - turns * low)| ≤ low) (hturns : 0 ≤ turns)
    (hlow : low ≤ quarter) (herror : quarter - low ≤ error) (hscale : 0 < scale)
    (hone : scale ≤ low) (hangle : 0 ≤ angle) (hsmall : (angle + 1) * error ≤ scale / 8) :
    |angle * scale - turns * quarter| ≤ quarter / 2 + scale / 8 := by
  obtain ⟨hleast, hgreatest⟩ := abs_le.1 hclose
  have hcount : turns ≤ angle + 1 := by
    by_contra hlt
    nlinarith
  have hdrift : turns * (quarter - low) ≤ scale / 8 := by
    refine le_trans ?_ hsmall
    gcongr
  have hdrift' : 0 ≤ turns * (quarter - low) := mul_nonneg hturns (by linarith)
  exact abs_le.2 ⟨by linarith, by linarith⟩

variable {precision : ℕ}

/-- The widths that are tried cover the exponent. -/
theorem cast_fixedPoint_width (h : precision ∈ precisions) :
    (fixedPoint (width m precision) m : ℝ) = m.value * 2 ^ width m precision := by
  obtain ⟨hwide, -⟩ := width_bounds (m := m) h
  exact cast_fixedPoint (by omega)

/-- A quarter turn is at least one, in its enclosures as well. -/
theorem two_pow_le_quarterTurn (h : precision ∈ precisions) :
    (2 : ℝ) ^ width m precision ≤ (Enclosure.quarterTurn (width m precision)).lo := by
  obtain ⟨hwide, -⟩ := width_bounds (m := m) h
  have hsmall := value_add_one_mul_le (m := m) h
  generalize width m precision = w at *
  have hvalue : (0 : ℝ) ≤ m.value := by exact_mod_cast m.value_nonneg
  have herror : (10 * (17 * w + 36) : ℝ) ≤ 2 ^ w / 8 := by
    refine le_trans (le_mul_of_one_le_left (by positivity) ?_) hsmall
    linarith
  obtain ⟨hbelow, -⟩ := abs_le.1
    (Enclosure.isTight_quarterTurn (show 6 ≤ w by omega)).isWithin.1
  have hturn : 3 / 2 * (2 : ℝ) ^ w ≤ Real.pi / 2 * 2 ^ w := by
    have hpi := Real.pi_gt_three
    gcongr
  linarith

/-- **The rest of an angle** is at most one in magnitude. The quarter turn is short of the exact one
by its error, as often as it is taken, and at the widths that are tried this is little. -/
theorem abs_rest_le (h : precision ∈ precisions) {turns : ℤ} (hturns : 0 ≤ turns)
    (hclose : |2 * (fixedPoint (width m precision) m -
      turns * (Enclosure.quarterTurn (width m precision)).lo)| ≤
        (Enclosure.quarterTurn (width m precision)).lo) :
    |(m.value : ℝ) - turns * (Real.pi / 2)| ≤ 1 := by
  have hangle := cast_fixedPoint_width (m := m) h
  have hone := two_pow_le_quarterTurn (m := m) h
  have hsmall := value_add_one_mul_le (m := m) h
  obtain ⟨hwide, -⟩ := width_bounds (m := m) h
  generalize width m precision = w at *
  have hscale : (0 : ℝ) < 2 ^ w := by positivity
  have hvalue : (0 : ℝ) ≤ m.value := by exact_mod_cast m.value_nonneg
  obtain ⟨hquarter, hnear⟩ := Enclosure.isTight_quarterTurn (show 6 ≤ w by omega)
  obtain ⟨hbelow, -⟩ := abs_le.1 hnear.1
  have hclose' : |2 * ((m.value : ℝ) * 2 ^ w - turns * (Enclosure.quarterTurn w).lo)| ≤
      (Enclosure.quarterTurn w).lo := by
    rw [← hangle]
    exact_mod_cast hclose
  have hrest := abs_sub_mul_le hclose' (by exact_mod_cast hturns) hquarter.1
    (show _ ≤ (10 * (17 * w + 36) : ℝ) by linarith) hscale hone hvalue hsmall
  have hscaled : (m.value : ℝ) * 2 ^ w - turns * (Real.pi / 2 * 2 ^ w) =
      (m.value - turns * (Real.pi / 2)) * 2 ^ w := by ring
  rw [hscaled, abs_mul, abs_of_pos hscale] at hrest
  refine le_of_mul_le_mul_right (hrest.trans ?_) hscale
  have hpi : Real.pi / 2 * 2 ^ w ≤ 7 / 4 * (2 : ℝ) ^ w := by
    have hpi := Real.pi_lt_d2
    exact mul_le_mul_of_nonneg_right (by linarith) hscale.le
  linarith

/-- The rest of an angle is enclosed, however many turns are taken from it. -/
theorem encloses_rest (h : precision ∈ precisions) (turns : ℤ) :
    ((Enclosure.exact (fixedPoint (width m precision) m)).add
      ((Enclosure.quarterTurn (width m precision)).scale (-turns))).Encloses
        ((m.value - turns * (Real.pi / 2)) * 2 ^ width m precision) := by
  have hangle := cast_fixedPoint_width (m := m) h
  obtain ⟨hwide, -⟩ := width_bounds (m := m) h
  generalize width m precision = w at *
  have hquarter := (Enclosure.isTight_quarterTurn (show 6 ≤ w by omega)).encloses
  have hvalue : ((m.value : ℝ) - turns * (Real.pi / 2)) * 2 ^ w =
      fixedPoint w m + ((-turns : ℤ) : ℝ) * (Real.pi / 2 * 2 ^ w) := by
    rw [hangle]
    push_cast
    ring
  rw [hvalue]
  exact (Enclosure.encloses_exact _).add (hquarter.scale (-turns))

/-- **The reduction of an angle** is sound: some quarter turns and a rest of at most one in
magnitude, which is enclosed. -/
theorem exists_reduce (h : precision ∈ precisions) :
    ∃ turns rest r, reduce (width m precision) m = (turns, rest) ∧ |r| ≤ 1 ∧
      rest.Encloses (r * 2 ^ width m precision) ∧ (m.value : ℝ) = r + turns * (Real.pi / 2) := by
  have hone := two_pow_le_quarterTurn (m := m) h
  have hpos : 0 < (Enclosure.quarterTurn (width m precision)).lo := by
    have hpower : (0 : ℝ) < 2 ^ width m precision := by positivity
    exact_mod_cast hpower.trans_le hone
  have hnonneg : 0 ≤ fixedPoint (width m precision) m := Int.natCast_nonneg _
  refine ⟨_, _, _, rfl, abs_rest_le h (Int.ediv_nonneg (by omega) (by omega))
    (abs_sub_turns_mul_le _ hpos), encloses_rest h _, (sub_add_cancel _ _).symm⟩

/-! ### Sine, cosine and tangent -/

/-- The enclosure of a sine, ahead by quarter turns. -/
theorem encloses_encloseSin (h : precision ∈ precisions) (ahead : ℤ) :
    (encloseSin ahead m (width m precision)).Encloses
      (Real.sin (m.value + ahead * (Real.pi / 2)) * 2 ^ width m precision) := by
  obtain ⟨turns, rest, r, hreduce, hr, hrest, hvalue⟩ := exists_reduce (m := m) h
  have hangle : (m.value : ℝ) + ahead * (Real.pi / 2) =
      r + (turns + ahead : ℤ) * (Real.pi / 2) := by
    rw [hvalue]
    push_cast
    ring
  rw [encloseSin, hreduce, hangle]
  exact encloses_sinAfter (turns + ahead) hr hrest

/-- The enclosure of a tangent. -/
theorem encloses_encloseTan? (h : precision ∈ precisions) {x : Enclosure}
    (hx : encloseTan? m (width m precision) = some x) :
    x.Encloses (Real.tan m.value * 2 ^ width m precision) := by
  obtain ⟨turns, rest, r, hreduce, hr, hrest, hvalue⟩ := exists_reduce (m := m) h
  rw [encloseTan?, hreduce] at hx
  have hscale : (2 : ℝ) ^ width m precision ≠ 0 := by positivity
  have hquotient := (encloses_sinAfter turns hr hrest).div?
    (encloses_sinAfter (turns + 1) hr hrest) hx
  have hcosine : r + (turns + 1 : ℤ) * (Real.pi / 2) = m.value + Real.pi / 2 := by
    rw [hvalue]
    push_cast
    ring
  rwa [mul_div_mul_right _ _ hscale, hcosine, ← hvalue, Real.sin_add_pi_div_two,
    ← Real.tan_eq_sin_div_cos] at hquotient

/-- **The sine is correctly rounded** where its enclosures settle. -/
theorem rounds_sin (hzero : m ≠ .zero) (hinfinity : m ≠ .infinity)
    (h : Settles m (some ∘ encloseSin 0 m) precisions) :
    (sin (.signed false m)).Rounds (Real.sin m.value) := by
  have hsin : sin (.signed false m) = settle m (some ∘ encloseSin 0 m) precisions := by
    rw [sin, oddOfAngle, if_neg hinfinity, if_neg hzero, if_neg Bool.false_ne_true]
  rw [hsin]
  refine rounds_settle (fun precision hmem x hx => ?_) h
  obtain rfl : encloseSin 0 m (width m precision) = x := Option.some.inj hx
  have hsound := encloses_encloseSin (m := m) hmem 0
  rwa [Int.cast_zero, zero_mul, add_zero] at hsound

/-- **The cosine is correctly rounded** where its enclosures settle. -/
theorem rounds_cos (negative : Bool) (hzero : m ≠ .zero) (hinfinity : m ≠ .infinity)
    (h : Settles m (some ∘ encloseSin 1 m) precisions) :
    (cos (.signed negative m)).Rounds (Real.cos m.value) := by
  rw [cos, if_neg hinfinity, if_neg hzero]
  refine rounds_settle (fun precision hmem x hx => ?_) h
  obtain rfl : encloseSin 1 m (width m precision) = x := Option.some.inj hx
  have hsound := encloses_encloseSin (m := m) hmem 1
  rwa [Int.cast_one, one_mul, Real.sin_add_pi_div_two] at hsound

/-- **The tangent is correctly rounded** where its enclosures settle. -/
theorem rounds_tan (hzero : m ≠ .zero) (hinfinity : m ≠ .infinity)
    (h : Settles m (encloseTan? m) precisions) :
    (tan (.signed false m)).Rounds (Real.tan m.value) := by
  have htan : tan (.signed false m) = settle m (encloseTan? m) precisions := by
    rw [tan, oddOfAngle, if_neg hinfinity, if_neg hzero, if_neg Bool.false_ne_true]
  rw [htan]
  exact rounds_settle (fun precision hmem x hx => encloses_encloseTan? hmem hx) h

/-- An odd function of the opposite angle. -/
theorem oddOfAngle_neg (value : Magnitude → Double) (x : Double) :
    oddOfAngle value x.neg = (oddOfAngle value x).neg := by
  have hneg : ∀ y : Double, y.neg.neg = y := by
    rintro (_ | ⟨negative, n⟩)
    · rfl
    · rw [neg, neg, Bool.not_not]
  rcases x with _ | ⟨negative, n⟩
  · rfl
  · rw [neg, oddOfAngle, oddOfAngle]
    by_cases hinfinity : n = .infinity
    · rw [if_pos hinfinity, if_pos hinfinity]
      rfl
    · rw [if_neg hinfinity, if_neg hinfinity]
      by_cases hzero : n = .zero
      · rw [if_pos hzero, if_pos hzero]
        rfl
      · rw [if_neg hzero, if_neg hzero]
        cases negative
        · rfl
        · exact (hneg _).symm

end Double

end SplitCalc
