import Mathlib.Analysis.Normed.Group.InfiniteSum
import Mathlib.Analysis.SpecificLimits.Basic
import SplitCalc.Double.Elementary
import SplitCalc.Proofs.DoubleArithmetic

/-!
# Enclosures are sound and narrow

Two things are told about the enclosure of a scaled number. It **encloses** the number when the
number lies between its bounds, and it is **within** an error of the number when both bounds are
that close to it. Each operation keeps the first and adds up the errors of the second; of every
rounding it adds one.

A series whose powers halve is summed from any of them on to at most twice that power, which is
what is added for the terms left out. So the sum is enclosed (`encloses_series`), and the error
grows with the number of terms only (`isWithin_series`).

A settled enclosure leaves no choice: whatever number it encloses, the double is the one that rounds
the number (`Double.rounds_settle`).
-/

namespace SplitCalc

namespace Enclosure

variable {width : ℕ} {x y : Enclosure} {e f t u : ℝ}

/-- An enclosure **encloses** a scaled number that lies between its bounds. -/
def Encloses (x : Enclosure) (t : ℝ) : Prop :=
  (x.lo : ℝ) ≤ t ∧ t ≤ x.hi

/-- An enclosure is **within** an error of a scaled number when both of its bounds are. -/
def IsWithin (e : ℝ) (x : Enclosure) (t : ℝ) : Prop :=
  |(x.lo : ℝ) - t| ≤ e ∧ |(x.hi : ℝ) - t| ≤ e

/-! ### Rounding -/

/-- A quotient rounded down. -/
theorem cast_ediv_le (n : ℤ) {d : ℤ} (hd : 0 < d) : ((n / d : ℤ) : ℝ) ≤ n / d := by
  have hd' : (0 : ℝ) < d := by exact_mod_cast hd
  rw [le_div_iff₀ hd']
  exact_mod_cast Int.ediv_mul_le n hd.ne'

/-- A quotient rounded down loses at most one. -/
theorem sub_one_le_cast_ediv (n : ℤ) {d : ℤ} (hd : 0 < d) : (n : ℝ) / d - 1 ≤ (n / d : ℤ) := by
  have hd' : (0 : ℝ) < d := by exact_mod_cast hd
  rw [sub_le_iff_le_add, div_le_iff₀ hd']
  exact_mod_cast (Int.lt_ediv_add_one_mul_self n hd).le

/-- A quotient rounded up. -/
theorem le_cast_ceilDiv (n : ℤ) {d : ℤ} (hd : 0 < d) : (n : ℝ) / d ≤ ceilDiv n d := by
  have hfloor := cast_ediv_le (-n) hd
  rw [ceilDiv]
  push_cast at hfloor ⊢
  rw [neg_div] at hfloor
  linarith

/-- A quotient rounded up gains at most one. -/
theorem cast_ceilDiv_le (n : ℤ) {d : ℤ} (hd : 0 < d) : (ceilDiv n d : ℝ) ≤ n / d + 1 := by
  have hfloor := sub_one_le_cast_ediv (-n) hd
  rw [ceilDiv]
  push_cast at hfloor ⊢
  rw [neg_div] at hfloor
  linarith

/-- Rounding down adds one to the error of a quotient. -/
theorem abs_ediv_sub_le {n d : ℤ} (hd : 0 < d) (h : |(n : ℝ) / d - t| ≤ e) :
    |((n / d : ℤ) : ℝ) - t| ≤ e + 1 := by
  obtain ⟨hlow, hhigh⟩ := abs_le.1 h
  have hfloor := sub_one_le_cast_ediv n hd
  have hfloor' := cast_ediv_le n hd
  exact abs_le.2 ⟨by linarith, by linarith⟩

/-- Rounding up adds one to the error of a quotient. -/
theorem abs_ceilDiv_sub_le {n d : ℤ} (hd : 0 < d) (h : |(n : ℝ) / d - t| ≤ e) :
    |(ceilDiv n d : ℝ) - t| ≤ e + 1 := by
  obtain ⟨hlow, hhigh⟩ := abs_le.1 h
  have hceil := le_cast_ceilDiv n hd
  have hceil' := cast_ceilDiv_le n hd
  exact abs_le.2 ⟨by linarith, by linarith⟩

/-- The quotients of bounds in order, rounded outwards, enclose what lies between. -/
theorem Encloses.quotient {a b d : ℤ} (hd : 0 < d) (ha : (a : ℝ) ≤ t) (hb : t ≤ b) :
    Encloses ⟨a / d, ceilDiv b d⟩ (t / d) := by
  have hd' : (0 : ℝ) < d := by exact_mod_cast hd
  exact ⟨(cast_ediv_le a hd).trans (div_le_div_of_nonneg_right ha hd'.le),
    (div_le_div_of_nonneg_right hb hd'.le).trans (le_cast_ceilDiv b hd)⟩

/-- Rounding outwards adds one to the error of a quotient. -/
theorem IsWithin.quotient {a b d : ℤ} (hd : 0 < d) (ha : |(a : ℝ) - t| ≤ e)
    (hb : |(b : ℝ) - t| ≤ e) : IsWithin (e / d + 1) ⟨a / d, ceilDiv b d⟩ (t / d) := by
  have hd' : (0 : ℝ) < d := by exact_mod_cast hd
  have hclose : ∀ {c : ℤ}, |(c : ℝ) - t| ≤ e → |(c : ℝ) / d - t / d| ≤ e / d := by
    intro c hc
    rw [← sub_div, abs_div, abs_of_pos hd']
    exact div_le_div_of_nonneg_right hc hd'.le
  exact ⟨abs_ediv_sub_le hd (hclose ha), abs_ceilDiv_sub_le hd (hclose hb)⟩

theorem one_pos : 0 < one width :=
  Int.natCast_pos.2 (Nat.two_pow_pos width)

theorem cast_one : (one width : ℝ) = 2 ^ width := by
  rw [one, Int.cast_natCast, Nat.pow_eq, Nat.cast_pow, Nat.cast_two]

/-! ### Sums and multiples -/

theorem encloses_exact (n : ℤ) : (exact n).Encloses n :=
  ⟨le_rfl, le_rfl⟩

/-- A quotient, scaled before it is divided. -/
theorem div_mul_two_pow (num den : ℤ) :
    (num : ℝ) / den * 2 ^ width = ((num * one width : ℤ) : ℝ) / den := by
  rw [Int.cast_mul, cast_one, div_mul_eq_mul_div]

theorem encloses_ofQuotient (num : ℤ) {den : ℤ} (hden : 0 < den) :
    (ofQuotient width num den).Encloses (num / den * 2 ^ width) := by
  rw [div_mul_two_pow]
  exact .quotient hden le_rfl le_rfl

theorem isWithin_ofQuotient (num : ℤ) {den : ℤ} (hden : 0 < den) :
    IsWithin 1 (ofQuotient width num den) (num / den * 2 ^ width) := by
  have hself : |((num * one width : ℤ) : ℝ) - (num * one width : ℤ)| ≤ 0 := by
    rw [sub_self, abs_zero]
  have hrounded := IsWithin.quotient hden hself hself
  rw [zero_div, zero_add] at hrounded
  rw [div_mul_two_pow]
  exact hrounded

theorem Encloses.add (hx : x.Encloses t) (hy : y.Encloses u) : (x.add y).Encloses (t + u) := by
  refine ⟨?_, ?_⟩
  · rw [Enclosure.add, Int.cast_add]
    exact add_le_add hx.1 hy.1
  · rw [Enclosure.add, Int.cast_add]
    exact add_le_add hx.2 hy.2

theorem IsWithin.add (hx : IsWithin e x t) (hy : IsWithin f y u) :
    IsWithin (e + f) (x.add y) (t + u) := by
  refine ⟨?_, ?_⟩
  · rw [Enclosure.add, Int.cast_add, add_sub_add_comm]
    exact (abs_add_le _ _).trans (add_le_add hx.1 hy.1)
  · rw [Enclosure.add, Int.cast_add, add_sub_add_comm]
    exact (abs_add_le _ _).trans (add_le_add hx.2 hy.2)

theorem Encloses.neg (hx : x.Encloses t) : x.neg.Encloses (-t) := by
  refine ⟨?_, ?_⟩
  · rw [Enclosure.neg, Int.cast_neg]
    exact neg_le_neg hx.2
  · rw [Enclosure.neg, Int.cast_neg]
    exact neg_le_neg hx.1

theorem IsWithin.neg (hx : IsWithin e x t) : IsWithin e x.neg (-t) := by
  refine ⟨?_, ?_⟩
  · rw [Enclosure.neg, Int.cast_neg, neg_sub_neg, abs_sub_comm]
    exact hx.2
  · rw [Enclosure.neg, Int.cast_neg, neg_sub_neg, abs_sub_comm]
    exact hx.1

theorem Encloses.scale (k : ℤ) (hx : x.Encloses t) : (x.scale k).Encloses (k * t) := by
  rw [Enclosure.scale, Encloses, Int.cast_min, Int.cast_max, Int.cast_mul, Int.cast_mul]
  rcases le_total 0 (k : ℝ) with hk | hk
  · exact ⟨(min_le_left _ _).trans (mul_le_mul_of_nonneg_left hx.1 hk),
      (mul_le_mul_of_nonneg_left hx.2 hk).trans (le_max_right _ _)⟩
  · exact ⟨(min_le_right _ _).trans (mul_le_mul_of_nonpos_left hx.2 hk),
      (mul_le_mul_of_nonpos_left hx.1 hk).trans (le_max_left _ _)⟩

/-- The lesser of two numbers is as close as both are. -/
theorem abs_min_sub_le {a b : ℝ} (ha : |a - t| ≤ e) (hb : |b - t| ≤ e) : |min a b - t| ≤ e := by
  rcases min_choice a b with h | h <;> rw [h] <;> assumption

/-- The greater of two numbers is as close as both are. -/
theorem abs_max_sub_le {a b : ℝ} (ha : |a - t| ≤ e) (hb : |b - t| ≤ e) : |max a b - t| ≤ e := by
  rcases max_choice a b with h | h <;> rw [h] <;> assumption

theorem IsWithin.scale (k : ℤ) (hx : IsWithin e x t) :
    IsWithin (|(k : ℝ)| * e) (x.scale k) (k * t) := by
  have hclose : ∀ {c : ℝ}, |c - t| ≤ e → |k * c - k * t| ≤ |(k : ℝ)| * e := by
    intro c hc
    rw [← mul_sub, abs_mul]
    exact mul_le_mul_of_nonneg_left hc (abs_nonneg _)
  rw [Enclosure.scale, IsWithin, Int.cast_min, Int.cast_max, Int.cast_mul, Int.cast_mul]
  exact ⟨abs_min_sub_le (hclose hx.1) (hclose hx.2), abs_max_sub_le (hclose hx.1) (hclose hx.2)⟩

theorem Encloses.divNat {d : ℕ} (hd : 0 < d) (hx : x.Encloses t) :
    (x.divNat d).Encloses (t / d) :=
  .quotient (Int.natCast_pos.2 hd) hx.1 hx.2

theorem IsWithin.divNat {d : ℕ} (hd : 0 < d) (hx : IsWithin e x t) :
    IsWithin (e / d + 1) (x.divNat d) (t / d) :=
  .quotient (Int.natCast_pos.2 hd) hx.1 hx.2

/-! ### Products -/

/-- A multiple of what lies between two numbers lies between theirs. -/
theorem mul_le_max {a b : ℝ} (c : ℝ) (ha : a ≤ t) (hb : t ≤ b) : t * c ≤ max (a * c) (b * c) := by
  rcases le_total 0 c with hc | hc
  · exact (mul_le_mul_of_nonneg_right hb hc).trans (le_max_right _ _)
  · exact (mul_le_mul_of_nonpos_right ha hc).trans (le_max_left _ _)

/-- A multiple of what lies between two numbers lies between theirs. -/
theorem min_le_mul {a b : ℝ} (c : ℝ) (ha : a ≤ t) (hb : t ≤ b) : min (a * c) (b * c) ≤ t * c := by
  have hneg := mul_le_max (-c) ha hb
  rw [mul_neg, mul_neg, mul_neg, max_neg_neg] at hneg
  exact neg_le_neg_iff.1 hneg

/-- The product of two enclosed numbers lies among the products of their bounds. -/
theorem Encloses.hull (hx : x.Encloses t) (hy : y.Encloses u) :
    (((hull (x.lo * y.lo) (x.lo * y.hi) (x.hi * y.lo) (x.hi * y.hi)).1 : ℤ) : ℝ) ≤ t * u ∧
      t * u ≤ ((hull (x.lo * y.lo) (x.lo * y.hi) (x.hi * y.lo) (x.hi * y.hi)).2 : ℤ) := by
  have hside : ∀ c : ℝ, min (c * y.lo) (c * y.hi) ≤ c * u ∧ c * u ≤ max (c * y.lo) (c * y.hi) := by
    intro c
    rw [mul_comm c, mul_comm c, mul_comm c]
    exact ⟨min_le_mul c hy.1 hy.2, mul_le_max c hy.1 hy.2⟩
  simp only [Enclosure.hull, Int.cast_min, Int.cast_max, Int.cast_mul]
  exact ⟨(min_le_min (hside _).1 (hside _).1).trans (min_le_mul u hx.1 hx.2),
    (mul_le_max u hx.1 hx.2).trans (max_le_max (hside _).2 (hside _).2)⟩

theorem Encloses.mul (hx : x.Encloses t) (hy : y.Encloses u) :
    (mul width x y).Encloses (t * u / 2 ^ width) := by
  rw [← cast_one]
  exact .quotient one_pos (hx.hull hy).1 (hx.hull hy).2

theorem IsWithin.mul (hx : IsWithin e x t) (hy : IsWithin f y u) :
    IsWithin ((|t| * f + |u| * e + e * f) / 2 ^ width + 1) (mul width x y)
      (t * u / 2 ^ width) := by
  rw [← cast_one]
  refine .quotient one_pos ?_ ?_
  · simp only [Int.cast_min, Int.cast_mul]
    exact abs_min_sub_le
      (abs_min_sub_le (abs_mul_sub_mul_le hx.1 hy.1) (abs_mul_sub_mul_le hx.1 hy.2))
      (abs_min_sub_le (abs_mul_sub_mul_le hx.2 hy.1) (abs_mul_sub_mul_le hx.2 hy.2))
  · simp only [Int.cast_max, Int.cast_mul]
    exact abs_max_sub_le
      (abs_max_sub_le (abs_mul_sub_mul_le hx.1 hy.1) (abs_mul_sub_mul_le hx.1 hy.2))
      (abs_max_sub_le (abs_mul_sub_mul_le hx.2 hy.1) (abs_mul_sub_mul_le hx.2 hy.2))

/-! ### Quotients -/

/-- The quotient by an enclosed number whose bounds are positive. -/
theorem div?_of_pos (x : Enclosure) (hpos : 0 < y.lo) :
    x.div? width y = some ⟨min (x.lo * one width / y.lo) (x.lo * one width / y.hi),
      max (ceilDiv (x.hi * one width) y.lo) (ceilDiv (x.hi * one width) y.hi)⟩ := by
  rw [div?, if_pos hpos]

theorem Encloses.div?_of_pos (hx : x.Encloses t) (hy : y.Encloses u) (hpos : 0 < y.lo)
    {z : Enclosure} (hz : x.div? width y = some z) : z.Encloses (t / u * 2 ^ width) := by
  have hlo : (0 : ℝ) < y.lo := by exact_mod_cast hpos
  have hu : 0 < u := hlo.trans_le hy.1
  have hhi : (0 : ℝ) < y.hi := hu.trans_le hy.2
  have hpos' : 0 < y.hi := by exact_mod_cast hhi
  rw [Enclosure.div?_of_pos _ hpos, Option.some.injEq] at hz
  subst hz
  -- the reciprocal of the divisor lies between those of its bounds
  have hinv : (y.hi : ℝ)⁻¹ ≤ u⁻¹ ∧ u⁻¹ ≤ (y.lo : ℝ)⁻¹ :=
    ⟨inv_anti₀ hu hy.2, inv_anti₀ hlo hy.1⟩
  have hvalue : t / u * 2 ^ width = t * one width / u := by
    rw [cast_one, div_mul_eq_mul_div]
  have hone : (0 : ℝ) < one width := by exact_mod_cast one_pos
  rw [hvalue]
  constructor
  · calc ((min (x.lo * one width / y.lo) (x.lo * one width / y.hi) : ℤ) : ℝ)
        ≤ min ((y.hi : ℝ)⁻¹ * (x.lo * one width : ℤ)) ((y.lo : ℝ)⁻¹ * (x.lo * one width : ℤ)) := by
          rw [Int.cast_min, min_comm, inv_mul_eq_div, inv_mul_eq_div]
          exact min_le_min (cast_ediv_le _ hpos') (cast_ediv_le _ hpos)
      _ ≤ u⁻¹ * (x.lo * one width : ℤ) := min_le_mul _ hinv.1 hinv.2
      _ ≤ t * one width / u := by
          rw [inv_mul_eq_div, Int.cast_mul]
          gcongr
          exact hx.1
  · calc t * one width / u ≤ u⁻¹ * (x.hi * one width : ℤ) := by
          rw [inv_mul_eq_div, Int.cast_mul]
          gcongr
          exact hx.2
      _ ≤ max ((y.hi : ℝ)⁻¹ * (x.hi * one width : ℤ)) ((y.lo : ℝ)⁻¹ * (x.hi * one width : ℤ)) :=
          mul_le_max _ hinv.1 hinv.2
      _ ≤ ((max (ceilDiv (x.hi * one width) y.lo) (ceilDiv (x.hi * one width) y.hi) : ℤ) : ℝ) := by
          rw [Int.cast_max, max_comm, inv_mul_eq_div, inv_mul_eq_div]
          exact max_le_max (le_cast_ceilDiv _ hpos) (le_cast_ceilDiv _ hpos')

/-- A quotient of enclosed numbers is enclosed, whatever the sign of the divisor. -/
theorem Encloses.div? (hx : x.Encloses t) (hy : y.Encloses u) {z : Enclosure}
    (hz : x.div? width y = some z) : z.Encloses (t / u * 2 ^ width) := by
  by_cases hpos : 0 < y.lo
  · exact hx.div?_of_pos hy hpos hz
  · by_cases hneg : y.hi < 0
    · have hpos' : 0 < y.neg.lo := neg_pos.2 hneg
      have hflip : x.div? width y = (x.div? width y.neg).map .neg := by
        rw [Enclosure.div?_of_pos _ hpos', Enclosure.div?, if_neg hpos, if_pos hneg]
        rfl
      rw [hflip, Option.map_eq_some_iff] at hz
      obtain ⟨z', hz', rfl⟩ := hz
      have hquotient := (hx.div?_of_pos hy.neg hpos' hz').neg
      rwa [div_neg, neg_mul, neg_neg] at hquotient
    · rw [Enclosure.div?, if_neg hpos, if_neg hneg] at hz
      cases hz

/-- The error of a quotient by a divisor whose bounds are at least one. -/
theorem IsWithin.div? (hx : IsWithin e x t) (hy : y.Encloses u) (hy' : IsWithin f y u)
    (hlo : one width ≤ y.lo) {z : Enclosure} (hz : x.div? width y = some z) :
    IsWithin (e + |t / u| * f + 1) z (t / u * 2 ^ width) := by
  have hone : (0 : ℝ) < one width := by exact_mod_cast one_pos
  have hu : (one width : ℝ) ≤ u := le_trans (by exact_mod_cast hlo) hy.1
  have hhi : one width ≤ y.hi := by exact_mod_cast hu.trans hy.2
  have hclose : ∀ {a b : ℤ}, |(a : ℝ) - t| ≤ e → |(b : ℝ) - u| ≤ f → one width ≤ b →
      |((a * one width : ℤ) : ℝ) / b - t / u * 2 ^ width| ≤ e + |t / u| * f := by
    intro a b ha hb hle
    rw [Int.cast_mul, ← cast_one]
    exact abs_mul_div_sub_le ha hb hone (by exact_mod_cast hle) (hone.trans_le hu).ne'
  have hpos := one_pos.trans_le hlo
  have hpos' := one_pos.trans_le hhi
  rw [Enclosure.div?_of_pos _ hpos, Option.some.injEq] at hz
  subst hz
  rw [IsWithin, Int.cast_min, Int.cast_max]
  exact ⟨abs_min_sub_le (abs_ediv_sub_le hpos (hclose hx.1 hy'.1 hlo))
      (abs_ediv_sub_le hpos' (hclose hx.1 hy'.2 hhi)),
    abs_max_sub_le (abs_ceilDiv_sub_le hpos (hclose hx.2 hy'.1 hlo))
      (abs_ceilDiv_sub_le hpos' (hclose hx.2 hy'.2 hhi))⟩

/-! ### Series -/

/-- An enclosed number is of a magnitude up to the bound. -/
theorem Encloses.abs_le_bound (hx : x.Encloses t) : |t| ≤ x.bound := by
  rw [bound, Int.cast_max, Int.cast_neg]
  exact abs_le'.2 ⟨hx.2.trans (le_max_right _ _),
    (neg_le_neg hx.1).trans (le_max_left _ _)⟩

/-- The bound exceeds the magnitude by the error at most. -/
theorem IsWithin.bound_le (hx : IsWithin e x t) : (x.bound : ℝ) ≤ |t| + e := by
  obtain ⟨hlo, -⟩ := abs_le.1 hx.1
  obtain ⟨-, hhi⟩ := abs_le.1 hx.2
  have hself := le_abs_self t
  have hneg := neg_abs_le t
  rw [bound, Int.cast_max, Int.cast_neg]
  exact max_le (by linarith) (by linarith)

/-- All numbers of at most twice the magnitude are enclosed. -/
theorem Encloses.twiceAround (hx : x.Encloses t) (hu : |u| ≤ 2 * |t|) :
    x.twiceAround.Encloses u := by
  have hbound : |u| ≤ 2 * x.bound := hu.trans (by linarith [hx.abs_le_bound])
  rw [Enclosure.twiceAround, Encloses]
  push_cast
  exact abs_le.1 hbound

theorem IsWithin.twiceAround (hx : IsWithin e x t) (hx' : x.Encloses t) (hu : |u| ≤ 2 * |t|) :
    IsWithin (4 * |t| + 2 * e) x.twiceAround u := by
  have hbound := hx.bound_le
  have hbound' := hx'.abs_le_bound
  obtain ⟨hlow, hhigh⟩ := abs_le.1 hu
  rw [Enclosure.twiceAround, IsWithin]
  push_cast
  have hmagnitude := abs_nonneg t
  exact ⟨abs_le.2 ⟨by linarith, by linarith⟩, abs_le.2 ⟨by linarith, by linarith⟩⟩

/-- The **powers** of a series: each is the one before times the ratio, divided by the step, and at
most half as large. -/
structure IsPowers (width : ℕ) (ratio : ℝ) (step : ℕ → ℕ) (power : ℕ → ℝ) : Prop where
  /-- The next power. -/
  succ : ∀ k, power (k + 1) = power k * ratio / 2 ^ width / step k
  /-- The ratio is at most half the step. -/
  ratio_le : ∀ k, 2 * |ratio| ≤ 2 ^ width * step k
  /-- No step is zero. -/
  step_pos : ∀ k, 0 < step k

/-- The sum of a series from one of its powers on. -/
noncomputable def tail (power : ℕ → ℝ) (weight : ℕ → ℕ) (k : ℕ) : ℝ :=
  tsum fun j => power (k + j) / weight (k + j)

namespace IsPowers

variable {ratio : ℝ} {step weight : ℕ → ℕ} {power : ℕ → ℝ}
variable (h : IsPowers width ratio step power)
include h

/-- A power is at most half the one before. -/
theorem abs_succ_le (k : ℕ) : |power (k + 1)| ≤ |power k| / 2 := by
  have hstep : (0 : ℝ) < step k := by exact_mod_cast h.step_pos k
  have hscale : (0 : ℝ) < 2 ^ width := by positivity
  rw [h.succ, abs_div, abs_div, abs_mul, Nat.abs_cast, abs_of_pos hscale, div_div,
    div_le_div_iff₀ (by positivity) two_pos, mul_assoc, mul_comm |ratio|]
  exact mul_le_mul_of_nonneg_left (h.ratio_le k) (abs_nonneg _)

/-- The powers fall at least as the powers of one half do. -/
theorem abs_add_le (k j : ℕ) : |power (k + j)| ≤ |power k| / 2 ^ j := by
  induction j with
  | zero => rw [Nat.add_zero, pow_zero, div_one]
  | succ j ih =>
    calc |power (k + (j + 1))| ≤ |power (k + j)| / 2 := h.abs_succ_le (k + j)
      _ ≤ |power k| / 2 ^ j / 2 := by gcongr
      _ = |power k| / 2 ^ (j + 1) := by rw [div_div, pow_succ]

/-- A contribution is no larger than its power. -/
theorem norm_le (hweight : ∀ k, 0 < weight k) (k j : ℕ) :
    ‖power (k + j) / weight (k + j)‖ ≤ 2 * |power k| / 2 / 2 ^ j := by
  have hone : (1 : ℝ) ≤ weight (k + j) := by exact_mod_cast hweight (k + j)
  rw [Real.norm_eq_abs, abs_div, Nat.abs_cast, mul_div_cancel_left₀ _ two_ne_zero]
  exact (div_le_self (abs_nonneg _) hone).trans (h.abs_add_le k j)

/-- What is left from a power on is at most twice the power. -/
theorem abs_tail_le (hweight : ∀ k, 0 < weight k) (k : ℕ) :
    |tail power weight k| ≤ 2 * |power k| :=
  tsum_of_norm_bounded (hasSum_geometric_two' _) (h.norm_le hweight k)

/-- The sum is the contribution of the first power and the sum from the next power on. -/
theorem tail_eq (hweight : ∀ k, 0 < weight k) (k : ℕ) :
    tail power weight k = power k / weight k + tail power weight (k + 1) := by
  have hsummable : Summable fun j => power (k + j) / weight (k + j) :=
    .of_norm_bounded (hasSum_geometric_two' _).summable (h.norm_le hweight k)
  rw [tail, hsummable.tsum_eq_zero_add, tail, Nat.add_zero]
  simp only [Nat.add_right_comm k, Nat.add_assoc k]

end IsPowers

variable {ratio : ℝ} {step weight : ℕ → ℕ} {power : ℕ → ℝ}

/-- **Series are sound.** The enclosure of a series holds the sum of all its terms, those left out
included. -/
theorem encloses_series (h : IsPowers width ratio step power) (hweight : ∀ k, 0 < weight k)
    (hy : y.Encloses ratio) (limit k : ℕ) (hx : x.Encloses (power k)) :
    (series width y step weight limit k x).Encloses (tail power weight k) := by
  induction limit generalizing k x with
  | zero => exact hx.twiceAround (h.abs_tail_le hweight k)
  | succ limit ih =>
    rw [series]
    split
    · exact hx.twiceAround (h.abs_tail_le hweight k)
    · rw [h.tail_eq hweight]
      refine (hx.divNat (hweight k)).add (ih (k + 1) ?_)
      rw [h.succ]
      exact (hx.mul hy).divNat (h.step_pos k)

/-- An error may be taken larger. -/
theorem IsWithin.mono (hx : IsWithin e x t) (hle : e ≤ f) : IsWithin f x t :=
  ⟨hx.1.trans hle, hx.2.trans hle⟩

/-- The next power keeps the error of sixteen: half of it is carried over, and the error of the
ratio and the two roundings make up less than the rest. -/
theorem IsPowers.isWithin_succ (h : IsPowers width ratio step power) (hwidth : 6 ≤ width)
    (hy : IsWithin 4 y ratio) {k : ℕ} (hle : |power k| ≤ 2 ^ width)
    (hx : IsWithin 16 x (power k)) :
    IsWithin 16 ((mul width x y).divNat (step k)) (power (k + 1)) := by
  have hscale : (0 : ℝ) < 2 ^ width := by positivity
  have hone : (1 : ℝ) ≤ step k := by exact_mod_cast h.step_pos k
  have hstep : (0 : ℝ) < step k := zero_lt_one.trans_le hone
  have hratio : |ratio| / 2 ^ width ≤ step k / 2 := by
    rw [div_le_div_iff₀ hscale two_pos, mul_comm, mul_comm (step k : ℝ)]
    exact h.ratio_le k
  have hpower : |power k| / 2 ^ width ≤ 1 := (div_le_one hscale).2 hle
  have hcross : 64 / (2 : ℝ) ^ width ≤ 1 := by
    rw [div_le_one hscale]
    calc (64 : ℝ) = 2 ^ 6 := by norm_num
      _ ≤ 2 ^ width := pow_le_pow_right₀ one_le_two hwidth
  rw [h.succ]
  refine ((hx.mul hy).divNat (h.step_pos k)).mono ?_
  have hsplit : (|power k| * 4 + |ratio| * 16 + 16 * 4) / 2 ^ width + 1 =
      4 * (|power k| / 2 ^ width) + 16 * (|ratio| / 2 ^ width) + 64 / 2 ^ width + 1 := by ring
  have hproduct : (|power k| * 4 + |ratio| * 16 + 16 * 4) / 2 ^ width + 1 ≤ 14 * step k := by
    rw [hsplit]
    linarith
  calc _ ≤ 14 * (step k : ℝ) / step k + 1 := by gcongr
    _ ≤ 16 := by
        rw [mul_div_cancel_right₀ _ hstep.ne']
        norm_num

/-- **Series are narrow.** From a power that is below one and below `2 ^ limit` units on, the error
of the sum grows with the number of terms only. -/
theorem isWithin_series (h : IsPowers width ratio step power) (hweight : ∀ k, 0 < weight k)
    (hwidth : 6 ≤ width) (hy : y.Encloses ratio) (hy' : IsWithin 4 y ratio) (limit k : ℕ)
    (hone : |power k| ≤ 2 ^ width) (hlimit : |power k| ≤ 2 ^ limit) (hx : x.Encloses (power k))
    (hx' : IsWithin 16 x (power k)) :
    IsWithin (17 * limit + 36) (series width y step weight limit k x) (tail power weight k) := by
  have hsmall : ∀ {x : Enclosure} {k limit : ℕ}, |power k| ≤ 1 → x.Encloses (power k) →
      IsWithin 16 x (power k) →
      IsWithin (17 * limit + 36) x.twiceAround (tail power weight k) := by
    intro x k limit hle hx hx'
    refine (hx'.twiceAround hx (h.abs_tail_le hweight k)).mono ?_
    have : (0 : ℝ) ≤ limit := Nat.cast_nonneg _
    linarith
  induction limit generalizing k x with
  | zero => exact hsmall (by rwa [pow_zero] at hlimit) hx hx'
  | succ limit ih =>
    rw [series]
    split
    · rename_i hnegligible
      refine hsmall (hx.abs_le_bound.trans ?_) hx hx'
      exact_mod_cast hnegligible
    · have hhalf := h.abs_succ_le k
      have hrest := ih (k + 1) (by linarith [abs_nonneg (power k)])
        (by rw [pow_succ] at hlimit; linarith)
        (by rw [h.succ]; exact (hx.mul hy).divNat (h.step_pos k))
        (h.isWithin_succ hwidth hy' hone hx')
      have hweight' : (16 : ℝ) / weight k ≤ 16 :=
        div_le_self (by norm_num) (by exact_mod_cast hweight k)
      rw [h.tail_eq hweight]
      refine ((hx'.divNat (hweight k)).add hrest).mono ?_
      push_cast
      linarith

/-! ### Both at once -/

/-- An enclosure is **tight** up to an error when it encloses the number and is within the error of
it. -/
structure IsTight (e : ℝ) (x : Enclosure) (t : ℝ) : Prop where
  /-- The number is enclosed. -/
  encloses : x.Encloses t
  /-- The bounds are close. -/
  isWithin : IsWithin e x t

theorem isTight_ofQuotient (num : ℤ) {den : ℤ} (hden : 0 < den) :
    IsTight 1 (ofQuotient width num den) (num / den * 2 ^ width) :=
  ⟨encloses_ofQuotient num hden, isWithin_ofQuotient num hden⟩

theorem IsTight.add (hx : IsTight e x t) (hy : IsTight f y u) :
    IsTight (e + f) (x.add y) (t + u) :=
  ⟨hx.encloses.add hy.encloses, hx.isWithin.add hy.isWithin⟩

theorem IsTight.scale (k : ℤ) (hx : IsTight e x t) :
    IsTight (|(k : ℝ)| * e) (x.scale k) (k * t) :=
  ⟨hx.encloses.scale k, hx.isWithin.scale k⟩

theorem IsTight.mul (hx : IsTight e x t) (hy : IsTight f y u) :
    IsTight ((|t| * f + |u| * e + e * f) / 2 ^ width + 1) (mul width x y) (t * u / 2 ^ width) :=
  ⟨hx.encloses.mul hy.encloses, hx.isWithin.mul hy.isWithin⟩

/-- There is a tight quotient when the divisor is greater than one by more than its error. -/
theorem IsTight.exists_div? (hx : IsTight e x t) (hy : IsTight f y u) (h : 2 ^ width + f ≤ u) :
    ∃ z, x.div? width y = some z ∧ IsTight (e + |t / u| * f + 1) z (t / u * 2 ^ width) := by
  have hlo : one width ≤ y.lo := by
    obtain ⟨hbelow, -⟩ := abs_le.1 hy.isWithin.1
    have hlo' : (one width : ℝ) ≤ y.lo := by
      rw [cast_one]
      linarith
    exact_mod_cast hlo'
  have hz : x.div? width y = some _ := Enclosure.div?_of_pos x (one_pos.trans_le hlo)
  exact ⟨_, hz, hx.encloses.div? hy.encloses hz, hx.isWithin.div? hy.encloses hy.isWithin hlo hz⟩

theorem IsTight.neg (hx : IsTight e x t) : IsTight e x.neg (-t) :=
  ⟨hx.encloses.neg, hx.isWithin.neg⟩

theorem IsTight.mono (hx : IsTight e x t) (h : e ≤ f) : IsTight f x t :=
  ⟨hx.encloses, hx.isWithin.mono h⟩

theorem isTight_series (h : IsPowers width ratio step power) (hweight : ∀ k, 0 < weight k)
    (hwidth : 6 ≤ width) (hy : IsTight 4 y ratio) (limit k : ℕ) (hone : |power k| ≤ 2 ^ width)
    (hlimit : |power k| ≤ 2 ^ limit) (hx : IsTight 16 x (power k)) :
    IsTight (17 * limit + 36) (series width y step weight limit k x) (tail power weight k) :=
  ⟨encloses_series h hweight hy.encloses limit k hx.encloses,
    isWithin_series h hweight hwidth hy.encloses hy.isWithin limit k hone hlimit hx.encloses
      hx.isWithin⟩

/-- A number of at most one, scaled. -/
theorem abs_scaled_le {v : ℝ} (hv : |v| ≤ 1) : |v * 2 ^ width| ≤ 2 ^ width := by
  have hscale : (0 : ℝ) < 2 ^ width := by positivity
  rw [abs_mul, abs_of_pos hscale]
  exact mul_le_of_le_one_left hscale.le hv

/-- The square of a number as a ratio of powers. -/
theorem two_mul_abs_square_le {v : ℝ} {d : ℕ} (h : 2 * (v * v) ≤ d) :
    2 * |v * 2 ^ width * (v * 2 ^ width) / 2 ^ width| ≤ 2 ^ width * d := by
  have hscale : (0 : ℝ) < 2 ^ width := by positivity
  have hsquare : v * 2 ^ width * (v * 2 ^ width) / 2 ^ width = v * v * 2 ^ width := by
    field_simp
  rw [hsquare, abs_of_nonneg (mul_nonneg (mul_self_nonneg v) hscale.le), ← mul_assoc,
    mul_comm (2 ^ width)]
  exact mul_le_mul_of_nonneg_right h hscale.le

/-- The square of a number of at most one half is at most one half of one. -/
theorem two_mul_mul_self_le_one {v : ℝ} (hv : |v| ≤ 1 / 2) : 2 * (v * v) ≤ 1 := by
  have hsquare : |v| * |v| ≤ 1 / 2 * (1 / 2) := mul_self_le_mul_self (abs_nonneg v) hv
  rw [abs_mul_abs_self] at hsquare
  linarith

/-- The square of a number of at most one, rescaled, has an error of at most four. -/
theorem isTight_square {v : ℝ} (hv : |v| ≤ 1) (hx : IsTight 1 x (v * 2 ^ width)) :
    IsTight 4 (mul width x x) (v * 2 ^ width * (v * 2 ^ width) / 2 ^ width) := by
  have hscale : (1 : ℝ) ≤ 2 ^ width := one_le_pow₀ one_le_two
  have hsize : |v * 2 ^ width| ≤ 2 ^ width := abs_scaled_le hv
  have hratio : (|v * 2 ^ width| * 1 + |v * 2 ^ width| * 1 + 1 * 1) / 2 ^ width ≤ 3 := by
    rw [div_le_iff₀ (zero_lt_one.trans_le hscale)]
    linarith
  exact (hx.mul hx).mono (by linarith)

/-- A series that starts from a number of at most one. -/
theorem isTight_series_of_first (h : IsPowers width ratio step power)
    (hweight : ∀ k, 0 < weight k) (hwidth : 6 ≤ width) (hy : IsTight 4 y ratio) {v : ℝ}
    (hv : |v| ≤ 1) (hfirst : power 0 = v * 2 ^ width) (hx : IsTight 1 x (v * 2 ^ width)) :
    IsTight (17 * width + 36) (series width y step weight width 0 x) (tail power weight 0) := by
  have hsize : |power 0| ≤ 2 ^ width := by
    rw [hfirst]
    exact abs_scaled_le hv
  rw [← hfirst] at hx
  exact isTight_series h hweight hwidth hy width 0 hsize hsize (hx.mono (by norm_num))

end Enclosure

namespace Magnitude

/-- Exponents have at most eleven bits. -/
theorem natAbs_exponent_le (m : Magnitude) : m.exponent.natAbs ≤ 1074 := by
  have hlow : -1074 ≤ m.exponent := m.leastPlace_le_exponent
  have hhigh : m.exponent ≤ 972 := by
    have hrank : m.rank / hiddenBit ≤ 2047 := Nat.div_le_of_le_mul (by
      rw [mul_comm]
      exact m.rank_le)
    have hleast : leastPlace = -1074 := rfl
    rw [exponent]
    split
    · decide
    · omega
  omega

end Magnitude

namespace Double

variable {m : Magnitude} {r : ℝ}

/-! ### Settled enclosures -/

/-- A settled enclosure rounds to what the number in it rounds to. -/
theorem rounds_of_isSettled {w : ℕ} {x : Enclosure} (hx : x.Encloses (r * 2 ^ w))
    (hsettled : x.IsSettled w) : (Enclosure.nearestDouble w x.lo).Rounds r := by
  have hscale : (0 : ℝ) < (Nat.pow 2 w : ℕ) := by exact_mod_cast Nat.two_pow_pos w
  have hcast : ((Nat.pow 2 w : ℕ) : ℝ) = 2 ^ w := by
    rw [Nat.pow_eq, Nat.cast_pow, Nat.cast_two]
  refine ⟨x.lo, x.hi, Nat.pow 2 w, Nat.pow 2 w, ⟨Nat.two_pow_pos w, Nat.two_pow_pos w⟩, ⟨?_, ?_⟩,
    rfl, hsettled.symm⟩
  · rw [div_le_iff₀ hscale, hcast]
    exact hx.1
  · rw [le_div_iff₀ hscale, hcast]
    exact hx.2

/-- One of the precisions settles the enclosures of a magnitude. -/
def Settles (m : Magnitude) (enclose : ℕ → Option Enclosure) (tried : List ℕ) : Prop :=
  ∃ precision ∈ tried, ∃ x, enclose (width m precision) = some x ∧ x.IsSettled (width m precision)

/-- **Settled results are correctly rounded.** -/
theorem rounds_settle {enclose : ℕ → Option Enclosure} {tried : List ℕ}
    (hsound : ∀ precision ∈ tried, ∀ x, enclose (width m precision) = some x →
      x.Encloses (r * 2 ^ width m precision))
    (h : Settles m enclose tried) : (settle m enclose tried).Rounds r := by
  induction tried with
  | nil =>
    obtain ⟨precision, hmem, -⟩ := h
    exact absurd hmem List.not_mem_nil
  | cons precision rest ih =>
    obtain ⟨found, hmem, x, hx, hsettled⟩ := h
    have hrest : found ∈ rest → (settle m enclose rest).Rounds r := fun hmem =>
      ih (fun precision hmem => hsound precision (List.mem_cons_of_mem _ hmem))
        ⟨found, hmem, x, hx, hsettled⟩
    rw [settle]
    split
    · rename_i y hy
      by_cases hfirst : y.IsSettled (width m precision)
      · rw [if_pos (Or.inl hfirst)]
        exact rounds_of_isSettled (hsound precision List.mem_cons_self y hy) hfirst
      · -- the first precision does not settle, so that another one is left
        have hmem' : found ∈ rest := by
          refine (List.mem_cons.1 hmem).resolve_left ?_
          rintro rfl
          obtain rfl : y = x := Option.some.inj (hy.symm.trans hx)
          exact hfirst hsettled
        have hne : rest.isEmpty = false := List.isEmpty_eq_false_iff.2 (List.ne_nil_of_mem hmem')
        rw [if_neg (not_or.2 ⟨hfirst, by simp [hne]⟩)]
        exact hrest hmem'
    · rename_i hnone
      refine hrest ((List.mem_cons.1 hmem).resolve_left ?_)
      rintro rfl
      rw [hnone] at hx
      cases hx

/-- Where there is an enclosure at every precision, one of them is rounded. -/
theorem exists_settle_eq {enclose : ℕ → Option Enclosure} {good : ℕ → Enclosure → Prop}
    {tried : List ℕ} (hne : tried ≠ [])
    (h : ∀ precision ∈ tried, ∃ x, enclose (width m precision) = some x ∧ good precision x) :
    ∃ precision ∈ tried, ∃ x, good precision x ∧
      settle m enclose tried = Enclosure.nearestDouble (width m precision) x.lo := by
  induction tried with
  | nil => exact absurd rfl hne
  | cons precision rest ih =>
    obtain ⟨x, hx, hgood⟩ := h precision List.mem_cons_self
    rw [settle, hx]
    by_cases hsettled : x.IsSettled (width m precision) ∨ rest.isEmpty
    · exact ⟨precision, List.mem_cons_self, x, hgood, if_pos hsettled⟩
    · have hrest : rest ≠ [] := by
        rintro rfl
        exact hsettled (Or.inr rfl)
      obtain ⟨next, hnext, y, hy, heq⟩ :=
        ih hrest fun precision hmem => h precision (List.mem_cons_of_mem _ hmem)
      exact ⟨next, List.mem_cons_of_mem _ hnext, y, hy, (if_neg hsettled).trans heq⟩

/-- The widths that are tried cover the exponent by 128 bits or more. -/
theorem width_bounds {precision : ℕ} (h : precision ∈ precisions) :
    128 + m.exponent.natAbs ≤ width m precision ∧ width m precision ≤ 2300 := by
  have hexponent := m.natAbs_exponent_le
  have hprecision : 64 ≤ precision ∧ precision ≤ 1024 := by
    revert precision
    decide
  rw [width]
  omega

end Double

end SplitCalc
