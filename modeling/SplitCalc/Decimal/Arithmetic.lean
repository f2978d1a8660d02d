import SplitCalc.Decimal.Basic
import SplitCalc.Double.Arithmetic

/-!
# Exact arithmetic

Sums, differences, products and natural powers of decimals are exact, and their scales follow
from those of the operands: the larger scale for sums and differences, the sum of the scales
for products, a multiple for powers.

An operation has no result where the scale would leave the words, or where the digits would
become too many: operands of a sum may lie at most `maxDigits` places apart, and a power is
refused when the bits of its base, counted in doubles, allow more than `maxDigits` digits.
-/

namespace SplitCalc

/-- The most decimal digits that a power or a factorial may have. -/
def maxDigits : Nat := 100000

namespace Decimal

/-! ### Sums and differences -/

/-- How many zeros the first unscaled value gains when two decimals meet at one scale. -/
def alignment (a b : Decimal) : Nat :=
  (b.scale - a.scale).toNat

/-- Two decimals are **alignable** when their scales are at most `maxDigits` apart. -/
def Alignable (a b : Decimal) : Prop :=
  a.alignment b ≤ maxDigits ∧ b.alignment a ≤ maxDigits

instance (a b : Decimal) : Decidable (a.Alignable b) :=
  inferInstanceAs (Decidable (_ ∧ _))

/-- Decimals are alignable when their scales differ by at most `maxDigits`. -/
theorem alignable_iff {a b : Decimal} :
    a.Alignable b ↔ (a.scale - b.scale).natAbs ≤ maxDigits := by
  simp only [Alignable, alignment]
  omega

/-- The unscaled value of the first decimal at the larger of the two scales. -/
def alignedTo (a b : Decimal) : Int :=
  a.unscaled * Nat.pow 10 (a.alignment b)

/-- The larger of two scales is a word. -/
theorem isWord_max_scale (a b : Decimal) : IsWord (max a.scale b.scale) := by
  rcases Int.le_total a.scale b.scale with h | h
  · rw [Int.max_eq_right h]
    exact b.isWord_scale
  · rw [Int.max_eq_left h]
    exact a.isWord_scale

/-- The sum of alignable decimals. -/
def add? (a b : Decimal) : Option Decimal :=
  if a.Alignable b then
    some ⟨a.alignedTo b + b.alignedTo a, max a.scale b.scale, isWord_max_scale a b⟩
  else none

/-- The difference of alignable decimals. -/
def sub? (a b : Decimal) : Option Decimal :=
  if a.Alignable b then
    some ⟨a.alignedTo b - b.alignedTo a, max a.scale b.scale, isWord_max_scale a b⟩
  else none

/-! ### Products -/

/-- The product, when the sum of the scales is a word. -/
def mul? (a b : Decimal) : Option Decimal :=
  ofParts? (a.unscaled * b.unscaled) (a.scale + b.scale)

/-! ### Powers -/

/-- The number of bits of a positive integer. -/
def bitLength (n : Nat) : Nat :=
  Nat.log2 n + 1

/-- The number of digits of a power, from the number of bits of its base: these, times the exponent
and the decimal logarithm of two, computed in doubles and rounded up. -/
def powerDigits (bits n : Nat) : Double :=
  (((Double.ofInt bits).mul (Double.ofInt n)).mul .logTwo).ceil

/-- A power of these digits is **affordable** when they are at most one in magnitude or when
the number of digits that is expected of it does not exceed `maxDigits`. -/
def Affordable (unscaled : Int) (n : Nat) : Prop :=
  unscaled.natAbs ≤ 1 ∨
    ¬(Double.ofInt maxDigits).lt (powerDigits (bitLength unscaled.natAbs) n)

instance (unscaled : Int) (n : Nat) : Decidable (Affordable unscaled n) :=
  inferInstanceAs (Decidable (_ ∨ _))

/-- A power of an integer, from the power of its magnitude and the parity of the exponent. -/
def integerPower (base : Int) (n : Nat) : Int :=
  signed (base < 0 && n % 2 == 1) (base.natAbs.pow n)

/-- The power of an integer by magnitude and parity is its power. -/
theorem integerPower_eq (base : Int) (n : Nat) : integerPower base n = base.pow n := by
  change integerPower base n = base ^ n
  rcases Int.lt_or_le base 0 with hneg | hpos
  · obtain ⟨m, rfl⟩ : ∃ m : Nat, base = -(m : Int) := ⟨base.natAbs, by omega⟩
    simp only [integerPower, Nat.pow_eq, signed, hneg, decide_true, Bool.true_and, beq_iff_eq,
      Int.natAbs_neg, Int.natAbs_natCast]
    induction n with
    | zero => simp
    | succ n ih =>
      rw [Int.pow_succ, ← ih, Nat.pow_succ, Nat.add_mod]
      rcases Nat.mod_two_eq_zero_or_one n with hn | hn
      · rw [hn, if_pos rfl, if_neg (by decide), Int.natCast_mul, Int.mul_neg]
      · rw [hn, if_neg (by decide), if_pos rfl, Int.natCast_mul, Int.neg_mul_neg]
  · have : ¬base < 0 := by omega
    simp only [integerPower, Nat.pow_eq, signed, this, decide_false, Bool.false_and,
      Bool.false_eq_true, if_false, Int.natCast_pow, Int.natAbs_of_nonneg hpos]

/-- The power with an integer exponent, when the exponent is not negative, the power is
affordable and its scale is a word. -/
def pow? (a : Decimal) (n : Int) : Option Decimal :=
  if 0 ≤ n ∧ Affordable a.unscaled n.toNat then
    ofParts? (integerPower a.unscaled n.toNat) (a.scale * n)
  else none

end Decimal

end SplitCalc
