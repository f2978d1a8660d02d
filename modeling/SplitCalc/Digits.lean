import SplitCalc.Text

/-!
# Decimal digits

Natural numbers are written in base ten and read back.

Numbers of a hundred thousand digits are ordinary here, so `Digits.ofNat` writes a number by
halves: it divides by a power of ten with `2 ^ k` zeros, writes the high part without leading
zeros and the low part with all its `2 ^ k` digits. `Digits.ofNat_eq_toDigits` says that this
is the usual expansion `Nat.toDigits 10`, and `Digits.value_ofNat` that it reads back.
-/

namespace SplitCalc

namespace Digits

/-! ### Writing -/

/-- The first number that `2 ^ k` digits cannot hold. -/
def capacity (k : Nat) : Nat :=
  Nat.pow 10 (Nat.pow 2 k)

/-- The last `2 ^ k` digits of a number, with leading zeros. -/
def padded : Nat → Nat → Text
  | 0, n => [Nat.digitChar n]
  | k + 1, n => padded k (n / capacity k) ++ padded k (n % capacity k)

/-- The digits of a number below `capacity k`, without leading zeros. -/
def unpadded : Nat → Nat → Text
  | 0, n => [Nat.digitChar n]
  | k + 1, n =>
    if n < capacity k then unpadded k n
    else unpadded k (n / capacity k) ++ padded k (n % capacity k)

/-- A level of halving at which a number fits: its bit length bounds its digit count. -/
def level (n : Nat) : Nat :=
  Nat.log2 (Nat.log2 n) + 1

/-- The decimal digits of a natural number, without leading zeros; zero is written `0`. -/
def ofNat (n : Nat) : Text :=
  unpadded (level n) n

/-- The number of decimal digits of a natural number; zero has one. -/
def count (n : Nat) : Nat :=
  (ofNat n).length

/-! ### Reading -/

/-- The number that a string of digits denotes. -/
def value (digits : Text) : Nat :=
  Nat.ofDigitChars 10 digits 0

/-! ### The usual expansion -/

/-- One digit holds the numbers below ten. -/
@[simp]
theorem capacity_zero : capacity 0 = 10 := by
  decide

/-- Twice as many digits hold the square. -/
theorem capacity_succ (k : Nat) : capacity (k + 1) = capacity k * capacity k := by
  simp only [capacity, Nat.pow_eq]
  rw [Nat.pow_succ, Nat.mul_two, Nat.pow_add]

/-- Every capacity is positive. -/
theorem capacity_pos (k : Nat) : 0 < capacity k :=
  Nat.pow_pos (by decide)

/-- Padded digits continue the expansion of any positive number. -/
theorem toDigits_append_padded {k m r : Nat} (hm : 0 < m) (hr : r < capacity k) :
    Nat.toDigits 10 m ++ padded k r = Nat.toDigits 10 (capacity k * m + r) := by
  induction k generalizing m r with
  | zero =>
    rw [capacity_zero] at hr ⊢
    rw [padded, ← Nat.toDigits_of_lt_base hr,
      Nat.toDigits_append_toDigits (by decide) hm hr]
  | succ k ih =>
    rw [capacity_succ] at hr ⊢
    have hhigh : r / capacity k < capacity k := Nat.div_lt_of_lt_mul hr
    have hlow : r % capacity k < capacity k := Nat.mod_lt _ (capacity_pos k)
    have hmid : 0 < capacity k * m + r / capacity k :=
      Nat.add_pos_left (Nat.mul_pos (capacity_pos k) hm) _
    rw [padded, ← List.append_assoc, ih hm hhigh, ih hmid hlow, Nat.mul_add, ← Nat.mul_assoc,
      Nat.add_assoc, Nat.div_add_mod]

/-- Below `capacity k`, the unpadded digits at level `k` are the usual expansion. -/
theorem unpadded_eq_toDigits {k n : Nat} (hn : n < capacity k) :
    unpadded k n = Nat.toDigits 10 n := by
  induction k generalizing n with
  | zero =>
    rw [capacity_zero] at hn
    rw [unpadded, Nat.toDigits_of_lt_base hn]
  | succ k ih =>
    rw [capacity_succ] at hn
    rw [unpadded]
    split
    · exact ih ‹_›
    · have hpos : 0 < n / capacity k := Nat.div_pos (Nat.le_of_not_lt ‹_›) (capacity_pos k)
      rw [ih (Nat.div_lt_of_lt_mul hn),
        toDigits_append_padded hpos (Nat.mod_lt _ (capacity_pos k)), Nat.div_add_mod]

/-- Every number fits at its level. -/
theorem lt_capacity_level (n : Nat) : n < capacity (level n) := by
  have hbits : Nat.log2 n + 1 ≤ Nat.pow 2 (level n) := Nat.lt_log2_self
  calc n < Nat.pow 2 (Nat.log2 n + 1) := Nat.lt_log2_self
    _ ≤ Nat.pow 10 (Nat.log2 n + 1) := Nat.pow_le_pow_left (by decide) _
    _ ≤ capacity (level n) := Nat.pow_le_pow_right (by decide) hbits

/-- Writing by halves gives the usual decimal expansion. -/
theorem ofNat_eq_toDigits (n : Nat) : ofNat n = Nat.toDigits 10 n :=
  unpadded_eq_toDigits (lt_capacity_level n)

/-! ### Laws -/

/-- The digits of a number read back as that number. -/
@[simp]
theorem value_ofNat (n : Nat) : value (ofNat n) = n := by
  rw [value, ofNat_eq_toDigits, Nat.ofDigitChars_toDigits (by decide) (by decide)]

/-- Every character of an expansion is a digit. -/
theorem isDigit_of_mem_ofNat {n : Nat} {c : Char} (h : c ∈ ofNat n) : c.isDigit :=
  Nat.isDigit_of_mem_toDigits (b := 10) (by decide) (by decide) (ofNat_eq_toDigits n ▸ h)

/-- An expansion has at least one digit. -/
theorem count_pos (n : Nat) : 0 < count n := by
  rw [count, ofNat_eq_toDigits]
  exact Nat.length_toDigits_pos

/-- At most `k` digits means below the `k`-th power of ten. -/
theorem count_le_iff {n k : Nat} (hk : 0 < k) : count n ≤ k ↔ n < Nat.pow 10 k := by
  rw [count, ofNat_eq_toDigits]
  exact Nat.length_toDigits_le_iff (by decide) hk

/-- A number is below the power of ten that its digit count names. -/
theorem lt_ten_pow_count (n : Nat) : n < Nat.pow 10 (count n) :=
  (count_le_iff (count_pos n)).1 (Nat.le_refl _)

end Digits

end SplitCalc
