/-!
# Rounding a quotient

One rule rounds every inexact result of the calculator, whether a 34-digit quotient or a
binary double: a quotient goes to the nearest integer, and a tie goes to the even one. It is
decided by comparing twice the remainder with the divisor, so no fraction is ever formed.

To round to a number of digits, a quotient is first shifted by a power of the base, which
multiplies its numerator or its denominator; `quotientExponent` finds by which power.
-/

namespace SplitCalc

/-! ### Rounding to an integer -/

/-- The integer nearest to `num / den`, a tie going to the even neighbour. -/
def roundHalfEven (num den : Nat) : Nat :=
  let floor := num / den
  let twice := 2 * (num % den)
  if den < twice ∨ (twice = den ∧ floor % 2 = 1) then floor + 1 else floor

/-- Rounding keeps the floor of the quotient or goes one up. -/
theorem roundHalfEven_eq_or (num den : Nat) :
    roundHalfEven num den = num / den ∨ roundHalfEven num den = num / den + 1 := by
  simp only [roundHalfEven]
  split
  · exact Or.inr rfl
  · exact Or.inl rfl

/-- An exact quotient is kept. -/
theorem roundHalfEven_of_mod_eq_zero {num den : Nat} (hden : 0 < den) (h : num % den = 0) :
    roundHalfEven num den = num / den := by
  simp only [roundHalfEven, h]
  rw [if_neg]
  omega

/-- The rounded quotient is within half a unit of the exact one. -/
theorem roundHalfEven_bounds {num den : Nat} (hden : 0 < den) :
    2 * num ≤ (2 * roundHalfEven num den + 1) * den ∧
      2 * roundHalfEven num den * den ≤ 2 * num + den := by
  have hdiv : den * (num / den) + num % den = num := Nat.div_add_mod num den
  have hmod : num % den < den := Nat.mod_lt _ hden
  simp only [roundHalfEven]
  generalize num / den = floor at *
  generalize num % den = rest at *
  have hcomm : floor * den = den * floor := Nat.mul_comm _ _
  split
  · constructor
    · have : (2 * (floor + 1) + 1) * den = 2 * (den * floor) + 3 * den := by
        rw [← hcomm, Nat.add_mul, Nat.mul_assoc, Nat.add_mul]; omega
      omega
    · have : 2 * (floor + 1) * den = 2 * (den * floor) + 2 * den := by
        rw [← hcomm, Nat.mul_assoc, Nat.add_mul]; omega
      omega
  · constructor
    · have : (2 * floor + 1) * den = 2 * (den * floor) + den := by
        rw [← hcomm, Nat.add_mul, Nat.mul_assoc]; omega
      omega
    · have : 2 * floor * den = 2 * (den * floor) := by
        rw [← hcomm, Nat.mul_assoc]
      omega

/-! ### Shifting a quotient by a power of the base -/

/-- The numerator of a quotient times `base ^ shift`: a positive shift multiplies it. -/
def shiftedNum (base : Nat) (shift : Int) (num : Nat) : Nat :=
  num * base.pow shift.toNat

/-- The denominator of a quotient times `base ^ shift`: a negative shift multiplies it. -/
def shiftedDen (base : Nat) (shift : Int) (den : Nat) : Nat :=
  den * base.pow (-shift).toNat

/-- The quotient times `base ^ shift`, rounded to an integer. -/
def roundShifted (base : Nat) (shift : Int) (num den : Nat) : Nat :=
  roundHalfEven (shiftedNum base shift num) (shiftedDen base shift den)

/-- The power of `base` of the first digit of `num / den`, when `guess` is that power or the
next one: it is the next one exactly when the quotient lies below `base ^ guess`. -/
def quotientExponent (base : Nat) (guess : Int) (num den : Nat) : Int :=
  if shiftedNum base (-guess) num < shiftedDen base (-guess) den then guess - 1 else guess

end SplitCalc
