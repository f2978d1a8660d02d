import SplitCalc.Digits
import SplitCalc.Rounding

/-!
# Digits with a shift

The result of a rounding, be it a quotient or the shortest text of a double, is a string of
digits that is shifted against the point. Trailing zeros can be dropped without changing the
number.

To round a quotient to some number of digits, one has to know where its first digit stands:
`decimalExponent` finds it from the digit counts of the two numbers.
-/

namespace SplitCalc

/-- The power of ten of the first digit of `num / den`; the digit counts determine it up to
one. -/
def decimalExponent (num den : Nat) : Int :=
  quotientExponent 10 (Digits.count num - Digits.count den) num den

/-- Decimal digits and a power of ten: the number `digits * 10 ^ (-shift)`. -/
@[ext]
structure Scaled where
  /-- The digits, as a number. -/
  digits : Nat
  /-- The number of places by which the digits are shifted down. -/
  shift : Int
deriving DecidableEq

namespace Scaled

/-- Drops at most `limit` trailing zeros of the digits. -/
def dropZeros : Nat → Scaled → Scaled
  | 0, s => s
  | limit + 1, s =>
    if s.digits % 10 = 0 then dropZeros limit ⟨s.digits / 10, s.shift - 1⟩ else s

/-- The number of digits. -/
def count (s : Scaled) : Nat :=
  Digits.count s.digits

/-- The power of ten of the first digit. -/
def leadingExponent (s : Scaled) : Int :=
  (s.count : Int) - 1 - s.shift

end Scaled

end SplitCalc
