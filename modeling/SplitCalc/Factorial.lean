import SplitCalc.Decimal.Arithmetic
import SplitCalc.Decimal.Truncation
import SplitCalc.Double.Elementary

/-!
# Factorials

The factorial of a decimal is that of its integer part, exactly. There is none of a negative
integer, nor one of more than `maxDigits` digits. The number of digits is estimated before the
product is formed, by Stirling's formula in doubles.

The product of a range of integers is formed by halves, which keeps the factors of every
product of about equal length.
-/

namespace SplitCalc

/-! ### Products of consecutive integers -/

/-- The product of the integers from `first` to `last`; one when there are none. A range of more
than sixteen integers is cut behind its middle. -/
def rangeProduct (first last : Nat) : Nat :=
  if last < first then 1
  else if last - first < 16 then (List.range' first (last + 1 - first)).foldl (· * ·) 1
  else
    let middle := first + (last - first) / 2
    rangeProduct first middle * rangeProduct (middle + 1) last
termination_by last - first

/-! ### Factorials -/

/-- The product of the integers from two to `n`. -/
def factorial (n : Nat) : Nat :=
  rangeProduct 2 n

/-- The number of digits of a factorial by Stirling's formula, with one digit to spare, computed
in doubles with a decimal logarithm of them. -/
def digitEstimate (log10 : Double → Double) (n : Int) : Double :=
  if n < 2 then .one
  else
    let x := Double.ofInt n
    ((x.mul (log10 (x.div .euler))).add
      ((Double.ofQuotient 1 2).mul (log10 (((Double.ofInt 2).mul .pi).mul x)))).add .one

namespace Decimal

/-- The factorial of the integer part of a decimal, when the estimate with this logarithm does not
exceed `maxDigits`. -/
def factorialBy? (log10 : Double → Double) (a : Decimal) : Option Decimal :=
  a.truncate?.bind fun n =>
    if n < 0 then none
    else if (Double.ofInt maxDigits).lt (digitEstimate log10 n) then none
    else some (ofInt (factorial n.toNat))

/-- The factorial of the integer part of a decimal. -/
def factorial? (a : Decimal) : Option Decimal :=
  a.factorialBy? Double.log10

end Decimal

end SplitCalc
