import SplitCalc.Decimal.Basic
import SplitCalc.Scaled

/-!
# Quotients of 34 digits

A quotient has at most `precision` significant digits. The division first finds the power of
ten of the quotient's first digit, and so the shift that makes the quotient an integer of
exactly `precision` digits, which is then rounded half to even.

The preferred scale of a quotient is the difference of the operands' scales. An exact
quotient drops trailing zeros until it reaches that scale; an inexact one keeps all its
digits. There is no quotient by zero, nor one whose scale is no word.
-/

namespace SplitCalc

/-- The number of significant digits of a quotient. -/
def precision : Nat := 34

namespace Quotient

/-- The power of ten that gives `num / den` a whole part of `precision` digits. -/
def shift (num den : Nat) : Int :=
  (precision : Int) - 1 - decimalExponent num den

/-- The digits of `num / den`, rounded to `precision` of them. An exact quotient drops trailing
zeros as long as it is shifted; a rounding that carries into one digit more is written with
one digit less. -/
def rounded (num den : Nat) : Scaled :=
  let shift := shift num den
  let digits := roundShifted 10 shift num den
  if shiftedNum 10 shift num % shiftedDen 10 shift den = 0 then
    Scaled.dropZeros shift.toNat ⟨digits, shift⟩
  else if digits = Nat.pow 10 precision then ⟨Nat.pow 10 (precision - 1), shift - 1⟩
  else ⟨digits, shift⟩

end Quotient

/-- The word nearest to an integer. -/
def nearestWord (n : Int) : Int :=
  max (-2147483648) (min 2147483647 n)

namespace Decimal

/-- The quotient of two decimals, rounded to `precision` significant digits. -/
def div? (a b : Decimal) : Option Decimal :=
  let preferred := a.scale - b.scale
  if b.isZero then none
  else if a.isZero then ofParts? 0 (nearestWord preferred)
  else
    let quotient := Quotient.rounded a.unscaled.natAbs b.unscaled.natAbs
    let negative := decide (a.unscaled < 0) != decide (b.unscaled < 0)
    ofParts? (signed negative quotient.digits) (quotient.shift + preferred)

end Decimal

end SplitCalc
