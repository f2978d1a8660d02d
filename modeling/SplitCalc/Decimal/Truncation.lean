import SplitCalc.Decimal.Basic

/-!
# The integer part of a decimal

Exponents of powers and operands of the factorial are integers: a decimal is cut towards
zero. The result must be a word. A nonzero decimal whose scale is below `-10` is out of range
whatever its digits, and one with fewer digits than its scale is cut to zero, so no large
power of ten is formed.
-/

namespace SplitCalc

namespace Decimal

/-- An integer, when it is a word. -/
def asWord? (n : Int) : Option Int :=
  if IsWord n then some n else none

/-- The decimal cut towards zero, when the result is a word. -/
def truncate? (a : Decimal) : Option Int :=
  if a.scale ≤ 0 then
    if a.isZero then some 0
    else if a.scale < -10 then none
    else asWord? (a.unscaled * Nat.pow 10 (-a.scale).toNat)
  else if (a.digitCount : Int) < a.scale then some 0
  else asWord? (a.unscaled.tdiv (Nat.pow 10 a.scale.toNat))

end Decimal

end SplitCalc
