import SplitCalc.Scaled
import SplitCalc.Double.Basic

/-!
# Shortest digits that read back

A double is written with the fewest decimal digits that read back as the same double, and
among those with the digits nearest to its value.

For each number of digits there is a grid of decimals, and only the two neighbours of the
value on that grid can be the answer. The search tries one digit, then two, up to seventeen,
which always suffice; the first grid with a neighbour that reads back wins. Of two such
neighbours the nearer is taken, and at equal distance the upper one.
-/

namespace SplitCalc

/-- The magnitude that a decimal text with these digits is read as. -/
def Scaled.toMagnitude (s : Scaled) : Magnitude :=
  .nearest (shiftedNum 10 (-s.shift) s.digits) (shiftedDen 10 (-s.shift) 1)

namespace Magnitude

/-- The neighbour of a magnitude on the grid of `count` digits that reads back as it. -/
def readsBackAt? (m : Magnitude) (count : Nat) : Option Scaled :=
  let shift := (count : Int) - 1 - decimalExponent m.num m.den
  let num := shiftedNum 10 shift m.num
  let den := shiftedDen 10 shift m.den
  let lower : Scaled := ⟨num / den, shift⟩
  let upper : Scaled := ⟨num / den + 1, shift⟩
  if upper.toMagnitude = m ∧ (lower.toMagnitude ≠ m ∨ den ≤ 2 * (num % den)) then some upper
  else if lower.toMagnitude = m then some lower
  else none

/-- The exact decimal expansion of a finite magnitude. -/
def expansion (m : Magnitude) : Scaled :=
  let places := (-m.exponent).toNat
  ⟨m.num * Nat.pow 5 places, places⟩

/-- The shortest digits that read back as a positive finite magnitude, without trailing
zeros. -/
def shortest (m : Magnitude) : Scaled :=
  (((List.range' 1 17).findSome? m.readsBackAt?).getD m.expansion).dropZeros 17

end Magnitude

end SplitCalc
