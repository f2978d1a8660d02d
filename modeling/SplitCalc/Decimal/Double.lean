import SplitCalc.Decimal.Basic
import SplitCalc.Double.Shortest

/-!
# Between decimals and doubles

A decimal becomes the nearest double, and a double becomes the decimal of its shortest
digits. A finite double keeps at least one digit behind the point, so one is `1.0`: its
scale shows a plain number from a thousandth up to ten million and a power of ten outside.
-/

namespace SplitCalc

namespace Decimal

/-- The magnitude nearest to a nonzero decimal. Far outside the range of doubles the leading
exponent alone decides, so no large power of ten is formed. -/
def toMagnitude (a : Decimal) : Magnitude :=
  if 309 < a.leadingExponent then .infinity
  else if a.leadingExponent < -400 then .zero
  else (Scaled.mk a.unscaled.natAbs a.scale).toMagnitude

/-- The double nearest to a decimal, with its sign; a decimal zero has none. -/
def toDouble (a : Decimal) : Double :=
  if a.isZero then .zero else .signed (a.unscaled < 0) a.toMagnitude

/-- The number of digits that a double shows behind the point, at least one: those that its
digits need in plain notation for leading exponents from `-3` to `6`, and all but the first
digit otherwise. -/
def fractionCount (s : Scaled) : Int :=
  if -3 ≤ s.leadingExponent ∧ s.leadingExponent < 7 then max s.shift 1
  else max ((s.count : Int) - 1) 1

/-- The scale of the decimal of a double with these shortest digits. -/
def shownScale (s : Scaled) : Int :=
  if -3 ≤ s.leadingExponent ∧ s.leadingExponent < 7 then fractionCount s
  else fractionCount s - s.leadingExponent

/-- The decimal of these shortest digits, with zeros up to the scale that is shown. -/
def ofShortest? (negative : Bool) (s : Scaled) : Option Decimal :=
  ofParts? (signed negative (s.digits * Nat.pow 10 (shownScale s - s.shift).toNat)) (shownScale s)

/-- The decimal of a finite double; zeros of either sign become `0.0`. -/
def ofDouble? : Double → Option Decimal
  | .nan => none
  | .signed negative m =>
    if m = .infinity then none
    else if m = .zero then some ⟨0, 1, by decide⟩
    else ofShortest? negative m.shortest

end Decimal

end SplitCalc
