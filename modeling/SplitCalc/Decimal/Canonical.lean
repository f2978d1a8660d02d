import SplitCalc.Decimal.Basic

/-!
# The canonical text of a decimal

A decimal of scale zero is written as an integer. One with a positive scale whose leading
exponent is at least `-6` is written with a point, after a zero where it has no whole part;
at most five more zeros follow that point. Every other decimal is written with one digit
before the point and an exponent: `1.5E+10`, `1E-7`, `0E+3`. The sign of a positive exponent
is written, and exponent zero never occurs with a positive scale.

The text keeps every digit, so it determines both parts of the decimal.
-/

namespace SplitCalc

namespace Decimal

/-- The sign of a decimal as it is written: nothing, or a minus. -/
def signText (a : Decimal) : Text :=
  if a.unscaled < 0 then ['-'] else []

/-- The digits of a decimal as they are written. -/
def digits (a : Decimal) : Text :=
  Digits.ofNat a.unscaled.natAbs

/-- A decimal is **plain** when it is written with a point and without an exponent. -/
def IsPlain (a : Decimal) : Prop :=
  0 < a.scale ∧ -6 ≤ a.leadingExponent

instance (a : Decimal) : Decidable a.IsPlain :=
  inferInstanceAs (Decidable (_ ∧ _))

/-- How many zeros stand between the point and the digits of a plain decimal below one. -/
def padding (a : Decimal) : Nat :=
  a.scale.toNat - a.digitCount

/-- Digits with a point, `scale` of them behind it. -/
def plainText (a : Decimal) : Text :=
  let whole := a.digitCount - a.scale.toNat
  if 0 < whole then a.digits.take whole ++ '.' :: a.digits.drop whole
  else '0' :: '.' :: (List.replicate a.padding '0' ++ a.digits)

/-- A signed integer as an exponent: a plus is written before a positive one. -/
def exponentText (exponent : Int) : Text :=
  if 0 < exponent then '+' :: Digits.ofNat exponent.natAbs
  else if exponent < 0 then '-' :: Digits.ofNat exponent.natAbs
  else Digits.ofNat 0

/-- One digit before the point, the others behind it, and the exponent. -/
def scientificText (a : Decimal) : Text :=
  let rest := a.digits.drop 1
  a.digits.take 1 ++ (if rest = [] then [] else '.' :: rest) ++
    'E' :: exponentText a.leadingExponent

/-- The canonical text of a decimal. -/
def render (a : Decimal) : Text :=
  a.signText ++
    if a.scale = 0 then a.digits
    else if a.IsPlain then a.plainText
    else a.scientificText

/-- A plain decimal is padded with at most five zeros. -/
theorem padding_le_five {a : Decimal} (h : a.IsPlain) : a.padding ≤ 5 := by
  obtain ⟨_, hexp⟩ := h
  rw [leadingExponent] at hexp
  rw [padding]
  omega

end Decimal

end SplitCalc
