import SplitCalc.Digits

/-!
# Decimals

A decimal is an integer, its *unscaled* value, together with a *scale*: it stands for
`unscaled * 10 ^ (-scale)`. The unscaled value is unbounded and the scale is a 32-bit word.
Two decimals are equal when both parts are, so `1` and `1.0` are different decimals of the
same value; trailing zeros are part of a result.
-/

namespace SplitCalc

/-- An integer is a **word** when 32 bits hold it in two's complement. -/
def IsWord (n : Int) : Prop :=
  -2147483648 ≤ n ∧ n ≤ 2147483647

/-- Definitional unfolding of `IsWord`. -/
theorem isWord_iff {n : Int} : IsWord n ↔ -2147483648 ≤ n ∧ n ≤ 2147483647 :=
  Iff.rfl

instance (n : Int) : Decidable (IsWord n) :=
  inferInstanceAs (Decidable (_ ∧ _))

/-- A decimal number `unscaled * 10 ^ (-scale)`. -/
@[ext]
structure Decimal where
  /-- The digits, with their sign and without a point. -/
  unscaled : Int
  /-- How many of the digits stand after the point; negative for trailing zeros left out. -/
  scale : Int
  /-- The scale is a 32-bit word. -/
  isWord_scale : IsWord scale
deriving DecidableEq

namespace Decimal

/-- An integer from a sign and a magnitude. -/
def signed (negative : Bool) (magnitude : Nat) : Int :=
  if negative then -(magnitude : Int) else magnitude

/-- The decimal with these parts, when the scale is a word. -/
def ofParts? (unscaled scale : Int) : Option Decimal :=
  if h : IsWord scale then some ⟨unscaled, scale, h⟩ else none

/-- An integer, with scale zero. -/
def ofInt (n : Int) : Decimal :=
  ⟨n, 0, by decide⟩

/-- A decimal is **zero** when its digits are, whatever its scale. -/
def isZero (a : Decimal) : Bool :=
  a.unscaled == 0

/-- The number of digits of a decimal, its sign and its point aside. -/
def digitCount (a : Decimal) : Nat :=
  Digits.count a.unscaled.natAbs

/-- The power of ten of the first digit: `1.5` and `9` have leading exponent `0`. -/
def leadingExponent (a : Decimal) : Int :=
  (a.digitCount : Int) - 1 - a.scale

@[simp]
theorem signed_true (magnitude : Nat) : signed true magnitude = -(magnitude : Int) :=
  rfl

@[simp]
theorem signed_false (magnitude : Nat) : signed false magnitude = magnitude :=
  rfl

/-- Parts make a decimal exactly when the scale is a word. -/
theorem ofParts?_eq_some_iff {unscaled scale : Int} {a : Decimal} :
    ofParts? unscaled scale = some a ↔ a.unscaled = unscaled ∧ a.scale = scale := by
  rw [ofParts?]
  split
  · rename_i h
    rw [Option.some.injEq, Decimal.ext_iff]
    exact ⟨fun ⟨hu, hs⟩ => ⟨hu.symm, hs.symm⟩, fun ⟨hu, hs⟩ => ⟨hu.symm, hs.symm⟩⟩
  · rename_i h
    exact iff_of_false (by simp) fun ⟨_, hs⟩ => h (hs ▸ a.isWord_scale)

/-- Parts fail to make a decimal exactly when the scale is no word. -/
theorem ofParts?_eq_none_iff {unscaled scale : Int} :
    ofParts? unscaled scale = none ↔ ¬IsWord scale := by
  rw [ofParts?]
  split <;> simp [*]

/-- The parts of a decimal make that decimal. -/
@[simp]
theorem ofParts?_self (a : Decimal) : ofParts? a.unscaled a.scale = some a :=
  ofParts?_eq_some_iff.2 ⟨rfl, rfl⟩

@[simp]
theorem isZero_iff {a : Decimal} : a.isZero ↔ a.unscaled = 0 := by
  simp [isZero]

end Decimal

end SplitCalc
