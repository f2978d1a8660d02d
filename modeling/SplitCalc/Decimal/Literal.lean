import SplitCalc.Decimal.Basic

/-!
# Decimal literals

A literal is an optional sign, digits with at most one point anywhere among them, and
optionally an exponent: the letter `e` or `E`, an optional sign and digits. At least one
digit stands before the exponent. Only the ten ASCII digits count, and nothing else may
stand in the text.

`Literal.parse?` takes such a text apart without regard to size. The digits, point removed,
are the unscaled value of the decimal, and its scale is the number of digits behind the point
less the exponent. `Decimal.read?` accepts the literals whose exponent and scale are both
words.
-/

namespace SplitCalc

/-- The parts of a literal. -/
@[ext]
structure Literal where
  /-- Does it begin with a minus? -/
  negative : Bool
  /-- Its digits, without the point. -/
  digits : Text
  /-- How many of the digits stand behind the point. -/
  fraction : Nat
  /-- Its exponent, zero where it has none. -/
  exponent : Int
deriving DecidableEq

namespace Literal

/-! ### Taking a literal apart -/

/-- Splits off a sign: whether it is a minus, and the text behind it. -/
def splitSign : Text → Bool × Text
  | '-' :: rest => (true, rest)
  | '+' :: rest => (false, rest)
  | text => (false, text)

/-- The characters of a mantissa: a digit or the point. -/
def isMantissa (c : Char) : Bool :=
  c.isDigit || c == '.'

/-- The digits of a mantissa without its point, and how many of them stand behind it. -/
def parseMantissa? (text : Text) : Option (Text × Nat) :=
  let whole := text.takeWhile Char.isDigit
  let fraction := (text.dropWhile Char.isDigit).drop 1
  if (whole ++ fraction).all Char.isDigit ∧ whole ++ fraction ≠ [] then
    some (whole ++ fraction, fraction.length)
  else none

/-- The exponent behind its letter: an optional sign and digits. -/
def parseExponent? (text : Text) : Option Int :=
  let (negative, digits) := splitSign text
  if digits.all Char.isDigit ∧ digits ≠ [] then
    some (Decimal.signed negative (Digits.value digits))
  else none

/-- What follows a mantissa: nothing, or a letter and an exponent. -/
def parseTail? : Text → Option Int
  | [] => some 0
  | letter :: rest => if letter = 'e' ∨ letter = 'E' then parseExponent? rest else none

/-- Takes apart a text that is one whole literal; `none` for any other text. -/
def parse? (text : Text) : Option Literal := do
  let (negative, body) := splitSign text
  let (digits, fraction) ← parseMantissa? (body.takeWhile isMantissa)
  let exponent ← parseTail? (body.dropWhile isMantissa)
  return ⟨negative, digits, fraction, exponent⟩

/-! ### The decimal of a literal -/

/-- The integer that the digits and the sign write. -/
def unscaled (literal : Literal) : Int :=
  Decimal.signed literal.negative (Digits.value literal.digits)

/-- The scale that the point and the exponent make together. -/
def scale (literal : Literal) : Int :=
  literal.fraction - literal.exponent

/-- The decimal of a literal, when its exponent and its scale are words. -/
def toDecimal? (literal : Literal) : Option Decimal :=
  if IsWord literal.exponent then Decimal.ofParts? literal.unscaled literal.scale else none

/-- The decimals that a literal can stand for, by their parts. -/
theorem toDecimal?_eq_some_iff {literal : Literal} {a : Decimal} :
    literal.toDecimal? = some a ↔
      IsWord literal.exponent ∧ a.unscaled = literal.unscaled ∧ a.scale = literal.scale := by
  rw [toDecimal?]
  split
  · rename_i h
    simp [h, Decimal.ofParts?_eq_some_iff]
  · rename_i h
    simp [h]

end Literal

/-- Reads a text that is one whole literal in range; `none` for any other text. -/
def Decimal.read? (text : Text) : Option Decimal :=
  (Literal.parse? text).bind Literal.toDecimal?

/-- A text is read as a decimal exactly when it is a literal of that decimal. -/
theorem Decimal.read?_eq_some_iff {text : Text} {a : Decimal} :
    Decimal.read? text = some a ↔
      ∃ literal, Literal.parse? text = some literal ∧ literal.toDecimal? = some a := by
  rw [Decimal.read?, Option.bind_eq_some_iff]

end SplitCalc
