import SplitCalc.Decimal.Quotient
import SplitCalc.Decimal.Double
import SplitCalc.Double.Elementary
import SplitCalc.Factorial

/-!
# Operators and functions

The five binary operators and the six functions of one operand, each with the symbol that
stands for it in a text and with its meaning on decimals. Angles are in degrees.
-/

namespace SplitCalc

/-! ### Binary operators -/

/-- An operator between two operands. -/
inductive BinaryOperator
  | power
  | plus
  | minus
  | times
  | divide
deriving DecidableEq

namespace BinaryOperator

/-- The character of an operator. -/
def symbol : BinaryOperator → Char
  | power => '^'
  | plus => '+'
  | minus => '-'
  | times => '*'
  | divide => '/'

/-- The value of an operator. The exponent of a power is cut to an integer. -/
def value? : BinaryOperator → Decimal → Decimal → Option Decimal
  | power, a, b => b.truncate?.bind a.pow?
  | plus, a, b => a.add? b
  | minus, a, b => a.sub? b
  | times, a, b => a.mul? b
  | divide, a, b => a.div? b

end BinaryOperator

/-! ### Functions -/

/-- A function of one operand. -/
inductive UnaryFunction
  | squareRoot
  | sine
  | cosine
  | logarithm
  | factorial
  | tangent
deriving DecidableEq

namespace UnaryFunction

/-- The text of a function. -/
def symbol : UnaryFunction → Text
  | squareRoot => ['√']
  | sine => ['s', 'i', 'n']
  | cosine => ['c', 'o', 's']
  | logarithm => ['l', 'o', 'g']
  | factorial => ['!']
  | tangent => ['t', 'a', 'n']

/-- All functions. -/
def all : List UnaryFunction :=
  [squareRoot, sine, cosine, logarithm, factorial, tangent]

/-- The function that a text names. -/
def ofSymbol? (text : Text) : Option UnaryFunction :=
  all.find? fun f => f.symbol = text

/-- A function of doubles, applied to decimals. -/
def throughDouble (f : Double → Double) (a : Decimal) : Option Decimal :=
  Decimal.ofDouble? (f a.toDouble)

/-- The value of a function. -/
def value? : UnaryFunction → Decimal → Option Decimal
  | squareRoot => throughDouble Double.sqrt
  | sine => throughDouble fun x => x.radians.sin
  | cosine => throughDouble fun x => x.radians.cos
  | logarithm => throughDouble Double.log10
  | factorial => Decimal.factorial?
  | tangent => throughDouble fun x => x.radians.tan

end UnaryFunction

end SplitCalc
