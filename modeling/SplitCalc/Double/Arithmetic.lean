import SplitCalc.Decimal.Basic
import SplitCalc.Double.Basic

/-!
# Arithmetic of doubles

Sums, products and quotients of doubles, and the least integer from a double on. Each result is
the exact one, rounded once.

Special operands follow IEEE 754. Infinity absorbs what is added to it or multiplied with it, and
a quotient by zero is infinite; where this leaves no sensible result, as in the difference of two
infinities or the product of infinity and zero, it is not a number. A sum of opposite numbers is
the positive zero. Nothing is below a double that is not a number, and it is below nothing.
-/

namespace SplitCalc

/-! ### Magnitudes -/

namespace Magnitude

/-- The product of finite magnitudes, rounded once. -/
def mul (m n : Magnitude) : Magnitude :=
  nearest (m.num * n.num) (m.den * n.den)

/-- The quotient of finite magnitudes by another one than zero, rounded once. -/
def div (m n : Magnitude) : Magnitude :=
  nearest (m.num * n.den) (m.den * n.num)

/-- The least integer from a finite magnitude on. -/
def ceil (m : Magnitude) : Magnitude :=
  nearest ((m.num + m.den - 1) / m.den) 1

/-- The greatest integer up to a finite magnitude. -/
def floor (m : Magnitude) : Magnitude :=
  nearest (m.num / m.den) 1

end Magnitude

namespace Double

/-! ### Conversion -/

/-- The double nearest to a quotient of integers with a positive divisor. -/
def ofQuotient (num : Int) (den : Nat) : Double :=
  .signed (num < 0) (.nearest num.natAbs den)

/-- The double nearest to an integer. -/
def ofInt (n : Int) : Double :=
  ofQuotient n 1

/-! ### Operations -/

/-- The sum. -/
def add : Double → Double → Double
  | .signed s m, .signed t n =>
    if m = .infinity then
      if n = .infinity ∧ s ≠ t then .nan else .signed s .infinity
    else if n = .infinity then .signed t .infinity
    else
      let sum := Decimal.signed s (m.num * n.den) + Decimal.signed t (n.num * m.den)
      if sum = 0 then .signed (s && t) .zero else ofQuotient sum (m.den * n.den)
  | _, _ => .nan

/-- The product. -/
def mul : Double → Double → Double
  | .signed s m, .signed t n =>
    if m = .infinity ∨ n = .infinity then
      if m = .zero ∨ n = .zero then .nan else .signed (s != t) .infinity
    else .signed (s != t) (m.mul n)
  | _, _ => .nan

/-- The quotient. -/
def div : Double → Double → Double
  | .signed s m, .signed t n =>
    if m = .infinity then
      if n = .infinity then .nan else .signed (s != t) .infinity
    else if n = .infinity then .signed (s != t) .zero
    else if n = .zero then
      if m = .zero then .nan else .signed (s != t) .infinity
    else .signed (s != t) (m.div n)
  | _, _ => .nan

/-- The least integer from a double on; a negative one keeps its sign, even as a zero. -/
def ceil : Double → Double
  | .nan => .nan
  | .signed negative m =>
    if m = .infinity then .signed negative .infinity
    else .signed negative (if negative then m.floor else m.ceil)

/-- One double is below another. The two zeros are equal. -/
def lt : Double → Double → Bool
  | .signed s m, .signed t n => Decimal.signed s m.rank < Decimal.signed t n.rank
  | _, _ => false

/-! ### Constants -/

/-- The circle constant. -/
def pi : Double :=
  ofQuotient 314159265358979323846264338327950288 (Nat.pow 10 35)

/-- The base of the natural logarithm. -/
def euler : Double :=
  ofQuotient 271828182845904523536028747135266250 (Nat.pow 10 35)

/-- The decimal logarithm of two. -/
def logTwo : Double :=
  ofQuotient 301029995663981195213738894724493027 (Nat.pow 10 36)

end Double

end SplitCalc
