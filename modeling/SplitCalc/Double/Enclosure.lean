import SplitCalc.Double.Arithmetic

/-!
# Enclosures of real numbers

The trigonometric functions and the logarithm are computed on enclosures: two integers
between which a real number lies once it is scaled by `2 ^ width`. Every operation rounds its
lower end down and its upper end up, so an enclosure never loses the number it stands for. A
function is settled when both ends round to the same double.

Series are summed together with a bound on what is left out. The bound supposes that each power
is at most half the one before. The arguments are reduced until this holds.
-/

namespace SplitCalc

/-- Bounds of a real number scaled by a power of two. -/
structure Enclosure where
  /-- A lower bound. -/
  lo : Int
  /-- An upper bound. -/
  hi : Int

namespace Enclosure

/-! ### Arithmetic -/

/-- The quotient rounded up, by a positive divisor. -/
def ceilDiv (n d : Int) : Int :=
  -(-n / d)

/-- The number one, scaled. -/
def one (width : Nat) : Int :=
  Nat.pow 2 width

/-- An integer that needs no rounding. -/
def exact (n : Int) : Enclosure :=
  ⟨n, n⟩

/-- A quotient of integers with a positive divisor. -/
def ofQuotient (width : Nat) (num den : Int) : Enclosure :=
  ⟨num * one width / den, ceilDiv (num * one width) den⟩

/-- The least and the greatest of four integers. -/
def hull (a b c d : Int) : Int × Int :=
  (min (min a b) (min c d), max (max a b) (max c d))

/-- The sum of two enclosed numbers. -/
def add (x y : Enclosure) : Enclosure :=
  ⟨x.lo + y.lo, x.hi + y.hi⟩

/-- The negation of an enclosed number. -/
def neg (x : Enclosure) : Enclosure :=
  ⟨-x.hi, -x.lo⟩

/-- The product of two enclosed numbers. -/
def mul (width : Nat) (x y : Enclosure) : Enclosure :=
  let (lo, hi) := hull (x.lo * y.lo) (x.lo * y.hi) (x.hi * y.lo) (x.hi * y.hi)
  ⟨lo / one width, ceilDiv hi (one width)⟩

/-- An enclosed number times an integer. -/
def scale (k : Int) (x : Enclosure) : Enclosure :=
  ⟨min (k * x.lo) (k * x.hi), max (k * x.lo) (k * x.hi)⟩

/-- An enclosed number divided by a positive integer. -/
def divNat (x : Enclosure) (d : Nat) : Enclosure :=
  ⟨x.lo / d, ceilDiv x.hi d⟩

/-- The quotient of two enclosed numbers, when the bounds keep the divisor from zero. -/
def div? (width : Nat) (x y : Enclosure) : Option Enclosure :=
  let quotient (y : Enclosure) : Enclosure :=
    let lo := x.lo * one width
    let hi := x.hi * one width
    ⟨min (lo / y.lo) (lo / y.hi), max (ceilDiv hi y.lo) (ceilDiv hi y.hi)⟩
  if 0 < y.lo then some (quotient y)
  else if y.hi < 0 then some (quotient y.neg).neg
  else none

/-- A bound on the magnitude of an enclosed number. -/
def bound (x : Enclosure) : Int :=
  max (-x.lo) x.hi

/-- All numbers of magnitude at most twice that of the enclosed number. -/
def twiceAround (x : Enclosure) : Enclosure :=
  ⟨-(2 * x.bound), 2 * x.bound⟩

/-! ### Series -/

/-- The sum of a series from one of its powers on. The next power is this one times `ratio`
divided by `step`, and its contribution to the sum is the power divided by `weight`. What is
left when `limit` terms are summed, or when the powers have become negligible, is enclosed by
twice the first power left out. -/
def series (width : Nat) (ratio : Enclosure) (step weight : Nat → Nat) :
    Nat → Nat → Enclosure → Enclosure
  | 0, _, power => power.twiceAround
  | limit + 1, k, power =>
    if power.bound ≤ 1 then power.twiceAround
    else
      (power.divNat (weight k)).add
        (series width ratio step weight limit (k + 1) ((mul width power ratio).divNat (step k)))

/-- The series of odd powers over odd numbers: the inverse hyperbolic tangent. -/
def artanh (width : Nat) (x : Enclosure) : Enclosure :=
  series width (mul width x x) (fun _ => 1) (fun k => 2 * k + 1) width 0 x

/-- The series of odd powers over odd numbers with alternating signs: the arctangent. -/
def arctan (width : Nat) (x : Enclosure) : Enclosure :=
  series width (mul width x x).neg (fun _ => 1) (fun k => 2 * k + 1) width 0 x

/-- The sine of a number of magnitude at most one. -/
def sin (width : Nat) (x : Enclosure) : Enclosure :=
  series width (mul width x x).neg (fun k => (2 * k + 2) * (2 * k + 3)) (fun _ => 1) width 0 x

/-- The cosine of a number of magnitude at most one. -/
def cos (width : Nat) (x : Enclosure) : Enclosure :=
  series width (mul width x x).neg (fun k => (2 * k + 1) * (2 * k + 2)) (fun _ => 1) width 0
    (exact (one width))

/-! ### Constants -/

/-- Half the circle constant: twice the arctangent of one, which is four times that of a
fifth less that of one part in 239. -/
def quarterTurn (width : Nat) : Enclosure :=
  ((arctan width (ofQuotient width 1 5)).scale 8).add
    ((arctan width (ofQuotient width 1 239)).scale (-2))

/-- The natural logarithm of two. -/
def logTwo (width : Nat) : Enclosure :=
  (artanh width (ofQuotient width 1 3)).scale 2

/-- The natural logarithm of ten, which is eight times ten eighths. -/
def logTen (width : Nat) : Enclosure :=
  ((logTwo width).scale 3).add ((artanh width (ofQuotient width 1 9)).scale 2)

/-! ### Rounding -/

/-- The double nearest to an integer divided by `2 ^ width`. -/
def nearestDouble (width : Nat) (n : Int) : Double :=
  .ofQuotient n (Nat.pow 2 width)

/-- An enclosure is **settled** when both of its bounds round to the same double. -/
def IsSettled (width : Nat) (x : Enclosure) : Prop :=
  nearestDouble width x.lo = nearestDouble width x.hi

instance (width : Nat) (x : Enclosure) : Decidable (x.IsSettled width) :=
  inferInstanceAs (Decidable (_ = _))

end Enclosure

end SplitCalc
