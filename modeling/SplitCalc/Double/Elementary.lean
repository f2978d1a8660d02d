import SplitCalc.Double.Enclosure

/-!
# Elementary functions of doubles

Square root, decimal logarithm and the trigonometric functions. The root is correctly rounded,
decided by one integer square root with a sticky bit.

The precision of the others is not prescribed. They are enclosed at growing precision until both
bounds round to the same double, which is then the nearest one. Should the last precision not settle
it either, its lower bound is rounded, and nothing more than a good approximation is promised.

Special arguments follow IEEE 754: a root keeps a signed zero and has no negative argument,
the logarithm of zero is negative infinity, and an angle must be finite.
-/

namespace SplitCalc

namespace Double

/-! ### Square root -/

/-- The square root of a positive finite magnitude. The integer root of the significand,
widened to 110 bits or more, has at least 55; where it is not exact the bit behind it is set,
which keeps the value on the right side of every tie. -/
def rootMagnitude (m : Magnitude) : Magnitude :=
  let widening := 110 + (m.exponent % 2).toNat
  let square := m.significand * Nat.pow 2 widening
  let root := Nat.sqrt square
  let sticky := if root * root = square then 2 * root else 2 * root + 1
  let place := (m.exponent - widening) / 2 - 1
  .nearest (shiftedNum 2 place sticky) (shiftedDen 2 place 1)

/-- The square root. -/
def sqrt : Double → Double
  | .nan => .nan
  | .signed negative m =>
    if m = .zero then .signed negative .zero
    else if negative then .nan
    else if m = .infinity then .signed false .infinity
    else .signed false (rootMagnitude m)

/-! ### Rounding from enclosures -/

/-- The precisions that are tried in turn, in bits behind those that the argument needs. -/
def precisions : List Nat :=
  [64, 128, 256, 512, 1024]

/-- The width at a precision. It covers the exponent of the argument, so that the argument itself
is exact. -/
def width (m : Magnitude) (precision : Nat) : Nat :=
  precision + m.exponent.natAbs + 64

/-- Rounds a function of a positive finite magnitude, given its enclosures at every width, at the
first of the precisions that settles it. At the last one its lower bound is rounded, settled or
not. -/
def settle (m : Magnitude) (enclose : Nat → Option Enclosure) : List Nat → Double
  | [] => .nan
  | precision :: rest =>
    match enclose (width m precision) with
    | some x =>
      if x.IsSettled (width m precision) ∨ rest.isEmpty then
        Enclosure.nearestDouble (width m precision) x.lo
      else settle m enclose rest
    | none => settle m enclose rest

/-- A finite magnitude scaled by `2 ^ width`, exact for widths that cover its exponent. -/
def fixedPoint (width : Nat) (m : Magnitude) : Int :=
  m.significand * Nat.pow 2 (m.exponent + width).toNat

/-! ### Angles -/

/-- One degree, in radians. -/
def degree : Double :=
  pi.div (ofInt 180)

/-- Degrees as radians: one product, rounded once. -/
def radians (x : Double) : Double :=
  x.mul degree

/-- An angle taken apart: the number of quarter turns nearest to it, and the rest. -/
def reduce (width : Nat) (m : Magnitude) : Int × Enclosure :=
  let angle := fixedPoint width m
  let quarter := Enclosure.quarterTurn width
  let turns := (2 * angle + quarter.lo) / (2 * quarter.lo)
  (turns, (Enclosure.exact angle).add (quarter.scale (-turns)))

/-- The sine of an angle of `turns` quarter turns and a rest. -/
def sinAfter (width : Nat) (turns : Int) (rest : Enclosure) : Enclosure :=
  match (turns % 4).toNat with
  | 0 => rest.sin width
  | 1 => rest.cos width
  | 2 => (rest.sin width).neg
  | _ => (rest.cos width).neg

/-- The sine of a positive finite magnitude; a cosine is that of one quarter turn more. -/
def encloseSin (turnsAhead : Int) (m : Magnitude) (width : Nat) : Enclosure :=
  let (turns, rest) := reduce width m
  sinAfter width (turns + turnsAhead) rest

/-- The tangent of a positive finite magnitude. -/
def encloseTan? (m : Magnitude) (width : Nat) : Option Enclosure :=
  let (turns, rest) := reduce width m
  (sinAfter width turns rest).div? width (sinAfter width (turns + 1) rest)

/-- An odd function of an angle in radians from its values at positive angles. -/
def oddOfAngle (value : Magnitude → Double) : Double → Double
  | .nan => .nan
  | .signed negative m =>
    if m = .infinity then .nan
    else if m = .zero then .signed negative .zero
    else if negative then (value m).neg
    else value m

/-- The sine of an angle in radians. -/
def sin : Double → Double :=
  oddOfAngle fun m => settle m (some ∘ encloseSin 0 m) precisions

/-- The tangent of an angle in radians. -/
def tan : Double → Double :=
  oddOfAngle fun m => settle m (encloseTan? m) precisions

/-- The cosine of an angle in radians. -/
def cos : Double → Double
  | .nan => .nan
  | .signed _ m =>
    if m = .infinity then .nan
    else if m = .zero then .one
    else settle m (some ∘ encloseSin 1 m) precisions

/-! ### Logarithm -/

/-- The decimal logarithm of a positive finite magnitude: with `top` the highest power of two
in it and `y` the rest, `top` natural logarithms of two and twice the inverse hyperbolic
tangent of `(y - 1) / (y + 1)`, divided by the natural logarithm of ten. -/
def encloseLog10? (m : Magnitude) (width : Nat) : Option Enclosure :=
  let bits := Nat.log2 m.significand
  let top := m.exponent + bits
  let rest := Enclosure.ofQuotient width
    (m.significand - Nat.pow 2 bits : Nat) (m.significand + Nat.pow 2 bits : Nat)
  let natural := ((Enclosure.logTwo width).scale top).add ((rest.artanh width).scale 2)
  natural.div? width (Enclosure.logTen width)

/-- The decimal logarithm. -/
def log10 : Double → Double
  | .nan => .nan
  | .signed negative m =>
    if m = .zero then .signed true .infinity
    else if negative then .nan
    else if m = .infinity then .signed false .infinity
    else if m = .nearest 1 1 then .zero
    else settle m (encloseLog10? m) precisions

end Double

end SplitCalc
