import SplitCalc.Rounding

/-!
# Binary doubles

The double-precision numbers of IEEE 754, exactly. The magnitudes of doubles form one
ascending sequence that starts at zero and ends at infinity, and the bits of a magnitude are
its place in that sequence, its *rank*. So a double is a sign and a rank, or not a number.

`Magnitude.nearest` rounds any quotient of natural numbers to a magnitude, half to even, with
gradual underflow and with overflow to infinity. Every conversion and every function here is
rounded by it, once.
-/

namespace SplitCalc

/-! ### Magnitudes -/

/-- The number of bits of a significand behind its first one. -/
def fractionBits : Nat := 52

/-- The first bit of a significand, which the bits of a magnitude leave out. -/
def hiddenBit : Nat := Nat.pow 2 fractionBits

/-- The place of infinity in the sequence of magnitudes. -/
def infinityRank : Nat := 2047 * hiddenBit

/-- The power of two of the least positive magnitude. -/
def leastPlace : Int := -1074

/-- The magnitude of a double, by its place in the ascending sequence of all magnitudes. -/
@[ext]
structure Magnitude where
  /-- The place, which is the bits of the magnitude as a number. -/
  rank : Nat
  /-- The last place is that of infinity. -/
  rank_le : rank ≤ infinityRank
deriving DecidableEq

namespace Magnitude

/-- The magnitude zero. -/
def zero : Magnitude :=
  ⟨0, by decide⟩

/-- The magnitude beyond all finite ones. -/
def infinity : Magnitude :=
  ⟨infinityRank, Nat.le_refl _⟩

/-- The integer that, times `2 ^ exponent`, is a finite magnitude. -/
def significand (m : Magnitude) : Nat :=
  if m.rank < hiddenBit then m.rank
  else hiddenBit + m.rank % hiddenBit

/-- The power of two of the last place of a finite magnitude. -/
def exponent (m : Magnitude) : Int :=
  if m.rank < hiddenBit then leastPlace
  else leastPlace + (m.rank / hiddenBit : Nat) - 1

/-- The numerator of a finite magnitude as a quotient of natural numbers. -/
def num (m : Magnitude) : Nat :=
  shiftedNum 2 m.exponent m.significand

/-- The denominator of a finite magnitude as a quotient of natural numbers. -/
def den (m : Magnitude) : Nat :=
  shiftedDen 2 m.exponent 1

/-- The power of two of the last place to which a positive quotient is rounded: 53 bits from
its first one, but never below the last place of the least magnitude. -/
def lastPlace (num den : Nat) : Int :=
  max (quotientExponent 2 (Nat.log2 num - Nat.log2 den) num den - fractionBits) leastPlace

/-- The magnitude nearest to `num / den`, a tie going to the even rank. -/
def nearest (num den : Nat) : Magnitude :=
  if num = 0 then zero
  else
    let place := lastPlace num den
    let rank := (place - leastPlace).toNat * hiddenBit + roundShifted 2 (-place) num den
    ⟨min rank infinityRank, Nat.min_le_right _ _⟩

end Magnitude

/-! ### Doubles -/

/-- A double-precision number. -/
inductive Double
  /-- Not a number. -/
  | nan
  /-- A magnitude and its sign, a minus where it is negative; zero has both signs. -/
  | signed (negative : Bool) (magnitude : Magnitude)
deriving DecidableEq

namespace Double

/-- The double with these 64 bits; every pattern above the infinities is the one `nan`. -/
def ofBits (bits : BitVec 64) : Double :=
  let rank := (bits.setWidth 63).toNat
  if h : rank ≤ infinityRank then .signed bits.msb ⟨rank, h⟩ else .nan

/-- The 64 bits of a double. -/
def toBits : Double → BitVec 64
  | .nan => (BitVec.ofNat 63 (infinityRank + Nat.pow 2 (fractionBits - 1))).cons false
  | .signed negative m => (BitVec.ofNat 63 m.rank).cons negative

/-- The positive zero. -/
def zero : Double :=
  .signed false .zero

/-- The number one. -/
def one : Double :=
  .signed false (.nearest 1 1)

/-- The double with the other sign. -/
def neg : Double → Double
  | .nan => .nan
  | .signed negative m => .signed (!negative) m

end Double

end SplitCalc
