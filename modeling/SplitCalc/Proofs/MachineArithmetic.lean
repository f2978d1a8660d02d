import SplitCalc.Decimal.Arithmetic
import SplitCalc.Decimal.Canonical
import SplitCalc.Decimal.Literal
import SplitCalc.Decimal.Quotient
import SplitCalc.Decimal.Truncation

/-!
# The arithmetic of scales stays in range

The digits of a decimal are unbounded, but scales, exponents, digit counts and positions in a text
are machine numbers of 32 or 64 bits. The operations are repeated here with every step on such
numbers checked (`Checked`): a sum, a difference or a negation that leaves its words, a number that
becomes unsigned although it is negative or too large, a text that is cut behind its end, and zeros
in excess of a limit are faults that stop the computation.

No operation ever comes to a fault, and each gives the result it gives without the checks, for
decimals with fewer than `2147483648` digits and scales up to both ends of the words
(`machine_arithmetic_in_range`). A step is safe because of a test before it, so each operation has
an equation of its own, in which the tests are followed:

* scales are brought together only when they are at most `maxDigits` apart
  (`Checked.aligned?_eq`);
* a quotient is shifted by no more places than its operands have digits, up to `precision`
  (`Checked.div?_eq`);
* a scale is negated as a 32-bit word only when it is at least `-10` (`Checked.truncate?_eq`);
* a text is padded only when its first digit stands at most six places behind the point
  (`Checked.render_eq`).
-/

namespace SplitCalc

/-- An integer is a **long** word when 64 bits hold it in two's complement. -/
def IsLong (n : Int) : Prop :=
  -9223372036854775808 ≤ n ∧ n ≤ 9223372036854775807

/-- Definitional unfolding of `IsLong`. -/
theorem isLong_iff {n : Int} :
    IsLong n ↔ -9223372036854775808 ≤ n ∧ n ≤ 9223372036854775807 :=
  Iff.rfl

instance (n : Int) : Decidable (IsLong n) :=
  inferInstanceAs (Decidable (_ ∧ _))

/-! ### Steps -/

/-- What can be wrong in a step on machine numbers. -/
inductive Fault
  /-- A result or a cast leaves the words of 32 bits. -/
  | word
  /-- A result or a cast leaves the long words of 64 bits. -/
  | long
  /-- A number that becomes unsigned is negative or needs more than 32 bits. -/
  | unsigned
  /-- A text is cut behind its end. -/
  | position
  /-- More zeros are asked for than the limit allows. -/
  | excess
deriving DecidableEq

/-- A computation that is stopped by the first fault. -/
abbrev Checked := Except Fault

namespace Checked

variable {α β : Type}

/-- After a step without a fault the computation goes on. -/
@[simp]
theorem ok_bind (x : α) (next : α → Checked β) : (Except.ok x : Checked α) >>= next = next x :=
  rfl

/-- A result or a cast of 32 bits. -/
def word (n : Int) : Checked Int :=
  if IsWord n then .ok n else .error .word

/-- A result or a cast of 64 bits. -/
def long (n : Int) : Checked Int :=
  if IsLong n then .ok n else .error .long

/-- A cast to an unsigned number. Counts and positions are held to 32 bits like all others. -/
def unsigned (n : Int) : Checked Nat :=
  if 0 ≤ n ∧ n < 4294967296 then .ok n.toNat else .error .unsigned

/-- The parts of a text before and behind a position. -/
def cut (position : Nat) (text : Text) : Checked (Text × Text) :=
  if position ≤ text.length then .ok (text.take position, text.drop position)
  else .error .position

/-- A number of zeros, up to a limit. -/
def within (limit zeros : Nat) : Checked Nat :=
  if zeros ≤ limit then .ok zeros else .error .excess

section Steps

variable {n : Int}

theorem word_eq (h : IsWord n) : word n = .ok n :=
  if_pos h

theorem long_eq (h : IsLong n) : long n = .ok n :=
  if_pos h

theorem unsigned_eq (hnonneg : 0 ≤ n) (hlt : n < 4294967296) : unsigned n = .ok n.toNat :=
  if_pos ⟨hnonneg, hlt⟩

theorem cut_eq {position : Nat} {text : Text} (h : position ≤ text.length) :
    cut position text = .ok (text.take position, text.drop position) :=
  if_pos h

theorem within_eq {limit zeros : Nat} (h : zeros ≤ limit) : within limit zeros = .ok zeros :=
  if_pos h

end Steps

/-! ### Exponents of literals -/

/-- Reads the exponent behind its letter. The digits must fit in a long word, which is negated
behind a minus. -/
def exponent? (text : Text) : Checked (Option Int) :=
  let (negative, digits) := Literal.splitSign text
  if digits.all Char.isDigit ∧ digits ≠ [] then
    if IsLong (Digits.value digits) then do
      let exponent ← if negative then long (-(Digits.value digits : Int))
        else pure (Digits.value digits : Int)
      return Decimal.asWord? exponent
    else return none
  else return none

/-- No exponent comes to a fault: digits that fit in a long word fit negated as well, and others
are too large for a word anyway. -/
theorem exponent?_eq (text : Text) :
    exponent? text = .ok ((Literal.parseExponent? text).bind Decimal.asWord?) := by
  rw [exponent?, Literal.parseExponent?]
  obtain ⟨negative, digits⟩ := Literal.splitSign text
  dsimp only
  generalize Digits.value digits = value
  split
  · rw [Option.bind_some]
    split
    · rename_i hlong
      rw [isLong_iff] at hlong
      cases negative
      · rfl
      · rw [if_pos rfl, long_eq (isLong_iff.2 (by omega))]
        rfl
    · rename_i hlong
      have hword : ¬IsWord (Decimal.signed negative value) := by
        rw [isLong_iff] at hlong
        rw [isWord_iff]
        cases negative
        · rw [Decimal.signed_false]
          omega
        · rw [Decimal.signed_true]
          omega
      rw [Decimal.asWord?, if_neg hword]
      rfl
  · rfl

/-! ### Sums and differences -/

/-- The distance of two scales, if it is at most `maxDigits`. -/
def gap? (small large : Int) : Checked (Option Nat) := do
  let gap ← long (large - small)
  if (maxDigits : Int) < gap then return none
  else return some (← unsigned gap)

/-- The digits of two decimals at the larger of their scales. The limit is one on the zeros that
the digits of one of them gain. -/
def aligned? (limit : Nat) (a b : Decimal) : Checked (Option (Int × Int × Int)) :=
  if a.scale = b.scale then return some (a.unscaled, b.unscaled, a.scale)
  else if a.scale < b.scale then do
    match ← gap? a.scale b.scale with
    | none => return none
    | some gap => return some (a.unscaled * Nat.pow 10 (← within limit gap), b.unscaled, b.scale)
  else do
    match ← gap? b.scale a.scale with
    | none => return none
    | some gap => return some (a.unscaled, b.unscaled * Nat.pow 10 (← within limit gap), a.scale)

/-- A sum or a difference of decimals. -/
def combined? (limit : Nat) (combine : Int → Int → Int) (a b : Decimal) :
    Checked (Option Decimal) := do
  match ← aligned? limit a b with
  | none => return none
  | some (x, y, scale) => return Decimal.ofParts? (combine x y) scale

/-- The distance of two scales fits, and up to the limit it is a number of zeros. -/
theorem gap?_eq {a b : Decimal} (h : a.scale < b.scale) :
    gap? a.scale b.scale = .ok (if a.Alignable b then some (a.alignment b) else none) := by
  obtain ⟨hlow, -⟩ := a.isWord_scale
  obtain ⟨-, hhigh⟩ := b.isWord_scale
  have hnear : a.Alignable b ↔ b.scale - a.scale ≤ maxDigits := by
    rw [Decimal.alignable_iff]
    omega
  rw [gap?, long_eq (isLong_iff.2 (by omega)), ok_bind]
  by_cases halignable : a.Alignable b
  · rw [if_neg (Int.not_lt.2 (hnear.1 halignable)), unsigned_eq (by omega) (by omega),
      if_pos halignable]
    rfl
  · rw [if_pos (Int.not_le.1 (mt hnear.2 halignable)), if_neg halignable]
    rfl

/-- At the larger of two scales the digits are kept. -/
theorem alignedTo_of_le {a b : Decimal} (h : b.scale ≤ a.scale) : a.alignedTo b = a.unscaled := by
  have hnone : a.alignment b = 0 := by
    rw [Decimal.alignment]
    omega
  rw [Decimal.alignedTo, hnone]
  exact Int.mul_one _

/-- **Bringing scales together** forms no power of ten beyond that of `maxDigits`. -/
theorem aligned?_eq (a b : Decimal) :
    aligned? maxDigits a b =
      .ok (if a.Alignable b then some (a.alignedTo b, b.alignedTo a, max a.scale b.scale)
        else none) := by
  rw [aligned?]
  rcases Int.lt_trichotomy a.scale b.scale with hlt | heq | hgt
  · rw [if_neg (by omega), if_pos hlt, gap?_eq hlt, ok_bind, alignedTo_of_le (Int.le_of_lt hlt),
      Int.max_eq_right (Int.le_of_lt hlt)]
    by_cases h : a.Alignable b
    · rw [if_pos h, if_pos h]
      dsimp only
      rw [within_eq h.1]
      rfl
    · rw [if_neg h, if_neg h]
      rfl
  · have halignable : a.Alignable b := by
      rw [Decimal.alignable_iff]
      omega
    rw [if_pos heq, if_pos halignable, alignedTo_of_le (Int.le_of_eq heq.symm),
      alignedTo_of_le (Int.le_of_eq heq), heq, Int.max_self]
    rfl
  · have hcomm : b.Alignable a ↔ a.Alignable b := And.comm
    rw [if_neg (by omega), if_neg (by omega), gap?_eq hgt, ok_bind,
      alignedTo_of_le (Int.le_of_lt hgt), Int.max_eq_left (Int.le_of_lt hgt)]
    by_cases h : a.Alignable b
    · rw [if_pos (hcomm.2 h), if_pos h]
      dsimp only
      rw [within_eq h.2]
      rfl
    · rw [if_neg (mt hcomm.1 h), if_neg h]
      rfl

/-- Combining the digits of two decimals comes to no fault. -/
theorem combined?_eq (combine : Int → Int → Int) (a b : Decimal) :
    combined? maxDigits combine a b =
      .ok (if a.Alignable b then
        some ⟨combine (a.alignedTo b) (b.alignedTo a), max a.scale b.scale,
          Decimal.isWord_max_scale a b⟩
        else none) := by
  rw [combined?, aligned?_eq, ok_bind]
  by_cases h : a.Alignable b
  · rw [if_pos h, if_pos h]
    exact congrArg Except.ok (Decimal.ofParts?_eq_some_iff.2 ⟨rfl, rfl⟩)
  · rw [if_neg h, if_neg h]
    rfl

/-! ### Powers -/

/-- The power with an integer exponent. -/
def pow? (a : Decimal) (n : Int) : Checked (Option Decimal) :=
  if n < 0 then return none
  else if ¬Decimal.Affordable a.unscaled n.toNat then return none
  else if ¬IsWord (a.scale * n) then return none
  else do
    let exponent ← unsigned n
    return Decimal.ofParts? (Decimal.integerPower a.unscaled exponent) (a.scale * n)

/-- Powers come to no fault: a word that is not negative is an unsigned number. -/
theorem pow?_eq (a : Decimal) {n : Int} (hn : IsWord n) : pow? a n = .ok (a.pow? n) := by
  rw [isWord_iff] at hn
  rw [pow?, Decimal.pow?]
  by_cases hnonneg : n < 0
  · rw [if_pos hnonneg, if_neg (by omega)]
    rfl
  by_cases haffordable : Decimal.Affordable a.unscaled n.toNat
  · have hguard : 0 ≤ n ∧ Decimal.Affordable a.unscaled n.toNat := ⟨by omega, haffordable⟩
    rw [if_neg hnonneg, if_neg (not_not_intro haffordable), if_pos hguard]
    by_cases hscale : IsWord (a.scale * n)
    · rw [if_neg (not_not_intro hscale), unsigned_eq (by omega) (by omega)]
      rfl
    · rw [if_pos hscale, Decimal.ofParts?_eq_none_iff.2 hscale]
      rfl
  · rw [if_neg hnonneg, if_pos haffordable, if_neg fun h => haffordable h.2]
    rfl

/-! ### Quotients -/

/-- The parts of a quotient times a power of ten: a positive shift multiplies the numerator, a
negative one is negated and multiplies the denominator. -/
def shifted (shift : Int) (num den : Nat) : Checked (Nat × Nat) :=
  if 0 ≤ shift then do return (num * Nat.pow 10 (← unsigned shift), den)
  else do return (num, den * Nat.pow 10 (← unsigned (← long (-shift))))

/-- The power of ten of the first digit of a quotient. -/
def firstPlace (num den : Nat) : Checked Int := do
  let guess ← long ((← long (Digits.count num)) - (← long (Digits.count den)))
  let (den, num) ← shifted guess den num
  if num < den then long (guess - 1) else return guess

/-- Drops trailing zeros of the digits as long as the scale is above the preferred one. -/
def dropZeros (preferred : Int) (digits : Nat) (scale : Int) : Checked Scaled :=
  if preferred < scale ∧ digits % 10 = 0 then do
    let _ ← long (scale - 1)
    dropZeros preferred (digits / 10) (scale - 1)
  else return ⟨digits, scale⟩
termination_by (scale - preferred).toNat

/-- The digits and the scale of a quotient that is shifted to a whole part of `precision`
digits. -/
def rounded (preferred shift : Int) (num den : Nat) : Checked Scaled :=
  let digits := roundHalfEven num den
  if num % den = 0 then do
    dropZeros preferred digits (← long (shift + preferred))
  else if digits = Nat.pow 10 precision then do
    return ⟨Nat.pow 10 (precision - 1), ← long ((← long (shift - 1)) + preferred)⟩
  else do
    return ⟨digits, ← long (shift + preferred)⟩

/-- The quotient of two decimals. -/
def div? (a b : Decimal) : Checked (Option Decimal) :=
  if b.isZero then return none
  else do
    let preferred ← long (a.scale - b.scale)
    if a.isZero then return Decimal.ofParts? 0 (← word (nearestWord preferred))
    else do
      let exponent ← firstPlace a.unscaled.natAbs b.unscaled.natAbs
      let shift ← long ((← long ((precision : Int) - 1)) - exponent)
      let (num, den) ← shifted shift a.unscaled.natAbs b.unscaled.natAbs
      let quotient ← rounded preferred shift num den
      let negative := decide (a.unscaled < 0) != decide (b.unscaled < 0)
      return Decimal.ofParts? (Decimal.signed negative quotient.digits) quotient.shift

/-- Shifts of less than `4294967296` places come to no fault. -/
theorem shifted_eq {shift : Int} (hlow : -4294967296 < shift) (hhigh : shift < 4294967296)
    (num den : Nat) :
    shifted shift num den = .ok (shiftedNum 10 shift num, shiftedDen 10 shift den) := by
  rw [shifted, shiftedNum, shiftedDen]
  split
  · have hden : (-shift).toNat = 0 := by omega
    rw [unsigned_eq ‹_› hhigh, hden]
    exact congrArg (fun n => Except.ok (_, n)) (Nat.mul_one den).symm
  · have hnum : shift.toNat = 0 := by omega
    rw [long_eq (isLong_iff.2 (by omega)), ok_bind, unsigned_eq (by omega) (by omega), hnum]
    exact congrArg (fun n => Except.ok (n, _)) (Nat.mul_one num).symm

/-- The first digit of a quotient is found without a fault. -/
theorem firstPlace_eq {num den : Nat} (hnum : Digits.count num < 2147483648)
    (hden : Digits.count den < 2147483648) :
    firstPlace num den = .ok (decimalExponent num den) := by
  rw [firstPlace, decimalExponent, quotientExponent]
  generalize Digits.count num = numCount at *
  generalize Digits.count den = denCount at *
  rw [long_eq (isLong_iff.2 (by omega)), ok_bind, long_eq (isLong_iff.2 (by omega)), ok_bind,
    long_eq (isLong_iff.2 (by omega)), ok_bind, shifted_eq (by omega) (by omega), ok_bind]
  dsimp only
  -- the divisor is shifted here, which shifts the quotient the other way
  rw [shiftedNum, shiftedDen, shiftedNum, shiftedDen, Int.neg_neg]
  split
  · rw [long_eq (isLong_iff.2 (by omega))]
  · rfl

/-- The first digit is as far from the point as the digit counts allow. -/
theorem decimalExponent_bounds {num den : Nat} (hnum : Digits.count num < 2147483648)
    (hden : Digits.count den < 2147483648) :
    -2147483648 ≤ decimalExponent num den ∧
      decimalExponent num den < 2147483648 := by
  have := Digits.count_pos num
  have := Digits.count_pos den
  rw [decimalExponent, quotientExponent]
  split <;> omega

/-- Dropping zeros comes to no fault, and the scale ends where the shift does. -/
theorem dropZeros_eq {preferred shift : Int} (hpreferred : IsLong preferred)
    (hscale : IsLong (shift + preferred)) (digits : Nat) :
    dropZeros preferred digits (shift + preferred) =
      .ok ⟨(Scaled.dropZeros shift.toNat ⟨digits, shift⟩).digits,
        (Scaled.dropZeros shift.toNat ⟨digits, shift⟩).shift + preferred⟩ := by
  rw [isLong_iff] at hpreferred
  induction hlimit : shift.toNat generalizing digits shift with
  | zero =>
    rw [dropZeros, if_neg (by omega)]
    rfl
  | succ limit ih =>
    rw [isLong_iff] at hscale
    rw [dropZeros, Scaled.dropZeros]
    by_cases hzero : digits % 10 = 0
    · have hnext : shift + preferred - 1 = shift - 1 + preferred := by omega
      have hlong : IsLong (shift - 1 + preferred) := isLong_iff.2 (by omega)
      rw [if_pos ⟨by omega, hzero⟩, hnext, long_eq hlong, ok_bind, ih hlong _ (by omega),
        if_pos hzero]
    · rw [if_neg fun h => hzero h.2, if_neg hzero]
      rfl

/-- The digits of a quotient are rounded without a fault, whether they are exact, carry into one
digit more or not. -/
theorem rounded_eq {preferred : Int} {num den : Nat} (hpreferred : -4294967296 ≤ preferred)
    (hpreferred' : preferred ≤ 4294967296) (hshift : -4294967296 ≤ Quotient.shift num den)
    (hshift' : Quotient.shift num den ≤ 4294967296) :
    rounded preferred (Quotient.shift num den) (shiftedNum 10 (Quotient.shift num den) num)
        (shiftedDen 10 (Quotient.shift num den) den) =
      .ok ⟨(Quotient.rounded num den).digits, (Quotient.rounded num den).shift + preferred⟩ := by
  rw [rounded, Quotient.rounded]
  generalize Quotient.shift num den = shift at *
  rw [roundShifted]
  have hscale : IsLong (shift + preferred) := isLong_iff.2 (by omega)
  split
  · rw [long_eq hscale, ok_bind, dropZeros_eq (isLong_iff.2 (by omega)) hscale]
  · split
    · rw [long_eq (isLong_iff.2 (by omega)), ok_bind, long_eq (isLong_iff.2 (by omega))]
      rfl
    · rw [long_eq hscale]
      rfl

/-- **Quotients** come to no fault. -/
theorem div?_eq {a b : Decimal} (ha : a.digitCount < 2147483648) (hb : b.digitCount < 2147483648) :
    div? a b = .ok (a.div? b) := by
  obtain ⟨hlowA, hhighA⟩ := a.isWord_scale
  obtain ⟨hlowB, hhighB⟩ := b.isWord_scale
  rw [div?, Decimal.div?]
  split
  · rfl
  · rw [long_eq (isLong_iff.2 (by omega)), ok_bind]
    split
    · rw [word_eq]
      · rfl
      · rw [isWord_iff, nearestWord]
        omega
    · obtain ⟨hlow, hhigh⟩ := decimalExponent_bounds ha hb
      have hprecision : ((precision : Int) - 1) = 33 := rfl
      have hshift : 33 - decimalExponent a.unscaled.natAbs b.unscaled.natAbs =
          Quotient.shift a.unscaled.natAbs b.unscaled.natAbs := rfl
      rw [firstPlace_eq ha hb, ok_bind, hprecision, long_eq (by decide), ok_bind,
        long_eq (isLong_iff.2 (by omega)), ok_bind, hshift, shifted_eq (by omega) (by omega),
        ok_bind]
      dsimp only
      rw [rounded_eq (by omega) (by omega) (by omega) (by omega)]
      rfl

/-! ### Integer parts -/

/-- The decimal cut towards zero. -/
def truncate? (a : Decimal) : Checked (Option Int) :=
  if a.scale ≤ 0 then
    if a.isZero then return some 0
    else do
      if 10 < (← long (-a.scale)) then return none
      else return Decimal.asWord? (a.unscaled * Nat.pow 10 (← unsigned (← word (-a.scale))))
  else do
    if a.digitCount < (← unsigned a.scale) then return some 0
    else return Decimal.asWord? (a.unscaled.tdiv (Nat.pow 10 (← unsigned a.scale)))

/-- **Integer parts** come to no fault: where a scale is negated as a word, it is not the least
one. -/
theorem truncate?_eq (a : Decimal) : truncate? a = .ok a.truncate? := by
  obtain ⟨hlow, hhigh⟩ := a.isWord_scale
  rw [truncate?, Decimal.truncate?]
  split
  · split
    · rfl
    · rw [long_eq (isLong_iff.2 (by omega)), ok_bind]
      split
      · rw [if_pos (by omega)]
        rfl
      · rw [if_neg (by omega), word_eq (isWord_iff.2 (by omega)), ok_bind,
          unsigned_eq (by omega) (by omega)]
        rfl
  · rw [unsigned_eq (by omega) (by omega), ok_bind]
    split
    · rw [if_pos (by omega)]
      rfl
    · rw [if_neg (by omega)]
      rfl

/-! ### Canonical texts -/

/-- The canonical text of a decimal. The limit is one on the zeros behind the point of a number
below one. -/
def render (limit : Nat) (a : Decimal) : Checked Text :=
  if a.scale = 0 then return a.signText ++ a.digits
  else do
    let exponent ← long ((← long (-a.scale)) + (← long ((← long a.digits.length) - 1)))
    if 0 < a.scale ∧ -6 ≤ exponent then do
      let scale ← unsigned a.scale
      if scale < a.digits.length then do
        let (whole, fraction) ← cut (← unsigned (a.digits.length - scale)) a.digits
        return a.signText ++ (whole ++ '.' :: fraction)
      else do
        let zeros ← within limit (← unsigned (scale - a.digits.length))
        return a.signText ++ '0' :: '.' :: (List.replicate zeros '0' ++ a.digits)
    else do
      let (first, rest) ← cut 1 a.digits
      return a.signText ++ (first ++ (if rest = [] then [] else '.' :: rest) ++
        'E' :: Decimal.exponentText exponent)

/-- **Canonical texts** come to no fault, and no more than five zeros are put behind the point. -/
theorem render_eq {a : Decimal} (h : a.digitCount < 2147483648) : render 5 a = .ok a.render := by
  obtain ⟨hlow, hhigh⟩ := a.isWord_scale
  have hpos : 0 < a.digitCount := Digits.count_pos _
  have hlength : a.digits.length = a.digitCount := rfl
  rw [render, Decimal.render]
  split
  · rfl
  · have hexponent : -a.scale + ((a.digitCount : Int) - 1) = a.leadingExponent := by
      rw [Decimal.leadingExponent]
      omega
    rw [hlength, long_eq (isLong_iff.2 (by omega)), ok_bind, long_eq (isLong_iff.2 (by omega)),
      ok_bind, long_eq (isLong_iff.2 (by omega)), ok_bind, long_eq (isLong_iff.2 (by omega)),
      ok_bind, hexponent]
    split
    · rename_i h
      have hplain : a.IsPlain := h
      have hpadding := Decimal.padding_le_five hplain
      rw [unsigned_eq (by omega) (by omega), ok_bind, if_pos hplain, Decimal.plainText]
      dsimp only
      split
      · rw [unsigned_eq (by omega) (by omega), ok_bind, cut_eq (by omega), ok_bind, if_pos (by omega)]
        have hwhole : ((a.digitCount : Int) - a.scale.toNat).toNat =
          a.digitCount - a.scale.toNat := by omega
        rw [hwhole]
        rfl
      · have hzeros : ((a.scale.toNat : Int) - a.digitCount).toNat = a.padding := by
          rw [Decimal.padding]
          omega
        rw [unsigned_eq (by omega) (by omega), ok_bind, hzeros, within_eq hpadding, ok_bind,
          if_neg (by omega)]
        rfl
    · rename_i h
      have hplain : ¬a.IsPlain := h
      rw [if_neg hplain, cut_eq (by omega)]
      rfl

end Checked

/-! ### All operations -/

/-- **Machine numbers stay in range.** For decimals with fewer than `2147483648` digits and an
exponent that is a word, the operations with checked steps come to no fault and give what the
operations without checks give. Sums and differences form no power of ten beyond that of
`100000`, and a canonical text has at most five zeros between its point and its digits. -/
theorem machine_arithmetic_in_range (text : Text) (a b : Decimal) (n : Int)
    (ha : a.digitCount < 2147483648) (hb : b.digitCount < 2147483648) (hn : IsWord n) :
    Checked.exponent? text = .ok ((Literal.parseExponent? text).bind Decimal.asWord?) ∧
      Checked.combined? 100000 (· + ·) a b = .ok (a.add? b) ∧
      Checked.combined? 100000 (· - ·) a b = .ok (a.sub? b) ∧
      Checked.pow? a n = .ok (a.pow? n) ∧
      Checked.div? a b = .ok (a.div? b) ∧
      Checked.truncate? a = .ok a.truncate? ∧
      Checked.render 5 a = .ok a.render :=
  ⟨Checked.exponent?_eq text, Checked.combined?_eq (· + ·) a b, Checked.combined?_eq (· - ·) a b,
    Checked.pow?_eq a hn, Checked.div?_eq ha hb, Checked.truncate?_eq a, Checked.render_eq ha⟩

/-- At both ends of the words: the least exponent is read, scales that far apart are not brought
together, the first power keeps the least scale, the scale of the quotient would be no word, and
the least scale is written as an exponent that is no word either. -/
theorem machine_arithmetic_in_range_ends :
    let a : Decimal := ⟨-15, -2147483648, by decide⟩
    let b : Decimal := ⟨3, 2147483647, by decide⟩
    Checked.exponent? ['-', '2', '1', '4', '7', '4', '8', '3', '6', '4', '8'] =
        .ok (some (-2147483648)) ∧
      Checked.combined? 100000 (· + ·) a b = .ok none ∧
      Checked.combined? 100000 (· - ·) a b = .ok none ∧
      Checked.pow? a 1 = .ok (some a) ∧
      Checked.div? a b = .ok none ∧
      Checked.truncate? a = .ok none ∧
      Checked.render 5 a =
        .ok ['-', '1', '.', '5', 'E', '+', '2', '1', '4', '7', '4', '8', '3', '6', '4', '9'] := by
  intro a b
  obtain ⟨hexponent, hsum, hdifference, hpower, hquotient, hinteger, htext⟩ :=
    machine_arithmetic_in_range ['-', '2', '1', '4', '7', '4', '8', '3', '6', '4', '8'] a b
      1 (by decide +kernel) (by decide +kernel) (by decide)
  rw [hexponent, hsum, hdifference, hpower, hquotient, hinteger, htext]
  simp only [Except.ok.injEq]
  decide +kernel

/-- The limit of five zeros is reached by `0.000001`. -/
example : Checked.render 4 ⟨1, 6, by decide⟩ = .error .excess := by
  rfl

end SplitCalc
