import Mathlib.Algebra.BigOperators.Intervals
import SplitCalc.Proofs.DigitEstimate
import SplitCalc.Proofs.Truncation

/-!
# Factorials of a bounded size

Cutting a range behind its middle leaves no integer out and takes none twice, so the product of a
range is the product over its interval (`rangeProduct_eq_prod`), and that from two on is the
factorial.

Whether a factorial has at most `maxDigits` digits is told from an estimate before it is computed.
The estimate lies between half a digit and one digit above the logarithm of the factorial. At the
limit this is accurate enough: the last factorial that fits stays more than two digits below it and
the next one is beyond it. An estimate that is off by up to half a digit therefore decides as the
exact digit count does (`estimate_le_iff`), and so does the one in doubles, with any decimal
logarithm of them (`lt_digitEstimate_iff`).
-/

namespace SplitCalc

/-! ### Products of consecutive integers -/

/-- **The product of a range** is that of all its integers, none left out and none twice. -/
theorem rangeProduct_eq_prod (first last : ℕ) :
    rangeProduct first last = ∏ i ∈ Finset.Icc first last, i := by
  fun_induction rangeProduct first last with
  | case1 first last hempty => rw [Finset.Icc_eq_empty (by omega), Finset.prod_empty]
  | case2 first last _ _ =>
    rw [← List.prod_eq_foldl, Finset.prod_eq_multiset_prod]
    simp [Nat.Icc_eq_range']
  | case3 first last _ _ middle ihfirst ihsecond =>
    have hle : first ≤ middle + 1 := by omega
    have hlast : middle + 1 ≤ last + 1 := by omega
    rw [ihfirst, ihsecond]
    simp only [← Finset.Ico_add_one_right_eq_Icc]
    exact Finset.prod_Ico_consecutive _ hle hlast

/-- The product of the integers from two on is the factorial. -/
theorem factorial_eq (n : ℕ) : factorial n = n.factorial := by
  rw [factorial, rangeProduct_eq_prod, ← Finset.prod_Ico_id_eq_factorial,
    ← Finset.Ico_add_one_right_eq_Icc]
  rcases Nat.eq_zero_or_pos n with rfl | hn
  · rfl
  · rw [Finset.prod_eq_prod_Ico_succ_bot (by omega : 1 < n + 1), one_mul]

/-! ### The greatest factorial -/

/-- The **last factorial** of a number of digits: it leaves two of them unused, and the next
factorial has one digit too many. -/
structure IsLastFactorial (digits last : ℕ) : Prop where
  /-- The factorial fits, and two digits less would do. -/
  factorial_lt : last.factorial < 10 ^ (digits - 2)
  /-- The next factorial does not fit. -/
  le_factorial_succ : 10 ^ digits ≤ (last + 1).factorial

/-- Both bounds can be told from one factorial. -/
theorem isLastFactorial_iff {digits last : ℕ} :
    IsLastFactorial digits last ↔
      factorial last < Nat.pow 10 (digits - 2) ∧
        Nat.pow 10 digits ≤ (last + 1) * factorial last := by
  rw [factorial_eq, ← Nat.factorial_succ, Nat.pow_eq, Nat.pow_eq]
  exact ⟨fun h => ⟨h.1, h.2⟩, fun h => ⟨h.1, h.2⟩⟩

/-- The greatest integer with a factorial of at most `maxDigits` digits. -/
def greatestFactorial : ℕ := 25205

/-- Within `maxDigits` digits the last factorial is that of `greatestFactorial`. -/
theorem isLastFactorial_greatestFactorial : IsLastFactorial maxDigits greatestFactorial := by
  rw [isLastFactorial_iff]
  decide +kernel

namespace IsLastFactorial

variable {digits last n : ℕ} (h : IsLastFactorial digits last)
include h

/-- A factorial up to the last one leaves two digits unused. -/
theorem factorial_lt_of_le (hn : n ≤ last) : n.factorial < 10 ^ (digits - 2) :=
  (Nat.factorial_le hn).trans_lt h.factorial_lt

/-- The factorials below the power of ten are those up to the last one. -/
theorem le_iff_factorial_lt : n ≤ last ↔ n.factorial < 10 ^ digits := by
  constructor
  · intro hn
    exact (h.factorial_lt_of_le hn).trans_le (Nat.pow_le_pow_right (by norm_num) (Nat.sub_le _ _))
  · intro hfits
    refine Nat.not_lt.1 fun hn => ?_
    exact absurd (h.le_factorial_succ.trans (Nat.factorial_le hn)) (Nat.not_le.2 hfits)

end IsLastFactorial

/-- A factorial has at most `maxDigits` digits when it is below their power of ten. -/
theorem count_factorial_le_iff {n : ℕ} :
    Digits.count n.factorial ≤ maxDigits ↔ n.factorial < 10 ^ maxDigits := by
  rw [Digits.count_le_iff (by decide), Nat.pow_eq]

/-- A factorial has at most `maxDigits` digits up to `greatestFactorial` and no further. -/
theorem le_greatestFactorial_iff {n : ℕ} :
    n ≤ greatestFactorial ↔ Digits.count n.factorial ≤ maxDigits := by
  rw [count_factorial_le_iff, isLastFactorial_greatestFactorial.le_iff_factorial_lt]

/-! ### The guard -/

/-- A factorial is below a power of ten when its logarithm is below the exponent. -/
theorem factorial_lt_ten_pow_iff {n k : ℕ} :
    n.factorial < 10 ^ k ↔ Real.logb 10 n.factorial < k := by
  rw [Real.logb_lt_iff_lt_rpow (by norm_num) (by exact_mod_cast n.factorial_pos),
    Real.rpow_natCast]
  exact_mod_cast Iff.rfl

/-- The logarithm of a factorial that fits stays two digits below the limit. -/
theorem logb_factorial_lt_of_count_le {n : ℕ} (h : Digits.count n.factorial ≤ maxDigits) :
    Real.logb 10 n.factorial < (maxDigits - 2 : ℕ) :=
  factorial_lt_ten_pow_iff.1 <|
    isLastFactorial_greatestFactorial.factorial_lt_of_le (le_greatestFactorial_iff.2 h)

/-- **The estimate decides.** Computed with an error of up to half a digit, it is at most
`maxDigits` exactly when the factorial has at most so many digits. -/
theorem estimate_le_iff {n : ℕ} {estimate : ℝ} (h : |estimate - stirlingEstimate n| ≤ 1 / 2) :
    estimate ≤ maxDigits ↔ Digits.count n.factorial ≤ maxDigits := by
  obtain ⟨hlow, hhigh⟩ := abs_le.1 h
  have hmax : (maxDigits : ℝ) = 100000 := by norm_num [maxDigits]
  rcases Nat.lt_or_ge n 2 with hsmall | hn
  · -- the two smallest factorials have a single digit
    have hone : n.factorial = 1 := Nat.factorial_eq_one.2 (by omega)
    rw [stirlingEstimate, if_pos hsmall] at hhigh
    rw [hone, hmax]
    exact iff_of_true (by linarith) (by decide +kernel)
  · constructor
    · intro hle
      have hlogb := logb_factorial_lt_estimate hn
      exact count_factorial_le_iff.2 (factorial_lt_ten_pow_iff.2 (by linarith))
    · intro hfits
      have hlogb := logb_factorial_lt_of_count_le hfits
      have hestimate := estimate_le_logb_factorial hn
      rw [Nat.cast_sub (by decide), hmax] at hlogb
      rw [hmax]
      push_cast at hlogb
      linarith

/-- **The guard in doubles.** The limit is below the estimate exactly when the factorial has more
digits, whatever decimal logarithm the estimate is computed with. -/
theorem lt_digitEstimate_iff {log10 : Double → Double} (h : Double.IsDecimalLogarithm log10) {n : ℕ}
    (hword : n < 2 ^ 31) :
    (Double.ofInt maxDigits).lt (digitEstimate log10 n) ↔
      maxDigits < Digits.count n.factorial := by
  obtain ⟨q, hq, herror⟩ := Double.approximates_digitEstimate h hword
  have hlimit : (Double.ofInt maxDigits).Denotes maxDigits := Double.denotes_ofInt (by decide)
  have hcast : (q : ℝ) ≤ maxDigits ↔ q ≤ maxDigits := by exact_mod_cast Iff.rfl
  rw [hlimit.lt_iff hq, ← not_le, ← hcast, estimate_le_iff herror, not_le]

/-! ### Factorials of decimals -/

namespace Decimal

/-- The factorial of a decimal, by its integer part, whatever decimal logarithm the number of digits
is estimated with. -/
theorem factorialBy?_eq_some_iff {log10 : Double → Double} (h : Double.IsDecimalLogarithm log10)
    {a r : Decimal} :
    a.factorialBy? log10 = some r ↔
      (0 ≤ towardZero a.value ∧ IsWord (towardZero a.value) ∧
        Digits.count (towardZero a.value).toNat.factorial ≤ maxDigits) ∧
        r = ofInt (towardZero a.value).toNat.factorial := by
  rw [factorialBy?, truncate?_eq_asWord?, Option.bind_eq_some_iff]
  have hguard : ∀ n : ℤ, IsWord n → 0 ≤ n →
      ((Double.ofInt maxDigits).lt (digitEstimate log10 n) ↔
        maxDigits < Digits.count n.toNat.factorial) := by
    intro n hword hn
    have hlt : n.toNat < 2 ^ 31 := by
      have := hword.2
      omega
    have hdecides := lt_digitEstimate_iff h hlt
    rwa [Int.toNat_of_nonneg hn] at hdecides
  constructor
  · rintro ⟨n, htruncate, hresult⟩
    obtain ⟨rfl, hword⟩ := asWord?_eq_some_iff.1 htruncate
    rw [Option.ite_none_left_eq_some, Option.ite_none_left_eq_some, not_lt, factorial_eq,
      Option.some.injEq] at hresult
    obtain ⟨hn, hfits, rfl⟩ := hresult
    rw [hguard _ hword hn, not_lt] at hfits
    exact ⟨⟨hn, hword, hfits⟩, rfl⟩
  · rintro ⟨⟨hn, hword, hfits⟩, rfl⟩
    refine ⟨towardZero a.value, asWord?_eq_some_iff.2 ⟨rfl, hword⟩, ?_⟩
    rw [if_neg (not_lt.2 hn), if_neg (by rwa [hguard _ hword hn, not_lt]), factorial_eq]

/-- **Factorials are exact and bounded.** The factorial of a decimal is that of its value cut
towards zero, at scale zero. It exists exactly when the integer is not negative, is a word and has
a factorial of at most 100000 digits. The estimate in doubles decides the last point without fail,
neither refusing a factorial that fits nor letting one through that does not. It does so with any
logarithm that is accurate to `2 ^ (-40)`, as the one used here is, and the factorials are the same
with all of them. The product of a range of integers, formed by halves, is the product over the
range, and one when the range is empty. -/
theorem factorial?_exact_within_bounds (a : Decimal) :
    (∀ r, a.factorial? = some r ↔
        (0 ≤ towardZero a.value ∧ IsWord (towardZero a.value) ∧
          Digits.count (towardZero a.value).toNat.factorial ≤ 100000) ∧
          r = ofInt (towardZero a.value).toNat.factorial) ∧
      Double.IsDecimalLogarithm Double.log10 ∧
      (∀ log10, Double.IsDecimalLogarithm log10 →
        a.factorialBy? log10 = a.factorial? ∧
          ∀ n : ℕ, IsWord n →
            ((Double.ofInt 100000).lt (digitEstimate log10 n) ↔
              100000 < Digits.count n.factorial)) ∧
      ∀ first last, rangeProduct first last = ∏ i ∈ Finset.Icc first last, i := by
  have haccurate := Double.isDecimalLogarithm_log10
  refine ⟨fun r => factorialBy?_eq_some_iff haccurate, haccurate, fun log10 h => ⟨?_, ?_⟩,
    rangeProduct_eq_prod⟩
  · refine Option.ext fun r => ?_
    rw [factorial?, factorialBy?_eq_some_iff h, factorialBy?_eq_some_iff haccurate]
  · intro n hword
    refine lt_digitEstimate_iff h ?_
    have := hword.2
    omega

/-- At the limit the estimate lets the last factorial that fits through and refuses the next one. -/
theorem factorial?_exact_within_bounds_at_limit :
    IsWord (25205 : ℕ) ∧ ¬(Double.ofInt 100000).lt (digitEstimate Double.log10 (25205 : ℕ)) ∧
      IsWord (25206 : ℕ) ∧ (Double.ofInt 100000).lt (digitEstimate Double.log10 (25206 : ℕ)) := by
  obtain ⟨-, haccurate, hguard, -⟩ := factorial?_exact_within_bounds (ofInt 0)
  have hlast := (hguard _ haccurate).2 25205 (by decide)
  have hnext := (hguard _ haccurate).2 25206 (by decide)
  refine ⟨by decide, ?_, by decide, ?_⟩
  · rw [hlast, not_lt]
    exact le_greatestFactorial_iff.1 (by decide)
  · rw [hnext, ← not_le]
    exact fun h => absurd (le_greatestFactorial_iff.2 h) (by decide)

/-- A negative fraction is cut to zero, and the factorial of zero is one. -/
example : (⟨-5, 1, by decide⟩ : Decimal).factorial? = some (ofInt 1) := by
  decide +kernel

end Decimal

end SplitCalc
