import SplitCalc.Proofs.Power

/-!
# Laws of powers

A power with a sum for its exponent is the product of two powers, digit by digit and in the
scale. The law does not suppose that the two factors exist: the existence of a power carries
down to every smaller exponent (`Decimal.exists_pow?_of_le`). Both of its conditions do. The
bits of the base are taken fewer times, and the scale stays between zero and the multiple that
is a word (`IsWord.mul_of_le`).

So a power is what repeated multiplication gives (`Decimal.repeatedProduct?`), with no product
out of range on the way.
-/

namespace SplitCalc

/-! ### Smaller exponents -/

/-- A smaller multiple of a scale is a word when a larger one is. -/
theorem IsWord.mul_of_le {s k n : ℤ} (h : IsWord (s * n)) (hk : 0 ≤ k) (hkn : k ≤ n) :
    IsWord (s * k) := by
  rw [isWord_iff] at h ⊢
  rcases le_total 0 s with hs | hs
  · have hlow : 0 ≤ s * k := mul_nonneg hs hk
    have hhigh : s * k ≤ s * n := mul_le_mul_of_nonneg_left hkn hs
    omega
  · have hhigh : s * k ≤ 0 := mul_nonpos_of_nonpos_of_nonneg hs hk
    have hlow : s * n ≤ s * k := mul_le_mul_of_nonpos_left hkn hs
    omega

namespace Decimal

/-- A smaller power is affordable when a larger one is. -/
theorem Affordable.of_le {unscaled : ℤ} {k n : ℕ} (h : Affordable unscaled n) (hkn : k ≤ n) :
    Affordable unscaled k := by
  rw [affordable_iff] at h ⊢
  exact h.imp_right fun hbits => (Nat.mul_le_mul_left _ hkn).trans hbits

variable {a r : Decimal} {k m n : ℤ}

/-- No smaller power is missing where a larger one exists. -/
theorem exists_pow?_of_le (h : a.pow? n = some r) (hk : 0 ≤ k) (hkn : k ≤ n) :
    ∃ p, a.pow? k = some p := by
  have hsome : (a.pow? n).isSome := Option.isSome_iff_exists.2 ⟨r, h⟩
  obtain ⟨-, hword, hafford⟩ := pow?_isSome_iff.1 hsome
  rw [← Option.isSome_iff_exists, pow?_isSome_iff]
  exact ⟨hk, hword.mul_of_le hk hkn, hafford.of_le (Int.toNat_le_toNat hkn)⟩

/-! ### Sums of exponents -/

/-- The product of two powers is the power of the sum, if that exists. -/
theorem mul?_of_pow?_add {p q : Decimal} (h : a.pow? (m + n) = some r) (hp : a.pow? m = some p)
    (hq : a.pow? n = some q) : p.mul? q = some r := by
  obtain ⟨⟨hm, -⟩, hpunscaled, hpscale⟩ := pow?_eq_some_iff.1 hp
  obtain ⟨⟨hn, -⟩, hqunscaled, hqscale⟩ := pow?_eq_some_iff.1 hq
  obtain ⟨-, hrunscaled, hrscale⟩ := pow?_eq_some_iff.1 h
  refine ofParts?_eq_some_iff.2 ⟨?_, ?_⟩
  · rw [hpunscaled, hqunscaled, hrunscaled, Int.toNat_add hm hn, pow_add]
  · rw [hpscale, hqscale, hrscale, mul_add]

/-! ### Repeated multiplication -/

/-- The product of `n` equal factors, multiplied to one in turn. -/
def repeatedProduct? (a : Decimal) : ℕ → Option Decimal
  | 0 => some (ofInt 1)
  | n + 1 => (a.repeatedProduct? n).bind (·.mul? a)

/-- The zeroth power is one. -/
theorem pow?_zero (a : Decimal) : a.pow? 0 = some (ofInt 1) := by
  refine pow?_eq_some_iff.2 ⟨⟨le_rfl, ?_⟩, ?_, ?_⟩
  · exact affordable_iff.2 (Or.inr (Nat.zero_le _))
  · rw [Int.toNat_zero, pow_zero]
    rfl
  · rw [mul_zero]
    rfl

/-- The first power is the base, if any larger power exists. -/
theorem pow?_one (h : a.pow? n = some r) (hn : 1 ≤ n) : a.pow? 1 = some a := by
  obtain ⟨p, hp⟩ := exists_pow?_of_le h zero_le_one hn
  obtain ⟨-, hunscaled, hscale⟩ := pow?_eq_some_iff.1 hp
  rw [Int.toNat_one, pow_one] at hunscaled
  rw [mul_one] at hscale
  rw [hp, Decimal.ext hunscaled hscale]

/-- A power is the repeated product of its base. -/
theorem repeatedProduct?_of_pow? {n : ℕ} (h : a.pow? n = some r) :
    a.repeatedProduct? n = some r := by
  induction n generalizing r with
  | zero => exact (pow?_zero a).symm.trans h
  | succ n ih =>
    rw [Nat.cast_succ] at h
    obtain ⟨p, hp⟩ := exists_pow?_of_le h (Int.natCast_nonneg n) (by omega)
    have hbase : a.pow? 1 = some a := pow?_one h (by omega)
    rw [repeatedProduct?, ih hp, Option.bind_some]
    exact mul?_of_pow?_add h hp hbase

/-- **Exponents add.** Where the power with exponent `m + n` exists, so do the powers with the
exponents `m` and `n`, and their product is that power, digits and scale. It is also the product
of `m + n` factors, none of which is out of range on the way, and no smaller power is missing. -/
theorem pow?_add (hm : 0 ≤ m) (hn : 0 ≤ n) (h : a.pow? (m + n) = some r) :
    (∃ p q, a.pow? m = some p ∧ a.pow? n = some q ∧ p.mul? q = some r) ∧
      a.repeatedProduct? (m + n).toNat = some r ∧
      ∀ k, 0 ≤ k → k ≤ m + n → ∃ p, a.pow? k = some p := by
  refine ⟨?_, ?_, fun k hk hkn => exists_pow?_of_le h hk hkn⟩
  · obtain ⟨p, hp⟩ := exists_pow?_of_le h hm (by omega)
    obtain ⟨q, hq⟩ := exists_pow?_of_le h hn (by omega)
    exact ⟨p, q, hp, hq, mul?_of_pow?_add h hp hq⟩
  · refine repeatedProduct?_of_pow? ?_
    rwa [Int.toNat_of_nonneg (by omega)]

/-- The square of a negative number at half the least scale exists, as the product of two first
powers; the cube has no scale. -/
theorem pow?_add_of_half_least_scale :
    let a : Decimal := ⟨-30, -1073741824, by decide⟩
    let square : Decimal := ⟨900, -2147483648, by decide⟩
    a.pow? (1 + 1) = some square ∧ a.pow? (1 + 1 + 1) = none ∧
      (∃ p q, a.pow? 1 = some p ∧ a.pow? 1 = some q ∧ p.mul? q = some square) ∧
      a.repeatedProduct? (1 + 1) = some square ∧
      ∀ k, 0 ≤ k → k ≤ 1 + 1 → ∃ p, a.pow? k = some p := by
  intro a square
  have hpower : a.pow? (1 + 1) = some square := by decide +kernel
  exact ⟨hpower, by decide +kernel, pow?_add zero_le_one zero_le_one hpower⟩

end Decimal

end SplitCalc
