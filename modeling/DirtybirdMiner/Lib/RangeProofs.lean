import Mathlib.Algebra.BigOperators.Intervals
import Mathlib.Algebra.Field.GeomSum
import Mathlib.Algebra.Module.BigOperators
import Mathlib.Tactic.LinearCombination
import Mathlib.Tactic.Module

/-!
The algebra of range proofs by inner products.  A vector of bits and the vector that lacks one to
it are shifted by a challenge, so that the constant coefficient of an inner product is a value with
known parts and the number that the bits spell.
-/

namespace DirtybirdMiner.Lib.RangeProofs

open Finset (range)

section Bits

/-- The lowest bits spell the remainder. -/
theorem sum_bits (n k : ℕ) : ∑ i ∈ range k, n / 2 ^ i % 2 * 2 ^ i = n % 2 ^ k := by
  induction k with
  | zero => rw [Finset.sum_range_zero, pow_zero, Nat.mod_one]
  | succ k ih => rw [Finset.sum_range_succ, ih, Nat.mod_pow_succ, Nat.mul_comm]

variable {F : Type} [Field F]

theorem cast_sum_bits (n k : ℕ) :
    ∑ i ∈ range k, ((n / 2 ^ i % 2 : ℕ) : F) * 2 ^ i = ((n % 2 ^ k : ℕ) : F) := by
  rw [← sum_bits n k, Nat.cast_sum]
  apply Finset.sum_congr rfl
  intro i _
  rw [Nat.cast_mul, Nat.cast_pow, Nat.cast_ofNat]

/-- The lower half of the bits of two numbers, one shifted over the other. -/
theorem sum_lower {t k : ℕ} (ht : t < 2 ^ k) (b : ℕ) :
    ∑ i ∈ range k, (((t + b <<< k) / 2 ^ i % 2 : ℕ) : F) * 2 ^ i = t := by
  rw [cast_sum_bits, Nat.shiftLeft_eq, Nat.add_mul_mod_self_right, Nat.mod_eq_of_lt ht]

/-- The upper half. -/
theorem sum_upper {t b k : ℕ} (ht : t < 2 ^ k) (hb : b < 2 ^ k) :
    ∑ i ∈ range k, (((t + b <<< k) / 2 ^ (k + i) % 2 : ℕ) : F) * 2 ^ i = b := by
  have hupper : (t + b <<< k) / 2 ^ k = b := by
    rw [Nat.shiftLeft_eq, Nat.add_mul_div_right _ _ (Nat.two_pow_pos k), Nat.div_eq_of_lt ht, Nat.zero_add]
  calc ∑ i ∈ range k, (((t + b <<< k) / 2 ^ (k + i) % 2 : ℕ) : F) * 2 ^ i
      = ∑ i ∈ range k, ((b / 2 ^ i % 2 : ℕ) : F) * 2 ^ i := by
        apply Finset.sum_congr rfl
        intro i _
        rw [pow_add, ← Nat.div_div_eq_div_mul, hupper]
    _ = b := by rw [cast_sum_bits, Nat.mod_eq_of_lt hb]

end Bits

variable {F : Type} [Field F]

section Coefficients

/-- The constant coefficient of the inner product. -/
theorem sum_constant {n : ℕ} {a : ℕ → F} (ha : ∀ i < n, a i * a i = a i) (y two : ℕ → F) (z : F) :
    ∑ i ∈ range n, (a i - z) * (y i * (a i - 1 + z) + two i) =
      (z - z ^ 2) * ∑ i ∈ range n, y i + ∑ i ∈ range n, a i * two i - z * ∑ i ∈ range n, two i := by
  rw [Finset.mul_sum, Finset.mul_sum, ← Finset.sum_add_distrib, ← Finset.sum_sub_distrib]
  apply Finset.sum_congr rfl
  intro i hi
  linear_combination y i * ha i (Finset.mem_range.mp hi)

theorem sum_two_pow (k : ℕ) : ∑ i ∈ range k, (2 : F) ^ i = 2 ^ k - 1 := by
  have h := mul_geom_sum (2 : F) k
  have hone : (2 : F) - 1 = 1 := by norm_num
  rwa [hone, one_mul] at h

/-- The coefficients of the inner product of two linear polynomials. -/
theorem sum_linear_mul (n : ℕ) (l0 l1 r0 r1 : ℕ → F) (x : F) :
    ∑ i ∈ range n, (l0 i + l1 i * x) * (r0 i + r1 i * x) =
      ∑ i ∈ range n, l0 i * r0 i +
        (∑ i ∈ range n, l0 i * r1 i + ∑ i ∈ range n, l1 i * r0 i) * x +
        (∑ i ∈ range n, l1 i * r1 i) * (x * x) := by
  rw [← Finset.sum_add_distrib, Finset.sum_mul, Finset.sum_mul, ← Finset.sum_add_distrib,
    ← Finset.sum_add_distrib]
  apply Finset.sum_congr rfl
  intro i _
  ring

end Coefficients

section Commitments

variable {G : Type} [AddCommGroup G] [Module F G]

/-- The value of the two polynomials is committed to by the commitments to their parts, over
generators that are scaled back by the powers. -/
theorem commitment_values {n : ℕ} (g h : ℕ → G) (al ar sl sr two : ℕ → F) {y : ℕ → F}
    (hy : ∀ i < n, y i ≠ 0) (z x : F) :
    ∑ i ∈ range n, (al i - z + sl i * x) • g i +
        ∑ i ∈ range n, (y i * (ar i + z) + two i + sr i * y i * x) • (y i)⁻¹ • h i =
      ∑ i ∈ range n, al i • g i + ∑ i ∈ range n, ar i • h i +
        x • (∑ i ∈ range n, sl i • g i + ∑ i ∈ range n, sr i • h i) -
        z • ∑ i ∈ range n, g i + ∑ i ∈ range n, (y i * z + two i) • (y i)⁻¹ • h i := by
  simp only [Finset.smul_sum, ← Finset.sum_add_distrib, ← Finset.sum_sub_distrib]
  apply Finset.sum_congr rfl
  intro i hi
  have hone := mul_inv_cancel₀ (hy i (Finset.mem_range.mp hi))
  have har : (ar i * (y i * (y i)⁻¹)) • h i = ar i • h i := by rw [hone, mul_one]
  have hsr : (sr i * (y i * (y i)⁻¹)) • h i = sr i • h i := by rw [hone, mul_one]
  rw [← har, ← hsr]
  module

end Commitments

end DirtybirdMiner.Lib.RangeProofs
