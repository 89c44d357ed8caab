import Mathlib.Algebra.BigOperators.Intervals
import Mathlib.Algebra.Field.Basic
import Mathlib.Algebra.Module.BigOperators
import Mathlib.Data.Nat.Bitwise
import Mathlib.Tactic.Abel
import Mathlib.Tactic.FieldSimp
import Mathlib.Tactic.Module

/-!
Commitments to two vectors and their inner product, and how they fold: with a
challenge, a commitment to vectors of even length becomes one to vectors of half the
length.  After all rounds every generator carries a product of challenges and
their inverses, by the bits of its index.
-/

namespace DirtybirdMiner.Lib.Folding

open Finset

variable {F G : Type*} [Field F] [AddCommGroup G] [Module F G]

section Signed

/-- The product of the challenges or, where the bit of the index is not set, of their
inverses; the first challenge has the highest bit. -/
def signed : List F → ℕ → F
  | [], _ => 1
  | x :: xs, i => (if i.testBit xs.length then x else x⁻¹) * signed xs i

theorem signed_congr {xs : List F} {i i' : ℕ}
    (h : ∀ j < xs.length, i.testBit j = i'.testBit j) : signed xs i = signed xs i' := by
  induction xs with
  | nil => rfl
  | cons x xs ih =>
      rw [List.length_cons] at h
      rw [signed, signed, h xs.length (Nat.lt_succ_self _), ih fun j hj => h j (by omega)]

theorem signed_lower (x : F) {xs : List F} {i : ℕ} (hi : i < 2 ^ xs.length) :
    signed (x :: xs) i = x⁻¹ * signed xs i := by
  rw [signed, Nat.testBit_lt_two_pow hi, if_neg Bool.false_ne_true]

theorem signed_upper (x : F) {xs : List F} {i : ℕ} (hi : i < 2 ^ xs.length) :
    signed (x :: xs) (2 ^ xs.length + i) = x * signed xs i := by
  have hlow : signed xs (2 ^ xs.length + i) = signed xs i :=
    signed_congr fun j hj => Nat.testBit_two_pow_add_gt hj i
  rw [signed, Nat.testBit_two_pow_add_eq, Nat.testBit_lt_two_pow hi, hlow]
  rfl

/-- All bits are turned around. -/
theorem signed_complement {xs : List F} {k i : ℕ} (hk : xs.length ≤ k) (hi : i < 2 ^ k) :
    signed xs (2 ^ k - 1 - i) = (signed xs i)⁻¹ := by
  induction xs with
  | nil => exact inv_one.symm
  | cons x xs ih =>
      rw [List.length_cons] at hk
      have hbit : (2 ^ k - 1 - i).testBit xs.length = !i.testBit xs.length := by
        rw [Nat.sub_sub, Nat.add_comm 1 i, Nat.testBit_two_pow_sub_succ hi]
        simp [show xs.length < k by omega]
      rw [signed, signed, hbit, mul_inv, ih (by omega)]
      cases i.testBit xs.length <;> simp

/-- A further bit of the index is set. -/
theorem signed_set {xs : List F} {i j : ℕ} (hi : i < 2 ^ j) {x : F}
    (hx : xs.reverse[j]? = some x) (hne : x ≠ 0) :
    signed xs (2 ^ j + i) = signed xs i * (x * x) := by
  induction xs with
  | nil => cases hx
  | cons y xs ih =>
      rw [List.reverse_cons] at hx
      rw [signed, signed]
      rcases lt_trichotomy j xs.length with hj | rfl | hj
      · rw [List.getElem?_append_left (by simpa using hj)] at hx
        have hhigh : (2 ^ j + i).testBit xs.length = i.testBit xs.length := by
          have hsum : 2 ^ j + i < 2 ^ xs.length := by
            have : 2 ^ (j + 1) ≤ 2 ^ xs.length := Nat.pow_le_pow_right (by decide) hj
            rw [pow_succ] at this
            omega
          rw [Nat.testBit_lt_two_pow hsum, Nat.testBit_lt_two_pow (by omega)]
        rw [ih hx, hhigh, mul_assoc]
      · obtain rfl : y = x := by simpa using hx
        have hlow : signed xs (2 ^ xs.length + i) = signed xs i :=
          signed_congr fun j hj => Nat.testBit_two_pow_add_gt hj i
        rw [Nat.testBit_two_pow_add_eq, Nat.testBit_lt_two_pow hi, hlow]
        simp only [Bool.not_false, if_true, Bool.false_eq_true, if_false]
        field_simp
      · rw [List.getElem?_eq_none (by simp; omega)] at hx
        cases hx

/-- The product of all challenges, inverted, belongs to the index 0. -/
theorem signed_zero (xs : List F) : signed xs 0 = xs.prod⁻¹ := by
  induction xs with
  | nil => simp [signed]
  | cons x xs ih => rw [signed_lower x (Nat.two_pow_pos _), ih, List.prod_cons, mul_inv]

theorem signed_eq_prod (xs : List F) (i : ℕ) :
    signed xs i = ∏ j ∈ range xs.length,
      if i.testBit (xs.length - 1 - j) then xs.getD j 0 else (xs.getD j 0)⁻¹ := by
  induction xs with
  | nil => rfl
  | cons x xs ih =>
      rw [List.length_cons, prod_range_succ', signed, ih, mul_comm]
      congr 1
      apply prod_congr rfl
      intro j hj
      rw [show xs.length + 1 - 1 - (j + 1) = xs.length - 1 - j by omega, List.getD_cons_succ]

end Signed

section Commitments

/-- The commitment to two vectors and their inner product. -/
def commitment (n : ℕ) (g h : ℕ → G) (u : G) (a b : ℕ → F) : G :=
  ∑ i ∈ range n, a i • g i + ∑ i ∈ range n, b i • h i + (∑ i ∈ range n, a i * b i) • u

theorem commitment_congr {n : ℕ} {g g' h h' : ℕ → G} (u : G) {a a' b b' : ℕ → F}
    (hg : ∀ i < n, g i = g' i) (hh : ∀ i < n, h i = h' i) (ha : ∀ i < n, a i = a' i)
    (hb : ∀ i < n, b i = b' i) : commitment n g h u a b = commitment n g' h' u a' b' := by
  have hag : ∑ i ∈ range n, a i • g i = ∑ i ∈ range n, a' i • g' i :=
    sum_congr rfl fun i hi => by rw [hg i (mem_range.mp hi), ha i (mem_range.mp hi)]
  have hbh : ∑ i ∈ range n, b i • h i = ∑ i ∈ range n, b' i • h' i :=
    sum_congr rfl fun i hi => by rw [hh i (mem_range.mp hi), hb i (mem_range.mp hi)]
  have hab : ∑ i ∈ range n, a i * b i = ∑ i ∈ range n, a' i * b' i :=
    sum_congr rfl fun i hi => by rw [ha i (mem_range.mp hi), hb i (mem_range.mp hi)]
  rw [commitment, commitment, hag, hbh, hab]

theorem commitment_halves (n : ℕ) (g h : ℕ → G) (u : G) (a b : ℕ → F) :
    commitment (2 * n) g h u a b = commitment n g h u a b +
      commitment n (fun i => g (n + i)) (fun i => h (n + i)) u (fun i => a (n + i))
        fun i => b (n + i) := by
  simp only [commitment, two_mul, sum_range_add, add_smul]
  abel

/-- One round: the folded vectors commit to the whole with the two cross terms. -/
theorem commitment_fold (n : ℕ) (g h : ℕ → G) (u : G) (a b : ℕ → F) {x : F} (hx : x ≠ 0) :
    commitment n (fun i => x⁻¹ • g i + x • g (n + i)) (fun i => x • h i + x⁻¹ • h (n + i)) u
        (fun i => x * a i + x⁻¹ * a (n + i)) (fun i => x⁻¹ * b i + x * b (n + i)) =
      (x * x) • commitment n (fun i => g (n + i)) h u a (fun i => b (n + i)) +
        (x⁻¹ * x⁻¹) • commitment n g (fun i => h (n + i)) u (fun i => a (n + i)) b +
        commitment (2 * n) g h u a b := by
  rw [commitment_halves]
  simp only [commitment, smul_add, smul_smul, smul_sum, sum_smul, ← sum_add_distrib]
  apply sum_congr rfl
  intro i _
  match_scalars <;> field_simp <;> ring

/-- What stands behind a signed product after one more round. -/
theorem sum_signed (x : F) (xs : List F) (g : ℕ → G) :
    ∑ i ∈ range (2 * 2 ^ xs.length), signed (x :: xs) i • g i =
      ∑ i ∈ range (2 ^ xs.length), signed xs i • (x⁻¹ • g i + x • g (2 ^ xs.length + i)) := by
  rw [two_mul, sum_range_add, ← sum_add_distrib]
  apply sum_congr rfl
  intro i hi
  rw [signed_lower x (mem_range.mp hi), signed_upper x (mem_range.mp hi)]
  module

theorem sum_signed_inv (x : F) (xs : List F) (h : ℕ → G) :
    ∑ i ∈ range (2 * 2 ^ xs.length), (signed (x :: xs) i)⁻¹ • h i =
      ∑ i ∈ range (2 ^ xs.length), (signed xs i)⁻¹ • (x • h i + x⁻¹ • h (2 ^ xs.length + i)) := by
  rw [two_mul, sum_range_add, ← sum_add_distrib]
  apply sum_congr rfl
  intro i hi
  rw [signed_lower x (mem_range.mp hi), signed_upper x (mem_range.mp hi), mul_inv, mul_inv, inv_inv]
  module

end Commitments

end DirtybirdMiner.Lib.Folding
