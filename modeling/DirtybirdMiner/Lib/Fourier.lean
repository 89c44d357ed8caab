import Mathlib.Algebra.BigOperators.Intervals
import Mathlib.Algebra.Field.GeomSum
import Mathlib.RingTheory.RootsOfUnity.PrimitiveRoots
import Mathlib.Tactic.Module

/-!
The discrete Fourier transform of vectors in a module over a field: how the
transform of a vector splits into those of its halves, and the correlation of a
vector of scalars with a vector, at the even places, by transforms.
-/

namespace DirtybirdMiner.Lib.Fourier

open Finset

variable {F M : Type*} [Field F] [AddCommGroup M] [Module F M]

def dft (ω : F) (n : ℕ) (x : ℕ → M) (k : ℕ) : M := ∑ j ∈ range n, ω ^ (j * k) • x j

@[simp] theorem dft_one (ω : F) (x : ℕ → M) (k : ℕ) : dft ω 1 x k = x 0 := by
  simp [dft]

theorem dft_congr {ω : F} {n : ℕ} {x y : ℕ → M} (h : ∀ j < n, x j = y j) (k : ℕ) :
    dft ω n x k = dft ω n y k :=
  sum_congr rfl fun j hj => by rw [h j (mem_range.mp hj)]

theorem sum_even_odd (h : ℕ) (f : ℕ → M) :
    ∑ j ∈ range (2 * h), f j = ∑ j ∈ range h, f (2 * j) + ∑ j ∈ range h, f (2 * j + 1) := by
  induction h with
  | zero => simp
  | succ h ih =>
      rw [Nat.mul_succ, sum_range_succ, sum_range_succ, ih, sum_range_succ, sum_range_succ]
      abel

/-- The even and the odd elements are transformed on their own. -/
theorem dft_even_odd (ω : F) (h : ℕ) (x : ℕ → M) (k : ℕ) :
    dft ω (2 * h) x k =
      dft (ω ^ 2) h (fun j => x (2 * j)) k + ω ^ k • dft (ω ^ 2) h (fun j => x (2 * j + 1)) k := by
  rw [dft, sum_even_odd, dft, dft, smul_sum]
  congr 1
  · apply sum_congr rfl
    intro j _
    rw [← pow_mul, Nat.mul_assoc]
  · apply sum_congr rfl
    intro j _
    rw [smul_smul, ← pow_mul, ← pow_add]
    congr 2
    ring

theorem dft_add_period {ω : F} {n : ℕ} (hω : ω ^ n = 1) (x : ℕ → M) (k : ℕ) :
    dft ω n x (k + n) = dft ω n x k := by
  apply sum_congr rfl
  intro j _
  have hone : ω ^ (j * n) = 1 := by rw [Nat.mul_comm, pow_mul, hω, one_pow]
  rw [Nat.mul_add, pow_add, hone, mul_one]

/-- The upper half of the transform repeats the lower one with the opposite sign. -/
theorem dft_upper {ω : F} {h : ℕ} (hω : ω ^ h = -1) (x : ℕ → M) (k : ℕ) :
    dft ω (2 * h) x (k + h) =
      dft (ω ^ 2) h (fun j => x (2 * j)) k - ω ^ k • dft (ω ^ 2) h (fun j => x (2 * j + 1)) k := by
  have hsquare : (ω ^ 2) ^ h = 1 := by
    rw [← pow_mul, Nat.mul_comm, pow_mul, hω, neg_one_sq]
  rw [dft_even_odd, dft_add_period hsquare, dft_add_period hsquare, pow_add, hω, mul_neg_one,
    neg_smul, sub_eq_add_neg]

/-- The powers of a primitive root add up to nothing, except where they are all one. -/
theorem sum_zpow {ω : F} {n : ℕ} (hω : IsPrimitiveRoot ω n) (d : ℤ) :
    ∑ k ∈ range n, (ω ^ d) ^ k = if (n : ℤ) ∣ d then (n : F) else 0 := by
  split
  · rename_i hd
    rw [(hω.zpow_eq_one_iff_dvd d).mpr hd]
    simp
  · rename_i hd
    have hne : ω ^ d ≠ 1 := fun h => hd ((hω.zpow_eq_one_iff_dvd d).mp h)
    have hone : (ω ^ d) ^ n = 1 := by
      rw [← zpow_natCast, ← zpow_mul, mul_comm, zpow_mul, zpow_natCast, hω.pow_eq_one, one_zpow]
    rw [geom_sum_eq hne, hone, sub_self, zero_div]

/-- The place of `d` below `n`. -/
theorem exists_unique_place {n : ℕ} (hn : 0 < n) (d : ℤ) :
    ∃ l < n, ∀ l' < n, ((n : ℤ) ∣ l' - d ↔ l' = l) := by
  have hpos : (0 : ℤ) < n := by exact_mod_cast hn
  have hlt := Int.emod_lt_of_pos d hpos
  have hge := Int.emod_nonneg d hpos.ne'
  have hdvd : (n : ℤ) ∣ (d % n).toNat - d := by
    rw [Int.toNat_of_nonneg hge]
    exact ⟨-(d / n), by have := Int.emod_add_mul_ediv d n; linarith⟩
  refine ⟨(d % n).toNat, by omega, ?_⟩
  intro l' hl'
  constructor
  · intro h
    have hdiff := Int.dvd_sub h hdvd
    have hzero : (l' : ℤ) - (d % n).toNat = 0 :=
      Int.eq_zero_of_abs_lt_dvd (by simpa using hdiff) (by rw [abs_lt]; omega)
    omega
  · rintro rfl
    exact hdvd

/-- The transform with the inverse root undoes a transform, up to the length. -/
theorem dft_dft_inv {ω : F} {n : ℕ} (hω : IsPrimitiveRoot ω n) (x : ℕ → M) {i : ℕ} (hi : i < n) :
    dft ω⁻¹ n (dft ω n x) i = (n : F) • x i := by
  have hne : ω ≠ 0 := hω.ne_zero (by omega)
  have hterm : ∀ k j : ℕ, ω⁻¹ ^ (k * i) * ω ^ (j * k) = (ω ^ ((j : ℤ) - i)) ^ k := by
    intro k j
    rw [zpow_sub₀ hne, zpow_natCast, zpow_natCast, div_pow, ← pow_mul, ← pow_mul, inv_pow,
      div_eq_inv_mul, Nat.mul_comm k i]
  have hcell : ∀ j < n, j ≠ i → ¬(n : ℤ) ∣ (j : ℤ) - i := by
    intro j hj hji hdvd
    have hzero := Int.eq_zero_of_abs_lt_dvd hdvd (by rw [abs_lt]; omega)
    omega
  calc dft ω⁻¹ n (dft ω n x) i
      = ∑ k ∈ range n, ∑ j ∈ range n, (ω ^ ((j : ℤ) - i)) ^ k • x j := by
        rw [dft]
        refine sum_congr rfl fun k _ => ?_
        rw [dft, smul_sum]
        exact sum_congr rfl fun j _ => by rw [smul_smul, hterm]
    _ = ∑ j ∈ range n, (∑ k ∈ range n, (ω ^ ((j : ℤ) - i)) ^ k) • x j := by
        rw [sum_comm]
        exact sum_congr rfl fun j _ => (sum_smul ..).symm
    _ = (n : F) • x i := by
        rw [sum_eq_single i]
        · rw [sum_zpow hω, if_pos (by simp)]
        · intro j hj hji
          rw [sum_zpow hω, if_neg (hcell j (mem_range.mp hj) hji), zero_smul]
        · intro hnot
          exact absurd (mem_range.mpr hi) hnot

/-- The product of two transforms, taken back at a place. -/
theorem sum_zpow_dft {ω : F} {n : ℕ} (hn : 0 < n) (hω : IsPrimitiveRoot ω n) (e : ℕ → F)
    (b : ℕ → M) (d : ℤ) (place : ℕ → ℕ)
    (hplace : ∀ j < n, place j < n ∧ ∀ l < n, ((n : ℤ) ∣ l - (d - j) ↔ l = place j)) :
    ∑ k ∈ range n, (ω ^ (-d)) ^ k • dft ω n e k • dft ω n b k =
      (n : F) • ∑ j ∈ range n, e (place j) • b j := by
  have hne : ω ≠ 0 := hω.ne_zero hn.ne'
  have hterm : ∀ k j l : ℕ, (ω ^ (-d)) ^ k * (ω ^ (l * k) * ω ^ (j * k)) =
      (ω ^ ((l : ℤ) - (d - j))) ^ k := by
    intro k j l
    have hbase : ω ^ (-d) * (ω ^ l * ω ^ j) = ω ^ ((l : ℤ) - (d - j)) := by
      rw [← zpow_natCast ω l, ← zpow_natCast ω j, ← zpow_add₀ hne, ← zpow_add₀ hne]
      congr 1
      ring
    rw [pow_mul, pow_mul, ← mul_pow, ← mul_pow, hbase]
  have hcell : ∀ j < n, ∑ l ∈ range n, (∑ k ∈ range n, (ω ^ ((l : ℤ) - (d - j))) ^ k) • e l • b j =
      (n : F) • e (place j) • b j := by
    intro j hj
    obtain ⟨hlt, hunique⟩ := hplace j hj
    rw [sum_eq_single (place j)]
    · rw [sum_zpow hω, if_pos ((hunique _ hlt).mpr rfl)]
    · intro l hl hne
      rw [sum_zpow hω, if_neg fun h => hne ((hunique l (mem_range.mp hl)).mp h), zero_smul]
    · intro hnot
      exact absurd (mem_range.mpr hlt) hnot
  calc ∑ k ∈ range n, (ω ^ (-d)) ^ k • dft ω n e k • dft ω n b k
      = ∑ k ∈ range n, ∑ j ∈ range n, ∑ l ∈ range n,
          (ω ^ ((l : ℤ) - (d - j))) ^ k • e l • b j := by
        apply sum_congr rfl
        intro k _
        simp only [dft, smul_sum, sum_smul]
        refine sum_congr rfl fun j _ => sum_congr rfl fun l _ => ?_
        rw [← hterm k j l, smul_eq_mul]
        module
    _ = ∑ j ∈ range n, ∑ l ∈ range n,
          (∑ k ∈ range n, (ω ^ ((l : ℤ) - (d - j))) ^ k) • e l • b j := by
        rw [sum_comm]
        refine sum_congr rfl fun j _ => ?_
        rw [sum_comm]
        exact sum_congr rfl fun l _ => (sum_smul ..).symm
    _ = (n : F) • ∑ j ∈ range n, e (place j) • b j := by
        rw [smul_sum]
        exact sum_congr rfl fun j hj => hcell j (mem_range.mp hj)

/-- The correlation at the even places: the product of the transforms is folded in
half and taken back by the transform of half the size. -/
theorem correlation {ω : F} {h : ℕ} (hh : (h : F) ≠ 0) (htwo : (2 : F) ≠ 0)
    (hω : IsPrimitiveRoot ω (2 * h)) (e flipped : ℕ → F) (b : ℕ → M)
    (hflip : ∀ l < 2 * h, flipped l = e ((2 * h - l) % (2 * h))) {i : ℕ} (hi : i < h) :
    (h : F)⁻¹ • dft (ω ^ 2)⁻¹ h (fun k => (2 : F)⁻¹ •
      (dft ω (2 * h) flipped k • dft ω (2 * h) b k +
        dft ω (2 * h) flipped (h + k) • dft ω (2 * h) b (h + k))) i =
      ∑ j ∈ range (2 * h), e ((j + 2 * h - 2 * i) % (2 * h)) • b j := by
  set n := 2 * h with hn
  have hpos : 0 < n := by omega
  have hne : ω ≠ 0 := hω.ne_zero hpos.ne'
  choose! place hplace using fun j : ℕ => exists_unique_place hpos ((2 * i : ℕ) - j : ℤ)
  have hindex : ∀ j < n, (n - place j) % n = (j + n - 2 * i) % n := by
    intro j hj
    obtain ⟨hlt, hunique⟩ := hplace j
    have hdvd := (hunique _ hlt).mpr rfl
    refine Int.natCast_modEq_iff.mp (Int.modEq_iff_dvd.mpr ?_)
    rw [Nat.cast_sub (by omega), Nat.cast_sub (by omega)]
    push_cast at hdvd ⊢
    convert hdvd using 1
    ring
  have hsum := sum_zpow_dft hpos hω flipped b (2 * i : ℕ) place fun j _ => hplace j
  have hroot : ∀ k, (ω ^ 2)⁻¹ ^ (k * i) = (ω ^ (-((2 * i : ℕ) : ℤ))) ^ k := by
    intro k
    rw [zpow_neg, zpow_natCast, inv_pow, inv_pow, ← pow_mul, ← pow_mul]
    congr 2
    ring
  have hperiod : (ω ^ (-((2 * i : ℕ) : ℤ))) ^ h = 1 := by
    rw [zpow_neg, zpow_natCast, inv_pow, ← pow_mul, Nat.mul_right_comm, ← hn, pow_mul,
      hω.pow_eq_one, one_pow, inv_one]
  have hhalves : ∑ k ∈ range n, (ω ^ (-((2 * i : ℕ) : ℤ))) ^ k • dft ω n flipped k • dft ω n b k =
      ∑ k ∈ range h, (ω ^ (-((2 * i : ℕ) : ℤ))) ^ k •
        (dft ω n flipped k • dft ω n b k + dft ω n flipped (h + k) • dft ω n b (h + k)) := by
    rw [hn, two_mul, sum_range_add, ← sum_add_distrib]
    apply sum_congr rfl
    intro k _
    rw [← two_mul, ← hn, pow_add, hperiod, one_mul, smul_add]
  have hscale : (n : F) = 2 * h := by rw [hn]; push_cast; rfl
  calc (h : F)⁻¹ • dft (ω ^ 2)⁻¹ h (fun k => (2 : F)⁻¹ •
        (dft ω n flipped k • dft ω n b k + dft ω n flipped (h + k) • dft ω n b (h + k))) i
      = ((h : F)⁻¹ * (2 : F)⁻¹) • ∑ k ∈ range h, (ω ^ (-((2 * i : ℕ) : ℤ))) ^ k •
          (dft ω n flipped k • dft ω n b k + dft ω n flipped (h + k) • dft ω n b (h + k)) := by
        rw [dft, mul_smul, smul_sum, smul_sum, smul_sum]
        apply sum_congr rfl
        intro k _
        rw [hroot, smul_comm ((2 : F)⁻¹)]
    _ = ((h : F)⁻¹ * (2 : F)⁻¹ * n) • ∑ j ∈ range n, flipped (place j) • b j := by
        rw [← hhalves, hsum, smul_smul]
    _ = ∑ j ∈ range n, e ((j + n - 2 * i) % n) • b j := by
        have hone : (h : F)⁻¹ * (2 : F)⁻¹ * n = 1 := by
          rw [hscale]
          field_simp
        rw [hone, one_smul]
        apply sum_congr rfl
        intro j hj
        rw [hflip _ (hplace j).1, hindex j (mem_range.mp hj)]

end DirtybirdMiner.Lib.Fourier
