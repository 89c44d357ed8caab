import DirtybirdMiner.Bn256.Order
import DirtybirdMiner.Crypto.Vectors

/-!
The transforms of vectors of scalars and of points of the curve, from
`cryptography/crypto/src/field_vector.rs` and `point_vector.rs`: the one direction undoes the
other, and the convolution is the sum it is meant to be.
-/

namespace DirtybirdMiner.Crypto.Transforms

open DirtybirdMiner.Lib.Tables
open DirtybirdMiner.Bn256.Curve
open DirtybirdMiner.Bn256.Order
open DirtybirdMiner.Crypto.Vectors
open DirtybirdMiner.Crypto.Scalars (order Scalar)

/-- The points of the curve are a vector space over the scalars. -/
noncomputable instance : Module Scalar (E Fp).Point := moduleOfCard card_points

section Fields

/-- The elements that come out of the transform back are reduced. -/
theorem fftFieldVector_lt {input result : List Nat} (hlength : input.length ≠ 1)
    (h : fftFieldVector input true = some result) : ∀ a ∈ result, a < order := by
  unfold fftFieldVector Ops.fft at h
  cases hsteps : input.length with
  | zero =>
      rw [hsteps] at h
      cases h
  | succ steps =>
      rw [hsteps, Ops.fftSteps, if_neg hlength] at h
      simp only [Option.bind_eq_bind, Option.bind_eq_some_iff, if_true, Option.some.injEq] at h
      obtain ⟨-, -, -, -, even, -, odd, -, omegas, -, oddHad, -, lower, -, upper, -, rfl⟩ := h
      intro a ha
      obtain ⟨b, -, rfl⟩ := List.mem_map.mp ha
      exact Scalars.mul_lt b Scalars.half

/-- The transform back gives the vector, modulo the group order; a reduced vector it gives
exactly. -/
theorem fftFieldVector_roundTrip {k : Nat} (hk : k ≤ 28) {v : List Nat} (hv : v.length = 2 ^ k) :
    ∃ w u, fftFieldVector v false = some w ∧ fftFieldVector w true = some u ∧
      u.map (· % order) = v.map (· % order) ∧ ((∀ a ∈ v, a < order) → u = v) := by
  obtain ⟨x, rfl⟩ := exists_table 0 hv
  obtain ⟨y, u, hy, hu, hsame⟩ := scalarOps_interprets.fft_roundTrip hk x
  have hmod : ∀ i < 2 ^ k, u i % order = x i % order := by
    intro i hi
    exact (ZMod.natCast_eq_natCast_iff' _ _ _).mp (hsame i hi)
  refine ⟨table (2 ^ k) y, table (2 ^ k) u, hy, hu, ?_, ?_⟩
  · rw [map_table, map_table]
    exact table_congr hmod
  · intro hreduced
    have hx : ∀ i < 2 ^ k, x i < order := by
      intro i hi
      exact hreduced _ (List.mem_map_of_mem (List.mem_range.mpr hi))
    apply table_congr
    intro i hi
    cases k with
    | zero =>
        -- a vector of one element is left alone
        obtain rfl : i = 0 := by omega
        have hone : fftFieldVector (table (2 ^ 0) x) false = some (table (2 ^ 0) x) := rfl
        have hone' : fftFieldVector (table (2 ^ 0) y) true = some (table (2 ^ 0) y) := rfl
        have hxy := Option.some.inj (hone.symm.trans hy)
        have hyu := Option.some.inj (hone'.symm.trans hu)
        exact (table_inj (hxy.trans hyu) (by decide)).symm
    | succ k =>
        have hlength : (table (2 ^ (k + 1)) y).length ≠ 1 := by
          have hpos : 0 < 2 ^ k := by positivity
          rw [table_length, pow_succ]
          omega
        have hu' : u i < order :=
          fftFieldVector_lt hlength hu _ (List.mem_map_of_mem (List.mem_range.mpr hi))
        have hvalue := hmod i hi
        rwa [Nat.mod_eq_of_lt hu', Nat.mod_eq_of_lt (hx i hi)] at hvalue

end Fields

section Points

theorem fftGeneratorVector_roundTrip {k : Nat} (hk : k ≤ 28) {v : List (E Fp).Point}
    (hv : v.length = 2 ^ k) :
    ∃ w, fftGeneratorVector v false = some w ∧ fftGeneratorVector w true = some v := by
  obtain ⟨x, rfl⟩ := exists_table 0 hv
  obtain ⟨y, u, hy, hu, hsame⟩ := (pointOps_interprets (G := (E Fp).Point)).fft_roundTrip hk x
  have hback : table (2 ^ k) u = table (2 ^ k) x := table_congr hsame
  exact ⟨table (2 ^ k) y, hy, by rw [← hback]; exact hu⟩

theorem convolution_eq_sum {k : Nat} (hk : k + 1 ≤ 28) {e : List Nat} {base : List (E Fp).Point}
    (he : e.length = 2 ^ (k + 1)) (hbase : base.length = 2 ^ (k + 1)) :
    ∃ r, convolution e base = some r ∧ r.length = 2 ^ k ∧ ∀ i < 2 ^ k,
      r.getD i 0 = ∑ j ∈ Finset.range (2 ^ (k + 1)),
        e.getD ((j + 2 ^ (k + 1) - 2 * i) % 2 ^ (k + 1)) 0 • base.getD j 0 := by
  obtain ⟨x, rfl⟩ := exists_table 0 he
  obtain ⟨b, rfl⟩ := exists_table 0 hbase
  obtain ⟨y, hy, hsum⟩ := convolution_eq hk x b
  refine ⟨table (2 ^ k) y, hy, table_length .., ?_⟩
  intro i hi
  rw [getD_table y 0 hi, hsum i hi]
  apply Finset.sum_congr rfl
  intro j hj
  rw [getD_table x 0 (Nat.mod_lt _ (by positivity)), getD_table b 0 (Finset.mem_range.mp hj),
    Nat.cast_smul_eq_nsmul]

/-- The transforms of scalars and of points are undone by the transforms back, and the
convolution is the correlation at the even places, for every length that is a power of two up to
the order of the root of unity. -/
theorem transforms_correct :
    (∀ k ≤ 28, ∀ v : List Nat, v.length = 2 ^ k →
      ∃ w u, fftFieldVector v false = some w ∧ fftFieldVector w true = some u ∧
        u.map (· % order) = v.map (· % order) ∧ ((∀ a ∈ v, a < order) → u = v)) ∧
    (∀ k ≤ 28, ∀ v : List (E Fp).Point, v.length = 2 ^ k →
      ∃ w, fftGeneratorVector v false = some w ∧ fftGeneratorVector w true = some v) ∧
    ∀ k, 1 ≤ k → k ≤ 28 → ∀ (e : List Nat) (base : List (E Fp).Point), e.length = 2 ^ k →
      base.length = 2 ^ k →
        ∃ r, convolution e base = some r ∧ r.length = 2 ^ k / 2 ∧ ∀ i < 2 ^ k / 2,
          r.getD i 0 = ∑ j ∈ Finset.range (2 ^ k),
            e.getD ((j + 2 ^ k - 2 * i) % 2 ^ k) 0 • base.getD j 0 := by
  refine ⟨fun k hk v hv => fftFieldVector_roundTrip hk hv,
    fun k hk v hv => fftGeneratorVector_roundTrip hk hv, ?_⟩
  intro k hpos hk e base he hbase
  obtain ⟨k, rfl⟩ : ∃ l, k = l + 1 := ⟨k - 1, by omega⟩
  have hhalf : 2 ^ (k + 1) / 2 = 2 ^ k := by
    rw [pow_succ, Nat.mul_div_cancel _ (by decide)]
  rw [hhalf]
  exact convolution_eq_sum hk he hbase

/-- Two scalars and two points. -/
theorem transforms_correct_pair :
    ∃ r, convolution [3, 4] [basePoint, 2 • basePoint] = some r ∧ r.length = 1 ∧
      r.getD 0 0 = 3 • basePoint + 4 • 2 • basePoint := by
  obtain ⟨r, hr, hlength, hsum⟩ := transforms_correct.2.2 1 (by decide) (by decide) [3, 4]
    [basePoint, 2 • basePoint] rfl rfl
  refine ⟨r, hr, hlength, ?_⟩
  rw [hsum 0 (by decide), pow_one, Finset.sum_range_succ, Finset.sum_range_one]
  rfl

end Points

end DirtybirdMiner.Crypto.Transforms
