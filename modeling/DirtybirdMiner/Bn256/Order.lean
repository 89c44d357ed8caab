import DirtybirdMiner.Bn256.Curve
import Mathlib.GroupTheory.OrderOfElement
import Mathlib.GroupTheory.Perm.Cycle.Type

/-!
The number of points of the curve is the group order.  The group order annihilates the
generator, which is computed, and is a prime, so it divides the number of points; there are at
most two points for every first coordinate; and no point has order two, since no first
coordinate has the cube that this would take.
-/

namespace DirtybirdMiner.Bn256.Order

open DirtybirdMiner.Lib.Bytes
open DirtybirdMiner.Lib.Powers
open DirtybirdMiner.Lib.Jacobian
open DirtybirdMiner.Bn256.Prime
open DirtybirdMiner.Bn256.Curve

section Generator

/-- Residues, for computing. -/
def residue (n : Nat) : Fin fieldPrime := ⟨n % fieldPrime, Nat.mod_lt _ fieldPrime_prime.pos⟩

/-- The operations of the field, on residues. -/
def residueOps : FieldOps (Fin fieldPrime) where
  zero := residue 0
  one := residue 1
  three := residue 3
  add a b := residue (a.1 + b.1)
  sub a b := residue (a.1 + (fieldPrime - b.1))
  neg a := residue (fieldPrime - a.1)
  mul a b := residue (a.1 * b.1)
  invert a := residue (modpow a.1 (fieldPrime - 2) fieldPrime)

/-- A residue as an element of the field. -/
def value (a : Fin fieldPrime) : Fp := (a.1 : Nat)

theorem value_residue (n : Nat) : value (residue n) = n := ZMod.natCast_mod n fieldPrime

theorem residueOps_interprets : residueOps.Interprets value where
  injective a b h := by
    rw [value, value, ZMod.natCast_eq_natCast_iff', Nat.mod_eq_of_lt a.2, Nat.mod_eq_of_lt b.2] at h
    exact Fin.ext h
  zero := by rw [residueOps, value_residue, Nat.cast_zero]
  one := by rw [residueOps, value_residue, Nat.cast_one]
  three := by rw [residueOps, value_residue, Nat.cast_ofNat]
  add a b := by
    simp only [residueOps]
    rw [value_residue, Nat.cast_add]
    rfl
  sub a b := by
    simp only [residueOps]
    rw [value_residue, Nat.cast_add, Nat.cast_sub b.2.le, ZMod.natCast_self, zero_sub,
      sub_eq_add_neg]
    rfl
  neg a := by
    simp only [residueOps]
    rw [value_residue, Nat.cast_sub a.2.le, ZMod.natCast_self, zero_sub]
    rfl
  mul a b := by
    simp only [residueOps]
    rw [value_residue, Nat.cast_mul]
    rfl
  invert a := by
    simp only [residueOps]
    rw [value_residue, modpow_eq, ZMod.natCast_mod, Nat.cast_pow]
    change value a ^ (fieldPrime - 2) = (value a)⁻¹
    by_cases hzero : value a = 0
    · rw [hzero, inv_zero]
      exact zero_pow (by decide)
    · apply eq_inv_of_mul_eq_one_left
      rw [← pow_succ]
      exact ZMod.pow_card_sub_one_eq_one hzero

/-- The generator, on residues. -/
def residueGenerator : CurvePoint (Fin fieldPrime) :=
  ⟨residue 1, residue 2, residue 1, residue 1⟩

theorem residueGenerator_stands : residueGenerator.Stands value basePoint := by
  unfold CurvePoint.Stands residueGenerator basePoint
  rw [represents_some]
  simp only [value_residue, Nat.cast_one, Nat.cast_ofNat]
  exact ⟨one_ne_zero, by ring, by ring⟩

/-- The product is computed. -/
theorem order_mul_isInfinity : (CurvePoint.mul residueOps residueGenerator
    (beBytes 32 groupOrder)).isInfinity residueOps = true := by
  decide +kernel

theorem order_nsmul_basePoint : groupOrder • basePoint = 0 := by
  have hvalue : beValue (beBytes 32 groupOrder) = groupOrder := by
    rw [beValue_beBytes, Nat.mod_eq_of_lt (by decide +kernel)]
  have hinfinity := order_mul_isInfinity
  generalize beBytes 32 groupOrder = bytes at hvalue hinfinity
  have hmul := residueGenerator_stands.mul residueOps_interprets field_two_ne_zero bytes
  rw [CurvePoint.isInfinity_iff residueOps_interprets, Represents.z_eq_zero hmul, hvalue]
    at hinfinity
  exact hinfinity

theorem addOrderOf_basePoint : addOrderOf basePoint = groupOrder :=
  addOrderOf_eq_prime order_nsmul_basePoint (WeierstrassCurve.Affine.Point.some_ne_zero _)

end Generator

section Count

/-- The first coordinate of a point and which of the two roots the second one is. -/
def place : (E Fp).Point → Option (Fp × Bool)
  | .zero => none
  | .some X Y _ => some (X, decide (Y.val < (-Y).val))

theorem place_injective : Function.Injective place := by
  intro P Q h
  cases P with
  | zero =>
      cases Q with
      | zero => rfl
      | some X Y hQ => cases h
  | some X Y hP =>
      cases Q with
      | zero => cases h
      | some X' Y' hQ =>
          simp only [place, Option.some.injEq, Prod.mk.injEq, decide_eq_decide] at h
          obtain ⟨rfl, hroot⟩ := h
          have hY : Y = Y' := by
            rcases WeierstrassCurve.Affine.Y_eq_of_X_eq hP.1 hQ.1 rfl with hsame | hopposite
            · exact hsame
            · rw [negY_eq] at hopposite
              subst hopposite
              rw [neg_neg] at hroot
              have hval : (-Y').val = Y'.val := by omega
              exact ZMod.val_injective fieldPrime hval
          subst hY
          rfl

instance : Finite (E Fp).Point := Finite.of_injective place place_injective

theorem card_le : Nat.card (E Fp).Point ≤ 2 * fieldPrime + 1 := by
  have h := Nat.card_le_card_of_injective place place_injective
  have hcount : Nat.card (Option (Fp × Bool)) = fieldPrime * 2 + 1 := by
    rw [Nat.card_eq_fintype_card, Fintype.card_option, Fintype.card_prod, ZMod.card,
      Fintype.card_bool]
  omega

theorem modpow_eq_one {a e : Nat} (h : (a : Fp) ^ e = 1) : modpow a e fieldPrime = 1 := by
  rw [← Nat.cast_pow, ← Nat.cast_one, ZMod.natCast_eq_natCast_iff'] at h
  rw [modpow_eq, h]
  exact Nat.mod_eq_of_lt fieldPrime_prime.one_lt

/-- Minus three is not a cube. -/
theorem cube_ne (X : Fp) : X ^ 3 ≠ -3 := by
  intro h
  have hne : X ≠ 0 := by
    rintro rfl
    rw [zero_pow (by decide), eq_comm, neg_eq_zero] at h
    exact field_three_ne_zero h
  have hexp : 3 * ((fieldPrime - 1) / 3) = fieldPrime - 1 := by decide
  have hpow : ((fieldPrime - 3 : Nat) : Fp) ^ ((fieldPrime - 1) / 3) = 1 := by
    rw [Nat.cast_sub (by decide), ZMod.natCast_self, zero_sub, Nat.cast_ofNat, ← h, ← pow_mul, hexp]
    exact ZMod.pow_card_sub_one_eq_one hne
  have hcompute : modpow (fieldPrime - 3) ((fieldPrime - 1) / 3) fieldPrime ≠ 1 := by
    decide +kernel
  exact hcompute (modpow_eq_one hpow)

/-- No point has the second coordinate zero. -/
theorem y_ne_zero {X Y : Fp} (h : (E Fp).Nonsingular X Y) : Y ≠ 0 := by
  rintro rfl
  have hcurve := equation_iff.mp h.1
  refine cube_ne X ?_
  linear_combination -hcurve

theorem two_nsmul_ne_zero {P : (E Fp).Point} (hP : P ≠ 0) : 2 • P ≠ 0 := by
  intro hdouble
  cases P with
  | zero => exact hP rfl
  | some X Y h =>
      have hne : Y ≠ (E Fp).negY X Y := by
        rw [negY_eq]
        intro heq
        have htwice : 2 * Y = 0 := by linear_combination heq
        exact mul_ne_zero field_two_ne_zero (y_ne_zero h) htwice
      rw [two_nsmul, WeierstrassCurve.Affine.Point.add_self_of_Y_ne hne] at hdouble
      exact WeierstrassCurve.Affine.Point.some_ne_zero _ hdouble

/-- The group order. -/
theorem card_points : Nat.card (E Fp).Point = groupOrder := by
  have hdvd : groupOrder ∣ Nat.card (E Fp).Point := by
    rw [← addOrderOf_basePoint]
    exact addOrderOf_dvd_natCard basePoint
  obtain ⟨k, hk⟩ := hdvd
  have hpos : 0 < Nat.card (E Fp).Point := Nat.card_pos
  have hle := card_le
  have hsmall : 2 * fieldPrime + 1 < groupOrder * 3 := by decide
  have hk3 : k < 3 := by
    by_contra hge
    have := Nat.mul_le_mul_left groupOrder (Nat.not_lt.mp hge)
    omega
  have hk1 : k ≠ 0 := by
    rintro rfl
    omega
  have hk2 : k ≠ 2 := by
    rintro rfl
    obtain ⟨P, hP⟩ := exists_prime_addOrderOf_dvd_card' (G := (E Fp).Point) 2 ⟨groupOrder, by omega⟩
    refine two_nsmul_ne_zero (P := P) ?_ ?_
    · rintro rfl
      rw [addOrderOf_zero] at hP
      omega
    · rw [← hP]
      exact addOrderOf_nsmul_eq_zero P
  obtain rfl : k = 1 := by omega
  rw [hk, Nat.mul_one]

end Count

end DirtybirdMiner.Bn256.Order
