import DirtybirdMiner.Bn256.Encodings

/-!
The group of the elements `G1`: that of the points of the curve, of prime order.  The operations
of `cryptography/bn256/src/curve.rs` compute in it.
-/

namespace DirtybirdMiner.Bn256.Group

open DirtybirdMiner.Lib.Bytes
open DirtybirdMiner.Bn256.Prime
open DirtybirdMiner.Bn256.Points
open DirtybirdMiner.Bn256.Gfp
open DirtybirdMiner.Bn256.Curve
open DirtybirdMiner.Bn256.Encodings

/-- Elements are the points of the curve. -/
noncomputable def pointEquiv : G1 ≃ (E Fp).Point :=
  Equiv.ofBijective pointOf ⟨fun _ _ h => pointOf_injective h, exists_pointOf⟩

noncomputable instance : AddCommGroup G1 := pointEquiv.addCommGroup

theorem pointOf_add (g g' : G1) : pointOf (g + g') = pointOf g + pointOf g' :=
  pointEquiv.apply_symm_apply _

theorem pointOf_neg (g : G1) : pointOf (-g) = -pointOf g := pointEquiv.apply_symm_apply _

theorem pointOf_nsmul (n : Nat) (g : G1) : pointOf (n • g) = n • pointOf g :=
  pointEquiv.apply_symm_apply _

theorem card_g1 : Nat.card G1 = groupOrder :=
  (Nat.card_congr pointEquiv).trans Order.card_points

/-- The sum, the negative and the multiples of the source are those of the group. -/
theorem operations_refine {a b : CurvePoint GfP} {g g' : G1} (ha : a.Is (pointOf g))
    (hb : b.Is (pointOf g')) (scalarBe : List UInt8) :
    (CurvePoint.add gfpOps a b).Is (pointOf (g + g')) ∧
      (CurvePoint.neg gfpOps a).Is (pointOf (-g)) ∧
      (CurvePoint.mul gfpOps a scalarBe).Is (pointOf (beValue scalarBe • g)) := by
  have hφ := gfpOps_interprets
  refine ⟨?_, ?_, ?_⟩
  · rw [pointOf_add]
    exact ha.add hφ field_two_ne_zero hb
  · rw [pointOf_neg]
    exact ha.neg hφ
  · rw [pointOf_nsmul]
    exact ha.mul hφ field_two_ne_zero scalarBe

end DirtybirdMiner.Bn256.Group
