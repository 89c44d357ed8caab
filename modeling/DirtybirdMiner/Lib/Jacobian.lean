import Mathlib.AlgebraicGeometry.EllipticCurve.Affine.Point
import Mathlib.Tactic.FieldSimp
import Mathlib.Tactic.LinearCombination

/-!
Jacobian coordinates on the curve `y² = x³ + b`: the triple `(x, y, z)` stands for the point
`(x / z², y / z³)`, and for the point at infinity if `z` is zero.  The formulas for sums and
doubles that avoid divisions, against the group law of the affine curve.
-/

namespace DirtybirdMiner.Lib.Jacobian

variable {F : Type*} [Field F]

def curve (b : F) : WeierstrassCurve.Affine F := ⟨0, 0, 0, 0, b⟩

section Represents

variable {b : F}

/-- The triple stands for the point. -/
def Represents (x y z : F) : (curve b).Point → Prop
  | .zero => z = 0
  | .some X Y _ => z ≠ 0 ∧ x = X * z ^ 2 ∧ y = Y * z ^ 3

theorem equation_iff {X Y : F} : (curve b).Equation X Y ↔ Y ^ 2 = X ^ 3 + b := by
  rw [WeierstrassCurve.Affine.equation_iff]
  simp [curve]

theorem nonsingular_iff (hthree : (3 : F) ≠ 0) (htwo : (2 : F) ≠ 0) (hb : b ≠ 0) {X Y : F} :
    (curve b).Nonsingular X Y ↔ Y ^ 2 = X ^ 3 + b := by
  rw [WeierstrassCurve.Affine.nonsingular_iff', equation_iff, and_iff_left_iff_imp]
  intro h
  by_contra hsingular
  rw [not_or, not_not, not_not] at hsingular
  simp only [curve, zero_mul, mul_zero, add_zero, zero_sub, neg_eq_zero, mul_eq_zero, hthree, htwo,
    false_or] at hsingular
  obtain ⟨hX, hY⟩ := hsingular
  rw [pow_eq_zero_iff (by decide)] at hX
  rw [hX, hY] at h
  simp at h
  exact hb h.symm

theorem negY_eq (X Y : F) : (curve b).negY X Y = -Y := by
  simp [WeierstrassCurve.Affine.negY, curve]

theorem represents_zero {x y z : F} : Represents (b := b) x y z 0 ↔ z = 0 := Iff.rfl

theorem represents_some {x y z X Y : F} {h : (curve b).Nonsingular X Y} :
    Represents x y z (.some X Y h) ↔ z ≠ 0 ∧ x = X * z ^ 2 ∧ y = Y * z ^ 3 := Iff.rfl

/-- The point at infinity is the one with the last coordinate zero. -/
theorem Represents.z_eq_zero {x y z : F} {P : (curve b).Point} (h : Represents x y z P) :
    z = 0 ↔ P = 0 := by
  cases P with
  | zero => exact ⟨fun _ => rfl, fun _ => h⟩
  | some X Y hP =>
      constructor
      · intro hz
        exact absurd hz h.1
      · intro hP
        cases hP

/-- A triple stands for one point only. -/
theorem Represents.unique {x y z : F} {P Q : (curve b).Point} (hP : Represents x y z P)
    (hQ : Represents x y z Q) : P = Q := by
  cases P with
  | zero => exact (hQ.z_eq_zero.mp hP).symm
  | some X Y h =>
      cases Q with
      | zero => exact absurd hQ hP.1
      | some X' Y' h' =>
          obtain ⟨hz, hx, hy⟩ := hP
          obtain ⟨-, hx', hy'⟩ := hQ
          have hX : X = X' := mul_right_cancel₀ (pow_ne_zero 2 hz) (hx.symm.trans hx')
          have hY : Y = Y' := mul_right_cancel₀ (pow_ne_zero 3 hz) (hy.symm.trans hy')
          subst hX hY
          rfl

/-- The equation of the curve, in the coordinates of a triple. -/
theorem Represents.equation {x y z : F} {P : (curve b).Point} (h : Represents x y z P)
    (hz : z ≠ 0) : y ^ 2 = x ^ 3 + b * z ^ 6 := by
  cases P with
  | zero => exact absurd h hz
  | some X Y hP =>
      obtain ⟨-, rfl, rfl⟩ := h
      have hcurve := equation_iff.mp hP.1
      linear_combination z ^ 6 * hcurve

/-- A triple that satisfies the equation stands for a point. -/
theorem exists_represents (hthree : (3 : F) ≠ 0) (htwo : (2 : F) ≠ 0) (hb : b ≠ 0) {x y z : F}
    (h : z ≠ 0 → y ^ 2 = x ^ 3 + b * z ^ 6) : ∃ P : (curve b).Point, Represents x y z P := by
  by_cases hz : z = 0
  · exact ⟨0, hz⟩
  · have hcurve : (y / z ^ 3) ^ 2 = (x / z ^ 2) ^ 3 + b := by
      have heq := h hz
      field_simp
      linear_combination heq
    refine ⟨.some _ _ ((nonsingular_iff hthree htwo hb).mpr hcurve), hz, ?_, ?_⟩
    · field_simp
    · field_simp

theorem Represents.neg {x y z : F} {P : (curve b).Point} (h : Represents x y z P) :
    Represents x (-y) z (-P) := by
  cases P with
  | zero => exact h
  | some X Y hP =>
      obtain ⟨hz, hx, hy⟩ := h
      rw [WeierstrassCurve.Affine.Point.neg_some]
      refine ⟨hz, hx, ?_⟩
      rw [negY_eq, hy]
      ring

/-- Another triple of the same point. -/
theorem Represents.scale {x y z w : F} {P : (curve b).Point} (h : Represents x y z P)
    (hw : w ≠ 0) : Represents (x * w ^ 2) (y * w ^ 3) (z * w) P := by
  cases P with
  | zero =>
      change z * w = 0
      rw [show z = 0 from h, zero_mul]
  | some X Y hP =>
      obtain ⟨hz, hx, hy⟩ := h
      refine ⟨mul_ne_zero hz hw, ?_, ?_⟩
      · rw [hx]
        ring
      · rw [hy]
        ring

end Represents

section Formulas

variable {b : F} [DecidableEq F]

/-- The double of a point. -/
theorem Represents.double (htwo : (2 : F) ≠ 0) {x y z : F} {P : (curve b).Point}
    (h : Represents x y z P) :
    Represents ((3 * x ^ 2) ^ 2 - 8 * (x * y ^ 2))
      (3 * x ^ 2 * (4 * (x * y ^ 2) - ((3 * x ^ 2) ^ 2 - 8 * (x * y ^ 2))) - 8 * y ^ 4)
      (2 * (y * z)) (P + P) := by
  cases P with
  | zero =>
      change 2 * (y * z) = 0
      rw [show z = 0 from h, mul_zero, mul_zero]
  | some X Y hP =>
      obtain ⟨hz, rfl, rfl⟩ := h
      by_cases hY : Y = 0
      · have hopposite : Y = (curve b).negY X Y := by rw [negY_eq, hY, neg_zero]
        rw [WeierstrassCurve.Affine.Point.add_self_of_Y_eq hopposite, represents_zero, hY]
        ring
      · have hdistinct : Y ≠ (curve b).negY X Y := by
          rw [negY_eq]
          intro heq
          have hdouble : 2 * Y = 0 := by linear_combination heq
          exact (mul_ne_zero htwo hY) hdouble
        have hslope : (curve b).slope X X Y Y = 3 * X ^ 2 / (2 * Y) := by
          rw [WeierstrassCurve.Affine.slope_of_Y_ne rfl hdistinct, negY_eq]
          simp only [curve, mul_zero, zero_mul, add_zero, sub_zero, sub_neg_eq_add, ← two_mul]
        rw [WeierstrassCurve.Affine.Point.add_self_of_Y_ne hdistinct, represents_some, hslope]
        refine ⟨?_, ?_, ?_⟩
        · exact mul_ne_zero htwo (mul_ne_zero (mul_ne_zero hY (pow_ne_zero 3 hz)) hz)
        · simp only [WeierstrassCurve.Affine.addX, curve]
          field_simp
          ring
        · simp only [WeierstrassCurve.Affine.addY, WeierstrassCurve.Affine.negAddY,
            WeierstrassCurve.Affine.addX, WeierstrassCurve.Affine.negY, curve]
          field_simp
          ring

variable {x₁ y₁ z₁ x₂ y₂ z₂ : F} {P Q : (curve b).Point}

/-- The sum of points with different first coordinates. -/
theorem Represents.add_of_ne (htwo : (2 : F) ≠ 0) (hP : Represents x₁ y₁ z₁ P)
    (hQ : Represents x₂ y₂ z₂ Q) (hz₁ : z₁ ≠ 0) (hz₂ : z₂ ≠ 0) {u₁ u₂ s₁ s₂ h r : F}
    (hu₁ : u₁ = x₁ * z₂ ^ 2) (hu₂ : u₂ = x₂ * z₁ ^ 2) (hs₁ : s₁ = y₁ * z₂ ^ 3)
    (hs₂ : s₂ = y₂ * z₁ ^ 3) (hh : h = u₂ - u₁) (hr : r = 2 * (s₂ - s₁)) (hne : h ≠ 0) :
    Represents (r ^ 2 - 4 * h ^ 3 - 8 * (u₁ * h ^ 2))
      (r * (4 * (u₁ * h ^ 2) - (r ^ 2 - 4 * h ^ 3 - 8 * (u₁ * h ^ 2))) - 8 * (s₁ * h ^ 3))
      (2 * (z₁ * z₂) * h) (P + Q) := by
  cases P with
  | zero => exact absurd hP hz₁
  | some X₁ Y₁ hP' =>
      cases Q with
      | zero => exact absurd hQ hz₂
      | some X₂ Y₂ hQ' =>
          obtain ⟨-, rfl, rfl⟩ := hP
          obtain ⟨-, rfl, rfl⟩ := hQ
          have hX : X₁ ≠ X₂ := by
            rintro rfl
            apply hne
            rw [hh, hu₁, hu₂]
            ring
          have hdiff : X₁ - X₂ ≠ 0 := sub_ne_zero.mpr hX
          subst hr hh hs₁ hs₂ hu₁ hu₂
          rw [WeierstrassCurve.Affine.Point.add_of_X_ne hX, represents_some,
            WeierstrassCurve.Affine.slope_of_X_ne hX]
          refine ⟨?_, ?_, ?_⟩
          · exact mul_ne_zero (mul_ne_zero htwo (mul_ne_zero hz₁ hz₂)) hne
          · simp only [WeierstrassCurve.Affine.addX, curve]
            field_simp
            ring
          · simp only [WeierstrassCurve.Affine.addY, WeierstrassCurve.Affine.negAddY,
              WeierstrassCurve.Affine.addX, WeierstrassCurve.Affine.negY, curve]
            field_simp
            ring

/-- Points with the same first coordinate are equal or opposite. -/
theorem Represents.eq_or_add_eq_zero (hP : Represents x₁ y₁ z₁ P) (hQ : Represents x₂ y₂ z₂ Q)
    (hz₁ : z₁ ≠ 0) (hz₂ : z₂ ≠ 0) (hx : x₂ * z₁ ^ 2 = x₁ * z₂ ^ 2) :
    (y₂ * z₁ ^ 3 = y₁ * z₂ ^ 3 → P = Q) ∧ (y₂ * z₁ ^ 3 ≠ y₁ * z₂ ^ 3 → P + Q = 0) := by
  cases P with
  | zero => exact absurd hP hz₁
  | some X₁ Y₁ hP' =>
      cases Q with
      | zero => exact absurd hQ hz₂
      | some X₂ Y₂ hQ' =>
          obtain ⟨-, rfl, rfl⟩ := hP
          obtain ⟨-, rfl, rfl⟩ := hQ
          have hX : X₂ = X₁ := by
            apply mul_right_cancel₀ (mul_ne_zero (pow_ne_zero 2 hz₁) (pow_ne_zero 2 hz₂))
            linear_combination hx
          subst hX
          have hY : Y₂ * z₂ ^ 3 * z₁ ^ 3 = Y₁ * z₁ ^ 3 * z₂ ^ 3 ↔ Y₁ = Y₂ := by
            constructor
            · intro h
              apply mul_right_cancel₀ (mul_ne_zero (pow_ne_zero 3 hz₁) (pow_ne_zero 3 hz₂))
              linear_combination -h
            · rintro rfl
              ring
          constructor
          · intro h
            obtain rfl := hY.mp h
            rfl
          · intro h
            refine WeierstrassCurve.Affine.Point.add_of_Y_eq rfl ?_
            refine (WeierstrassCurve.Affine.Y_eq_of_X_eq hP'.1 hQ'.1 rfl).resolve_left ?_
            exact fun heq => h (hY.mpr heq)

end Formulas

end DirtybirdMiner.Lib.Jacobian
