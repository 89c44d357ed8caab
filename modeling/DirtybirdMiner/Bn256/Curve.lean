import DirtybirdMiner.Bn256.Gfp
import DirtybirdMiner.Lib.Bytes
import DirtybirdMiner.Lib.Jacobian

/-!
Points of the curve in Jacobian coordinates, from `cryptography/bn256/src/curve.rs`: sums,
doubles, negatives, multiples by big-endian bytes and the affine form.  The functions are
written over any operations that stand for those of a field; the ones of the source are on
words in Montgomery form.
-/

namespace DirtybirdMiner.Bn256.Curve

open DirtybirdMiner.Lib.Bytes
open DirtybirdMiner.Lib.Jacobian
open DirtybirdMiner.Bn256.Prime
open DirtybirdMiner.Bn256.Gfp

section Model

structure FieldOps (α : Type) where
  zero : α
  one : α
  three : α
  add : α → α → α
  sub : α → α → α
  neg : α → α
  mul : α → α → α
  invert : α → α

structure CurvePoint (α : Type) where
  x : α
  y : α
  z : α
  t : α
deriving DecidableEq

namespace CurvePoint

variable {α : Type} [DecidableEq α] (ops : FieldOps α)

def infinity : CurvePoint α := ⟨ops.zero, ops.one, ops.zero, ops.zero⟩

def isInfinity (a : CurvePoint α) : Bool := a.z = ops.zero

def double (a : CurvePoint α) : CurvePoint α :=
  let aa := ops.mul a.x a.x
  let bb := ops.mul a.y a.y
  let cc := ops.mul bb bb
  let t := ops.add a.x bb
  let t2 := ops.mul t t
  let t := ops.sub t2 aa
  let t2 := ops.sub t cc
  let d := ops.add t2 t2
  let t := ops.add aa aa
  let e := ops.add t aa
  let f := ops.mul e e
  let t := ops.add d d
  let cx := ops.sub f t
  let cz := ops.mul a.y a.z
  let cz := ops.add cz cz
  let t := ops.add cc cc
  let t2 := ops.add t t
  let t := ops.add t2 t2
  let cy := ops.sub d cx
  let t2 := ops.mul e cy
  let cy := ops.sub t2 t
  ⟨cx, cy, cz, ops.zero⟩

def add (a b : CurvePoint α) : CurvePoint α :=
  if a.isInfinity ops then b
  else if b.isInfinity ops then a
  else
    let z12 := ops.mul a.z a.z
    let z22 := ops.mul b.z b.z
    let u1 := ops.mul a.x z22
    let u2 := ops.mul b.x z12
    let t := ops.mul b.z z22
    let s1 := ops.mul a.y t
    let t := ops.mul a.z z12
    let s2 := ops.mul b.y t
    let h := ops.sub u2 u1
    let xEqual := h = ops.zero
    let t := ops.add h h
    let i := ops.mul t t
    let j := ops.mul h i
    let t := ops.sub s2 s1
    let yEqual := t = ops.zero
    if xEqual ∧ yEqual then double ops a
    else
      let r := ops.add t t
      let v := ops.mul u1 i
      let t4 := ops.mul r r
      let t := ops.add v v
      let t6 := ops.sub t4 j
      let cx := ops.sub t6 t
      let t := ops.sub v cx
      let t4 := ops.mul s1 j
      let t6 := ops.add t4 t4
      let t4 := ops.mul r t
      let cy := ops.sub t4 t6
      let t := ops.add a.z b.z
      let t4 := ops.mul t t
      let t := ops.sub t4 z12
      let t4 := ops.sub t z22
      let cz := ops.mul t4 h
      ⟨cx, cy, cz, ops.zero⟩

/-- One bit of a scalar. -/
def mulBit (a : CurvePoint α) (byte : UInt8) (sum : CurvePoint α) (bit : Nat) : CurvePoint α :=
  let sum := double ops sum
  if (byte >>> UInt8.ofNat bit) &&& 1 = 1 then add ops sum a else sum

def mul (a : CurvePoint α) (scalarBe : List UInt8) : CurvePoint α :=
  scalarBe.foldl (fun sum byte => (List.range 8).reverse.foldl (mulBit ops a byte) sum)
    (infinity ops)

def makeAffine (a : CurvePoint α) : CurvePoint α :=
  if a.z = ops.one then a
  else if a.z = ops.zero then ⟨ops.zero, ops.one, a.z, ops.zero⟩
  else
    let zInv := ops.invert a.z
    let t := ops.mul a.y zInv
    let zInv2 := ops.mul zInv zInv
    ⟨ops.mul a.x zInv2, ops.mul t zInv2, ops.one, ops.one⟩

def neg (a : CurvePoint α) : CurvePoint α := ⟨a.x, ops.neg a.y, a.z, ops.zero⟩

def isOnCurve (a : CurvePoint α) : Bool :=
  let c := makeAffine ops a
  if c.isInfinity ops then true
  else
    let y2 := ops.mul c.y c.y
    let x3 := ops.mul c.x c.x
    let x3 := ops.mul x3 c.x
    let x3 := ops.add x3 ops.three
    y2 = x3

end CurvePoint

/-- The operations of the source. -/
def gfpOps : FieldOps GfP where
  zero := GfP.zero
  one := GfP.one
  three := GfP.new 3 (by decide)
  add := GfP.add
  sub := GfP.sub
  neg := GfP.neg
  mul := GfP.mul
  invert := GfP.invert

/-- `CurvePoint::generator`. -/
def generator : CurvePoint GfP :=
  ⟨GfP.new 1 GfP.one_small, GfP.new 2 (by decide), GfP.new 1 GfP.one_small,
    GfP.new 1 GfP.one_small⟩

end Model

section Meaning

variable {α F : Type} [Field F]

/-- The operations are those of a field. -/
structure FieldOps.Interprets (ops : FieldOps α) (φ : α → F) : Prop where
  injective : ∀ a b, φ a = φ b → a = b
  zero : φ ops.zero = 0
  one : φ ops.one = 1
  three : φ ops.three = 3
  add : ∀ a b, φ (ops.add a b) = φ a + φ b
  sub : ∀ a b, φ (ops.sub a b) = φ a - φ b
  neg : ∀ a, φ (ops.neg a) = -φ a
  mul : ∀ a b, φ (ops.mul a b) = φ a * φ b
  invert : ∀ a, φ (ops.invert a) = (φ a)⁻¹

theorem toField_three : (GfP.new 3 (by decide)).toField = 3 := by
  rw [GfP.toField_new, Int.cast_ofNat]

theorem gfpOps_interprets : gfpOps.Interprets GfP.toField where
  injective a b h := GfP.toField_injective h
  zero := by simp only [gfpOps, GfP.toField_zero]
  one := by simp only [gfpOps, GfP.toField_one]
  three := by simp only [gfpOps, toField_three]
  add a b := by simp only [gfpOps, GfP.toField_add]
  sub a b := by simp only [gfpOps, GfP.toField_sub]
  neg a := by simp only [gfpOps, GfP.toField_neg]
  mul a b := by simp only [gfpOps, GfP.toField_mul]
  invert a := by simp only [gfpOps, GfP.toField_invert]

/-- The curve `y² = x³ + 3`. -/
abbrev E (F : Type) [Field F] : WeierstrassCurve.Affine F := curve 3

/-- The point that is represented. -/
def CurvePoint.Stands (φ : α → F) (a : CurvePoint α) (P : (E F).Point) : Prop :=
  Represents (φ a.x) (φ a.y) (φ a.z) P

namespace FieldOps.Interprets

variable {ops : FieldOps α} {φ : α → F} (hφ : ops.Interprets φ)

include hφ

theorem eq_zero {a : α} : a = ops.zero ↔ φ a = 0 := by
  constructor
  · rintro rfl
    exact hφ.zero
  · intro h
    exact hφ.injective _ _ (h.trans hφ.zero.symm)

theorem eq_one {a : α} : a = ops.one ↔ φ a = 1 := by
  constructor
  · rintro rfl
    exact hφ.one
  · intro h
    exact hφ.injective _ _ (h.trans hφ.one.symm)

theorem sub_eq {a b : α} : ops.sub a b = ops.zero ↔ φ a = φ b := by
  rw [hφ.eq_zero, hφ.sub, sub_eq_zero]

end FieldOps.Interprets

end Meaning

section GroupLaw

variable {α F : Type} [Field F] {ops : FieldOps α} {φ : α → F}

namespace CurvePoint

variable {a b : CurvePoint α} {P Q : (E F).Point}

theorem stands_infinity (hφ : ops.Interprets φ) : (infinity ops).Stands φ 0 := hφ.zero

theorem Stands.neg (hφ : ops.Interprets φ) (ha : a.Stands φ P) : (neg ops a).Stands φ (-P) := by
  have h := Represents.neg ha
  unfold Stands CurvePoint.neg
  rw [hφ.neg]
  exact h

variable [DecidableEq α]

theorem isInfinity_iff (hφ : ops.Interprets φ) : a.isInfinity ops = true ↔ φ a.z = 0 := by
  rw [isInfinity, decide_eq_true_iff, hφ.eq_zero]

variable [DecidableEq F]

omit [DecidableEq α] in
theorem Stands.double (hφ : ops.Interprets φ) (htwo : (2 : F) ≠ 0) (ha : a.Stands φ P) :
    (double ops a).Stands φ (P + P) := by
  have h := Represents.double htwo ha
  unfold Stands CurvePoint.double
  simp only [hφ.add, hφ.sub, hφ.mul]
  convert h using 1 <;> ring

theorem Stands.add (hφ : ops.Interprets φ) (htwo : (2 : F) ≠ 0) (ha : a.Stands φ P)
    (hb : b.Stands φ Q) : (add ops a b).Stands φ (P + Q) := by
  unfold CurvePoint.add
  split
  · rename_i hinf
    rw [isInfinity_iff hφ, Represents.z_eq_zero ha] at hinf
    rw [hinf, zero_add]
    exact hb
  rename_i hza
  split
  · rename_i hinf
    rw [isInfinity_iff hφ, Represents.z_eq_zero hb] at hinf
    rw [hinf, add_zero]
    exact ha
  rename_i hzb
  rw [isInfinity_iff hφ] at hza hzb
  dsimp only
  split
  · rename_i hequal
    rw [hφ.sub_eq, hφ.sub_eq] at hequal
    simp only [hφ.mul] at hequal
    have hpoints := Represents.eq_or_add_eq_zero ha hb hza hzb
      (by linear_combination hequal.1)
    rw [← hpoints.1 (by linear_combination hequal.2)]
    exact ha.double hφ htwo
  · rename_i hequal
    rw [hφ.sub_eq, hφ.sub_eq] at hequal
    unfold Stands
    simp only [hφ.add, hφ.sub, hφ.mul] at hequal ⊢
    by_cases hx : φ b.x * (φ a.z * φ a.z) = φ a.x * (φ b.z * φ b.z)
    · -- opposite points: the difference of the first coordinates makes the last one zero
      have hy : φ b.y * φ a.z ^ 3 ≠ φ a.y * φ b.z ^ 3 := by
        intro hy
        exact hequal ⟨hx, by linear_combination hy⟩
      have hpoints := Represents.eq_or_add_eq_zero ha hb hza hzb (by linear_combination hx)
      rw [hpoints.2 hy, represents_zero, hx]
      ring
    · have hne : φ b.x * φ a.z ^ 2 - φ a.x * φ b.z ^ 2 ≠ 0 := by
        intro h
        exact hx (by linear_combination h)
      have h := Represents.add_of_ne htwo ha hb hza hzb rfl rfl rfl rfl rfl rfl hne
      convert h using 1 <;> ring

omit [DecidableEq F] in
/-- The affine form stands for the same point, and its last coordinate is one or zero. -/
theorem Stands.makeAffine (hφ : ops.Interprets φ) (ha : a.Stands φ P) :
    (makeAffine ops a).Stands φ P ∧
      ((makeAffine ops a).z = ops.one ∨ (makeAffine ops a).isInfinity ops = true) := by
  unfold CurvePoint.makeAffine
  split
  · rename_i hone
    exact ⟨ha, .inl hone⟩
  split
  · rename_i hzero
    rw [hφ.eq_zero] at hzero
    refine ⟨?_, .inr ?_⟩
    · rw [(Represents.z_eq_zero ha).mp hzero]
      exact hzero
    · rw [isInfinity_iff hφ]
      exact hzero
  · rename_i hzero
    rw [hφ.eq_zero] at hzero
    refine ⟨?_, .inl rfl⟩
    have h := Represents.scale ha (inv_ne_zero hzero)
    unfold Stands
    dsimp only
    simp only [hφ.mul, hφ.invert, hφ.one]
    convert h using 1
    · ring
    · ring
    · rw [mul_inv_cancel₀ hzero]

omit [DecidableEq F] in
/-- What stands for a point passes the check. -/
theorem Stands.isOnCurve (hφ : ops.Interprets φ) (ha : a.Stands φ P) :
    isOnCurve ops a = true := by
  obtain ⟨haffine, hz⟩ := ha.makeAffine hφ
  unfold CurvePoint.isOnCurve
  dsimp only
  split
  · rfl
  · rename_i hinf
    have hone := (hφ.eq_one).mp (hz.resolve_right hinf)
    have hcurve := Represents.equation haffine (by rw [hone]; exact one_ne_zero)
    rw [decide_eq_true_iff]
    apply hφ.injective
    simp only [hφ.add, hφ.mul, hφ.three]
    rw [hone] at hcurve
    linear_combination hcurve

/-- The bits of a byte, from the top. -/
theorem Stands.mulBits (hφ : ops.Interprets φ) (htwo : (2 : F) ≠ 0) (ha : a.Stands φ P)
    {sum : CurvePoint α} {n : Nat} (byte : UInt8) (hsum : sum.Stands φ (n • P)) {bits : Nat}
    (hbits : bits ≤ 8) :
    ((List.range bits).reverse.foldl (mulBit ops a byte) sum).Stands φ
      ((2 ^ bits * n + byte.toNat % 2 ^ bits) • P) := by
  induction bits generalizing sum n with
  | zero =>
      rw [pow_zero, Nat.one_mul, Nat.mod_one, Nat.add_zero]
      exact hsum
  | succ bits ih =>
      have hbit : ((byte >>> UInt8.ofNat bits) &&& 1 = 1) ↔ byte.toNat / 2 ^ bits % 2 = 1 := by
        rw [← UInt8.toNat_inj, UInt8.toNat_and, UInt8.toNat_shiftRight, UInt8.toNat_ofNat',
          Nat.mod_eq_of_lt (by omega : bits < 2 ^ 8), Nat.mod_eq_of_lt (by omega : bits < 8),
          Nat.shiftRight_eq_div_pow]
        change _ &&& 1 = 1 ↔ _
        rw [Nat.and_one_is_mod]
      have hstep : (mulBit ops a byte sum bits).Stands φ
          ((2 * n + byte.toNat / 2 ^ bits % 2) • P) := by
        have hdouble := hsum.double hφ htwo
        rw [← add_nsmul, ← two_mul] at hdouble
        unfold mulBit
        dsimp only
        split
        · rename_i hset
          rw [hbit.mp hset, succ_nsmul]
          exact hdouble.add hφ htwo ha
        · rename_i hset
          rw [hbit, Nat.mod_two_not_eq_one] at hset
          rw [hset, Nat.add_zero]
          exact hdouble
      have hrest := ih hstep (by omega)
      rw [List.range_succ, List.reverse_append, List.reverse_singleton, List.singleton_append,
        List.foldl_cons]
      convert hrest using 2
      rw [Nat.mod_pow_succ]
      ring

/-- Every multiple by big-endian bytes. -/
theorem Stands.mul (hφ : ops.Interprets φ) (htwo : (2 : F) ≠ 0) (ha : a.Stands φ P)
    (scalarBe : List UInt8) : (mul ops a scalarBe).Stands φ (beValue scalarBe • P) := by
  have hrun : ∀ (bytes : List UInt8) (sum : CurvePoint α) (n : Nat), sum.Stands φ (n • P) →
      (bytes.foldl (fun sum byte => (List.range 8).reverse.foldl (mulBit ops a byte) sum)
        sum).Stands φ ((256 ^ bytes.length * n + beValue bytes) • P) := by
    intro bytes
    induction bytes with
    | nil =>
        intro sum n hsum
        rw [List.length_nil, pow_zero, Nat.one_mul]
        exact hsum
    | cons byte bytes ih =>
        intro sum n hsum
        have hrest := ih _ _ (ha.mulBits hφ htwo byte hsum (Nat.le_refl 8))
        rw [List.foldl_cons]
        convert hrest using 2
        have hcons := beValue_append [byte] bytes
        rw [List.singleton_append] at hcons
        have hbyte : beValue [byte] = byte.toNat := by simp [beValue, leValue]
        rw [Nat.mod_eq_of_lt byte.toNat_lt, hcons, hbyte, List.length_cons]
        ring
  have hzero : (infinity ops).Stands φ ((0 : Nat) • P) := by
    rw [zero_nsmul]
    exact stands_infinity hφ
  have h := hrun scalarBe _ 0 hzero
  rw [Nat.mul_zero, Nat.zero_add] at h
  exact h

end CurvePoint

end GroupLaw

section Statement

/-- The base field. -/
abbrev Fp : Type := ZMod fieldPrime

theorem natCast_ne_zero {n : Nat} (hpos : 0 < n) (hlt : n < fieldPrime) : (n : Fp) ≠ 0 := by
  intro h
  have hdvd := (ZMod.natCast_eq_zero_iff n fieldPrime).mp h
  exact absurd (Nat.le_of_dvd hpos hdvd) (Nat.not_le.mpr hlt)

theorem field_two_ne_zero : (2 : Fp) ≠ 0 := by
  have h := natCast_ne_zero (n := 2) (by decide) (by decide)
  rwa [Nat.cast_ofNat] at h

theorem field_three_ne_zero : (3 : Fp) ≠ 0 := by
  have h := natCast_ne_zero (n := 3) (by decide) (by decide)
  rwa [Nat.cast_ofNat] at h

/-- A point of the curve other than infinity. -/
theorem nonsingular {X Y : Fp} (h : Y ^ 2 = X ^ 3 + 3) : (E Fp).Nonsingular X Y :=
  (nonsingular_iff field_three_ne_zero field_two_ne_zero field_three_ne_zero).mpr h

/-- The point that a Jacobian point of the source stands for. -/
abbrev CurvePoint.Is (a : CurvePoint GfP) (P : (E Fp).Point) : Prop := a.Stands GfP.toField P

/-- The operations on Jacobian points are those of the group, for every representation of every
point; the affine form is another representation of the same point; and all results are on the
curve. -/
theorem curve_group_law (a b : CurvePoint GfP) (P Q : (E Fp).Point) (ha : a.Is P) (hb : b.Is Q)
    (k : List UInt8) :
    (CurvePoint.add gfpOps a b).Is (P + Q) ∧ (CurvePoint.double gfpOps a).Is (2 • P) ∧
      (CurvePoint.neg gfpOps a).Is (-P) ∧ (CurvePoint.mul gfpOps a k).Is (beValue k • P) ∧
      (CurvePoint.makeAffine gfpOps a).Is P ∧
      ((CurvePoint.makeAffine gfpOps a).z = GfP.one ∨
        (CurvePoint.makeAffine gfpOps a).isInfinity gfpOps = true) ∧
      CurvePoint.isOnCurve gfpOps (CurvePoint.add gfpOps a b) = true ∧
      CurvePoint.isOnCurve gfpOps (CurvePoint.double gfpOps a) = true ∧
      CurvePoint.isOnCurve gfpOps (CurvePoint.neg gfpOps a) = true ∧
      CurvePoint.isOnCurve gfpOps (CurvePoint.mul gfpOps a k) = true ∧
      CurvePoint.isOnCurve gfpOps (CurvePoint.makeAffine gfpOps a) = true := by
  have hφ := gfpOps_interprets
  have hadd := ha.add hφ field_two_ne_zero hb
  have hdouble := ha.double hφ field_two_ne_zero
  have hneg := ha.neg hφ
  have hmul := ha.mul hφ field_two_ne_zero k
  obtain ⟨haffine, hz⟩ := ha.makeAffine hφ
  rw [← two_nsmul] at hdouble
  exact ⟨hadd, hdouble, hneg, hmul, haffine, hz, hadd.isOnCurve hφ, hdouble.isOnCurve hφ,
    hneg.isOnCurve hφ, hmul.isOnCurve hφ, haffine.isOnCurve hφ⟩

/-- The generator of the group. -/
def basePoint : (E Fp).Point := .some 1 2 (nonsingular (by norm_num))

theorem generator_is : generator.Is basePoint := by
  unfold CurvePoint.Is CurvePoint.Stands generator basePoint
  rw [represents_some]
  simp only [GfP.toField_new, Int.cast_one, Int.cast_ofNat]
  exact ⟨one_ne_zero, by ring, by ring⟩

/-- A generator and another representation of infinity, with leading zeros in the scalar. -/
theorem curve_group_law_generator :
    let infinity : CurvePoint GfP := ⟨GfP.one, GfP.zero, GfP.zero, GfP.one⟩
    (CurvePoint.add gfpOps generator infinity).Is basePoint ∧
      (CurvePoint.mul gfpOps generator [0, 0, 5]).Is (5 • basePoint) := by
  intro infinity
  obtain ⟨hadd, -, -, hmul, -⟩ := curve_group_law generator infinity basePoint 0 generator_is
    GfP.toField_zero [0, 0, 5]
  rw [add_zero] at hadd
  exact ⟨hadd, hmul⟩

end Statement

end DirtybirdMiner.Bn256.Curve
