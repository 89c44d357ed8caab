import DirtybirdMiner.Crypto.Scalars
import DirtybirdMiner.Lib.Fourier
import Mathlib.Algebra.Module.PUnit
import Mathlib.Algebra.Module.ZMod
import Mathlib.GroupTheory.OrderOfElement

/-!
Vectors of scalars and of points, from `crypto/src/field_vector.rs` and
`crypto/src/point_vector.rs`: the operations, the transform that both have, and the
convolution of the one with the other.  `none` is a panic.
-/

namespace DirtybirdMiner.Crypto.Vectors

open DirtybirdMiner.Lib.Checked
open DirtybirdMiner.Lib.Powers (modpow modpow_eq)
open DirtybirdMiner.Lib.Tables
open DirtybirdMiner.Lib.Fourier
open DirtybirdMiner.Crypto
open DirtybirdMiner.Crypto.Scalars (order Scalar)

/-- What the elements of a vector can do: they are added, negated and multiplied by
a scalar. -/
structure Ops (α : Type) where
  add : α → α → α
  neg : α → α
  scale : α → Nat → α

section Families

variable {α : Type} (ops : Ops α)

def Ops.addVec (a b : List α) : Option (List α) := do
  require (a.length = b.length)
  some (List.zipWith ops.add a b)

def Ops.hadamardVec (a : List α) (exponent : List Nat) : Option (List α) := do
  require (a.length = exponent.length)
  some (List.zipWith ops.scale a exponent)

def Ops.negateVec (a : List α) : List α := a.map ops.neg

def Ops.timesVec (a : List α) (m : Nat) : List α := a.map fun x => ops.scale x m

/-- `omega`, for vectors of some length. -/
def omegaOf (length : Nat) (inverse : Bool) : Nat :=
  let omega := modpow Scalars.unity (2 ^ 28 / length) order
  if inverse then Scalars.inv omega else omega

/-- Every call halves the length, so that a step for every element is enough.  The
empty vector divides by zero. -/
def Ops.fftSteps : Nat → List α → Bool → Option (List α)
  | 0, _, _ => none
  | steps + 1, input, inverse =>
      if input.length = 1 then some input
      else do
        require (input.length % 2 = 0)
        require (input.length ≠ 0)
        let even ← fftSteps steps (everySecond input 0) inverse
        let odd ← fftSteps steps (everySecond input 1) inverse
        let omegas ← Scalars.powers (omegaOf input.length inverse) (input.length / 2)
        let oddHad ← ops.hadamardVec odd omegas
        let lower ← ops.addVec even oddHad
        let upper ← ops.addVec even (ops.negateVec oddHad)
        let result := lower ++ upper
        some (if inverse then ops.timesVec result Scalars.half else result)

def Ops.fft (input : List α) (inverse : Bool) : Option (List α) :=
  ops.fftSteps input.length input inverse

end Families

section Functions

def scalarOps : Ops Nat := ⟨Scalars.add, Scalars.neg, Scalars.mul⟩

namespace FieldVector

/-- `result[i] = vector[(n - i) % n]`. -/
def flip (v : List Nat) : Option (List Nat) :=
  (List.range v.length).mapM fun i => v[(v.length - i) % v.length]?

def add : List Nat → List Nat → Option (List Nat) := scalarOps.addVec

def addConstant (v : List Nat) (c : Nat) : List Nat := v.map fun a => Scalars.add a c

def hadamard : List Nat → List Nat → Option (List Nat) := scalarOps.hadamardVec

def innerProduct (a b : List Nat) : Option Nat := do
  require (a.length = b.length)
  some ((List.zip a b).foldl (fun acc p => Scalars.add acc (Scalars.mul p.1 p.2)) 0)

def negate : List Nat → List Nat := scalarOps.negateVec

def times : List Nat → Nat → List Nat := scalarOps.timesVec

def invert (v : List Nat) : List Nat := v.map Scalars.inv

end FieldVector

def fftFieldVector : List Nat → Bool → Option (List Nat) := scalarOps.fft

variable {G : Type} [AddCommGroup G]

/-- `p.scalar_mult(&scalar::reduce(s).to_bytes_be())`. -/
def smul (p : G) (s : Nat) : G := Scalars.reduce s • p

def pointOps (G : Type) [AddCommGroup G] : Ops G := ⟨fun p q => p + q, fun p => -p, smul⟩

namespace PointVector

def commit (v : List G) (exponent : List Nat) : Option G := do
  require (v.length = exponent.length)
  some ((List.zip v exponent).foldl (fun acc p => acc + smul p.1 p.2) 0)

def add : List G → List G → Option (List G) := (pointOps G).addVec

def hadamard : List G → List Nat → Option (List G) := (pointOps G).hadamardVec

def times : List G → Nat → List G := (pointOps G).timesVec

end PointVector

def fftGeneratorVector : List G → Bool → Option (List G) := (pointOps G).fft

def convolution (exponent : List Nat) (base : List G) : Option (List G) := do
  let size := base.length
  let exponentFft ← fftFieldVector (← FieldVector.flip exponent) false
  let temp ← PointVector.hadamard (← fftGeneratorVector base false) exponentFft
  let sum ← PointVector.add (← slice temp 0 (size / 2)) (← slice temp (size / 2) size)
  fftGeneratorVector (PointVector.times sum Scalars.half) true

end Functions

section Transform

variable {α M : Type} {ops : Ops α} [AddCommGroup M] [Module Scalar M] {φ : α → M}

/-- The elements stand for vectors over the field of scalars. -/
structure Ops.Interprets (ops : Ops α) (φ : α → M) : Prop where
  add : ∀ a b, φ (ops.add a b) = φ a + φ b
  neg : ∀ a, φ (ops.neg a) = -φ a
  scale : ∀ a m, φ (ops.scale a m) = (m : Scalar) • φ a

@[simp] theorem addVec_table (ops : Ops α) (n : Nat) (x y : Nat → α) :
    ops.addVec (table n x) (table n y) = some (table n fun i => ops.add (x i) (y i)) := by
  simp [Ops.addVec, require]

@[simp] theorem hadamardVec_table (ops : Ops α) (n : Nat) (x : Nat → α) (e : Nat → Nat) :
    ops.hadamardVec (table n x) (table n e) = some (table n fun i => ops.scale (x i) (e i)) := by
  simp [Ops.hadamardVec, require]

@[simp] theorem negateVec_table (ops : Ops α) (n : Nat) (x : Nat → α) :
    ops.negateVec (table n x) = table n fun i => ops.neg (x i) := map_table ..

@[simp] theorem timesVec_table (ops : Ops α) (n : Nat) (x : Nat → α) (m : Nat) :
    ops.timesVec (table n x) m = table n fun i => ops.scale (x i) m := map_table ..

/-- The root of unity of order `2 ^ t`, or its inverse. -/
noncomputable def root (t : Nat) (inverse : Bool) : Scalar :=
  if inverse then ((Scalars.unity : Scalar) ^ 2 ^ (28 - t))⁻¹
  else (Scalars.unity : Scalar) ^ 2 ^ (28 - t)

theorem root_primitive {t : Nat} (ht : t ≤ 28) (inverse : Bool) :
    IsPrimitiveRoot (root t inverse) (2 ^ t) := by
  have hroot : IsPrimitiveRoot ((Scalars.unity : Scalar) ^ 2 ^ (28 - t)) (2 ^ t) := by
    apply Scalars.unity_primitive.pow (by decide)
    rw [← pow_add, Nat.sub_add_cancel ht]
  cases inverse with
  | false => exact hroot
  | true => exact hroot.inv

theorem root_sq {t : Nat} (ht : t + 1 ≤ 28) (inverse : Bool) :
    root (t + 1) inverse ^ 2 = root t inverse := by
  have hexp : 28 - t = 28 - (t + 1) + 1 := by omega
  unfold root
  rw [hexp, pow_succ (2 : Nat), pow_mul]
  split
  · rw [inv_pow]
  · rfl

theorem root_pow_half {t : Nat} (ht : t + 1 ≤ 28) (inverse : Bool) :
    root (t + 1) inverse ^ 2 ^ t = -1 := by
  have hprim := root_primitive ht inverse
  have hsq : (root (t + 1) inverse ^ 2 ^ t) ^ 2 = 1 := by
    rw [← pow_mul, ← pow_succ, hprim.pow_eq_one]
  have hne : root (t + 1) inverse ^ 2 ^ t ≠ 1 := by
    apply hprim.pow_ne_one_of_pos_of_lt (by positivity)
    exact Nat.pow_lt_pow_right (by decide) (Nat.lt_succ_self t)
  exact (sq_eq_one_iff.mp hsq).resolve_left hne

theorem cast_omegaOf {t : Nat} (ht : t ≤ 28) (inverse : Bool) :
    ((omegaOf (2 ^ t) inverse : Nat) : Scalar) = root t inverse := by
  have hexp : 2 ^ 28 / 2 ^ t = 2 ^ (28 - t) := Nat.pow_div ht (by decide)
  unfold omegaOf root
  rw [hexp, modpow_eq]
  split
  · rw [Scalars.cast_inv, Scalars.natCast_mod, Nat.cast_pow]
  · rw [Scalars.natCast_mod, Nat.cast_pow]

/-- The factor that the transform back carries. -/
noncomputable def factor (t : Nat) (inverse : Bool) : Scalar :=
  if inverse then (((2 : Nat) : Scalar) ^ t)⁻¹ else 1

theorem factor_zero (inverse : Bool) : factor 0 inverse = 1 := by
  simp [factor]

/-- An element of the result, halved on the way back. -/
def Ops.finish (ops : Ops α) (inverse : Bool) (a : α) : α :=
  if inverse then ops.scale a Scalars.half else a

theorem finish_table (ops : Ops α) (inverse : Bool) (n : Nat) (x : Nat → α) :
    (if inverse then ops.timesVec (table n x) Scalars.half else table n x) =
      table n fun i => ops.finish inverse (x i) := by
  cases inverse with
  | false => rfl
  | true => exact timesVec_table ops n x Scalars.half

theorem Ops.Interprets.finish (h : ops.Interprets φ) {t : Nat} (inverse : Bool) {a : α} {m : M}
    (ha : φ a = factor t inverse • m) :
    φ (ops.finish inverse a) = factor (t + 1) inverse • m := by
  cases inverse with
  | false => exact ha
  | true =>
      simp only [factor, if_true, Ops.finish] at ha ⊢
      rw [h.scale, ha, Scalars.cast_half, smul_smul, pow_succ', mul_inv, Nat.cast_ofNat]

/-- One level of the transform. -/
theorem fftSteps_table (ops : Ops α) {h steps : Nat} (hh : 0 < h) (inverse : Bool)
    {x even odd : Nat → α}
    (heven : ops.fftSteps steps (table h fun i => x (2 * i + 0)) inverse = some (table h even))
    (hodd : ops.fftSteps steps (table h fun i => x (2 * i + 1)) inverse = some (table h odd)) :
    ops.fftSteps (steps + 1) (table (2 * h) x) inverse = some (table (2 * h) fun k =>
      ops.finish inverse
        (if k < h then ops.add (even k)
          (ops.scale (odd k) (Scalars.power (omegaOf (2 * h) inverse) k))
        else ops.add (even (k - h))
          (ops.neg (ops.scale (odd (k - h))
            (Scalars.power (omegaOf (2 * h) inverse) (k - h)))))) := by
  have hhalf : 2 * h / 2 = h := by omega
  rw [Ops.fftSteps, table_length, if_neg (by omega), require_eq_some (by omega),
    require_eq_some (by omega), everySecond_table h x (by decide), heven,
    everySecond_table h x (by decide), hodd, hhalf, Scalars.powers_eq _ hh]
  simp only [Option.bind_eq_bind, Option.bind_some, hadamardVec_table, addVec_table,
    negateVec_table, table_append, ← two_mul, finish_table]

/-- The transform computes the discrete Fourier transform of what its elements stand
for. -/
theorem Ops.Interprets.fftSteps_eq (h : ops.Interprets φ) (inverse : Bool) {t steps : Nat}
    (ht : t ≤ 28) (hsteps : t < steps) (x : Nat → α) :
    ∃ y : Nat → α, ops.fftSteps steps (table (2 ^ t) x) inverse = some (table (2 ^ t) y) ∧
      ∀ k < 2 ^ t, φ (y k) =
        factor t inverse • dft (root t inverse) (2 ^ t) (fun j => φ (x j)) k := by
  obtain ⟨steps, rfl⟩ : ∃ n, steps = n + 1 := ⟨steps - 1, by omega⟩
  induction t generalizing steps x with
  | zero =>
      refine ⟨x, by simp [Ops.fftSteps], ?_⟩
      intro k hk
      obtain rfl : k = 0 := by omega
      rw [factor_zero, one_smul, pow_zero, dft_one]
  | succ t ih =>
      obtain ⟨steps, rfl⟩ : ∃ n, steps = n + 1 := ⟨steps - 1, by omega⟩
      obtain ⟨even, heven, hevenDft⟩ :=
        ih (by omega) (fun i => x (2 * i + 0)) steps (by omega)
      obtain ⟨odd, hodd, hoddDft⟩ := ih (by omega) (fun i => x (2 * i + 1)) steps (by omega)
      refine ⟨_, pow_succ' 2 t ▸ fftSteps_table ops (by positivity) inverse heven hodd, ?_⟩
      intro k hk
      apply h.finish
      split
      · rename_i hlow
        rw [h.add, h.scale, hevenDft k hlow, hoddDft k hlow, Scalars.cast_power, cast_omegaOf ht,
          pow_succ' 2 t, dft_even_odd, root_sq ht]
        simp only [Nat.add_zero]
        module
      · rename_i hhigh
        obtain ⟨l, rfl⟩ : ∃ l, k = l + 2 ^ t := ⟨k - 2 ^ t, by omega⟩
        have hl : l < 2 ^ t := by
          rw [pow_succ] at hk
          omega
        rw [Nat.add_sub_cancel, h.add, h.neg, h.scale, hevenDft l hl, hoddDft l hl,
          Scalars.cast_power, cast_omegaOf ht, pow_succ' 2 t, dft_upper (root_pow_half ht inverse),
          root_sq ht]
        simp only [Nat.add_zero]
        module

theorem Ops.Interprets.fft_eq (h : ops.Interprets φ) (inverse : Bool) {t : Nat} (ht : t ≤ 28)
    (x : Nat → α) :
    ∃ y : Nat → α, ops.fft (table (2 ^ t) x) inverse = some (table (2 ^ t) y) ∧
      ∀ k < 2 ^ t, φ (y k) =
        factor t inverse • dft (root t inverse) (2 ^ t) (fun j => φ (x j)) k := by
  rw [Ops.fft, table_length]
  exact h.fftSteps_eq inverse ht Nat.lt_two_pow_self x

/-- The transform back undoes the transform. -/
theorem Ops.Interprets.fft_roundTrip (h : ops.Interprets φ) {t : Nat} (ht : t ≤ 28)
    (x : Nat → α) :
    ∃ y u : Nat → α, ops.fft (table (2 ^ t) x) false = some (table (2 ^ t) y) ∧
      ops.fft (table (2 ^ t) y) true = some (table (2 ^ t) u) ∧
      ∀ i < 2 ^ t, φ (u i) = φ (x i) := by
  obtain ⟨y, hy, hyDft⟩ := h.fft_eq false ht x
  obtain ⟨u, hu, huDft⟩ := h.fft_eq true ht y
  refine ⟨y, u, hy, hu, ?_⟩
  intro i hi
  have hroot : root t true = (root t false)⁻¹ := rfl
  have hsame : dft (root t true) (2 ^ t) (fun j => φ (y j)) i =
      dft (root t false)⁻¹ (2 ^ t) (dft (root t false) (2 ^ t) fun j => φ (x j)) i := by
    rw [hroot]
    refine dft_congr (fun j hj => ?_) i
    rw [hyDft j hj, factor, if_neg Bool.false_ne_true, one_smul]
  rw [huDft i hi, hsame, dft_dft_inv (root_primitive ht false) _ hi, factor, if_pos rfl, smul_smul,
    Nat.cast_pow, Nat.cast_ofNat, inv_mul_cancel₀ (pow_ne_zero t Scalars.two_ne_zero), one_smul]

theorem scalarOps_interprets : scalarOps.Interprets fun a => (a : Scalar) where
  add := Scalars.cast_add
  neg := Scalars.cast_neg
  scale := fun a m => by
    rw [smul_eq_mul, mul_comm]
    exact Scalars.cast_mul a m

/-- Elements of which nothing is known. -/
theorem interprets_unit (ops : Ops α) : ops.Interprets fun _ => PUnit.unit :=
  ⟨fun _ _ => rfl, fun _ => rfl, fun _ _ => rfl⟩

/-- The inner product that the loop computes. -/
def dot (a b : Nat → Nat) : Nat → Nat
  | 0 => 0
  | n + 1 => Scalars.add (dot a b n) (Scalars.mul (a n) (b n))

@[simp] theorem cast_dot (a b : Nat → Nat) (n : Nat) :
    ((dot a b n : Nat) : Scalar) = ∑ i ∈ Finset.range n, (a i : Scalar) * b i := by
  induction n with
  | zero => simp [dot]
  | succ n ih => rw [dot, Scalars.cast_add, Scalars.cast_mul, ih, Finset.sum_range_succ]

@[simp] theorem innerProduct_table (n : Nat) (a b : Nat → Nat) :
    FieldVector.innerProduct (table n a) (table n b) = some (dot a b n) := by
  have hloop : (List.zip (table n a) (table n b)).foldl
      (fun acc p => Scalars.add acc (Scalars.mul p.1 p.2)) 0 = dot a b n := by
    rw [zip_table]
    induction n with
    | zero => rfl
    | succ n ih => rw [foldl_table, ih, dot]
  rw [FieldVector.innerProduct, table_length, table_length, require_eq_some rfl, hloop]
  rfl

end Transform

section Points

variable {G : Type} [AddCommGroup G]

/-- A group of the order of the scalars is a vector space over their field. -/
@[reducible] def moduleOfCard (hG : Nat.card G = order) : Module Scalar G :=
  AddCommGroup.zmodModule fun g => by rw [← hG, card_nsmul_eq_zero']

theorem smul_eq [Module Scalar G] (p : G) (s : Nat) : smul p s = (s : Scalar) • p := by
  rw [smul, ← Nat.cast_smul_eq_nsmul Scalar, Scalars.cast_reduce]

theorem pointOps_interprets [Module Scalar G] : (pointOps G).Interprets id :=
  ⟨fun _ _ => rfl, fun _ => rfl, smul_eq⟩

@[simp] theorem commit_table (n : Nat) (p : Nat → G) (e : Nat → Nat) :
    PointVector.commit (table n p) (table n e) =
      some (∑ i ∈ Finset.range n, smul (p i) (e i)) := by
  have hloop : (List.zip (table n p) (table n e)).foldl (fun acc q => acc + smul q.1 q.2) 0 =
      ∑ i ∈ Finset.range n, smul (p i) (e i) := by
    rw [zip_table]
    induction n with
    | zero => rfl
    | succ n ih => rw [foldl_table, ih, Finset.sum_range_succ]
  rw [PointVector.commit, table_length, table_length, require_eq_some rfl, hloop]
  rfl

theorem flip_table {n : Nat} (e : Nat → Nat) :
    FieldVector.flip (table n e) = some (table n fun i => e ((n - i) % n)) := by
  rw [FieldVector.flip, table_length]
  apply mapM_table
  intro i hi
  exact getElem?_table e (Nat.mod_lt _ (by omega))

/-- What the convolution computes, in terms of the transforms. -/
theorem convolution_steps {h : Nat} {e flipped : Nat → Nat} {b base folded : Nat → G}
    (hexponent : fftFieldVector (table (2 * h) fun i => e ((2 * h - i) % (2 * h))) false =
      some (table (2 * h) flipped))
    (hbase : fftGeneratorVector (table (2 * h) b) false = some (table (2 * h) base))
    (hback : fftGeneratorVector (table h fun k => smul (smul (base k) (flipped k) +
      smul (base (h + k)) (flipped (h + k))) Scalars.half) true = some (table h folded)) :
    convolution (table (2 * h) e) (table (2 * h) b) = some (table h folded) := by
  have hhalf : 2 * h / 2 = h := by omega
  rw [convolution, flip_table]
  simp only [Option.bind_eq_bind, Option.bind_some, hexponent, hbase, PointVector.hadamard,
    hadamardVec_table, table_length, hhalf]
  rw [slice_lower _ (by omega), two_mul, slice_upper]
  simp only [Option.bind_some, PointVector.add, addVec_table, PointVector.times, timesVec_table]
  exact hback

/-- The convolution of two vectors of a length that is a power of two, not one. -/
theorem convolution_returns {t : Nat} (ht : t + 1 ≤ 28) (e : Nat → Nat) (b : Nat → G) :
    ∃ y : Nat → G, convolution (table (2 ^ (t + 1)) e) (table (2 ^ (t + 1)) b) =
      some (table (2 ^ t) y) := by
  have hlength : 2 ^ (t + 1) = 2 * 2 ^ t := pow_succ' 2 t
  obtain ⟨flipped, hexponent, -⟩ := scalarOps_interprets.fft_eq false ht
    fun i => e ((2 ^ (t + 1) - i) % 2 ^ (t + 1))
  obtain ⟨base, hbase, -⟩ := (interprets_unit (pointOps G)).fft_eq false ht b
  obtain ⟨folded, hback, -⟩ := (interprets_unit (pointOps G)).fft_eq true (Nat.le_of_succ_le ht)
    fun k => smul (smul (base k) (flipped k) +
      smul (base (2 ^ t + k)) (flipped (2 ^ t + k))) Scalars.half
  rw [hlength] at hexponent hbase ⊢
  exact ⟨folded, convolution_steps hexponent hbase hback⟩

/-- Its elements are the correlations at the even places. -/
theorem convolution_eq [Module Scalar G] {t : Nat} (ht : t + 1 ≤ 28) (e : Nat → Nat)
    (b : Nat → G) :
    ∃ y : Nat → G, convolution (table (2 ^ (t + 1)) e) (table (2 ^ (t + 1)) b) =
        some (table (2 ^ t) y) ∧
      ∀ i < 2 ^ t, y i = ∑ j ∈ Finset.range (2 ^ (t + 1)),
        (e ((j + 2 ^ (t + 1) - 2 * i) % 2 ^ (t + 1)) : Scalar) • b j := by
  have hlength : 2 ^ (t + 1) = 2 * 2 ^ t := pow_succ' 2 t
  have hhalf : ((2 ^ t : Nat) : Scalar) ≠ 0 := by
    rw [Nat.cast_pow, Nat.cast_ofNat]
    exact pow_ne_zero t Scalars.two_ne_zero
  have hroot := root_primitive ht false
  have hback' : root t true = (root (t + 1) false ^ 2)⁻¹ := by
    rw [root_sq ht]
    rfl
  obtain ⟨flipped, hexponent, hflipped⟩ := scalarOps_interprets.fft_eq false ht
    fun i => e ((2 ^ (t + 1) - i) % 2 ^ (t + 1))
  obtain ⟨base, hbase, hbaseDft⟩ := pointOps_interprets.fft_eq false ht b
  obtain ⟨folded, hback, hfolded⟩ := pointOps_interprets.fft_eq true (Nat.le_of_succ_le ht)
    fun k => smul (smul (base k) (flipped k) +
      smul (base (2 ^ t + k)) (flipped (2 ^ t + k))) Scalars.half
  simp only [factor, Bool.false_eq_true, if_false, one_smul, id_eq] at hflipped hbaseDft
  simp only [factor, if_true, id_eq, smul_eq, Scalars.cast_half] at hfolded
  rw [hlength] at hexponent hbase hflipped hbaseDft hroot ⊢
  refine ⟨folded, convolution_steps hexponent hbase hback, ?_⟩
  intro i hi
  rw [hfolded i hi, hback', ← correlation hhalf Scalars.two_ne_zero hroot
    (fun j => (e j : Scalar)) (fun l => (e ((2 * 2 ^ t - l) % (2 * 2 ^ t)) : Scalar)) b
    (fun l _ => rfl) hi, Nat.cast_pow, Nat.cast_ofNat]
  congr 1
  apply dft_congr
  intro k hk
  rw [hflipped k (by omega), hflipped (2 ^ t + k) (by omega), hbaseDft k (by omega),
    hbaseDft (2 ^ t + k) (by omega)]

/-- The convolution returns in any group, and has these elements in a vector space. -/
theorem convolution_spec {t : Nat} (ht : t + 1 ≤ 28) (e : Nat → Nat) (b : Nat → G) :
    ∃ y : Nat → G, convolution (table (2 ^ (t + 1)) e) (table (2 ^ (t + 1)) b) =
        some (table (2 ^ t) y) ∧
      ∀ [Module Scalar G], ∀ i < 2 ^ t, y i = ∑ j ∈ Finset.range (2 ^ (t + 1)),
        (e ((j + 2 ^ (t + 1) - 2 * i) % 2 ^ (t + 1)) : Scalar) • b j := by
  obtain ⟨y, hy⟩ := convolution_returns ht e b
  refine ⟨y, hy, ?_⟩
  intro _ i hi
  obtain ⟨y', hy', hvalue⟩ := convolution_eq ht e b
  rw [table_inj (Option.some.inj (hy.symm.trans hy')) hi, hvalue i hi]

end Points

end DirtybirdMiner.Crypto.Vectors
