import DirtybirdMiner.Crypto.Openings
import DirtybirdMiner.Crypto.Verifier

/-!
The polynomials of the range proof and the inner product over their values, on the side of the
prover.  The constant coefficient of the product is what the verifier expects, by the bits of the
two amounts.
-/

namespace DirtybirdMiner.Crypto.RangePart

open DirtybirdMiner.Lib.Checked
open DirtybirdMiner.Lib.Powers (modpow)
open DirtybirdMiner.Lib.RangeProofs
open DirtybirdMiner.Lib.Tables
open DirtybirdMiner.Crypto
open DirtybirdMiner.Crypto.Scalars (order Scalar)
open DirtybirdMiner.Crypto.Statements (PointCodec)
open DirtybirdMiner.Crypto.Vectors
open DirtybirdMiner.Crypto.Hashing
open DirtybirdMiner.Crypto.Transcripts
open DirtybirdMiner.Crypto.Prover
open DirtybirdMiner.Crypto.Openings
open DirtybirdMiner.Crypto.Verifier (cast_modpow delta scaledTwo)

section Polynomials

/-- The powers of two, scaled for the two amounts. -/
def scaled (z : Scalar) (i : Nat) : Scalar :=
  if i < 64 then z ^ 2 * ((2 : Nat) : Scalar) ^ i else z ^ 3 * ((2 : Nat) : Scalar) ^ (i - 64)

theorem cast_scaledTwo (z i : Nat) :
    (scaledTwo (modpow z 2 order) (modpow z 3 order) i : Scalar) = scaled z i := by
  unfold scaledTwo scaled
  split
  · rw [Scalars.natCast_mod, Nat.cast_mul, cast_modpow, Nat.cast_pow, Nat.cast_ofNat]
  · rw [Scalars.natCast_mod, Nat.cast_mul, cast_modpow, Nat.cast_pow, Nat.cast_ofNat]

/-- Sums over the two halves. -/
theorem sum_halves (f : Nat → Scalar) :
    ∑ i ∈ Finset.range 128, f i =
      ∑ i ∈ Finset.range 64, f i + ∑ i ∈ Finset.range 64, f (64 + i) :=
  Finset.sum_range_add f 64 64

theorem scaled_lower (z : Scalar) {i : Nat} (hi : i < 64) : scaled z i = z ^ 2 * 2 ^ i := if_pos hi

theorem scaled_upper (z : Scalar) (i : Nat) : scaled z (64 + i) = z ^ 3 * 2 ^ i := by
  rw [scaled, if_neg (by omega), Nat.add_sub_cancel_left, Nat.cast_ofNat]

theorem sum_scaled (z : Scalar) :
    ∑ i ∈ Finset.range 128, scaled z i = (z ^ 2 + z ^ 3) * (2 ^ 64 - 1) := by
  have hlower : ∑ i ∈ Finset.range 64, scaled z i = z ^ 2 * (2 ^ 64 - 1) := by
    rw [← sum_two_pow, Finset.mul_sum]
    exact Finset.sum_congr rfl fun i hi => scaled_lower z (Finset.mem_range.mp hi)
  have hupper : ∑ i ∈ Finset.range 64, scaled z (64 + i) = z ^ 3 * (2 ^ 64 - 1) := by
    rw [← sum_two_pow, Finset.mul_sum]
    exact Finset.sum_congr rfl fun i _ => scaled_upper z i
  rw [sum_halves, hlower, hupper, add_mul]

/-- The bits select the two amounts. -/
theorem sum_selected (transfer balance : UInt64) (z : Scalar) :
    ∑ i ∈ Finset.range 128,
        (amountBit (bothAmounts transfer balance) i : Scalar) * scaled z i =
      z ^ 2 * transfer.toNat + z ^ 3 * balance.toNat := by
  rw [sum_halves, ← sum_transfer transfer balance, ← sum_balance transfer balance,
    Finset.mul_sum, Finset.mul_sum]
  refine congrArg₂ (fun a b => a + b) ?_ ?_
  · apply Finset.sum_congr rfl
    intro i hi
    rw [scaled_lower z (Finset.mem_range.mp hi)]
    ring
  · apply Finset.sum_congr rfl
    intro i _
    rw [scaled_upper]
    ring

/-- The constant coefficient. -/
theorem constant_coefficient (transfer balance : UInt64) (y z : Scalar) :
    ∑ i ∈ Finset.range 128,
        ((amountBit (bothAmounts transfer balance) i : Scalar) - z) *
          (y ^ i * ((lackBit (bothAmounts transfer balance) i : Scalar) + z) + scaled z i) -
        delta y z =
      transfer.toNat * z ^ 2 + balance.toNat * z ^ 3 := by
  have hsum := sum_constant (n := 128)
    (fun i _ => amountBit_idem (bothAmounts transfer balance) i) (fun i => y ^ i) (scaled z) z
  rw [sum_selected, sum_scaled] at hsum
  have hterm : ∀ i, ((amountBit (bothAmounts transfer balance) i : Scalar) - z) *
      (y ^ i * ((lackBit (bothAmounts transfer balance) i : Scalar) + z) + scaled z i) =
        ((amountBit (bothAmounts transfer balance) i : Scalar) - z) *
          (y ^ i * ((amountBit (bothAmounts transfer balance) i : Scalar) - 1 + z) +
            scaled z i) := by
    intro i
    rw [cast_lackBit]
  rw [Finset.sum_congr rfl fun i _ => hterm i, hsum, delta]
  ring

/-- `two_times_zs`. -/
def twoTimes (zs0 zs1 i : Nat) : Nat :=
  if i < 64 then Scalars.mul zs0 (Scalars.power 2 i) else Scalars.mul zs1 (Scalars.power 2 (i - 64))

theorem cast_twoTimes (z i : Nat) :
    (twoTimes (modpow z 2 order) (modpow z 3 order) i : Scalar) = scaled z i := by
  unfold twoTimes scaled
  split
  · rw [Scalars.cast_mul, cast_modpow, Scalars.cast_power, Nat.cast_ofNat]
  · rw [Scalars.cast_mul, cast_modpow, Scalars.cast_power, Nat.cast_ofNat]

theorem innerProduct_returns (a b : Nat → Nat) :
    ∃ d, FieldVector.innerProduct (table 128 a) (table 128 b) = some d ∧
      (d : Scalar) = ∑ i ∈ Finset.range 128, (a i : Scalar) * b i :=
  ⟨_, innerProduct_table 128 a b, cast_dot a b 128⟩

/-- The coefficients of the two polynomials and of their product. -/
structure Coefficients (al ar sl sr ys : Nat → Nat) (z zs0 zs1 : Nat) (t : RangePolynomials) :
    Prop where
  l0_eq : t.l0 = table 128 fun i => Scalars.add (al i) (Scalars.neg z)
  l1_eq : t.l1 = table 128 sl
  r0_eq : t.r0 = table 128 fun i =>
    Scalars.add (Scalars.mul (ys i) (Scalars.add (ar i) z)) (twoTimes zs0 zs1 i)
  r1_eq : t.r1 = table 128 fun i => Scalars.mul (sr i) (ys i)
  t0_eq : (t.t0 : Scalar) = ∑ i ∈ Finset.range 128,
    ((al i : Scalar) - z) * ((ys i : Scalar) * (ar i + z) + twoTimes zs0 zs1 i)
  t1_eq : (t.t1 : Scalar) =
    ∑ i ∈ Finset.range 128, ((al i : Scalar) - z) * (sr i * ys i) +
      ∑ i ∈ Finset.range 128,
        (sl i : Scalar) * ((ys i : Scalar) * (ar i + z) + twoTimes zs0 zs1 i)
  t2_eq : (t.t2 : Scalar) = ∑ i ∈ Finset.range 128, (sl i : Scalar) * (sr i * ys i)

theorem rangePolynomials_returns (al ar sl sr ys : Nat → Nat) (z zs0 zs1 : Nat) :
    ∃ t, rangePolynomials (table 128 al) (table 128 ar) (table 128 sl) (table 128 sr)
        (table 128 ys) z zs0 zs1 = some t ∧ Coefficients al ar sl sr ys z zs0 zs1 t := by
  have htwos : Scalars.powers 2 64 = some (table 64 (Scalars.power 2)) :=
    Scalars.powers_eq 2 (by decide)
  have htwo : (table 64 (Scalars.power 2)).map (Scalars.mul zs0) ++
      (table 64 (Scalars.power 2)).map (Scalars.mul zs1) = table 128 (twoTimes zs0 zs1) := by
    rw [map_table, map_table, table_append]
    rfl
  have hhadamard : ∀ a b : Nat → Nat, FieldVector.hadamard (table 128 a) (table 128 b) =
      some (table 128 fun i => Scalars.mul (a i) (b i)) := hadamardVec_table scalarOps 128
  have hadd : ∀ a b : Nat → Nat, FieldVector.add (table 128 a) (table 128 b) =
      some (table 128 fun i => Scalars.add (a i) (b i)) := addVec_table scalarOps 128
  have hconstant : ∀ (a : Nat → Nat) (c : Nat), FieldVector.addConstant (table 128 a) c =
      table 128 fun i => Scalars.add (a i) c := fun a c => map_table _ 128 a
  obtain ⟨ip00, h00, h00'⟩ := innerProduct_returns
    (fun i => Scalars.add (al i) (Scalars.neg z)) fun i =>
      Scalars.add (Scalars.mul (ys i) (Scalars.add (ar i) z)) (twoTimes zs0 zs1 i)
  obtain ⟨ip01, h01, h01'⟩ := innerProduct_returns
    (fun i => Scalars.add (al i) (Scalars.neg z)) fun i => Scalars.mul (sr i) (ys i)
  obtain ⟨ip10, h10, h10'⟩ := innerProduct_returns sl fun i =>
    Scalars.add (Scalars.mul (ys i) (Scalars.add (ar i) z)) (twoTimes zs0 zs1 i)
  obtain ⟨ip11, h11, h11'⟩ := innerProduct_returns sl fun i => Scalars.mul (sr i) (ys i)
  simp only [Scalars.cast_add, Scalars.cast_mul, Scalars.cast_neg, ← sub_eq_add_neg]
    at h00' h01' h10' h11'
  refine ⟨{
    l0 := table 128 fun i => Scalars.add (al i) (Scalars.neg z)
    l1 := table 128 sl
    r0 := table 128 fun i =>
      Scalars.add (Scalars.mul (ys i) (Scalars.add (ar i) z)) (twoTimes zs0 zs1 i)
    r1 := table 128 fun i => Scalars.mul (sr i) (ys i)
    t0 := Scalars.add 0 ip00
    t1 := Scalars.add (Scalars.add 0 ip01) ip10
    t2 := Scalars.add 0 ip11 }, ?_, ⟨rfl, rfl, rfl, rfl, ?_, ?_, ?_⟩⟩
  · rw [rangePolynomials, htwos, Option.bind_eq_bind, Option.bind_some]
    dsimp only
    rw [htwo, hconstant, hconstant, hhadamard, Option.bind_some, hadd, Option.bind_some,
      hhadamard, Option.bind_some, h00, h01, h10, h11]
    rfl
  · rw [Scalars.cast_add, Nat.cast_zero, zero_add, h00']
  · rw [Scalars.cast_add, Scalars.cast_add, Nat.cast_zero, zero_add, h01', h10']
  · rw [Scalars.cast_add, Nat.cast_zero, zero_add, h11']

end Polynomials

section Phase

variable {G : Type} [AddCommGroup G]

def leftConstant (o : Opening G) (z : Scalar) (i : Nat) : Scalar := entry o.al i - z

def rightConstant (o : Opening G) (y z : Scalar) (i : Nat) : Scalar :=
  y ^ i * (entry o.ar i + z) + scaled z i

def rightLinear (o : Opening G) (y : Scalar) (i : Nat) : Scalar := entry o.sr i * y ^ i

/-- The coefficients of the product. -/
def product0 (o : Opening G) (y z : Scalar) : Scalar :=
  ∑ i ∈ Finset.range 128, leftConstant o z i * rightConstant o y z i

def product1 (o : Opening G) (y z : Scalar) : Scalar :=
  ∑ i ∈ Finset.range 128, leftConstant o z i * rightLinear o y i +
    ∑ i ∈ Finset.range 128, entry o.sl i * rightConstant o y z i

def product2 (o : Opening G) (y : Scalar) : Scalar :=
  ∑ i ∈ Finset.range 128, entry o.sl i * rightLinear o y i

variable [PointCodec G] (E : Hashes G)

/-- What the phase of the range proof computes, for its challenges `y` and `z`. -/
structure Ranged [Module Scalar G] (o : Opening G) (w y z : Nat) (tau1 tau2 : Scalar)
    (t : RangePart G) : Prop where
  ys_eq : t.ys = table 128 (Scalars.power y)
  zs0_eq : (t.zs0 : Scalar) = (z : Scalar) ^ 2
  zs1_eq : (t.zs1 : Scalar) = (z : Scalar) ^ 3
  x_eq : t.x = challengeX E z t.t1 t.t2
  t1_eq : t.t1 = product1 o y z • E.generators.g + tau1 • E.generators.h
  t2_eq : t.t2 = product2 o y • E.generators.g + tau2 • E.generators.h
  that_eq : (t.that : Scalar) =
    product0 o y z + product1 o y z * t.x + product2 o y * (t.x * t.x)
  tauX_eq : (t.tauX : Scalar) = tau1 * t.x + tau2 * (t.x * t.x)
  mu_eq : (t.mu : Scalar) = o.rBs * t.x + o.rBa
  left_eq : ∃ l, evaluate t.polys.l0 t.polys.l1 t.x = some (table 128 l) ∧
    ∀ i < 128, (l i : Scalar) = leftConstant o z i + entry o.sl i * t.x
  right_eq : ∃ r, evaluate t.polys.r0 t.polys.r1 t.x = some (table 128 r) ∧
    ∀ i < 128, (r i : Scalar) = rightConstant o y z i + rightLinear o y i * t.x

theorem evaluate_table (c0 c1 : Nat → Nat) (x : Nat) :
    evaluate (table 128 c0) (table 128 c1) x =
      some (table 128 fun i => Scalars.add (c0 i) (Scalars.mul (c1 i) (Scalars.reduce x))) := by
  rw [evaluate, FieldVector.times, timesVec_table]
  exact addVec_table scalarOps 128 _ _

theorem rangePhase_returns [Module Scalar G] {o : Opening G} {al ar : Nat → Nat}
    (hal : o.al = table 128 al) (har : o.ar = table 128 ar) (hsl : o.sl.length = 128)
    (hsr : o.sr.length = 128) (w : Nat) (rng : Rng) :
    ∃ t, rangePhase E o w rng = some t ∧
      ∃ tau1 tau2, Ranged E o w (nextChallenge E w) (nextChallenge E (nextChallenge E w)) tau1 tau2
        t := by
  obtain ⟨sl, hsl⟩ := exists_table 0 hsl
  obtain ⟨sr, hsr⟩ := exists_table 0 hsr
  generalize hy : nextChallenge E w = y
  generalize hz : nextChallenge E y = z
  have hys : Scalars.powers y 128 = some (table 128 (Scalars.power y)) :=
    Scalars.powers_eq y (by decide)
  obtain ⟨polys, hpolys, hcoefficients⟩ := rangePolynomials_returns al ar sl sr (Scalars.power y) z
    (modpow z 2 order) (modpow z 3 order)
  have hleft : ∀ i < 128, leftConstant o z i = al i - z := by
    intro i hi
    rw [leftConstant, hal, entry_table al hi]
  have hright : ∀ i < 128, rightConstant o y z i = (Scalars.power y i : Scalar) * (ar i + z) +
      twoTimes (modpow z 2 order) (modpow z 3 order) i := by
    intro i hi
    rw [rightConstant, har, entry_table ar hi, Scalars.cast_power, cast_twoTimes]
  have hlinear : ∀ i < 128, rightLinear o y i = (sr i : Scalar) * Scalars.power y i := by
    intro i hi
    rw [rightLinear, hsr, entry_table sr hi, Scalars.cast_power]
  have hslope : ∀ i < 128, entry o.sl i = sl i := by
    intro i hi
    rw [hsl, entry_table sl hi]
  have h0 : (polys.t0 : Scalar) = product0 o y z := by
    rw [hcoefficients.t0_eq, product0]
    apply Finset.sum_congr rfl
    intro i hi
    rw [hleft i (Finset.mem_range.mp hi), hright i (Finset.mem_range.mp hi)]
  have h1 : (polys.t1 : Scalar) = product1 o y z := by
    rw [hcoefficients.t1_eq, product1]
    refine congrArg₂ (fun a b => a + b) ?_ ?_
    · apply Finset.sum_congr rfl
      intro i hi
      rw [hleft i (Finset.mem_range.mp hi), hlinear i (Finset.mem_range.mp hi)]
    · apply Finset.sum_congr rfl
      intro i hi
      rw [hslope i (Finset.mem_range.mp hi), hright i (Finset.mem_range.mp hi)]
  have h2 : (polys.t2 : Scalar) = product2 o y := by
    rw [hcoefficients.t2_eq, product2]
    apply Finset.sum_congr rfl
    intro i hi
    rw [hslope i (Finset.mem_range.mp hi), hlinear i (Finset.mem_range.mp hi)]
  obtain ⟨t1, ht1⟩ : ∃ p, pcCommit E polys.t1 (rng 0) = p := ⟨_, rfl⟩
  obtain ⟨t2, ht2⟩ : ∃ p, pcCommit E polys.t2 (skip rng 1 0) = p := ⟨_, rfl⟩
  obtain ⟨x, hx⟩ : ∃ x, challengeX E z t1 t2 = x := ⟨_, rfl⟩
  have hevalLeft : ∃ l, evaluate polys.l0 polys.l1 x = some (table 128 l) ∧
      ∀ i < 128, (l i : Scalar) = leftConstant o z i + entry o.sl i * x := by
    rw [hcoefficients.l0_eq, hcoefficients.l1_eq, evaluate_table]
    refine ⟨_, rfl, fun i hi => ?_⟩
    rw [hleft i hi, hslope i hi, Scalars.cast_add, Scalars.cast_mul, Scalars.cast_add,
      Scalars.cast_neg, Scalars.cast_reduce, sub_eq_add_neg]
  have hevalRight : ∃ r, evaluate polys.r0 polys.r1 x = some (table 128 r) ∧
      ∀ i < 128, (r i : Scalar) = rightConstant o y z i + rightLinear o y i * x := by
    rw [hcoefficients.r0_eq, hcoefficients.r1_eq, evaluate_table]
    refine ⟨_, rfl, fun i hi => ?_⟩
    rw [hright i hi, hlinear i hi]
    simp only [Scalars.cast_add, Scalars.cast_mul, Scalars.cast_reduce]
  refine ⟨{
    ys := table 128 (Scalars.power y), zs0 := modpow z 2 order, zs1 := modpow z 3 order, polys, t1
    t2, x
    that := Scalars.add (Scalars.add polys.t0 (Scalars.mul polys.t1 x))
      (Scalars.mul polys.t2 (Scalars.mul x x))
    tauX := Scalars.add (Scalars.mul (rng 0) x) (Scalars.mul (skip rng 1 0) (Scalars.mul x x))
    mu := Scalars.add (Scalars.mul o.rBs x) o.rBa, rng := skip (skip rng 1) 1 }, ?_,
    (rng 0 : Scalar), (skip rng 1 0 : Scalar), ?_⟩
  · rw [rangePhase]
    dsimp only
    rw [hy, hz, hys, Option.bind_eq_bind, Option.bind_some, hal, har, hsl, hsr, hpolys, ← hx, ← ht1,
      ← ht2]
    rfl
  · constructor
    · rfl
    · exact cast_modpow z 2
    · exact cast_modpow z 3
    · exact hx.symm
    · rw [← h1, ← smul_eq, ← smul_eq]
      exact ht1.symm
    · rw [← h2, ← smul_eq, ← smul_eq]
      exact ht2.symm
    · simp only [Scalars.cast_add, Scalars.cast_mul, h0, h1, h2]
    · simp only [Scalars.cast_add, Scalars.cast_mul]
    · simp only [Scalars.cast_add, Scalars.cast_mul]
    · exact hevalLeft
    · exact hevalRight

end Phase

section InnerProduct

variable {G : Type} [AddCommGroup G] [PointCodec G] (E : Hashes G)

/-- The values of the two polynomials at the challenge. -/
def leftValue (o : Opening G) (z x : Scalar) (i : Nat) : Scalar :=
  leftConstant o z i + entry o.sl i * x

def rightValue (o : Opening G) (y z x : Scalar) (i : Nat) : Scalar :=
  rightConstant o y z i + rightLinear o y i * x

omit [PointCodec G] in
theorem rescaled_eq [Module Scalar G] (y i : Nat) :
    smul (E.generators.hs.getD i 0) (Scalars.inv (Scalars.power y i)) =
      Verifier.hPrime E (y : Scalar) i := by
  rw [smul_eq, Verifier.hPrime, Scalars.cast_inv, Scalars.cast_power]

/-- The prover of the inner product opens the commitment to the two values. -/
theorem innerProductPhase_returns [Module Scalar G] {o : Opening G} {w y z : Nat}
    {tau1 tau2 : Scalar} {t : RangePart G} (h : Ranged E o w y z tau1 tau2 t) (c : Nat) :
    ∃ ip, innerProductPhase E t c = some ip ∧ ip.ls.length = 7 ∧ ip.rs.length = 7 ∧
      ((∀ x ∈ InnerProducts.challengesFrom E (nextChallenge E c) ip.ls ip.rs,
          (x : Scalar) ≠ 0) →
        (ip.a : Scalar) • ∑ i ∈ Finset.range (2 ^ 7),
            Lib.Folding.signed (InnerProducts.values
              (InnerProducts.challengesFrom E (nextChallenge E c) ip.ls ip.rs)) i •
              E.hashToPoint (E.indexedSeed 0x47 i) +
          (ip.b : Scalar) • ∑ i ∈ Finset.range (2 ^ 7),
            (Lib.Folding.signed (InnerProducts.values
              (InnerProducts.challengesFrom E (nextChallenge E c) ip.ls ip.rs)) i)⁻¹ •
              Verifier.hPrime E (y : Scalar) i +
          ((ip.a : Scalar) * ip.b) • (nextChallenge E c : Scalar) • E.generators.h =
        InnerProducts.roundsSum
            (InnerProducts.challengesFrom E (nextChallenge E c) ip.ls ip.rs) ip.ls ip.rs +
          (∑ i ∈ Finset.range 128, leftValue o z t.x i • E.generators.gs.getD i 0 +
            ∑ i ∈ Finset.range 128, rightValue o y z t.x i • Verifier.hPrime E (y : Scalar) i +
            (∑ i ∈ Finset.range 128, leftValue o z t.x i * rightValue o y z t.x i) •
              (nextChallenge E c : Scalar) • E.generators.h)) := by
  obtain ⟨l, hl, hl'⟩ := h.left_eq
  obtain ⟨r, hr, hr'⟩ := h.right_eq
  generalize hsalt : nextChallenge E c = salt
  have hseven : 2 ^ 7 = 128 := rfl
  have hinv : FieldVector.invert (table 128 (Scalars.power y)) =
      table 128 fun i => Scalars.inv (Scalars.power y i) := map_table _ 128 _
  have hhs : (List.range 128).mapM (fun i => do
      let h ← E.generators.hs[i]?
      let e ← (table 128 fun i => Scalars.inv (Scalars.power y i))[i]?
      some (smul h e)) = some (table (2 ^ 7) (Verifier.hPrime E (y : Scalar))) := by
    apply mapM_table
    intro i hi
    rw [getElem?_eq_getD 0 (by rw [hs_length]; exact hi), getElem?_table _ hi]
    exact congrArg some (rescaled_eq E y i)
  have hgs : (List.range 128).mapM (fun i => E.generators.gs[i]?) =
      some (table (2 ^ 7) fun i => E.hashToPoint (E.indexedSeed 0x47 i)) := by
    apply mapM_table
    intro i hi
    rw [getElem?_eq_getD 0 (by rw [gs_length]; exact hi), gs_getD E hi]
  obtain ⟨a, b, ls, rs, hgenerate, hls, hrs, hopen⟩ :=
    InnerProducts.recurse_eq E (Nat.lt_two_pow_self (n := 7))
      (fun i => E.hashToPoint (E.indexedSeed 0x47 i)) (Verifier.hPrime E (y : Scalar))
      (smul E.generators.h salt) l r salt [] []
  have hcommit : Lib.Folding.commitment (2 ^ 7) (fun i => E.hashToPoint (E.indexedSeed 0x47 i))
      (Verifier.hPrime E (y : Scalar)) (smul E.generators.h salt) (fun i => (l i : Scalar))
      (fun i => (r i : Scalar)) =
      ∑ i ∈ Finset.range 128, leftValue o z t.x i • E.generators.gs.getD i 0 +
        ∑ i ∈ Finset.range 128, rightValue o y z t.x i • Verifier.hPrime E (y : Scalar) i +
        (∑ i ∈ Finset.range 128, leftValue o z t.x i * rightValue o y z t.x i) •
          smul E.generators.h salt := by
    rw [hseven, Lib.Folding.commitment_congr (smul E.generators.h salt)
      (fun i hi => (gs_getD E hi).symm) (fun i _ => rfl) hl' hr', Lib.Folding.commitment]
    rfl
  refine ⟨{ a, b, ls, rs }, ?_, hls, hrs, ?_⟩
  · rw [innerProductPhase, h.ys_eq, hinv, table_length, hsalt, hhs, Option.bind_eq_bind, Option.bind_some, hgs,
      Option.bind_some, hl, Option.bind_eq_bind, Option.bind_some, hr, Option.bind_some,
      InnerProducts.generate, table_length, ← hseven, hgenerate, List.nil_append, List.nil_append]
  · intro hne
    have hvalue := hopen hne
    rw [hcommit, smul_eq] at hvalue
    exact hvalue

omit [PointCodec G] in
/-- The values are committed to by what the verifier recomputes. -/
theorem commitment_recomputed [Module Scalar G] {o : Opening G} {y : Nat} {z x mu : Scalar}
    (hy : (y : Scalar) ≠ 0)
    (hba : o.ba = vectorCommitment E 128 128 (entry o.al) (entry o.ar) o.rBa)
    (hbs : o.bs = vectorCommitment E 128 128 (entry o.sl) (entry o.sr) o.rBs)
    (hmu : mu = o.rBs * x + o.rBa) :
    ∑ i ∈ Finset.range 128, leftValue o z x i • E.generators.gs.getD i 0 +
        ∑ i ∈ Finset.range 128, rightValue o y z x i • Verifier.hPrime E (y : Scalar) i =
      o.ba + x • o.bs - z • E.generators.gsum +
        ∑ i ∈ Finset.range 128, ((y : Scalar) ^ i * z + scaled z i) •
          Verifier.hPrime E (y : Scalar) i - mu • E.generators.h := by
  have hvalues := commitment_values (n := 128) (fun i => E.generators.gs.getD i 0)
    (fun i => E.generators.hs.getD i 0) (entry o.al) (entry o.ar) (entry o.sl) (entry o.sr) (scaled z)
    (fun i _ => pow_ne_zero i hy) z x
  rw [← gsum_eq] at hvalues
  refine hvalues.trans ?_
  rw [hba, hbs, hmu, vectorCommitment, vectorCommitment]
  simp only [Verifier.hPrime]
  module

omit [AddCommGroup G] [PointCodec G] in
/-- The value at the challenge is the inner product of the values. -/
theorem that_eq_sum {o : Opening G} {y z x that : Scalar}
    (h : that = product0 o y z + product1 o y z * x + product2 o y * (x * x)) :
    ∑ i ∈ Finset.range 128, leftValue o z x i * rightValue o y z x i = that := by
  rw [h, product0, product1, product2]
  exact sum_linear_mul 128 _ _ _ _ x

/-- The verifier accepts the inner product. -/
theorem verifyInnerProduct_accepts [Module Scalar G] {o : Opening G} {w : Nat}
    {tau1 tau2 : Scalar} {t : RangePart G}
    (h : Ranged E o w (nextChallenge E w) (nextChallenge E (nextChallenge E w)) tau1 tau2 t)
    (hba : o.ba = vectorCommitment E 128 128 (entry o.al) (entry o.ar) o.rBa)
    (hbs : o.bs = vectorCommitment E 128 128 (entry o.sl) (entry o.sr) o.rBs)
    {p : Proofs.Proof G} (hip : innerProductPhase E t p.c = some p.ip) (hpba : p.ba = o.ba)
    (hpbs : p.bs = o.bs) (hpmu : p.mu = t.mu) (hpthat : p.that = t.that)
    (hy : (nextChallenge E w : Scalar) ≠ 0)
    (hne : ∀ x ∈ InnerProducts.challengesFrom E (nextChallenge E p.c) p.ip.ls p.ip.rs,
      (x : Scalar) ≠ 0) (t' : Nat) :
    p.ip.ls.length = 7 ∧ p.ip.rs.length = 7 ∧
      Verifier.verifyInnerProduct E p (Verifier.rangeScalarsOf E w t') t.x = some true := by
  obtain ⟨ip, hip', hls, hrs, hopen⟩ := innerProductPhase_returns E h p.c
  obtain rfl := Option.some_inj.mp (hip'.symm.trans hip)
  refine ⟨hls, hrs, ?_⟩
  obtain ⟨accepted, haccepted, htrue⟩ := Verifier.verifyInnerProduct_returns E hls hrs
    (Verifier.rangeScalarsOf_ys E w t') (Verifier.rangeScalarsOf_two E w t') t.x
  have hcommitment := commitment_recomputed E (z := (nextChallenge E (nextChallenge E w) : Nat)) hy
    hba hbs h.mu_eq
  have hthat := that_eq_sum h.that_eq
  rw [haccepted, htrue hne]
  refine (hopen hne).trans ?_
  rw [hcommitment, hthat, hpba, hpbs, hpmu, hpthat]
  simp only [cast_scaledTwo]
  rfl

end InnerProduct

end DirtybirdMiner.Crypto.RangePart
