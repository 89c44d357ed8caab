import DirtybirdMiner.Crypto.InnerProducts
import DirtybirdMiner.Crypto.Polynomials
import DirtybirdMiner.Crypto.Transcripts

/-!
The verifier of transfer proofs, `Proof::verify` of `crypto/src/proof.rs`, in its stages.  `none`
is a panic.
-/

namespace DirtybirdMiner.Crypto.Verifier

open DirtybirdMiner.Lib.Bytes
open DirtybirdMiner.Lib.Checked
open DirtybirdMiner.Lib.Powers (modpow modpow_eq)
open DirtybirdMiner.Lib.Tables
open DirtybirdMiner.Crypto
open DirtybirdMiner.Crypto.Scalars (order Scalar bigSub)
open DirtybirdMiner.Crypto.Statements (PointCodec Statement compress to32Be)
open DirtybirdMiner.Crypto.Proofs (Proof)
open DirtybirdMiner.Crypto.Vectors
open DirtybirdMiner.Crypto.Hashing
open DirtybirdMiner.Crypto.Polynomials (fMatrix assemblePolynomials)
open DirtybirdMiner.Crypto.Transcripts

section Functions

/-- The closure `neg`. -/
def negate (sc : Nat) : Nat := (order - sc % order) % order

/-- `w == f[0] || w == f[m]`. -/
def parityHolds (vector : List Nat) (m w : Nat) : Option Bool := do
  let first ← vector[0]?
  if w = first then some true
  else do
    let middle ← vector[m]?
    some (decide (w = middle))

/-- What the verifier derives for the range proof. -/
structure RangeScalars where
  ys : List Nat
  z : Nat
  zs0 : Nat
  zs1 : Nat
  t : Nat
  twoTimesZSquared : List Nat

/-- `ys` and the sum `k` of its elements. -/
def powersAndSum (y : Nat) : Option (List Nat × Nat) :=
  forUp (fun i s => do
    let last ← s.1[i - 1]?
    let next := last * y % order
    some (s.1 ++ [next], (s.2 + next) % order)) 1 127 ([1], 1)

variable {G : Type} [AddCommGroup G] [PointCodec G] (E : Hashes G)

omit [AddCommGroup G] in
def rangeScalars (w that : Nat) : Option RangeScalars := do
  let y := nextChallenge E w
  let (ys, k) ← powersAndSum y
  let z := nextChallenge E y
  let zs0 := modpow z 2 order
  let zs1 := modpow z 3 order
  let zSum := (zs0 + zs1) % order
  let zSum := zSum * z % order
  let zZ0 := (← bigSub (order + z) zs0) % order
  let k := k * zZ0 % order
  let zsumPow := zSum * 2 ^ 64 % order
  let zsumPow := (← bigSub (order + zsumPow) zSum) % order
  let k := (← bigSub (order + k) zsumPow) % order
  let t := (← bigSub (order + that) (k % order)) % order
  -- one loop fills both halves
  let twoTimesZSquared := table 64 (fun i => zs0 * 2 ^ i % order) ++
    table 64 fun i => zs1 * 2 ^ i % order
  some { ys, z, zs0, zs1, t, twoTimesZSquared }

/-- `temp`. -/
def recoverTemp (gs hs : List G) (f : List (Nat × Nat)) (m : Nat) : Option G := do
  let temp ← forUp (fun k temp => do
    let pair ← f[k]?
    let g ← gs[k]?
    let h ← hs[k]?
    some (temp + smul g pair.2 + smul h (pair.2 * pair.1 % order))) 0 (2 * m) 0
  let first ← f[0]?
  let middle ← f[m]?
  let h0 ← hs[2 * m]?
  let h1 ← hs[1 + 2 * m]?
  some (temp + smul h0 (first.2 * middle.2 % order) + smul h1 (first.1 * middle.1 % order))

/-- `cln_r` and `crn_r` before the rounds. -/
def ringSums (cln crn : List G) (r : List (Nat × Nat)) (n : Nat) : Option (G × G) :=
  forUp (fun i s => do
    let cl ← cln[i]?
    let cr ← crn[i]?
    let pair ← r[i]?
    some (s + (smul cl pair.1, smul cr pair.1))) 0 n 0

/-- `CR[i] = [c_p[i], c_q[i]]`, and the same for `yR`. -/
def pairUp (count : Nat) (p q : List G) : Option (List (G × G)) :=
  (List.range count).mapM fun i => do some (← p[i]?, ← q[i]?)

def pick (pair : G × G) (i : Nat) : G := if i % 2 = 0 then pair.1 else pair.2

/-- `c_xr` and `y_xr` before the rounds; the powers of the challenge start with the third turn. -/
def shiftedSums (cr yr : List (G × G)) (v n : Nat) : Option (G × G) := do
  let s ← forUp (fun i (s : (G × G) × Nat) => do
    let c ← cr[i / 2]?
    let y ← yr[i / 2]?
    some (s.1 + (smul (pick c i) s.2, smul (pick y i) s.2),
      if i > 0 then s.2 * v % order else s.2)) 0 n (0, 1)
  some s.1

/-- The points that the rounds complete, and the power of the challenge `w`. -/
structure Sums (G : Type) where
  clnR : G
  crnR : G
  cr0 : G
  dR : G
  yr0 : G
  gR : G
  cXR : G
  yXR : G
  wPow : Nat

/-- One round of the loop over the powers of `w`. -/
def subtractRound (p : Proof G) (w i : Nat) (s : Sums G) : Option (Sums G) := do
  let wpn := negate s.wPow
  some {
    clnR := s.clnR + smul (← p.clnG[i]?) wpn
    crnR := s.crnR + smul (← p.crnG[i]?) wpn
    cr0 := s.cr0 + smul (← p.c0G[i]?) wpn
    dR := s.dR + smul (← p.dG[i]?) wpn
    yr0 := s.yr0 + smul (← p.y0G[i]?) wpn
    gR := s.gR + smul (← p.gG[i]?) wpn
    cXR := s.cXR + smul (← p.cXG[i]?) wpn
    yXR := s.yXR + smul (← p.yXG[i]?) wpn
    wPow := s.wPow * w % order }

/-- All points from the ring and the rounds. -/
def ringPoints (p : Proof G) (s : Statement G) (f : List (Nat × Nat)) (m v w : Nat)
    (totalOpenValue : UInt64) : Option (Sums G) := do
  let n := 2 ^ m
  let r ← assemblePolynomials f
  let (clnR, crnR) ← ringSums s.cln s.crn r n
  let cP ← convolution (r.map Prod.fst) s.c
  let cQ ← convolution (r.map Prod.snd) s.c
  let yP ← convolution (r.map Prod.fst) s.publickeylist
  let yQ ← convolution (r.map Prod.snd) s.publickeylist
  let cr ← pairUp cP.length cP cQ
  let yr ← pairUp cP.length yP yQ
  let (cXR, yXR) ← shiftedSums cr yr v n
  let cr0 ← cr[0]?
  let yr0 ← yr[0]?
  let t ← forUp (subtractRound p w) 0 m
    { clnR, crnR, cr0 := cr0.1, dR := 0, yr0 := yr0.1, gR := 0, cXR, yXR, wPow := 1 }
  let g := E.generators.g
  let tovWpow := totalOpenValue.toNat * t.wPow % order
  some { t with
    dR := t.dR + smul s.d t.wPow
    gR := t.gR + smul g t.wPow
    cXR := t.cXR + smul g tovWpow }

/-- The recomputed challenge of the sigma protocol. -/
def sigmaCheck (p : Proof G) (s : Statement G) (t : Sums G) (rs : RangeScalars) (x : Nat)
    (totalOpenValue : UInt64) (nonce : G) : Nat :=
  let g := E.generators.g
  let h := E.generators.h
  let xsq := x * x % order
  let tEval := smul p.t1 x + smul p.t2 xsq
  let cNeg := negate p.c
  let aY := smul t.gR p.sSk + smul t.yr0 cNeg
  let aD := smul g p.sR + smul s.d cNeg
  let zs0Neg := negate rs.zs0
  let left := smul (smul t.dR zs0Neg + smul t.crnR rs.zs1) p.sSk
  let mid := smul g (totalOpenValue.toNat * t.wPow % order) + t.cr0
  let right := smul (smul mid zs0Neg + smul t.clnR rs.zs1) cNeg
  let aB := smul g p.sB + (left + right)
  let aX := smul t.yXR p.sR + smul t.cXR cNeg
  let sBNeg := negate p.sB
  let cw := p.c * t.wPow % order
  let aT := smul (smul g rs.t + -tEval) cw + smul h p.sTau + smul g sBNeg
  let aU := smul nonce p.sSk + smul p.u cNeg
  challengeC E x aY aD aB aX aT aU

/-- `h_primes`, with `h_prime_sum`. -/
def rescale (hs : List G) (rs : RangeScalars) : Option (List G × G) :=
  forUp (fun i s => do
    let h ← hs[i]?
    let y ← rs.ys[i]?
    let two ← rs.twoTimesZSquared[i]?
    let hp := Scalars.inv y • h
    let tmp := (y * rs.z % order + two) % order
    some (s.1 ++ [hp], s.2 + smul hp tmp)) 0 128 ([], 0)

/-- The inner-product part. -/
def verifyInnerProduct (p : Proof G) (rs : RangeScalars) (x : Nat) : Option Bool := do
  let h := E.generators.h
  let o := nextChallenge E p.c
  let uX := smul h o
  let (hPrimes, hPrimeSum) ← rescale E.generators.hs rs
  let pPt := p.ba + smul p.bs x
  let pPt := pPt + smul E.generators.gsum (negate rs.z)
  let pPt := pPt + hPrimeSum
  let pPt := pPt + smul h (negate p.mu)
  let pPt := pPt + smul uX (p.that % order)
  InnerProducts.verify E p.ip hPrimes uX pPt o

/-- What follows the challenge `w`. -/
def verifyRing (p : Proof G) (scid : FixedBytes 32) (scidIndex : Nat) (s : Statement G)
    (totalOpenValue : UInt64) (v w : Nat) : Option Bool := do
  let m := p.f.length / 2
  require (m < 64)
  let f := fMatrix (p.f.take (2 * m)) w
  if !(← parityHolds p.f m w) then some false
  else do
    let temp ← recoverTemp E.generators.gs E.generators.hs f m
    let stored := smul p.b w + p.a
    let computed := temp + smul E.generators.h p.zA
    if compress stored ≠ compress computed then some false
    else do
      let t ← ringPoints E p s f m v w totalOpenValue
      let rs ← rangeScalars E w p.that
      let x := challengeX E rs.z p.t1 p.t2
      let nonce := nonceBase E s.roothash scid scidIndex
      if sigmaCheck E p s t rs x totalOpenValue nonce ≠ p.c then some false
      else verifyInnerProduct E p rs x

/-- `Proof::verify`. -/
def verify (p : Proof G) (scid : FixedBytes 32) (scidIndex : Nat) (s : Statement G)
    (txid : FixedBytes 32) (extraValue : UInt64) : Option Bool :=
  if s.c.length ≠ s.publickeylist.length then some false
  else
    let totalOpenValue := s.fees + extraValue
    if totalOpenValue < s.fees ∨ totalOpenValue < extraValue then some false
    else
      let statementhash := E.reducedHash txid.1
      let v := challengeV E statementhash p.ba p.bs p.a p.b
      let w := challengeW E v p.clnG p.crnG p.c0G p.dG p.y0G p.gG p.cXG p.yXG
      verifyRing E p scid scidIndex s totalOpenValue v w

end Functions

section Scalars

@[simp] theorem cast_negate (sc : Nat) : ((negate sc : Nat) : Scalar) = -sc := by
  have hlt := Nat.mod_lt sc Scalars.order_pos
  rw [negate, Scalars.natCast_mod, Nat.cast_sub hlt.le, Scalars.natCast_mod,
    Scalars.natCast_order, zero_sub]

/-- A difference that is kept positive by the order. -/
theorem bigSub_order {a b : Nat} (hb : b < order) :
    ∃ d, bigSub (order + a) b = some d ∧ (((d % order : Nat)) : Scalar) = a - b := by
  refine ⟨order + a - b, Scalars.bigSub_eq (by omega), ?_⟩
  rw [Scalars.natCast_mod, Nat.cast_sub (by omega), Nat.cast_add, Scalars.natCast_order, zero_add]

theorem powersAndSum_returns (y : Nat) :
    ∃ k, powersAndSum y = some (table 128 (Scalars.power y), k) ∧
      (k : Scalar) = ∑ i ∈ Finset.range 128, (y : Scalar) ^ i := by
  obtain ⟨⟨ys, k⟩, hloop, hys, hk⟩ := forUp_returns
    (f := fun i (s : List Nat × Nat) => do
      let last ← s.1[i - 1]?
      let next := last * y % order
      some (s.1 ++ [next], (s.2 + next) % order))
    (fun i s => s.1 = table i (Scalars.power y) ∧
      (s.2 : Scalar) = ∑ j ∈ Finset.range i, (y : Scalar) ^ j) 1 127 ([1], 1)
    ⟨rfl, by rw [Finset.sum_range_one, pow_zero, Nat.cast_one]⟩ (by
      rintro i ⟨ys, k⟩ hlo - ⟨hys, hk⟩
      obtain ⟨j, rfl⟩ : ∃ j, i = j + 1 := ⟨i - 1, by omega⟩
      simp only at hys hk
      refine .of_eq (a := (table (j + 2) (Scalars.power y),
        (k + Scalars.power y (j + 1)) % order)) ?_ ⟨rfl, ?_⟩
      · simp only [hys, Nat.add_sub_cancel]
        rw [getElem?_table _ (Nat.lt_succ_self j), table_succ (j + 1)]
        rfl
      · simp only
        rw [Scalars.natCast_mod, Nat.cast_add, hk, Scalars.cast_power,
          ← Finset.sum_range_succ])
  refine ⟨k, ?_, hk⟩
  simp only at hys
  rw [powersAndSum, hloop, hys]

/-- The scaled powers of two for the two amounts. -/
def scaledTwo (zs0 zs1 : Nat) (i : Nat) : Nat :=
  if i < 64 then zs0 * 2 ^ i % order else zs1 * 2 ^ (i - 64) % order

theorem cast_modpow (z e : Nat) : ((modpow z e order : Nat) : Scalar) = (z : Scalar) ^ e := by
  rw [modpow_eq, Scalars.natCast_mod, Nat.cast_pow]

theorem modpow_lt (z e : Nat) : modpow z e order < order := by
  rw [modpow_eq]
  exact Nat.mod_lt _ Scalars.order_pos

/-- What the committed polynomial has to be at zero, without the amounts. -/
def delta (y z : Scalar) : Scalar :=
  (z - z ^ 2) * ∑ i ∈ Finset.range 128, y ^ i - (z ^ 2 + z ^ 3) * z * (((2 : Nat) : Scalar) ^ 64 - 1)

variable {G : Type} (E : Hashes G)

/-- The scalars of the range proof for a challenge. -/
def rangeScalarsOf (w t : Nat) : RangeScalars :=
  let y := nextChallenge E w
  let z := nextChallenge E y
  { ys := table 128 (Scalars.power y)
    z, zs0 := modpow z 2 order, zs1 := modpow z 3 order, t
    twoTimesZSquared := table 128 (scaledTwo (modpow z 2 order) (modpow z 3 order)) }

theorem rangeScalarsOf_ys (w t : Nat) :
    (rangeScalarsOf E w t).ys = table 128 (Scalars.power (nextChallenge E w)) := rfl

theorem rangeScalarsOf_two (w t : Nat) : (rangeScalarsOf E w t).twoTimesZSquared =
    table 128 (scaledTwo (modpow (nextChallenge E (nextChallenge E w)) 2 order)
      (modpow (nextChallenge E (nextChallenge E w)) 3 order)) := rfl

theorem rangeScalars_returns (w that : Nat) :
    ∃ t, rangeScalars E w that = some (rangeScalarsOf E w t) ∧
      (t : Scalar) = that - delta (nextChallenge E w) (nextChallenge E (nextChallenge E w)) := by
  unfold rangeScalarsOf
  generalize hy : nextChallenge E w = y
  generalize hz : nextChallenge E y = z
  obtain ⟨k, hpowers, hk⟩ := powersAndSum_returns y
  have hlt := Nat.mod_lt ((modpow z 2 order + modpow z 3 order) % order * z) Scalars.order_pos
  obtain ⟨d0, hd0, hd0'⟩ := bigSub_order (a := z) (modpow_lt z 2)
  obtain ⟨d1, hd1, hd1'⟩ := bigSub_order
    (a := (modpow z 2 order + modpow z 3 order) % order * z % order * 2 ^ 64 % order) hlt
  obtain ⟨d2, hd2, hd2'⟩ := bigSub_order (a := k * (d0 % order) % order)
    (Nat.mod_lt d1 Scalars.order_pos)
  obtain ⟨d3, hd3, hd3'⟩ := bigSub_order (a := that)
    (Nat.mod_lt (d2 % order) Scalars.order_pos)
  have htwo : table 64 (fun i => modpow z 2 order * 2 ^ i % order) ++
      table 64 (fun i => modpow z 3 order * 2 ^ i % order) =
        table 128 (scaledTwo (modpow z 2 order) (modpow z 3 order)) := by
    rw [table_append]
    rfl
  refine ⟨d3 % order, ?_, ?_⟩
  · unfold rangeScalars
    simp only [hy, hz, hpowers, hd0, hd1, hd2, hd3, htwo, Option.bind_eq_bind, Option.bind_some]
  · rw [hd3', Scalars.natCast_mod, hd2', Scalars.natCast_mod, Nat.cast_mul, hd0', hd1', hk,
      delta, cast_modpow]
    simp only [Scalars.natCast_mod, Nat.cast_mul, Nat.cast_add, Nat.cast_pow, Nat.cast_ofNat,
      cast_modpow]
    ring

end Scalars

section Stages

variable {G : Type} [AddCommGroup G]

theorem recoverTemp_eq {gs hs : List G} {f : List (Nat × Nat)} {m : Nat} (hm : 0 < m)
    (hf : f.length = 2 * m) (hgs : 2 * m ≤ gs.length) (hhs : 2 * m + 2 ≤ hs.length) :
    recoverTemp gs hs f m =
      some (∑ k ∈ Finset.range (2 * m), (smul (gs.getD k 0) (f.getD k 0).2 +
          smul (hs.getD k 0) ((f.getD k 0).2 * (f.getD k 0).1 % order)) +
        smul (hs.getD (2 * m) 0) ((f.getD 0 0).2 * (f.getD m 0).2 % order) +
        smul (hs.getD (1 + 2 * m) 0) ((f.getD 0 0).1 * (f.getD m 0).1 % order)) := by
  rw [recoverTemp, forUp_sum fun k => smul (gs.getD k 0) (f.getD k 0).2 +
    smul (hs.getD k 0) ((f.getD k 0).2 * (f.getD k 0).1 % order)]
  · rw [getElem?_eq_getD 0 (by omega), getElem?_eq_getD 0 (by omega),
      getElem?_eq_getD 0 (by omega), getElem?_eq_getD 0 (by omega), zero_add]
    rfl
  · intro k hk s
    rw [getElem?_eq_getD 0 (by omega), getElem?_eq_getD 0 (by omega),
      getElem?_eq_getD 0 (by omega), ← add_assoc]
    rfl

theorem ringSums_eq {cln crn : List G} {n : Nat} (r : Nat → Nat × Nat) (hcln : cln.length = n)
    (hcrn : crn.length = n) :
    ringSums cln crn (table n r) n =
      some (∑ j ∈ Finset.range n, smul (cln.getD j 0) (r j).1,
        ∑ j ∈ Finset.range n, smul (crn.getD j 0) (r j).1) := by
  rw [ringSums, forUp_sum fun j => (smul (cln.getD j 0) (r j).1, smul (crn.getD j 0) (r j).1),
    zero_add]
  · congr 1
    exact Prod.ext Prod.fst_sum Prod.snd_sum
  · intro j hj s
    rw [getElem?_eq_getD 0 (by omega), getElem?_eq_getD 0 (by omega), getElem?_table r hj]
    rfl

omit [AddCommGroup G] in
theorem pairUp_table (n : Nat) (p q : Nat → G) :
    pairUp n (table n p) (table n q) = some (table n fun i => (p i, q i)) := by
  apply mapM_table
  intro i hi
  rw [getElem?_table p hi, getElem?_table q hi]
  rfl

/-- The power of the challenge at a turn: the first two have the same. -/
def shift (v i : Nat) : Nat := Scalars.power v (i - 1)

theorem shift_succ (v i : Nat) : (if i > 0 then shift v i * v % order else shift v i) =
    shift v (i + 1) := by
  unfold shift
  split
  · rename_i hpos
    obtain ⟨j, rfl⟩ : ∃ j, i = j + 1 := ⟨i - 1, by omega⟩
    rfl
  · rename_i hzero
    obtain rfl : i = 0 := by omega
    rfl

theorem shiftedSums_eq {h : Nat} (cr yr : Nat → G × G) (v : Nat) :
    shiftedSums (table h cr) (table h yr) v (2 * h) =
      some (∑ i ∈ Finset.range (2 * h), smul (pick (cr (i / 2)) i) (shift v i),
        ∑ i ∈ Finset.range (2 * h), smul (pick (yr (i / 2)) i) (shift v i)) := by
  have hloop := @forUp_states _ (fun i (s : (G × G) × Nat) => do
      let c ← (table h cr)[i / 2]?
      let y ← (table h yr)[i / 2]?
      some (s.1 + (smul (pick c i) s.2, smul (pick y i) s.2),
        if i > 0 then s.2 * v % order else s.2)) (fun i => (∑ j ∈ Finset.range i,
      (smul (pick (cr (j / 2)) j) (shift v j), smul (pick (yr (j / 2)) j) (shift v j)),
        shift v i)) 0 (2 * h) (by
      intro i _ hi
      rw [getElem?_table cr (by omega), getElem?_table yr (by omega)]
      simp only [Option.bind_eq_bind, Option.bind_some, shift_succ, Finset.sum_range_succ])
  rw [Finset.sum_range_zero, Nat.zero_add] at hloop
  have hstart : ((0 : G × G), shift v 0) = (0, 1) := rfl
  rw [shiftedSums, ← hstart, hloop]
  simp only [Option.bind_eq_bind, Option.bind_some]
  congr 1
  exact Prod.ext Prod.fst_sum Prod.snd_sum

/-- The proof has a point in each of its vectors for every round, and the two responses. -/
structure Rounds (p : Proof G) (m : Nat) : Prop where
  clnG_length : p.clnG.length = m
  crnG_length : p.crnG.length = m
  c0G_length : p.c0G.length = m
  dG_length : p.dG.length = m
  y0G_length : p.y0G.length = m
  gG_length : p.gG.length = m
  cXG_length : p.cXG.length = m
  yXG_length : p.yXG.length = m
  f_length : p.f.length = 2 * m

/-- What the rounds subtract from a point. -/
def roundSum (points : List G) (w m : Nat) : G :=
  ∑ k ∈ Finset.range m, smul (points.getD k 0) (negate (Scalars.power w k))

def Sums.after (p : Proof G) (w m : Nat) (s : Sums G) : Sums G :=
  { clnR := s.clnR + roundSum p.clnG w m
    crnR := s.crnR + roundSum p.crnG w m
    cr0 := s.cr0 + roundSum p.c0G w m
    dR := s.dR + roundSum p.dG w m
    yr0 := s.yr0 + roundSum p.y0G w m
    gR := s.gR + roundSum p.gG w m
    cXR := s.cXR + roundSum p.cXG w m
    yXR := s.yXR + roundSum p.yXG w m
    wPow := Scalars.power w m }

theorem roundSum_succ (points : List G) (w k : Nat) (s : G) :
    s + roundSum points w k + smul (points.getD k 0) (negate (Scalars.power w k)) =
      s + roundSum points w (k + 1) := by
  rw [roundSum, roundSum, Finset.sum_range_succ, add_assoc]

theorem subtractRounds_eq {p : Proof G} {m : Nat} (hp : Rounds p m) (w : Nat) (s : Sums G)
    (hs : s.wPow = 1) : forUp (subtractRound p w) 0 m s = some (s.after p w m) := by
  have hloop := @forUp_states _ (subtractRound p w) (fun k => s.after p w k) 0 m (by
    intro k _ hk
    rw [subtractRound, getElem?_eq_getD 0 (by have := hp.clnG_length; omega),
      getElem?_eq_getD 0 (by have := hp.crnG_length; omega),
      getElem?_eq_getD 0 (by have := hp.c0G_length; omega),
      getElem?_eq_getD 0 (by have := hp.dG_length; omega),
      getElem?_eq_getD 0 (by have := hp.y0G_length; omega),
      getElem?_eq_getD 0 (by have := hp.gG_length; omega),
      getElem?_eq_getD 0 (by have := hp.cXG_length; omega),
      getElem?_eq_getD 0 (by have := hp.yXG_length; omega)]
    simp only [Option.bind_eq_bind, Option.bind_some, Sums.after, roundSum_succ]
    rfl)
  have hstart : s.after p w 0 = s := by
    obtain ⟨clnR, crnR, cr0, dR, yr0, gR, cXR, yXR, wPow⟩ := s
    obtain rfl : wPow = 1 := hs
    simp only [Sums.after, roundSum, Finset.sum_range_zero, add_zero]
    rfl
  rwa [hstart, Nat.zero_add] at hloop

theorem rescale_eq {hs : List G} (hhs : hs.length = 128) (rs : RangeScalars) {ys two : Nat → Nat}
    (hys : rs.ys = table 128 ys) (htwo : rs.twoTimesZSquared = table 128 two) :
    rescale hs rs =
      some (table 128 fun i => Scalars.inv (ys i) • hs.getD i 0,
        ∑ i ∈ Finset.range 128, smul (Scalars.inv (ys i) • hs.getD i 0)
          ((ys i * rs.z % order + two i) % order)) := by
  have hloop := @forUp_states _ (fun i (s : List G × G) => do
      let h ← hs[i]?
      let y ← rs.ys[i]?
      let two ← rs.twoTimesZSquared[i]?
      let hp := Scalars.inv y • h
      let tmp := (y * rs.z % order + two) % order
      some (s.1 ++ [hp], s.2 + smul hp tmp))
    (fun i => (table i fun i => Scalars.inv (ys i) • hs.getD i 0,
      ∑ i ∈ Finset.range i, smul (Scalars.inv (ys i) • hs.getD i 0)
        ((ys i * rs.z % order + two i) % order))) 0 128 (by
      intro i _ hi
      rw [getElem?_eq_getD 0 (by omega), hys, htwo, getElem?_table ys (by omega),
        getElem?_table two (by omega), table_succ, Finset.sum_range_succ]
      rfl)
  exact hloop

end Stages

section Ring

/-- A half of the matrix gives a value for every index. -/
theorem recursivePolys_returns {f : List (Nat × Nat)} {baseline m : Nat}
    (hf : baseline + m ≤ f.length) :
    ∃ half, Polynomials.recursivePolys baseline (baseline + m) 1 f = some (table (2 ^ m) half) := by
  have hexpand := Polynomials.recursivePolys_expand hf 1
  rw [Lib.Expansion.expand_eq_table, List.length_reverse, List.length_take, List.length_drop,
    Nat.min_eq_left (by omega)] at hexpand
  exact ⟨_, hexpand⟩

theorem assemblePolynomials_returns {f : List (Nat × Nat)} {m : Nat} (hf : f.length = 2 * m) :
    ∃ r, assemblePolynomials f = some (table (2 ^ m) r) := by
  have hhalf : f.length / 2 = m := by omega
  obtain ⟨half0, hlower⟩ := recursivePolys_returns (f := f) (by omega : 0 + m ≤ f.length)
  obtain ⟨half1, hupper⟩ := recursivePolys_returns (f := f) (by omega : m + m ≤ f.length)
  rw [Nat.zero_add] at hlower
  refine ⟨fun j => (half0 j, half1 j), ?_⟩
  rw [assemblePolynomials]
  simp only [hhalf, Nat.zero_mul, Nat.zero_add, Nat.one_mul, Nat.add_mul, hlower, hupper,
    Option.bind_eq_bind, Option.bind_some]
  apply mapM_table
  intro j hj
  rw [getElem?_table _ hj, getElem?_table _ hj]
  rfl

variable {G : Type} [AddCommGroup G]

section Space

variable [Module Scalar G]

/-- The member that a place of the ring has at a turn: the ring is rotated by two members every
two turns, for either of the two families. -/
def rotated {α : Type} (r : Nat → α × α) (n i j : Nat) : α :=
  if i % 2 = 0 then (r ((j + n - 2 * (i / 2)) % n)).1 else (r ((j + n - 2 * (i / 2)) % n)).2

/-- The members of the ring, rotated in all turns. -/
def wholeRing (r : Nat → Scalar × Scalar) (v : Scalar) (n : Nat) (points : Nat → G) : G :=
  ∑ i ∈ Finset.range n, v ^ (i - 1) • ∑ j ∈ Finset.range n, rotated r n i j • points j

/-- The points of the rounds, with the powers of the challenge. -/
def rounds (w : Scalar) (m : Nat) (points : Nat → G) : G :=
  ∑ k ∈ Finset.range m, w ^ k • points k

theorem roundSum_eq (points : List G) (w m : Nat) :
    roundSum points w m = -rounds (w : Scalar) m fun k => points.getD k 0 := by
  rw [roundSum, rounds, ← Finset.sum_neg_distrib]
  apply Finset.sum_congr rfl
  intro k _
  rw [smul_eq, cast_negate, Scalars.cast_power, neg_smul]

end Space

/-- The values of the two families. -/
def castPair (r : Nat → Nat × Nat) (j : Nat) : Scalar × Scalar := ((r j).1, (r j).2)

/-- The two convolutions of a ring of points, side by side and shifted. -/
theorem shifted_convolutions [Module Scalar G] {t : Nat} (r : Nat → Nat × Nat) {points : List G}
    {p q : Nat → G}
    (hp : ∀ i < 2 ^ t, p i = ∑ j ∈ Finset.range (2 ^ (t + 1)),
      ((r ((j + 2 ^ (t + 1) - 2 * i) % 2 ^ (t + 1))).1 : Scalar) • points.getD j 0)
    (hq : ∀ i < 2 ^ t, q i = ∑ j ∈ Finset.range (2 ^ (t + 1)),
      ((r ((j + 2 ^ (t + 1) - 2 * i) % 2 ^ (t + 1))).2 : Scalar) • points.getD j 0) (v : Nat) :
    ∑ i ∈ Finset.range (2 ^ (t + 1)), smul (pick (p (i / 2), q (i / 2)) i) (shift v i) =
      wholeRing (castPair r) v (2 ^ (t + 1)) fun j => points.getD j 0 := by
  have hpow : 2 ^ (t + 1) = 2 * 2 ^ t := pow_succ' 2 t
  apply Finset.sum_congr rfl
  intro i hi
  have hi := Finset.mem_range.mp hi
  have hhalf : i / 2 < 2 ^ t := by omega
  rw [smul_eq, shift, Scalars.cast_power]
  congr 1
  unfold pick
  split
  · rename_i heven
    rw [hp _ hhalf]
    simp only [rotated, if_pos heven, castPair]
  · rename_i hodd
    rw [hq _ hhalf]
    simp only [rotated, if_neg hodd, castPair]

variable (E : Hashes G)

/-- A statement that is completed for a ring of some size. -/
structure Complete (s : Statement G) (n : Nat) : Prop where
  cln_length : s.cln.length = n
  crn_length : s.crn.length = n
  publickeylist_length : s.publickeylist.length = n
  c_length : s.c.length = n

/-- The points of the verifier, in terms of the families of the ring. -/
structure Points [Module Scalar G] (p : Proof G) (s : Statement G) (r : Nat → Nat × Nat)
    (m v w : Nat) (tov : UInt64) (t : Sums G) : Prop where
  clnR : t.clnR = ∑ j ∈ Finset.range (2 ^ m), ((r j).1 : Scalar) • s.cln.getD j 0 -
    rounds (w : Scalar) m fun k => p.clnG.getD k 0
  crnR : t.crnR = ∑ j ∈ Finset.range (2 ^ m), ((r j).1 : Scalar) • s.crn.getD j 0 -
    rounds (w : Scalar) m fun k => p.crnG.getD k 0
  cr0 : t.cr0 = ∑ j ∈ Finset.range (2 ^ m), ((r j).1 : Scalar) • s.c.getD j 0 -
    rounds (w : Scalar) m fun k => p.c0G.getD k 0
  dR : t.dR = (w : Scalar) ^ m • s.d - rounds (w : Scalar) m fun k => p.dG.getD k 0
  yr0 : t.yr0 = ∑ j ∈ Finset.range (2 ^ m), ((r j).1 : Scalar) • s.publickeylist.getD j 0 -
    rounds (w : Scalar) m fun k => p.y0G.getD k 0
  gR : t.gR = (w : Scalar) ^ m • E.generators.g - rounds (w : Scalar) m fun k => p.gG.getD k 0
  cXR : t.cXR = wholeRing (castPair r) v (2 ^ m) (fun j => s.c.getD j 0) -
    rounds (w : Scalar) m (fun k => p.cXG.getD k 0) +
      ((tov.toNat : Scalar) * (w : Scalar) ^ m) • E.generators.g
  yXR : t.yXR = wholeRing (castPair r) v (2 ^ m) (fun j => s.publickeylist.getD j 0) -
    rounds (w : Scalar) m fun k => p.yXG.getD k 0
  wPow : (t.wPow : Scalar) = (w : Scalar) ^ m

theorem rotated_start {n j : Nat} (r : Nat → Nat × Nat) (hj : j < n) :
    (r ((j + n - 2 * 0) % n)).1 = (r j).1 := by
  rw [Nat.mul_zero, Nat.sub_zero, Nat.add_mod_right, Nat.mod_eq_of_lt hj]

theorem ringPoints_returns {p : Proof G} {s : Statement G} {t : Nat} (ht : t + 1 ≤ 28)
    (hp : Rounds p (t + 1)) (hs : Complete s (2 ^ (t + 1))) {f : List (Nat × Nat)}
    {r : Nat → Nat × Nat} (hr : assemblePolynomials f = some (table (2 ^ (t + 1)) r)) (v w : Nat)
    (tov : UInt64) :
    ∃ sums, ringPoints E p s f (t + 1) v w tov = some sums ∧
      ∀ [Module Scalar G], Points E p s r (t + 1) v w tov sums := by
  have hpow : 2 ^ (t + 1) = 2 * 2 ^ t := pow_succ' 2 t
  have hpos : 0 < 2 ^ t := Nat.two_pow_pos t
  have hc : s.c = table (2 ^ (t + 1)) fun j => s.c.getD j 0 := by
    have h := eq_table s.c 0
    rwa [hs.c_length] at h
  have hpk : s.publickeylist = table (2 ^ (t + 1)) fun j => s.publickeylist.getD j 0 := by
    have h := eq_table s.publickeylist 0
    rwa [hs.publickeylist_length] at h
  obtain ⟨cP, hcP, hcP'⟩ := convolution_spec ht (fun j => (r j).1) fun j => s.c.getD j 0
  obtain ⟨cQ, hcQ, hcQ'⟩ := convolution_spec ht (fun j => (r j).2) fun j => s.c.getD j 0
  obtain ⟨yP, hyP, hyP'⟩ := convolution_spec ht (fun j => (r j).1)
    fun j => s.publickeylist.getD j 0
  obtain ⟨yQ, hyQ, hyQ'⟩ := convolution_spec ht (fun j => (r j).2)
    fun j => s.publickeylist.getD j 0
  rw [← hc] at hcP hcQ
  rw [← hpk] at hyP hyQ
  have hshifted := shiftedSums_eq (h := 2 ^ t) (fun i => (cP i, cQ i)) (fun i => (yP i, yQ i)) v
  rw [← hpow] at hshifted
  let start : Sums G :=
    { clnR := ∑ j ∈ Finset.range (2 ^ (t + 1)), smul (s.cln.getD j 0) (r j).1
      crnR := ∑ j ∈ Finset.range (2 ^ (t + 1)), smul (s.crn.getD j 0) (r j).1
      cr0 := cP 0, dR := 0, yr0 := yP 0, gR := 0
      cXR := ∑ i ∈ Finset.range (2 ^ (t + 1)), smul (pick (cP (i / 2), cQ (i / 2)) i) (shift v i)
      yXR := ∑ i ∈ Finset.range (2 ^ (t + 1)), smul (pick (yP (i / 2), yQ (i / 2)) i) (shift v i)
      wPow := 1 }
  have hrounds := subtractRounds_eq hp w start rfl
  refine ⟨{ start.after p w (t + 1) with
    dR := (start.after p w (t + 1)).dR + smul s.d (Scalars.power w (t + 1))
    gR := (start.after p w (t + 1)).gR + smul E.generators.g (Scalars.power w (t + 1))
    cXR := (start.after p w (t + 1)).cXR +
      smul E.generators.g (tov.toNat * Scalars.power w (t + 1) % order) }, ?_, ?_⟩
  · rw [ringPoints, hr, Option.bind_eq_bind, Option.bind_some,
      ringSums_eq r hs.cln_length hs.crn_length, map_table, map_table, hcP, hcQ, hyP, hyQ]
    simp only [Option.bind_eq_bind, Option.bind_some]
    rw [table_length, pairUp_table, pairUp_table]
    simp only [Option.bind_some]
    rw [hshifted, getElem?_table _ hpos, getElem?_table _ hpos]
    simp only [Option.bind_some]
    rw [hrounds]
    rfl
  · intro _
    have hc0 := hcP' 0 hpos
    have hy0 := hyP' 0 hpos
    rw [Finset.sum_congr rfl fun j hj => by rw [rotated_start r (Finset.mem_range.mp hj)]]
      at hc0 hy0
    constructor
    all_goals
      simp only [start, Sums.after, roundSum_eq, smul_eq, Scalars.cast_power, zero_add,
        Scalars.natCast_mod, Nat.cast_mul]
    · rw [sub_eq_add_neg]
    · rw [sub_eq_add_neg]
    · rw [hc0, sub_eq_add_neg]
    · rw [sub_eq_neg_add]
    · rw [hy0, sub_eq_add_neg]
    · rw [sub_eq_neg_add]
    · rw [sub_eq_add_neg, ← shifted_convolutions r hcP' hcQ' v]
      simp only [smul_eq]
    · rw [sub_eq_add_neg, ← shifted_convolutions r hyP' hyQ' v]
      simp only [smul_eq]

end Ring

section Checks

variable {G : Type} [AddCommGroup G] [PointCodec G] (E : Hashes G)

/-- The challenge is that of any six points that satisfy the equations of the sigma protocol. -/
theorem sigmaCheck_eq [Module Scalar G] {p : Proof G} {s : Statement G} {t : Sums G}
    {rs : RangeScalars} {x : Nat} {tov : UInt64} {nonce aY aD aB aX aT aU : G}
    (hY : (p.sSk : Scalar) • t.gR - (p.c : Scalar) • t.yr0 = aY)
    (hD : (p.sR : Scalar) • E.generators.g - (p.c : Scalar) • s.d = aD)
    (hB : (p.sB : Scalar) • E.generators.g +
      ((p.sSk : Scalar) • (-(rs.zs0 : Scalar) • t.dR + (rs.zs1 : Scalar) • t.crnR) -
        (p.c : Scalar) • (-(rs.zs0 : Scalar) •
          (((tov.toNat : Scalar) * t.wPow) • E.generators.g + t.cr0) +
            (rs.zs1 : Scalar) • t.clnR)) = aB)
    (hX : (p.sR : Scalar) • t.yXR - (p.c : Scalar) • t.cXR = aX)
    (hT : ((p.c : Scalar) * t.wPow) • ((rs.t : Scalar) • E.generators.g -
      ((x : Scalar) • p.t1 + ((x : Scalar) * x) • p.t2)) +
        (p.sTau : Scalar) • E.generators.h - (p.sB : Scalar) • E.generators.g = aT)
    (hU : (p.sSk : Scalar) • nonce - (p.c : Scalar) • p.u = aU) :
    sigmaCheck E p s t rs x tov nonce = challengeC E x aY aD aB aX aT aU := by
  rw [← hY, ← hD, ← hB, ← hX, ← hT, ← hU]
  simp only [sigmaCheck, smul_eq, cast_negate, Scalars.natCast_mod, Nat.cast_mul, neg_smul,
    ← sub_eq_add_neg]

/-- The rescaled generators. -/
def hPrime [Module Scalar G] (y : Scalar) (i : Nat) : G := (y ^ i)⁻¹ • E.generators.hs.getD i 0

/-- The inner-product part returns, and with true if the scalars open the point. -/
theorem verifyInnerProduct_returns {p : Proof G} (hls : p.ip.ls.length = 7)
    (hrs : p.ip.rs.length = 7) {rs : RangeScalars} {y : Nat} {two : Nat → Nat}
    (hys : rs.ys = table 128 (Scalars.power y)) (htwo : rs.twoTimesZSquared = table 128 two)
    (x : Nat) :
    ∃ accepted, verifyInnerProduct E p rs x = some accepted ∧
      ∀ [Module Scalar G],
        (∀ o ∈ InnerProducts.challengesFrom E (nextChallenge E p.c) p.ip.ls p.ip.rs,
          (o : Scalar) ≠ 0) →
        (p.ip.a : Scalar) • ∑ i ∈ Finset.range (2 ^ 7),
            Lib.Folding.signed (InnerProducts.values
              (InnerProducts.challengesFrom E (nextChallenge E p.c) p.ip.ls p.ip.rs)) i •
              E.hashToPoint (E.indexedSeed 0x47 i) +
          (p.ip.b : Scalar) • ∑ i ∈ Finset.range (2 ^ 7),
            (Lib.Folding.signed (InnerProducts.values
              (InnerProducts.challengesFrom E (nextChallenge E p.c) p.ip.ls p.ip.rs)) i)⁻¹ •
              hPrime E (y : Scalar) i +
          ((p.ip.a : Scalar) * p.ip.b) • (nextChallenge E p.c : Scalar) • E.generators.h =
        InnerProducts.roundsSum
            (InnerProducts.challengesFrom E (nextChallenge E p.c) p.ip.ls p.ip.rs)
            p.ip.ls p.ip.rs +
          (p.ba + (x : Scalar) • p.bs - (rs.z : Scalar) • E.generators.gsum +
            ∑ i ∈ Finset.range 128, ((y : Scalar) ^ i * rs.z + two i) • hPrime E (y : Scalar) i -
            (p.mu : Scalar) • E.generators.h +
            (p.that : Scalar) • (nextChallenge E p.c : Scalar) • E.generators.h) →
        accepted = true := by
  have hrescale := rescale_eq (hs_length E) rs hys htwo
  obtain ⟨accepted, haccepted, hopen⟩ := InnerProducts.verify_returns E hls hrs (le_refl 7)
    (fun i => Scalars.inv (Scalars.power y i) • E.generators.hs.getD i 0)
    (smul E.generators.h (nextChallenge E p.c))
    (p.ba + smul p.bs x + smul E.generators.gsum (negate rs.z) +
      ∑ i ∈ Finset.range 128, smul (Scalars.inv (Scalars.power y i) • E.generators.hs.getD i 0)
        ((Scalars.power y i * rs.z % order + two i) % order) +
      smul E.generators.h (negate p.mu) +
      smul (smul E.generators.h (nextChallenge E p.c)) (p.that % order)) (nextChallenge E p.c)
  refine ⟨accepted, ?_, ?_⟩
  · rw [verifyInnerProduct, hrescale]
    exact haccepted
  · intro _ hne hopening
    have hprime : ∀ i, Scalars.inv (Scalars.power y i) • E.generators.hs.getD i 0 =
        hPrime E (y : Scalar) i := by
      intro i
      rw [hPrime, ← Nat.cast_smul_eq_nsmul Scalar, Scalars.cast_inv, Scalars.cast_power]
    apply hopen hne
    simp only [hprime, smul_eq, cast_negate, Scalars.natCast_mod, Nat.cast_add, Nat.cast_mul,
      Scalars.cast_power, neg_smul, ← sub_eq_add_neg]
    exact hopening

end Checks

section Accepts

variable {G : Type} [AddCommGroup G] [PointCodec G] (E : Hashes G)

theorem fMatrix_getD {vector : List Nat} (w : Nat) {k : Nat} (hk : k < vector.length) :
    (((fMatrix vector w).getD k 0).2 = vector.getD k 0) ∧
      ((((fMatrix vector w).getD k 0).1 : Nat) : Scalar) = w - (vector.getD k 0 : Nat) := by
  have hlt := Nat.mod_lt (vector.getD k 0) Scalars.order_pos
  have hpair : (fMatrix vector w).getD k 0 =
      ((order + w - vector.getD k 0 % order) % order, vector.getD k 0) := by
    rw [fMatrix, List.getD_eq_getElem?_getD, List.getElem?_map, getElem?_eq_getD 0 hk]
    rfl
  refine ⟨congrArg Prod.snd hpair, ?_⟩
  rw [hpair, Scalars.natCast_mod, Nat.cast_sub (by omega), Nat.cast_add, Scalars.natCast_order,
    Scalars.natCast_mod, zero_add]

/-- The commitment to the parity that the responses open. -/
def parityOpening [Module Scalar G] (f : Nat → Scalar) (w : Scalar) (m : Nat) : G :=
  ∑ k ∈ Finset.range (2 * m), (f k • E.generators.gs.getD k 0 +
      (f k * (w - f k)) • E.generators.hs.getD k 0) +
    (f 0 * f m) • E.generators.hs.getD (2 * m) 0 +
    ((w - f 0) * (w - f m)) • E.generators.hs.getD (1 + 2 * m) 0

omit [PointCodec G] in
theorem recoverTemp_opening [Module Scalar G] {vector : List Nat} {m : Nat} (hpos : 0 < m)
    (hm : m ≤ 7) (hlength : vector.length = 2 * m) (w : Nat) :
    recoverTemp E.generators.gs E.generators.hs (fMatrix vector w) m =
      some (parityOpening E (fun k => ((vector.getD k 0 : Nat) : Scalar)) w m) := by
  have hf : (fMatrix vector w).length = 2 * m := by rw [fMatrix, List.length_map, hlength]
  have hgs := gs_length E
  have hhs := hs_length E
  obtain ⟨hfirst2, hfirst1⟩ := fMatrix_getD w (k := 0) (show 0 < vector.length by omega)
  obtain ⟨hmiddle2, hmiddle1⟩ := fMatrix_getD w (k := m) (show m < vector.length by omega)
  rw [recoverTemp_eq hpos hf (by omega) (by omega), parityOpening]
  simp only [smul_eq, Scalars.natCast_mod, Nat.cast_mul, hfirst1, hfirst2, hmiddle1, hmiddle2]
  congr 3
  apply Finset.sum_congr rfl
  intro k hk
  obtain ⟨hsecond, hpair⟩ := @fMatrix_getD vector w k
    (by rw [hlength]; exact Finset.mem_range.mp hk)
  rw [hsecond, hpair]

/-- The verifier accepts what opens the commitment to the parity, the challenge of the sigma
protocol and the inner product. -/
theorem verifyRing_accepts [Module Scalar G] {p : Proof G} {s : Statement G} {m : Nat}
    (hpos : 0 < m) (hm : m ≤ 7) (hp : Rounds p m) (hs : Complete s (2 ^ m))
    (scid : FixedBytes 32) (scidIndex : Nat) (tov : UInt64) (v w : Nat) {r : Nat → Nat × Nat}
    (hparity : parityHolds p.f m w = some true)
    (hopen : (w : Scalar) • p.b + p.a =
      parityOpening E (fun k => ((p.f.getD k 0 : Nat) : Scalar)) w m +
        (p.zA : Scalar) • E.generators.h)
    (hr : assemblePolynomials (fMatrix p.f w) = some (table (2 ^ m) r))
    (hsigma : ∀ sums (t : Nat), Points E p s r m v w tov sums →
      (t : Scalar) = p.that - delta (nextChallenge E w) (nextChallenge E (nextChallenge E w)) →
      sigmaCheck E p s sums (rangeScalarsOf E w t)
        (challengeX E (nextChallenge E (nextChallenge E w)) p.t1 p.t2) tov
        (nonceBase E s.roothash scid scidIndex) = p.c)
    (hproduct : ∀ t : Nat, verifyInnerProduct E p (rangeScalarsOf E w t)
      (challengeX E (nextChallenge E (nextChallenge E w)) p.t1 p.t2) = some true) :
    verifyRing E p scid scidIndex s tov v w = some true := by
  have hhalf : p.f.length / 2 = m := by
    have := hp.f_length
    omega
  have hwhole : p.f.take (2 * m) = p.f := List.take_of_length_le hp.f_length.le
  have hstored : smul p.b w + p.a = parityOpening E (fun k => ((p.f.getD k 0 : Nat) : Scalar)) w m +
      smul E.generators.h p.zA := by
    rw [smul_eq, smul_eq, hopen]
  obtain ⟨t, rfl⟩ : ∃ t, m = t + 1 := ⟨m - 1, by omega⟩
  obtain ⟨sums, hsums, hpoints⟩ := ringPoints_returns E (by omega) hp hs hr v w tov
  obtain ⟨t', hrange, ht'⟩ := rangeScalars_returns E w p.that
  rw [verifyRing, hhalf, hwhole, require_eq_some (by omega), hparity]
  simp only [Option.bind_eq_bind, Option.bind_some, Bool.not_true, Bool.false_eq_true, if_false]
  rw [recoverTemp_opening E hpos hm hp.f_length w, Option.bind_some, hstored,
    if_neg (not_not.mpr rfl), hsums, hrange]
  simp only [Option.bind_some]
  exact (if_neg (not_not.mpr (hsigma sums t' hpoints ht'))).trans (hproduct t')

end Accepts

section Panics

/-- The test of the parity needs the first response, and one behind the first half. -/
theorem parityHolds_returns {vector : List Nat} {m : Nat} (hm : 0 < m)
    (hlength : vector.length = 2 * m) (w : Nat) : ∃ holds, parityHolds vector m w = some holds := by
  rw [parityHolds, getElem?_eq_getD 0 (by omega), getElem?_eq_getD 0 (by omega)]
  simp only [Option.bind_eq_bind, Option.bind_some]
  split
  · exact ⟨_, rfl⟩
  · exact ⟨_, rfl⟩

theorem parityHolds_nil (m w : Nat) : parityHolds [] m w = none := rfl

variable {G : Type} [AddCommGroup G] [PointCodec G] (E : Hashes G)

/-- For rings with two members or more, what follows the challenges returns. -/
theorem verifyRing_returns {p : Proof G} {s : Statement G} {m : Nat} (hpos : 0 < m) (hm : m ≤ 7)
    (hp : Rounds p m) (hls : p.ip.ls.length = 7) (hrs : p.ip.rs.length = 7)
    (hs : Complete s (2 ^ m)) (scid : FixedBytes 32) (scidIndex : Nat) (tov : UInt64)
    (v w : Nat) :
    ∃ accepted, verifyRing E p scid scidIndex s tov v w = some accepted := by
  have hhalf : p.f.length / 2 = m := by
    have := hp.f_length
    omega
  have hwhole : p.f.take (2 * m) = p.f := List.take_of_length_le hp.f_length.le
  have hf : (fMatrix p.f w).length = 2 * m := by rw [fMatrix, List.length_map, hp.f_length]
  have hgs := gs_length E
  have hhs := hs_length E
  obtain ⟨holds, hparity⟩ := parityHolds_returns hpos hp.f_length w
  obtain ⟨r, hr⟩ := assemblePolynomials_returns hf
  obtain ⟨t, rfl⟩ : ∃ t, m = t + 1 := ⟨m - 1, by omega⟩
  obtain ⟨sums, hsums, -⟩ := ringPoints_returns E (by omega) hp hs hr v w tov
  obtain ⟨d, hrange, -⟩ := rangeScalars_returns E w p.that
  have htemp := @recoverTemp_eq _ _ E.generators.gs E.generators.hs _ _ hpos hf (by omega)
    (by omega)
  rw [verifyRing, hhalf, hwhole, require_eq_some (by omega), hparity]
  simp only [Option.bind_eq_bind, Option.bind_some]
  split
  · exact ⟨_, rfl⟩
  · rw [htemp, Option.bind_some]
    split
    · exact ⟨_, rfl⟩
    · rw [hsums, hrange]
      simp only [Option.bind_some]
      split
      · exact ⟨_, rfl⟩
      · obtain ⟨accepted, haccepted, -⟩ := verifyInnerProduct_returns E hls hrs
          (rangeScalarsOf_ys E w d) (rangeScalarsOf_two E w d) _
        exact ⟨accepted, haccepted⟩

theorem verifyRing_panics {p : Proof G} (hf : p.f = []) (scid : FixedBytes 32) (scidIndex : Nat)
    (s : Statement G) (tov : UInt64) (v w : Nat) :
    verifyRing E p scid scidIndex s tov v w = none := by
  rw [verifyRing, hf]
  rfl

/-- The test of the sum of two amounts is that for overflow. -/
theorem add_lt_iff (a b : UInt64) : (a + b < a ∨ a + b < b) ↔ 2 ^ 64 ≤ a.toNat + b.toNat := by
  have ha := a.toNat_lt
  have hb := b.toNat_lt
  rw [UInt64.lt_iff_toNat_lt, UInt64.lt_iff_toNat_lt, UInt64.toNat_add]
  omega

/-- The verifier returns for all proofs and statements that fit a ring, but for those of a ring
with one member whose open amounts do not overflow. -/
theorem verify_returns_iff {p : Proof G} {s : Statement G} {m : Nat} (hm : m ≤ 7)
    (hp : Rounds p m) (hls : p.ip.ls.length = 7) (hrs : p.ip.rs.length = 7)
    (hs : Complete s (2 ^ m)) (scid : FixedBytes 32) (scidIndex : Nat) (txid : FixedBytes 32)
    (extraValue : UInt64) :
    (∃ accepted, verify E p scid scidIndex s txid extraValue = some accepted) ↔
      2 ^ m ≠ 1 ∨ 2 ^ 64 ≤ s.fees.toNat + extraValue.toNat := by
  have hlength : ¬s.c.length ≠ s.publickeylist.length := by
    rw [hs.c_length, hs.publickeylist_length]
    exact not_not.mpr rfl
  rw [verify, if_neg hlength]
  dsimp only
  rw [if_congr (add_lt_iff _ _) rfl rfl]
  split
  · rename_i hoverflow
    exact iff_of_true ⟨_, rfl⟩ (.inr hoverflow)
  · rename_i hfits
    rw [or_iff_left hfits]
    rcases Nat.eq_zero_or_pos m with rfl | hpos
    · have hf : p.f = [] := List.length_eq_zero_iff.mp hp.f_length
      refine iff_of_false ?_ (not_not.mpr rfl)
      rintro ⟨accepted, haccepted⟩
      rw [verifyRing_panics E hf] at haccepted
      cases haccepted
    · refine iff_of_true (verifyRing_returns E hpos hm hp hls hrs hs _ _ _ _ _) ?_
      exact (Nat.one_lt_two_pow hpos.ne').ne'

end Panics

end DirtybirdMiner.Crypto.Verifier
