import DirtybirdMiner.Crypto.InnerProducts
import DirtybirdMiner.Crypto.Polynomials
import DirtybirdMiner.Crypto.Transcripts

/-!
The prover of transfers, `generate_proof` of `crypto/src/proof.rs`, in its stages.  The source of
random scalars is the sequence of all it will give.  `none` is a panic.
-/

namespace DirtybirdMiner.Crypto.Prover

open DirtybirdMiner.Lib.Bytes hiding slice
open DirtybirdMiner.Lib.Checked
open DirtybirdMiner.Lib.Powers (modpow modpow_eq)
open DirtybirdMiner.Lib.Tables
open DirtybirdMiner.Crypto
open DirtybirdMiner.Crypto.Scalars (order Scalar)
open DirtybirdMiner.Crypto.Statements (PointCodec Statement)
open DirtybirdMiner.Crypto.Proofs (Proof)
open DirtybirdMiner.Crypto.Vectors
open DirtybirdMiner.Crypto.Hashing
open DirtybirdMiner.Crypto.Polynomials
open DirtybirdMiner.Crypto.Transcripts

structure Witness where
  secretKey : Nat
  r : Nat
  transferAmount : UInt64
  balance : UInt64
  index : List Nat

/-- `ScalarRng`: the scalars from now on. -/
abbrev Rng : Type := Nat → Nat

/-- The scalars after some calls of `next_scalar`. -/
def skip (rng : Rng) (count : Nat) : Rng := fun i => rng (count + i)

section Ciphertexts

/-- `Eg`. -/
structure Eg (G : Type) where
  left : Option G
  right : G

variable {G : Type} [AddCommGroup G] (E : Hashes G)

def Eg.add (e o : Eg G) : Eg G :=
  { left :=
      match e.left, o.left with
      | some a, some b => some (a + b)
      | none, some b => some b
      | some a, none => some a
      | none, none => none
    right := e.right + o.right }

def Eg.mul (e : Eg G) (s : Nat) : Eg G :=
  { left := e.left.map fun l => smul l s
    right := smul e.right s }

def Eg.plus (e : Eg G) (value : Nat) : Eg G :=
  let gv := smul E.generators.g value
  { left := some (match e.left with
      | some l => l + gv
      | none => gv)
    right := e.right }

def Eg.neg (e : Eg G) : Eg G :=
  { left := e.left.map fun l => -l
    right := -e.right }

/-- `commit_elgamal`, with the scalar it draws. -/
def commitElgamal (key : G) (value r : Nat) : Eg G :=
  { left := some (smul E.generators.g value + smul key r)
    right := smul E.generators.g r }

/-- Adds the multiples of points by scalars of the same place. -/
def addMultiples (points : List G) (scalars : List Nat) (start : G) : Option G :=
  forUp (fun i s => do
    let e ← scalars[i]?
    let p ← points[i]?
    some (s + smul p e)) 0 scalars.length start

/-- `pvc_commit`, with the scalar it draws. -/
def pvcCommit (gexps hexps : List Nat) (r : Nat) : Option G := do
  let result ← addMultiples E.generators.gs gexps (smul E.generators.h r)
  addMultiples E.generators.hs hexps result

/-- `pc_commit`, with the scalar it draws. -/
def pcCommit (v r : Nat) : G := smul E.generators.g v + smul E.generators.h r

end Ciphertexts

section Stages

/-- The bits of the two amounts, and what each bit lacks to one. -/
def rangeBits (number : Nat) : List Nat × List Nat :=
  (table 128 fun i => if number >>> i &&& 1 = 1 then 1 else 0,
    table 128 fun i => if number >>> i &&& 1 = 1 then 0 else order - 1)

/-- `aa_v`: random but at the two places of the parity. -/
def blinders (m : Nat) (rng : Rng) : List Nat × Rng :=
  (List.range (2 * m)).foldl
    (fun s i => if i = 0 ∨ i = m then (s.1 ++ [0], s.2) else (s.1 ++ [s.2 0], skip s.2 1))
    ([], rng)

/-- `bit`. -/
def bit (x : Nat) : Nat := if x = 1 then 1 else 0

/-- The exponents of the commitments `A` and `B` on the second generators. -/
def parityExponents (a b bspecial : List Nat) (m : Nat) : Option (List Nat × List Nat) := do
  let cVec ← FieldVector.hadamard a bspecial
  let dVec := FieldVector.negate (← FieldVector.hadamard a a)
  let a0 ← a[0]?
  let am ← a[m]?
  let eVec := [Scalars.mul a0 am, Scalars.mul a0 am]
  let b0 ← b[0]?
  let bm ← b[m]?
  let second := Scalars.neg (← a[bit bm * m]?)
  let fVec := [← a[bit b0 * m]?, second]
  some (dVec ++ eVec, cVec ++ fVec)

/-- The columns of the polynomials of one half of the vectors. -/
def columns (a b : List Nat) (lo hi m : Nat) : Option (List (List Nat)) := do
  let rows ← recursivePolynomials (← slice a lo hi) (← slice b lo hi)
  transposePolynomials rows m

variable {G : Type} [AddCommGroup G] (E : Hashes G)

/-- `phi`, `chi` and `psi`, whose scalars are drawn by turns. -/
structure Blinding (G : Type) where
  phi : List (Eg G)
  chi : List (Eg G)
  psi : List (Eg G)
  chiR : List Nat
  psiR : List Nat

def drawBlinding (senderPk : G) (m : Nat) (rng : Rng) : Blinding G :=
  { phi := table m fun i => commitElgamal E senderPk 0 (rng (3 * i))
    chi := table m fun i => commitElgamal E senderPk 0 (rng (3 * i + 1))
    psi := table m fun i => commitElgamal E senderPk 0 (rng (3 * i + 2))
    chiR := table m fun i => rng (3 * i + 1)
    psiR := table m fun i => rng (3 * i + 2) }

/-- `CnG[i]`. -/
def cnGRound (cn : List (Eg G)) (row : List Nat) (phi : Eg G) : Option (Eg G) := do
  let acc ← forUp (fun j (acc : Eg G) => do
    let item ← cn[j]?
    let e ← row[j]?
    some (acc.add (item.mul e))) 0 cn.length { left := some 0, right := 0 }
  some (acc.add phi)

/-- `C_0G[i]` and `y_0G[i]`: a sum over the ring on the left, blinded. -/
def blindedSum (points : List G) (row : List Nat) (blind : Eg G) : Option (Eg G) := do
  let left ← forUp (fun j s => do
    let p ← points[j]?
    let e ← row[j]?
    some (s + smul p e)) 0 points.length 0
  let l ← blind.left
  some { left := some (left + l), right := blind.right }

/-- One turn of the loop that fills `C_XG`. -/
def amountTurn (witness : Witness) (idx0 idx1 n : Nat) (amountFees : Nat) (pMat qMat : List (List Nat))
    (v i : Nat) (s : List (Eg G) × Nat) : Option (List (Eg G) × Nat) := do
  let poly := if i % 2 = 0 then pMat else qMat
  let amount := witness.transferAmount.toNat
  let leftS := Scalars.sub (Scalars.neg amount) amountFees
  let idxS := (idx0 + n - (i - i % 2)) % n
  let idxR := (idx1 + n - (i - i % 2)) % n
  let cXG ← (List.range s.1.length).mapM fun j => do
    let row ← poly[j]?
    let left := Scalars.mul leftS (← row[idxS]?)
    let right := Scalars.mul amount (← row[idxR]?)
    some ((← s.1[j]?).plus E (Scalars.mul s.2 (Scalars.add left right)))
  some (cXG, if i ≠ 0 then Scalars.mul s.2 v else s.2)

/-- What the loop over the powers of `w` adds up. -/
structure Aggregate (G : Type) where
  cnR : Eg G
  chi : Nat
  psi : Nat
  cXR : Eg G
  pVec : List Nat
  qVec : List Nat
  wPow : Nat

def aggregateRound (bl : Blinding G) (cXG : List (Eg G)) (pMat qMat : List (List Nat)) (w i : Nat)
    (s : Aggregate G) : Option (Aggregate G) := do
  let phi ← bl.phi[i]?
  let chiR ← bl.chiR[i]?
  let psiR ← bl.psiR[i]?
  let cX ← cXG[i]?
  let pRow ← pMat[i]?
  let qRow ← qMat[i]?
  some {
    cnR := s.cnR.add (phi.neg.mul s.wPow)
    chi := Scalars.add s.chi (Scalars.mul chiR s.wPow)
    psi := Scalars.add s.psi (Scalars.mul psiR s.wPow)
    cXR := s.cXR.add (cX.neg.mul s.wPow)
    pVec := ← FieldVector.add s.pVec (FieldVector.times pRow s.wPow)
    qVec := ← FieldVector.add s.qVec (FieldVector.times qRow s.wPow)
    wPow := Scalars.mul s.wPow w }

/-- One turn of the loop that completes `C_XR`. -/
def keyTurn (yP yQ : List G) (v i : Nat) (s : Eg G × Nat) : Option (Eg G × Nat) := do
  let y ← (if i % 2 = 1 then yQ else yP)[i / 2]?
  some (s.1.add { left := none, right := smul y s.2 },
    if i > 0 then Scalars.mul s.2 v else s.2)

/-- `l(X)` and `r(X)`, with the coefficients of their product. -/
structure RangePolynomials where
  l0 : List Nat
  l1 : List Nat
  r0 : List Nat
  r1 : List Nat
  t0 : Nat
  t1 : Nat
  t2 : Nat

/-- `l_poly.inner_product(&r_poly)`, for polynomials of two coefficients. -/
def rangePolynomials (al ar sl sr ys : List Nat) (z zs0 zs1 : Nat) : Option RangePolynomials := do
  let twos ← Scalars.powers 2 64
  let twoTimesZs := twos.map (Scalars.mul zs0) ++ twos.map (Scalars.mul zs1)
  let l0 := FieldVector.addConstant al (Scalars.neg z)
  let r0 ← FieldVector.add (← FieldVector.hadamard ys (FieldVector.addConstant ar z)) twoTimesZs
  let r1 ← FieldVector.hadamard sr ys
  let ip00 ← FieldVector.innerProduct l0 r0
  let ip01 ← FieldVector.innerProduct l0 r1
  let ip10 ← FieldVector.innerProduct sl r0
  let ip11 ← FieldVector.innerProduct sl r1
  some {
    l0, l1 := sl, r0, r1
    t0 := Scalars.add 0 ip00
    t1 := Scalars.add (Scalars.add 0 ip01) ip10
    t2 := Scalars.add 0 ip11 }

/-- `evaluate`, for a polynomial of two coefficients. -/
def evaluate (c0 c1 : List Nat) (x : Nat) : Option (List Nat) :=
  FieldVector.add c0 (FieldVector.times c1 (Scalars.reduce x))

end Stages

section Phases

variable {G : Type} [AddCommGroup G] [PointCodec G] (E : Hashes G)

/-- The vectors and their commitments, up to the challenge `v`. -/
structure Opening (G : Type) where
  al : List Nat
  ar : List Nat
  sl : List Nat
  sr : List Nat
  a : List Nat
  b : List Nat
  ba : G
  bs : G
  aPt : G
  bPt : G
  rBa : Nat
  rBs : Nat
  rA : Nat
  rB : Nat
  v : Nat
  rng : Rng

def openingPhase (witness : Witness) (idx0 idx1 m statementhash : Nat) (rng : Rng) :
    Option (Opening G) := do
  let number := witness.transferAmount.toNat + witness.balance.toNat <<< 64
  let (al, ar) := rangeBits number
  let rBa := rng 0
  let rng := skip rng 1
  let ba ← pvcCommit E al ar rBa
  let sl := table 128 rng
  let rng := skip rng 128
  let sr := table 128 rng
  let rng := skip rng 128
  let rBs := rng 0
  let rng := skip rng 1
  let bs ← pvcCommit E sl sr rBs
  let (a, rng) := blinders m rng
  let wi := witnessIndexBits idx1 idx0 m
  let b := bitScalars wi
  let bspecial := wi.map fun ch => if ch = '1' then order - 1 else 1
  let (aExponents, bExponents) ← parityExponents a b bspecial m
  let rA := rng 0
  let rng := skip rng 1
  let aPt ← pvcCommit E a aExponents rA
  let rB := rng 0
  let rng := skip rng 1
  let bPt ← pvcCommit E b bExponents rB
  let v := challengeV E statementhash ba bs aPt bPt
  some { al, ar, sl, sr, a, b, ba, bs, aPt, bPt, rBa, rBs, rA, rB, v, rng }

/-- The commitments to the ring, up to the challenge `w`. -/
structure RingPart (G : Type) where
  cn : List (Eg G)
  pMat : List (List Nat)
  qMat : List (List Nat)
  blinding : Blinding G
  cnG : List (Eg G)
  c0G : List (Eg G)
  y0G : List (Eg G)
  cXG : List (Eg G)
  rng : Rng

/-- `c_eg` is used through its two parts, the list `s.c` and the point `s.d`. -/
def ringPhase (s : Statement G) (witness : Witness) (idx0 idx1 n m : Nat) (burnValue : UInt64)
    (o : Opening G) : Option (RingPart G) := do
  let cn ← (List.range s.c.length).mapM fun i => do
    some { left := some (← s.cln[i]?), right := ← s.crn[i]? : Eg G }
  let pMat ← columns o.a o.b 0 m m
  let qMat ← columns o.a o.b m (2 * m) m
  let senderPk ← s.publickeylist[idx0]?
  let blinding := drawBlinding E senderPk m o.rng
  let rng := skip o.rng (3 * m)
  let cnG ← (List.range m).mapM fun i => do
    cnGRound cn (← pMat[i]?) (← blinding.phi[i]?)
  let c0G ← (List.range m).mapM fun i => do
    blindedSum s.c (← pMat[i]?) (← blinding.chi[i]?)
  let y0G ← (List.range m).mapM fun i => do
    blindedSum s.publickeylist (← pMat[i]?) (← blinding.psi[i]?)
  require (0 < s.c.length)
  let cXG := table m fun i => commitElgamal E s.d 0 (rng i)
  let rng := skip rng m
  require (s.fees.toNat + burnValue.toNat < 2 ^ 64)
  let amountFees := s.fees.toNat + burnValue.toNat
  let (cXG, _) ← forUp (amountTurn E witness idx0 idx1 n amountFees pMat qMat o.v) 0 n (cXG, 1)
  some { cn, pMat, qMat, blinding, cnG, c0G, y0G, cXG, rng }

/-- The polynomials of the range proof, up to the challenge `x`. -/
structure RangePart (G : Type) where
  ys : List Nat
  zs0 : Nat
  zs1 : Nat
  polys : RangePolynomials
  t1 : G
  t2 : G
  x : Nat
  that : Nat
  tauX : Nat
  mu : Nat
  rng : Rng

def rangePhase (o : Opening G) (w : Nat) (rng : Rng) : Option (RangePart G) := do
  let y := nextChallenge E w
  let ys ← Scalars.powers y 128
  let z := nextChallenge E y
  let zs0 := modpow z 2 order
  let zs1 := modpow z 3 order
  let polys ← rangePolynomials o.al o.ar o.sl o.sr ys z zs0 zs1
  let rT1 := rng 0
  let t1 := pcCommit E polys.t1 rT1
  let rng := skip rng 1
  let rT2 := rng 0
  let t2 := pcCommit E polys.t2 rT2
  let rng := skip rng 1
  let x := challengeX E z t1 t2
  let xsquare := Scalars.mul x x
  let that := Scalars.add (Scalars.add polys.t0 (Scalars.mul polys.t1 x))
    (Scalars.mul polys.t2 xsquare)
  let tauX := Scalars.add (Scalars.mul rT1 x) (Scalars.mul rT2 xsquare)
  let mu := Scalars.add (Scalars.mul o.rBs x) o.rBa
  some { ys, zs0, zs1, polys, t1, t2, x, that, tauX, mu, rng }

/-- The challenge `c` and the responses. -/
structure SigmaPart where
  c : Nat
  sSk : Nat
  sR : Nat
  sB : Nat
  sTau : Nat

/-- `p_vec` and `q_vec` get the power of `w` at the two indices. -/
def sigmaPhase (s : Statement G) (witness : Witness) (idx0 idx1 n m w : Nat) (nonce : G)
    (o : Opening G) (t : RingPart G) (rp : RangePart G) : Option SigmaPart := do
  let ag ← forUp (aggregateRound t.blinding t.cXG t.pMat t.qMat w) 0 m
    { cnR := { left := none, right := 0 }, chi := 0, psi := 0, cXR := { left := none, right := 0 }
      pVec := List.replicate n 0, qVec := List.replicate n 0, wPow := 1 }
  let wPow := ag.wPow
  let cnR := ag.cnR.add ((← t.cn[idx0]?).mul wPow)
  let dr := smul s.d wPow + smul E.generators.g (Scalars.neg ag.chi)
  let gR := smul E.generators.g (Scalars.sub wPow ag.psi)
  require (idx0 < n)
  require (idx1 < n)
  let pVec ← FieldVector.add ag.pVec ((List.replicate n 0).set idx0 wPow)
  let qVec ← FieldVector.add ag.qVec ((List.replicate n 0).set idx1 wPow)
  let yP ← convolution pVec s.publickeylist
  let yQ ← convolution qVec s.publickeylist
  -- `y_xr` adds up the same points and is not used
  let (cXR, _) ← forUp (keyTurn yP yQ o.v) 0 n (ag.cXR, 1)
  let kSk := rp.rng 0
  let kR := rp.rng 1
  let kB := rp.rng 2
  let kTau := rp.rng 3
  let g := E.generators.g
  let aY := smul gR kSk
  let aD := smul g kR
  let d1 := smul (smul dr (Scalars.neg rp.zs0) + smul cnR.right rp.zs1) kSk
  let aB := smul g kB + d1
  let aX := smul cXR.right kR
  let aT := smul g (Scalars.neg kB) + smul E.generators.h kTau
  let aU := smul nonce kSk
  let c := challengeC E rp.x aY aD aB aX aT aU
  let wTransfer := Scalars.mul witness.transferAmount.toNat rp.zs0
  let wBalance := Scalars.mul witness.balance.toNat rp.zs1
  let wTmp := Scalars.mul (Scalars.mul (Scalars.add wTransfer wBalance) wPow) c
  some {
    c
    sSk := Scalars.add (Scalars.mul c witness.secretKey) kSk
    sR := Scalars.add (Scalars.mul c witness.r) kR
    sB := Scalars.add wTmp kB
    sTau := Scalars.add (Scalars.mul (Scalars.mul rp.tauX wPow) c) kTau }

/-- The inner-product part. -/
def innerProductPhase (rp : RangePart G) (c : Nat) : Option (Proofs.InnerProduct G) := do
  let o := nextChallenge E c
  let uH := smul E.generators.h o
  let ysInv := FieldVector.invert rp.ys
  let hsPrime ← (List.range rp.ys.length).mapM fun i => do
    let h ← E.generators.hs[i]?
    let e ← ysInv[i]?
    some (smul h e)
  let gsFull ← (List.range rp.ys.length).mapM fun i => E.generators.gs[i]?
  let gvalues ← evaluate rp.polys.l0 rp.polys.l1 rp.x
  let hvalues ← evaluate rp.polys.r0 rp.polys.r1 rp.x
  InnerProducts.generate E gsFull hsPrime uH gvalues hvalues o

/-- The left sides, which are all there. -/
def lefts (es : List (Eg G)) : Option (List G) := es.mapM Eg.left

/-- `generate_proof`.  The logarithm of the ring size is exact for a power of two. -/
def generateProof (scid : FixedBytes 32) (scidIndex : Nat) (s : Statement G) (witness : Witness)
    (u : G) (txid : FixedBytes 32) (burnValue : UInt64) (rng : Rng) : Option (Proof G) := do
  let statementhash := E.reducedHash txid.1
  let n := s.publickeylist.length
  let m := n.log2
  let idx0 ← witness.index[0]?
  let idx1 ← witness.index[1]?
  let o ← openingPhase E witness idx0 idx1 m statementhash rng
  let t ← ringPhase E s witness idx0 idx1 n m burnValue o
  let clnG ← lefts t.cnG
  let c0G ← lefts t.c0G
  let y0G ← lefts t.y0G
  let cXG ← lefts t.cXG
  let crnG := t.cnG.map Eg.right
  let dG := t.c0G.map Eg.right
  let gG := t.y0G.map Eg.right
  let yXG := t.cXG.map Eg.right
  let w := challengeW E o.v clnG crnG c0G dG y0G gG cXG yXG
  let f ← fProof o.a o.b w
  let zA := Scalars.add (Scalars.mul o.rB w) o.rA
  let rp ← rangePhase E o w t.rng
  let nonce := nonceBase E s.roothash scid scidIndex
  let sg ← sigmaPhase E s witness idx0 idx1 n m w nonce o t rp
  let ip ← innerProductPhase E rp sg.c
  some {
    ba := o.ba, bs := o.bs, a := o.aPt, b := o.bPt
    clnG, crnG, c0G, dG, y0G, gG, cXG, yXG, u, f, zA
    t1 := rp.t1, t2 := rp.t2, that := rp.that, mu := rp.mu
    c := sg.c, sSk := sg.sSk, sR := sg.sR, sB := sg.sB, sTau := sg.sTau, ip }

end Phases

end DirtybirdMiner.Crypto.Prover
