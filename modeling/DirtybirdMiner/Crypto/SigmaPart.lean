import DirtybirdMiner.Crypto.RangePart
import DirtybirdMiner.Crypto.RingCommitments

/-!
The last phase of the prover: the sums over the powers of the challenge `w`, the first messages of
the sigma protocol and the responses.
-/

namespace DirtybirdMiner.Crypto.SigmaPart

open DirtybirdMiner.Lib.Checked
open DirtybirdMiner.Lib.Tables
open DirtybirdMiner.Crypto
open DirtybirdMiner.Crypto.Scalars (order Scalar)
open DirtybirdMiner.Crypto.Statements (PointCodec Statement)
open DirtybirdMiner.Crypto.Vectors
open DirtybirdMiner.Crypto.Hashing
open DirtybirdMiner.Crypto.Transcripts
open DirtybirdMiner.Crypto.Prover
open DirtybirdMiner.Crypto.RingCommitments
open DirtybirdMiner.Crypto.Verifier (shift shift_succ Complete pick wholeRing castPair
  shifted_convolutions)

section Aggregates

/-- A sum over the powers of a challenge. -/
def series (w : Scalar) (m : Nat) (f : Nat → Scalar) : Scalar :=
  ∑ k ∈ Finset.range m, w ^ k * f k

theorem series_succ (w : Scalar) (m : Nat) (f : Nat → Scalar) :
    series w (m + 1) f = series w m f + w ^ m * f m := Finset.sum_range_succ _ m

variable {G : Type} [AddCommGroup G] [Module Scalar G] (E : Hashes G)

/-- What the loop has added up before a turn, for the blinding scalars and the two families. -/
structure Aggregated (rng : Rng) (blind : Nat → Nat) (p q : Nat → Nat → Nat) (n : Nat)
    (w : Scalar) (i : Nat) (s : Aggregate G) : Prop where
  cnR_right : s.cnR.right = -(series w i fun k => rng (3 * k)) • E.generators.g
  chi_eq : (s.chi : Scalar) = series w i fun k => rng (3 * k + 1)
  psi_eq : (s.psi : Scalar) = series w i fun k => rng (3 * k + 2)
  cXR_right : s.cXR.right = -(series w i fun k => blind k) • E.generators.g
  pVec_eq : ∃ f : Nat → Nat, s.pVec = table n f ∧ ∀ j, (f j : Scalar) = series w i fun k => p k j
  qVec_eq : ∃ f : Nat → Nat, s.qVec = table n f ∧ ∀ j, (f j : Scalar) = series w i fun k => q k j
  wPow_eq : (s.wPow : Scalar) = w ^ i

theorem times_table (n : Nat) (f : Nat → Nat) (c : Nat) :
    FieldVector.times (table n f) c = table n fun j => Scalars.mul (f j) c :=
  timesVec_table scalarOps n f c

theorem add_table (n : Nat) (f g : Nat → Nat) :
    FieldVector.add (table n f) (table n g) = some (table n fun j => Scalars.add (f j) (g j)) :=
  addVec_table scalarOps n f g

theorem aggregateRound_returns {pk : G} {m n w i : Nat} (hi : i < m) (rng : Rng)
    (blind : Nat → Nat) (left : Nat → G) (p q : Nat → Nat → Nat) {s : Aggregate G}
    (h : Aggregated E rng blind p q n w i s) :
    Returns (aggregateRound (drawBlinding E pk m rng)
        (table m fun k => { left := some (left k), right := smul E.generators.g (blind k) })
        (table m fun k => table n (p k)) (table m fun k => table n (q k)) w i s)
      (Aggregated E rng blind p q n w (i + 1)) := by
  obtain ⟨f, hf, hf'⟩ := h.pVec_eq
  obtain ⟨f', hq, hq'⟩ := h.qVec_eq
  have hneg : ∀ (c : Nat) (a : Scalar), -a • E.generators.g +
      smul (-smul E.generators.g c) s.wPow = -(a + (w : Scalar) ^ i * c) • E.generators.g := by
    intro c a
    rw [smul_eq, smul_eq, h.wPow_eq]
    module
  rw [aggregateRound, drawBlinding]
  dsimp only
  rw [getElem?_table _ hi, getElem?_table _ hi, getElem?_table _ hi, getElem?_table _ hi,
    getElem?_table _ hi, getElem?_table _ hi, hf, hq]
  simp only [Option.bind_eq_bind, Option.bind_some, times_table, add_table]
  refine .pure ⟨?_, ?_, ?_, ?_, ⟨_, rfl, ?_⟩, ⟨_, rfl, ?_⟩, ?_⟩
  · rw [series_succ, ← hneg, ← h.cnR_right]
    rfl
  · rw [series_succ, ← h.chi_eq, Scalars.cast_add, Scalars.cast_mul, h.wPow_eq, mul_comm]
  · rw [series_succ, ← h.psi_eq, Scalars.cast_add, Scalars.cast_mul, h.wPow_eq, mul_comm]
  · rw [series_succ, ← hneg, ← h.cXR_right]
    rfl
  · intro j
    rw [series_succ, ← hf', Scalars.cast_add, Scalars.cast_mul, h.wPow_eq, mul_comm]
  · intro j
    rw [series_succ, ← hq', Scalars.cast_add, Scalars.cast_mul, h.wPow_eq, mul_comm]
  · rw [Scalars.cast_mul, h.wPow_eq, pow_succ]

theorem aggregateRounds_return (pk : G) (m n w : Nat) (rng : Rng) (blind : Nat → Nat)
    (left : Nat → G) (p q : Nat → Nat → Nat) :
    Returns (forUp (aggregateRound (drawBlinding E pk m rng)
        (table m fun k => { left := some (left k), right := smul E.generators.g (blind k) })
        (table m fun k => table n (p k)) (table m fun k => table n (q k)) w) 0 m
        { cnR := { left := none, right := 0 }, chi := 0, psi := 0
          cXR := { left := none, right := 0 }, pVec := List.replicate n 0
          qVec := List.replicate n 0, wPow := 1 })
      (Aggregated E rng blind p q n w m) := by
  have hempty : ∀ f : Nat → Scalar, series w 0 f = 0 := fun f => Finset.sum_range_zero _
  have hloop := forUp_returns (Aggregated E rng blind p q n w) 0 m
    { cnR := { left := none, right := 0 }, chi := 0, psi := 0
      cXR := { left := none, right := 0 }, pVec := List.replicate n 0
      qVec := List.replicate n 0, wPow := 1 } (by
      refine ⟨?_, ?_, ?_, ?_, ⟨_, replicate_eq_table n 0, ?_⟩, ⟨_, replicate_eq_table n 0, ?_⟩, ?_⟩
      · rw [hempty, neg_zero, zero_smul]
      · rw [hempty, Nat.cast_zero]
      · rw [hempty, Nat.cast_zero]
      · rw [hempty, neg_zero, zero_smul]
      · intro j
        rw [hempty, Nat.cast_zero]
      · intro j
        rw [hempty, Nat.cast_zero]
      · rw [Nat.cast_one, pow_zero])
    fun i s _ hi h => @aggregateRound_returns _ _ _ E pk m _ _ _ (by omega) rng blind left p q _ h
  rwa [Nat.zero_add] at hloop

end Aggregates

section Keys

variable {G : Type} [AddCommGroup G]

theorem keyTurns_return (h : Nat) (yP yQ : Nat → G) (v : Nat) (start : Eg G) :
    Returns (forUp (keyTurn (table h yP) (table h yQ) v) 0 (2 * h) (start, 1)) fun s =>
      s.1.right = start.right +
        ∑ i ∈ Finset.range (2 * h), smul (pick (yP (i / 2), yQ (i / 2)) i) (shift v i) := by
  have hloop := forUp_returns (f := keyTurn (table h yP) (table h yQ) v)
    (fun i s => s.1.right = start.right +
      ∑ k ∈ Finset.range i, smul (pick (yP (k / 2), yQ (k / 2)) k) (shift v k) ∧
        s.2 = shift v i) 0 (2 * h) (start, 1)
    ⟨by rw [Finset.sum_range_zero, add_zero], rfl⟩ (by
      rintro i ⟨eg, vPow⟩ - hi ⟨hright, hpow⟩
      simp only at hright hpow
      have hy : (if i % 2 = 1 then table h yQ else table h yP)[i / 2]? =
          some (pick (yP (i / 2), yQ (i / 2)) i) := by
        unfold pick
        split
        · rw [if_neg (by omega), getElem?_table _ (by omega)]
        · rw [if_pos (by omega), getElem?_table _ (by omega)]
      rw [keyTurn, hy, Option.bind_eq_bind, Option.bind_some]
      refine .pure ⟨?_, ?_⟩
      · change eg.right + smul _ vPow = _
        rw [hright, hpow, Finset.sum_range_succ, add_assoc]
      · rw [← shift_succ, ← hpow]
        rfl)
  rw [Nat.zero_add] at hloop
  exact hloop.mono fun s hs => hs.1

variable [Module Scalar G]

theorem wholeRing_congr {r r' : Nat → Scalar × Scalar} {n : Nat} (h : ∀ j < n, r j = r' j)
    (v : Scalar) (points : Nat → G) : wholeRing r v n points = wholeRing r' v n points := by
  apply Finset.sum_congr rfl
  intro i _
  congr 1
  apply Finset.sum_congr rfl
  intro j hj
  have hlt : (j + n - 2 * (i / 2)) % n < n := Nat.mod_lt _ (by have := Finset.mem_range.mp hj; omega)
  rw [Verifier.rotated, Verifier.rotated, h _ hlt]

/-- The value of the polynomial of a member, whose highest coefficient marks an index. -/
def family (w : Scalar) (m : Nat) (p : Nat → Nat → Nat) (idx j : Nat) : Scalar :=
  series w m (fun k => p k j) + if j = idx then w ^ m else 0

theorem cast_update {n j idx c : Nat} (f : Nat → Nat) (w : Scalar) {m : Nat}
    {p : Nat → Nat → Nat} (hf : (f j : Scalar) = series w m fun k => p k j)
    (hc : (c : Scalar) = w ^ m) (hn : n = 0) :
    (Scalars.add (f j) (Function.update (fun _ => n) idx c j) : Scalar) = family w m p idx j := by
  rw [family, Scalars.cast_add, hf, Function.update_apply]
  split
  · rw [hc]
  · rw [hn, Nat.cast_zero]

end Keys

section Phase

variable {G : Type} [AddCommGroup G] [PointCodec G] [Module Scalar G] (E : Hashes G)

/-- The first messages for the nonces, hashed to the challenge, and the responses. -/
structure Responded (s : Statement G) (witness : Witness) (idx0 idx1 m w : Nat) (nonce : G)
    (o : Opening G) (p q : Nat → Nat → Nat) (rp : Prover.RangePart G) (kSk kR kB kTau : Scalar)
    (sg : SigmaPart) : Prop where
  c_eq : sg.c = challengeC E rp.x
    (kSk • ((w : Scalar) ^ m - series w m fun k => o.rng (3 * k + 2)) • E.generators.g)
    (kR • E.generators.g)
    (kB • E.generators.g + kSk •
      (-(rp.zs0 : Scalar) • ((w : Scalar) ^ m • s.d -
          (series w m fun k => o.rng (3 * k + 1)) • E.generators.g) +
        (rp.zs1 : Scalar) • ((w : Scalar) ^ m • s.crn.getD idx0 0 -
          (series w m fun k => o.rng (3 * k)) • E.generators.g)))
    (kR • (wholeRing (fun j => (family w m p idx0 j, family w m q idx1 j)) o.v (2 ^ m)
        (fun j => s.publickeylist.getD j 0) -
      (series w m fun k => amountBlind o m k) • E.generators.g))
    (kTau • E.generators.h - kB • E.generators.g) (kSk • nonce)
  sSk_eq : (sg.sSk : Scalar) = sg.c * witness.secretKey + kSk
  sR_eq : (sg.sR : Scalar) = sg.c * witness.r + kR
  sB_eq : (sg.sB : Scalar) = (witness.transferAmount.toNat * rp.zs0 +
    witness.balance.toNat * rp.zs1) * (w : Scalar) ^ m * sg.c + kB
  sTau_eq : (sg.sTau : Scalar) = rp.tauX * (w : Scalar) ^ m * sg.c + kTau

theorem sigmaPhase_returns {s : Statement G} {witness : Witness} {idx0 idx1 t w : Nat}
    (ht : t + 1 ≤ 28) (hs : Complete s (2 ^ (t + 1))) (h0 : idx0 < 2 ^ (t + 1))
    (h1 : idx1 < 2 ^ (t + 1)) (nonce : G) {o : Opening G} {p q terms : Nat → Nat → Nat}
    {rt : RingPart G} (h : Committed E s idx0 (t + 1) o p q terms rt) (rp : Prover.RangePart G) :
    ∃ sg, sigmaPhase E s witness idx0 idx1 (2 ^ (t + 1)) (t + 1) w nonce o rt rp = some sg ∧
      ∃ kSk kR kB kTau, Responded E s witness idx0 idx1 (t + 1) w nonce o p q rp kSk kR kB kTau
        sg := by
  have hpow : 2 ^ (t + 1) = 2 * 2 ^ t := pow_succ' 2 t
  obtain ⟨ag, hag, hsums⟩ := aggregateRounds_return E (s.publickeylist.getD idx0 0) (t + 1)
    (2 ^ (t + 1)) w o.rng (amountBlind o (t + 1))
    (amountSum E terms o.v (fun k => zeroLeft E s.d (amountBlind o (t + 1) k)) (2 ^ (t + 1))) p q
  obtain ⟨f, hf, hf'⟩ := hsums.pVec_eq
  obtain ⟨f', hq, hq'⟩ := hsums.qVec_eq
  have hcn : rt.cn[idx0]? =
      some { left := some (s.cln.getD idx0 0), right := s.crn.getD idx0 0 } := by
    rw [h.cn_eq, getElem?_table _ h0]
  have hpk : s.publickeylist = table (2 ^ (t + 1)) fun j => s.publickeylist.getD j 0 := by
    have hlist := eq_table s.publickeylist 0
    rwa [hs.publickeylist_length] at hlist
  have hplace : ∀ idx, (List.replicate (2 ^ (t + 1)) 0).set idx ag.wPow =
      table (2 ^ (t + 1)) (Function.update (fun _ => 0) idx ag.wPow) := by
    intro idx
    rw [replicate_eq_table, set_table]
  -- the two vectors of scalars, side by side
  obtain ⟨r, hr⟩ : ∃ r : Nat → Nat × Nat, ∀ j, r j =
      (Scalars.add (f j) (Function.update (fun _ => 0) idx0 ag.wPow j),
        Scalars.add (f' j) (Function.update (fun _ => 0) idx1 ag.wPow j)) := ⟨_, fun _ => rfl⟩
  have hpVec : FieldVector.add (table (2 ^ (t + 1)) f)
      (table (2 ^ (t + 1)) (Function.update (fun _ => 0) idx0 ag.wPow)) =
        some (table (2 ^ (t + 1)) fun j => (r j).1) := by
    rw [add_table]
    exact congrArg some (table_congr fun j _ => by rw [hr])
  have hqVec : FieldVector.add (table (2 ^ (t + 1)) f')
      (table (2 ^ (t + 1)) (Function.update (fun _ => 0) idx1 ag.wPow)) =
        some (table (2 ^ (t + 1)) fun j => (r j).2) := by
    rw [add_table]
    exact congrArg some (table_congr fun j _ => by rw [hr])
  obtain ⟨yP, hyP, hyP'⟩ := convolution_spec ht (fun j => (r j).1)
    fun j => s.publickeylist.getD j 0
  obtain ⟨yQ, hyQ, hyQ'⟩ := convolution_spec ht (fun j => (r j).2)
    fun j => s.publickeylist.getD j 0
  rw [← hpk] at hyP hyQ
  obtain ⟨⟨cXR, vPow⟩, hkeys, hright⟩ := keyTurns_return (2 ^ t) yP yQ o.v ag.cXR
  simp only [← hpow] at hkeys hright
  have hfamilies : ∀ j < 2 ^ (t + 1), castPair r j =
      (family w (t + 1) p idx0 j, family w (t + 1) q idx1 j) := by
    intro j _
    rw [castPair, hr]
    exact Prod.ext (cast_update f w (hf' j) hsums.wPow_eq rfl)
      (cast_update f' w (hq' j) hsums.wPow_eq rfl)
  have hcXR : cXR.right =
      wholeRing (fun j => (family w (t + 1) p idx0 j, family w (t + 1) q idx1 j)) o.v (2 ^ (t + 1))
          (fun j => s.publickeylist.getD j 0) -
        (series w (t + 1) fun k => amountBlind o (t + 1) k) • E.generators.g := by
    rw [hright, shifted_convolutions r hyP' hyQ', wholeRing_congr hfamilies, hsums.cXR_right,
      neg_smul, sub_eq_neg_add]
  have hdr : smul s.d ag.wPow + smul E.generators.g (Scalars.neg ag.chi) =
      (w : Scalar) ^ (t + 1) • s.d -
        (series w (t + 1) fun k => o.rng (3 * k + 1)) • E.generators.g := by
    rw [smul_eq, smul_eq, hsums.wPow_eq, Scalars.cast_neg, hsums.chi_eq, neg_smul, sub_eq_add_neg]
  have hgR : smul E.generators.g (Scalars.sub ag.wPow ag.psi) =
      ((w : Scalar) ^ (t + 1) - series w (t + 1) fun k => o.rng (3 * k + 2)) •
        E.generators.g := by
    rw [smul_eq, Scalars.cast_sub, hsums.wPow_eq, hsums.psi_eq]
  have hcnR : ag.cnR.right + smul (s.crn.getD idx0 0) ag.wPow =
      (w : Scalar) ^ (t + 1) • s.crn.getD idx0 0 -
        (series w (t + 1) fun k => o.rng (3 * k)) • E.generators.g := by
    rw [smul_eq, hsums.cnR_right, hsums.wPow_eq, neg_smul, sub_eq_neg_add]
  obtain ⟨c, hc⟩ : ∃ c, challengeC E rp.x
      (smul (smul E.generators.g (Scalars.sub ag.wPow ag.psi)) (rp.rng 0))
      (smul E.generators.g (rp.rng 1))
      (smul E.generators.g (rp.rng 2) + smul (smul (smul s.d ag.wPow +
        smul E.generators.g (Scalars.neg ag.chi)) (Scalars.neg rp.zs0) +
          smul (ag.cnR.right + smul (s.crn.getD idx0 0) ag.wPow) rp.zs1) (rp.rng 0))
      (smul cXR.right (rp.rng 1))
      (smul E.generators.g (Scalars.neg (rp.rng 2)) + smul E.generators.h (rp.rng 3))
      (smul nonce (rp.rng 0)) = c := ⟨_, rfl⟩
  refine ⟨{
    c
    sSk := Scalars.add (Scalars.mul c witness.secretKey) (rp.rng 0)
    sR := Scalars.add (Scalars.mul c witness.r) (rp.rng 1)
    sB := Scalars.add (Scalars.mul (Scalars.mul (Scalars.add
      (Scalars.mul witness.transferAmount.toNat rp.zs0)
      (Scalars.mul witness.balance.toNat rp.zs1)) ag.wPow) c) (rp.rng 2)
    sTau := Scalars.add (Scalars.mul (Scalars.mul rp.tauX ag.wPow) c) (rp.rng 3) }, ?_,
    (rp.rng 0 : Scalar), (rp.rng 1 : Scalar), (rp.rng 2 : Scalar), (rp.rng 3 : Scalar), ?_⟩
  · rw [sigmaPhase, h.blinding_eq, h.cXG_eq, h.pMat_eq, h.qMat_eq, hag, Option.bind_eq_bind,
      Option.bind_some, hcn, require_eq_some h0, require_eq_some h1, hf, hq]
    simp only [Option.bind_eq_bind, Option.bind_some]
    rw [hplace, hplace, hpVec, Option.bind_some, hqVec, Option.bind_some, hyP, Option.bind_some, hyQ, Option.bind_some, hkeys, Option.bind_some, ← hc]
    rfl
  · rw [hdr, hgR, hcnR, hcXR] at hc
    constructor
    · rw [← hc]
      simp only [smul_eq, Scalars.cast_neg, neg_smul, sub_eq_neg_add]
    · simp only [Scalars.cast_add, Scalars.cast_mul]
    · simp only [Scalars.cast_add, Scalars.cast_mul]
    · simp only [Scalars.cast_add, Scalars.cast_mul, hsums.wPow_eq]
    · simp only [Scalars.cast_add, Scalars.cast_mul, hsums.wPow_eq]

end Phase

end DirtybirdMiner.Crypto.SigmaPart
