import DirtybirdMiner.Crypto.RingAlgebra

/-!
Transfer proofs are complete: what the prover returns for a consistent statement is accepted by the
verifier, unless one of the challenges that are inverted is zero.
-/

namespace DirtybirdMiner.Crypto.Completeness

open DirtybirdMiner.Lib.Bytes hiding slice
open DirtybirdMiner.Lib.Checked
open DirtybirdMiner.Lib.Tables
open DirtybirdMiner.Crypto
open DirtybirdMiner.Crypto.Scalars (order Scalar)
open DirtybirdMiner.Crypto.Statements (PointCodec Statement)
open DirtybirdMiner.Crypto.Proofs (Proof)
open DirtybirdMiner.Crypto.Vectors
open DirtybirdMiner.Crypto.Hashing
open DirtybirdMiner.Crypto.Polynomials
open DirtybirdMiner.Crypto.Transcripts
open DirtybirdMiner.Crypto.Prover
open DirtybirdMiner.Crypto.Openings
open DirtybirdMiner.Crypto.RangePart
open DirtybirdMiner.Crypto.RingCommitments
open DirtybirdMiner.Crypto.SigmaPart
open DirtybirdMiner.Crypto.RingAlgebra
open DirtybirdMiner.Crypto.Verifier (Complete Points Rounds Sums castPair parityHolds parityOpening
  rounds wholeRing rangeScalarsOf sigmaCheck sigmaCheck_eq delta verify verifyRing verifyRing_accepts)

section Parity

/-- The responses to the challenge for the bits. -/
theorem responses_return {a b : List Nat} {n : Nat} (ha : a.length = n) (hb : b.length = n)
    (w : Nat) :
    ∃ f, fProof a b w = some f ∧ f.length = n ∧
      (∀ k < n, f.getD k 0 = Scalars.add (Scalars.mul (b.getD k 0) w) (a.getD k 0)) ∧
      ∀ k < n, entry f k = entry b k * w + entry a k := by
  have hget : ∀ k < n, ((a.zip b).map fun x => Scalars.add (Scalars.mul x.2 w) x.1).getD k 0 =
      Scalars.add (Scalars.mul (b.getD k 0) w) (a.getD k 0) := by
    obtain ⟨a, rfl⟩ := exists_table 0 ha
    obtain ⟨b, rfl⟩ := exists_table 0 hb
    intro k hk
    rw [zip_table, map_table, getD_table _ 0 hk, getD_table _ 0 hk, getD_table _ 0 hk]
  refine ⟨_, fProof_eq ha hb w, ?_, hget, ?_⟩
  · rw [List.length_map, List.length_zip, ha, hb, Nat.min_self]
  · intro k hk
    rw [entry, hget k hk, Scalars.cast_add, Scalars.cast_mul]
    rfl

/-- The bits of the parity of the two indices. -/
theorem parityBits_first {m idx0 idx1 : Nat} (hm : 0 < m) :
    (indexBits m idx0 ++ indexBits m idx1).getD 0 0 = idx0 % 2 ∧
      (indexBits m idx0 ++ indexBits m idx1).getD m 0 = idx1 % 2 := by
  obtain ⟨k, rfl⟩ : ∃ k, m = k + 1 := ⟨m - 1, by omega⟩
  constructor
  · rw [List.getD_append _ _ _ _ (by simp), indexBits_succ]
    rfl
  · rw [List.getD_append_right _ _ _ _ (by simp), indexBits_length, Nat.sub_self, indexBits_succ]
    rfl

/-- A response whose bit is one, with a blinder that is zero, is the challenge. -/
theorem response_one {w : Nat} (hw : w < order) : Scalars.add (Scalars.mul 1 w) 0 = w := by
  rw [Scalars.add, Scalars.mul, Nat.one_mul, Nat.add_zero, Nat.mod_mod, Nat.mod_eq_of_lt hw]

theorem parityHolds_responses {f : List Nat} {m idx0 idx1 w : Nat} (hm : 0 < m) (hw : w < order)
    (hlength : f.length = 2 * m) (hparity : idx0 % 2 ≠ idx1 % 2)
    (hfirst : f.getD 0 0 = Scalars.add (Scalars.mul (idx0 % 2) w) 0)
    (hmiddle : f.getD m 0 = Scalars.add (Scalars.mul (idx1 % 2) w) 0) :
    parityHolds f m w = some true := by
  rw [parityHolds, getElem?_eq_getD 0 (by omega), getElem?_eq_getD 0 (by omega)]
  simp only [Option.bind_eq_bind, Option.bind_some]
  split
  · rfl
  · rename_i hne
    have hodd : idx1 % 2 = 1 := by
      rcases Nat.mod_two_eq_zero_or_one idx0 with h | h
      · omega
      · rw [hfirst, h, response_one hw] at hne
        exact absurd rfl hne
    rw [hmiddle, hodd, response_one hw, decide_eq_true rfl]

variable {G : Type} [AddCommGroup G] [Module Scalar G] (E : Hashes G)

/-- The responses open the two commitments to the bits. -/
theorem parityOpening_eq {m : Nat} {a b f : Nat → Scalar} {w : Scalar}
    (hf : ∀ k < 2 * m, f k = b k * w + a k) (hb : ∀ k < 2 * m, b k * b k = b k)
    (hone : f 0 * f m = 0) (hzero : (w - f 0) * (w - f m) = 0) (rA rB : Scalar) :
    w • vectorCommitment E (2 * m) (2 * m) b (fun i => a i * (1 - 2 * b i)) rB +
        vectorCommitment E (2 * m) (2 * m) a (fun i => -(a i * a i)) rA =
      parityOpening E f w m + (rB * w + rA) • E.generators.h := by
  have hsum : ∑ k ∈ Finset.range (2 * m), (f k • E.generators.gs.getD k 0 +
      (f k * (w - f k)) • E.generators.hs.getD k 0) =
        w • ∑ k ∈ Finset.range (2 * m), b k • E.generators.gs.getD k 0 +
          ∑ k ∈ Finset.range (2 * m), a k • E.generators.gs.getD k 0 +
          (w • ∑ k ∈ Finset.range (2 * m), (a k * (1 - 2 * b k)) • E.generators.hs.getD k 0 +
            ∑ k ∈ Finset.range (2 * m), -(a k * a k) • E.generators.hs.getD k 0) := by
    simp only [Finset.smul_sum, ← Finset.sum_add_distrib]
    apply Finset.sum_congr rfl
    intro k hk
    have hlt := Finset.mem_range.mp hk
    have hsquare : f k * (w - f k) = w * (a k * (1 - 2 * b k)) + -(a k * a k) := by
      rw [hf k hlt]
      linear_combination -(w ^ 2) * hb k hlt
    rw [hsquare, hf k hlt]
    module
  rw [parityOpening, hsum, hone, hzero, vectorCommitment, vectorCommitment]
  module

end Parity

section Unblinded

variable {G : Type} [AddCommGroup G]

omit [AddCommGroup G] in
theorem lefts_table (m : Nat) (x y : Nat → G) :
    lefts (table m fun k => ({ left := some (x k), right := y k } : Eg G)) = some (table m x) := by
  rw [lefts, table, List.mapM_map]
  exact mapM_table fun _ _ => rfl

variable (E : Hashes G)

/-- The points of a proof that carry the columns, as the second phase has committed to them. -/
structure Published (p : Proof G) (s : Statement G) (key : G) (m : Nat) (o : Opening G)
    (pCol terms : Nat → Nat → Nat) : Prop where
  clnG_eq : p.clnG = table m fun k =>
    masked s.cln (2 ^ m) (pCol k) (zeroLeft E key (o.rng (3 * k)))
  crnG_eq : p.crnG = table m fun k =>
    masked s.crn (2 ^ m) (pCol k) (smul E.generators.g (o.rng (3 * k)))
  c0G_eq : p.c0G = table m fun k =>
    masked s.c (2 ^ m) (pCol k) (zeroLeft E key (o.rng (3 * k + 1)))
  dG_eq : p.dG = table m fun k => smul E.generators.g (o.rng (3 * k + 1))
  y0G_eq : p.y0G = table m fun k =>
    masked s.publickeylist (2 ^ m) (pCol k) (zeroLeft E key (o.rng (3 * k + 2)))
  gG_eq : p.gG = table m fun k => smul E.generators.g (o.rng (3 * k + 2))
  cXG_eq : p.cXG = table m
    (amountSum E terms o.v (fun k => zeroLeft E s.d (amountBlind o m k)) (2 ^ m))
  yXG_eq : p.yXG = table m fun k => smul E.generators.g (amountBlind o m k)
  f_length : p.f.length = 2 * m

theorem Published.rounds {p : Proof G} {s : Statement G} {key : G} {m : Nat} {o : Opening G}
    {pCol terms : Nat → Nat → Nat} (h : Published E p s key m o pCol terms) : Rounds p m := by
  constructor
  · rw [h.clnG_eq, table_length]
  · rw [h.crnG_eq, table_length]
  · rw [h.c0G_eq, table_length]
  · rw [h.dG_eq, table_length]
  · rw [h.y0G_eq, table_length]
  · rw [h.gG_eq, table_length]
  · rw [h.cXG_eq, table_length]
  · rw [h.yXG_eq, table_length]
  · exact h.f_length

variable [Module Scalar G]

theorem zeroLeft_eq (key : G) (r : Nat) : zeroLeft E key r = (r : Scalar) • key := by
  rw [zeroLeft, smul_eq, smul_eq, Nat.cast_zero, zero_smul, zero_add]

theorem masked_eq (points : List G) (n : Nat) (e : Nat → Nat) (blind : G) :
    masked points n e blind =
      ∑ j ∈ Finset.range n, (e j : Scalar) • points.getD j 0 + blind := by
  simp only [masked, smul_eq]

/-- The rounds over a list that is given by its entries. -/
theorem rounds_table {l : List G} {m : Nat} {x : Nat → G} (hl : l = table m x) (w : Scalar) :
    rounds w m (fun k => l.getD k 0) = rounds w m x := by
  apply rounds_congr
  intro k hk
  rw [hl, getD_table x 0 hk]

/-- What the verifier is left with for the columns of one vector of points. -/
theorem masked_unmask {l points : List G} {m idx : Nat} (hidx : idx < 2 ^ m)
    {r : Nat → Nat × Nat} {w : Scalar} {pCol : Nat → Nat → Nat} {blind : Nat → G}
    {blinder : Nat → Scalar} {key : G}
    (hr : ∀ j < 2 ^ m, ((r j).1 : Scalar) = family w m pCol idx j)
    (hl : l = table m fun k => masked points (2 ^ m) (pCol k) (blind k))
    (hblind : ∀ k, blind k = blinder k • key) :
    ∑ j ∈ Finset.range (2 ^ m), ((r j).1 : Scalar) • points.getD j 0 -
        rounds w m (fun k => l.getD k 0) =
      w ^ m • points.getD idx 0 - series w m blinder • key := by
  rw [rounds_table hl, ← unmask hidx w m pCol (fun j => points.getD j 0) blinder key]
  refine congrArg₂ (fun a b => a - b) ?_ ?_
  · apply Finset.sum_congr rfl
    intro j hj
    rw [hr j (Finset.mem_range.mp hj)]
  · apply rounds_congr
    intro k _
    rw [masked_eq, hblind]

/-- The points of the verifier, without the blinding of the columns. -/
structure Unblinded (s : Statement G) (idx0 idx1 m w : Nat) (o : Opening G)
    (pCol qCol terms : Nat → Nat → Nat) (tov : UInt64) (t : Sums G) : Prop where
  clnR : t.clnR = (w : Scalar) ^ m • s.cln.getD idx0 0 -
    (series w m fun k => o.rng (3 * k)) • s.publickeylist.getD idx0 0
  crnR : t.crnR = (w : Scalar) ^ m • s.crn.getD idx0 0 -
    (series w m fun k => o.rng (3 * k)) • E.generators.g
  cr0 : t.cr0 = (w : Scalar) ^ m • s.c.getD idx0 0 -
    (series w m fun k => o.rng (3 * k + 1)) • s.publickeylist.getD idx0 0
  dR : t.dR = (w : Scalar) ^ m • s.d -
    (series w m fun k => o.rng (3 * k + 1)) • E.generators.g
  yr0 : t.yr0 = (w : Scalar) ^ m • s.publickeylist.getD idx0 0 -
    (series w m fun k => o.rng (3 * k + 2)) • s.publickeylist.getD idx0 0
  gR : t.gR = (w : Scalar) ^ m • E.generators.g -
    (series w m fun k => o.rng (3 * k + 2)) • E.generators.g
  cXR : t.cXR = wholeRing (families w m pCol qCol idx0 idx1) o.v (2 ^ m)
      (fun j => s.c.getD j 0) -
    ((series w m fun k => amountBlind o m k) • s.d +
      (series w m fun k => ∑ i ∈ Finset.range (2 ^ m),
        (o.v : Scalar) ^ (i - 1) * terms i k) • E.generators.g) +
    ((tov.toNat : Scalar) * (w : Scalar) ^ m) • E.generators.g
  yXR : t.yXR = wholeRing (families w m pCol qCol idx0 idx1) o.v (2 ^ m)
      (fun j => s.publickeylist.getD j 0) -
    (series w m fun k => amountBlind o m k) • E.generators.g
  wPow : (t.wPow : Scalar) = (w : Scalar) ^ m

theorem rounds_amountSum (terms : Nat → Nat → Nat) (v m n : Nat) (w : Scalar) (blind : Nat → Nat)
    (d : G) :
    rounds w m (amountSum E terms v (fun k => zeroLeft E d (blind k)) n) =
      (series w m fun k => blind k) • d +
        (series w m fun k => ∑ i ∈ Finset.range n, (v : Scalar) ^ (i - 1) * terms i k) •
          E.generators.g := by
  rw [← rounds_smul, ← rounds_smul, ← rounds_add]
  apply rounds_congr
  intro k _
  rw [amountSum, zeroLeft_eq, Finset.sum_smul]
  congr 1
  apply Finset.sum_congr rfl
  intro i _
  rw [smul_eq, Scalars.cast_mul, Verifier.shift, Scalars.cast_power]

theorem points_unblinded {p : Proof G} {s : Statement G} {idx0 idx1 m w : Nat} {o : Opening G}
    {pCol qCol terms : Nat → Nat → Nat} {tov : UInt64} {t : Sums G} {r : Nat → Nat × Nat}
    (h0 : idx0 < 2 ^ m)
    (hp : Published E p s (s.publickeylist.getD idx0 0) m o pCol terms)
    (hr : ∀ j < 2 ^ m, castPair r j = families w m pCol qCol idx0 idx1 j)
    (h : Points E p s r m o.v w tov t) :
    Unblinded E s idx0 idx1 m w o pCol qCol terms tov t := by
  have hfirst : ∀ j < 2 ^ m, ((r j).1 : Scalar) = family w m pCol idx0 j := fun j hj =>
    congrArg Prod.fst (hr j hj)
  constructor
  · rw [h.clnR]
    exact masked_unmask h0 hfirst hp.clnG_eq fun k => zeroLeft_eq E _ _
  · rw [h.crnR]
    exact masked_unmask h0 hfirst hp.crnG_eq fun k => smul_eq _ _
  · rw [h.cr0]
    exact masked_unmask h0 hfirst hp.c0G_eq fun k => zeroLeft_eq E _ _
  · rw [h.dR, rounds_table hp.dG_eq, ← rounds_smul]
    simp only [smul_eq]
  · rw [h.yr0]
    exact masked_unmask h0 hfirst hp.y0G_eq fun k => zeroLeft_eq E _ _
  · rw [h.gR, rounds_table hp.gG_eq, ← rounds_smul]
    simp only [smul_eq]
  · rw [h.cXR, rounds_table hp.cXG_eq, rounds_amountSum, wholeRing_congr hr]
  · rw [h.yXR, rounds_table hp.yXG_eq, wholeRing_congr hr, ← rounds_smul]
    simp only [smul_eq]
  · exact h.wPow

end Unblinded

section Response

variable {G : Type} [AddCommGroup G] [PointCodec G] (E : Hashes G)

/-- The statement encrypts the amounts of the witness, for the two members of the ring. -/
structure Consistent (s : Statement G) (witness : Witness) (idx0 idx1 n : Nat)
    (burnValue : UInt64) : Prop where
  complete : Complete s n
  d_eq : s.d = smul E.generators.g witness.r
  key_eq : s.publickeylist.getD idx0 0 = smul E.generators.g witness.secretKey
  sender_eq : s.c.getD idx0 0 = smul (s.publickeylist.getD idx0 0) witness.r -
    smul E.generators.g
      (witness.transferAmount.toNat + s.fees.toNat + burnValue.toNat)
  receiver_eq : s.c.getD idx1 0 = smul (s.publickeylist.getD idx1 0) witness.r +
    smul E.generators.g witness.transferAmount.toNat
  other_eq : ∀ j < n, j ≠ idx0 → j ≠ idx1 →
    s.c.getD j 0 = smul (s.publickeylist.getD j 0) witness.r
  balance_eq : s.cln.getD idx0 0 = smul E.generators.g witness.balance.toNat +
    smul (s.crn.getD idx0 0) witness.secretKey

variable [Module Scalar G]

omit [PointCodec G] in
/-- A response leaves the first message. -/
theorem response_cancels {secret c k : Scalar} {a b : G} (h : secret • a = b) :
    (c * secret + k) • a - c • b = k • a := by
  rw [← h]
  module

omit [PointCodec G] in
/-- The commitments of the ring are encryptions of the amounts. -/
theorem Consistent.encrypted {s : Statement G} {witness : Witness} {idx0 idx1 n : Nat}
    {burnValue : UInt64} (h : Consistent E s witness idx0 idx1 n burnValue) :
    ∀ j < n, s.c.getD j 0 = (witness.r : Scalar) • s.publickeylist.getD j 0 +
      amountOf witness.transferAmount.toNat (s.fees.toNat + burnValue.toNat) idx0 idx1 j •
        E.generators.g := by
  intro j hj
  unfold amountOf
  split
  · rename_i hsender
    rw [hsender, h.sender_eq, smul_eq, smul_eq]
    push_cast
    module
  · rename_i hsender
    split
    · rename_i hreceiver
      rw [hreceiver, h.receiver_eq, smul_eq, smul_eq]
    · rename_i hreceiver
      rw [h.other_eq j hj hsender hreceiver, smul_eq, zero_smul, add_zero]

omit [PointCodec G] in
/-- The sums over the rotated ring differ by the scalar of the encryptions. -/
theorem Unblinded.encrypted {s : Statement G} {witness : Witness} {idx0 idx1 t w : Nat}
    {burnValue tov : UInt64} {o : Opening G} {p q : Nat → Nat → Nat} {sums : Sums G}
    (h0 : idx0 < 2 ^ (t + 1)) (h1 : idx1 < 2 ^ (t + 1)) (hparity : idx0 % 2 ≠ idx1 % 2)
    (htov : tov.toNat = s.fees.toNat + burnValue.toNat)
    (hs : Consistent E s witness idx0 idx1 (2 ^ (t + 1)) burnValue)
    (h : Unblinded E s idx0 idx1 (t + 1) w o p q
      (amountTerm witness.transferAmount.toNat (s.fees.toNat + burnValue.toNat) idx0 idx1
        (2 ^ (t + 1)) p q) tov sums) :
    (witness.r : Scalar) • sums.yXR = sums.cXR := by
  have hpow : 2 ^ (t + 1) = 2 * 2 ^ t := pow_succ' 2 t
  have hpos : 0 < 2 ^ t := Nat.two_pow_pos t
  have hturns := sum_turns (n := 2 ^ (t + 1)) (by omega) (by omega) h0 h1 hparity
    witness.transferAmount.toNat (s.fees.toNat + burnValue.toNat) o.v w (t + 1) p q
  have hring := wholeRing_encrypted (families w (t + 1) p q idx0 idx1) o.v witness.r
    (2 ^ (t + 1)) _ (hs.encrypted E)
  rw [hturns] at hring
  rw [h.yXR, h.cXR, hring, hs.d_eq, smul_eq, htov]
  module

omit [PointCodec G] in
/-- The two amounts, weighted: the response for the balance and the transfer. -/
theorem Unblinded.weighted {s : Statement G} {witness : Witness} {idx0 idx1 n m w : Nat}
    {burnValue tov : UInt64} {o : Opening G} {p q terms : Nat → Nat → Nat} {sums : Sums G}
    (htov : tov.toNat = s.fees.toNat + burnValue.toNat)
    (hs : Consistent E s witness idx0 idx1 n burnValue)
    (h : Unblinded E s idx0 idx1 m w o p q terms tov sums) (zs0 zs1 : Scalar) :
    (-zs0 • (((tov.toNat : Scalar) * sums.wPow) • E.generators.g + sums.cr0) +
        zs1 • sums.clnR) -
        (witness.secretKey : Scalar) • (-zs0 • sums.dR + zs1 • sums.crnR) =
      ((witness.transferAmount.toNat * zs0 + witness.balance.toNat * zs1) * (w : Scalar) ^ m) •
        E.generators.g := by
  rw [h.clnR, h.crnR, h.cr0, h.dR, h.wPow, hs.sender_eq, hs.balance_eq, hs.key_eq, hs.d_eq, htov]
  simp only [smul_eq]
  push_cast
  module

omit [Module Scalar G] in
/-- The constant coefficient of the product holds the two amounts. -/
theorem product0_eq {transfer balance : UInt64} {idx0 idx1 m statementhash : Nat} {o : Opening G}
    (ho : Opened E transfer balance idx0 idx1 m statementhash o) (y z : Scalar) :
    product0 o y z - delta y z = transfer.toNat * z ^ 2 + balance.toNat * z ^ 3 := by
  rw [← constant_coefficient, product0]
  refine congrArg (fun a => a - delta y z) ?_
  apply Finset.sum_congr rfl
  intro i hi
  have hlt := Finset.mem_range.mp hi
  rw [leftConstant, rightConstant, ho.al_eq, ho.ar_eq, entry_table _ hlt, entry_table _ hlt]

/-- What the verifier recomputes of the committed coefficients. -/
theorem evaluated_eq {transfer balance : UInt64} {idx0 idx1 m statementhash w y z : Nat}
    {o : Opening G} {tau1 tau2 : Scalar} {rp : Prover.RangePart G}
    (ho : Opened E transfer balance idx0 idx1 m statementhash o)
    (h : Ranged E o w y z tau1 tau2 rp) {t : Nat}
    (ht : (t : Scalar) = rp.that - delta y z) :
    (t : Scalar) • E.generators.g -
        ((rp.x : Scalar) • rp.t1 + ((rp.x : Scalar) * rp.x) • rp.t2) =
      (transfer.toNat * (z : Scalar) ^ 2 + balance.toNat * (z : Scalar) ^ 3) • E.generators.g -
        (rp.tauX : Scalar) • E.generators.h := by
  rw [ht, h.that_eq, h.t1_eq, h.t2_eq, h.tauX_eq, ← product0_eq E ho]
  module

/-- The verifier recomputes the challenge of the sigma protocol. -/
theorem sigmaCheck_responses {p : Proof G} {s : Statement G} {witness : Witness}
    {idx0 idx1 k w t : Nat} {burnValue tov : UInt64} {statementhash : Nat} {o : Opening G}
    {pCol qCol : Nat → Nat → Nat} {sums : Sums G} {tau1 tau2 kSk kR kB kTau : Scalar}
    {rp : Prover.RangePart G} {sg : SigmaPart} {nonce : G}
    (h0 : idx0 < 2 ^ (k + 1)) (h1 : idx1 < 2 ^ (k + 1)) (hparity : idx0 % 2 ≠ idx1 % 2)
    (htov : tov.toNat = s.fees.toNat + burnValue.toNat)
    (hs : Consistent E s witness idx0 idx1 (2 ^ (k + 1)) burnValue)
    (ho : Opened E witness.transferAmount witness.balance idx0 idx1 (k + 1) statementhash o)
    (hsums : Unblinded E s idx0 idx1 (k + 1) w o pCol qCol
      (amountTerm witness.transferAmount.toNat (s.fees.toNat + burnValue.toNat) idx0 idx1
        (2 ^ (k + 1)) pCol qCol) tov sums)
    (hrange : Ranged E o w (nextChallenge E w) (nextChallenge E (nextChallenge E w)) tau1 tau2 rp)
    (hsg : Responded E s witness idx0 idx1 (k + 1) w nonce o pCol qCol rp kSk kR kB kTau sg)
    (hu : p.u = smul nonce witness.secretKey) (hc : p.c = sg.c) (hsSk : p.sSk = sg.sSk)
    (hsR : p.sR = sg.sR) (hsB : p.sB = sg.sB) (hsTau : p.sTau = sg.sTau) (ht1 : p.t1 = rp.t1)
    (ht2 : p.t2 = rp.t2)
    (ht : (t : Scalar) = rp.that -
      delta (nextChallenge E w) (nextChallenge E (nextChallenge E w))) :
    sigmaCheck E p s sums (rangeScalarsOf E w t) rp.x tov nonce = p.c := by
  have hzs0 : ((rangeScalarsOf E w t).zs0 : Scalar) = rp.zs0 := by
    rw [hrange.zs0_eq]
    exact Verifier.cast_modpow _ 2
  have hzs1 : ((rangeScalarsOf E w t).zs1 : Scalar) = rp.zs1 := by
    rw [hrange.zs1_eq]
    exact Verifier.cast_modpow _ 3
  have hY : (witness.secretKey : Scalar) • sums.gR = sums.yr0 := by
    rw [hsums.gR, hsums.yr0, hs.key_eq, smul_eq]
    module
  have hD : (witness.r : Scalar) • E.generators.g = s.d := by rw [hs.d_eq, smul_eq]
  have hX := hsums.encrypted E h0 h1 hparity htov hs
  have hU : (witness.secretKey : Scalar) • nonce = p.u := by rw [hu, smul_eq]
  have hB := hsums.weighted E htov hs rp.zs0 rp.zs1
  have hT := evaluated_eq E ho hrange ht
  rw [@sigmaCheck_eq _ _ _ E _ _ _ _ _ _ _ _ (kSk • sums.gR) (kR • E.generators.g)
    (kB • E.generators.g +
      kSk • (-(rp.zs0 : Scalar) • sums.dR + (rp.zs1 : Scalar) • sums.crnR)) (kR • sums.yXR)
    (kTau • E.generators.h - kB • E.generators.g) (kSk • nonce), hc, hsg.c_eq, hsums.gR, hsums.dR,
    hsums.crnR, hsums.yXR, sub_smul]
  · rfl
  · rw [hsSk, hsg.sSk_eq, hc, response_cancels hY]
  · rw [hsR, hsg.sR_eq, hc, response_cancels hD]
  · rw [hzs0, hzs1, hsSk, hsg.sSk_eq, hsB, hsg.sB_eq, hc, eq_add_of_sub_eq hB]
    module
  · rw [hsR, hsg.sR_eq, hc, response_cancels hX]
  · rw [hsTau, hsg.sTau_eq, hsB, hsg.sB_eq, hc, ht1, ht2]
    refine (congrArg (fun q => (((sg.c : Scalar) * sums.wPow) • q + _) - _) hT).trans ?_
    rw [hsums.wPow, hrange.zs0_eq, hrange.zs1_eq]
    module
  · rw [hsSk, hsg.sSk_eq, hc, response_cancels hU]

end Response

section Whole

variable {G : Type} [AddCommGroup G] [PointCodec G] (E : Hashes G)

/-- A proof whose parts are those of the phases. -/
structure Assembled (p : Proof G) (o : Opening G) (rp : Prover.RangePart G) (sg : SigmaPart)
    (w : Nat) : Prop where
  ba_eq : p.ba = o.ba
  bs_eq : p.bs = o.bs
  a_eq : p.a = o.aPt
  b_eq : p.b = o.bPt
  w_eq : challengeW E o.v p.clnG p.crnG p.c0G p.dG p.y0G p.gG p.cXG p.yXG = w
  f_eq : fProof o.a o.b w = some p.f
  zA_eq : p.zA = Scalars.add (Scalars.mul o.rB w) o.rA
  t1_eq : p.t1 = rp.t1
  t2_eq : p.t2 = rp.t2
  that_eq : p.that = rp.that
  mu_eq : p.mu = rp.mu
  c_eq : p.c = sg.c
  sSk_eq : p.sSk = sg.sSk
  sR_eq : p.sR = sg.sR
  sB_eq : p.sB = sg.sB
  sTau_eq : p.sTau = sg.sTau
  ip_eq : innerProductPhase E rp sg.c = some p.ip

/-- The columns of the two families. -/
def firstColumns (o : Opening G) (m : Nat) : Nat → Nat → Nat :=
  coefficient (o.a.take m) (o.b.take m)

def secondColumns (o : Opening G) (m : Nat) : Nat → Nat → Nat :=
  coefficient (o.a.drop m) (o.b.drop m)

/-- Everything that the prover has done, phase by phase. -/
structure Generated [Module Scalar G] (s : Statement G) (witness : Witness) (idx0 idx1 m : Nat)
    (burnValue : UInt64) (txid : FixedBytes 32) (nonce : G) (p : Proof G) : Prop where
  phases : ∃ (o : Opening G) (rp : Prover.RangePart G) (sg : SigmaPart) (w : Nat)
      (tau1 tau2 kSk kR kB kTau : Scalar),
    Assembled E p o rp sg w ∧
      Opened E witness.transferAmount witness.balance idx0 idx1 m (E.reducedHash txid.1) o ∧
      Published E p s (s.publickeylist.getD idx0 0) m o (firstColumns o m)
        (amountTerm witness.transferAmount.toNat (s.fees.toNat + burnValue.toNat) idx0 idx1
          (2 ^ m) (firstColumns o m) (secondColumns o m)) ∧
      Ranged E o w (nextChallenge E w) (nextChallenge E (nextChallenge E w)) tau1 tau2 rp ∧
      Responded E s witness idx0 idx1 m w nonce o (firstColumns o m) (secondColumns o m) rp
        kSk kR kB kTau sg

theorem opened_b_length {transfer balance : UInt64}
    {idx0 idx1 m statementhash : Nat} {o : Opening G}
    (h : Opened E transfer balance idx0 idx1 m statementhash o) : o.b.length = 2 * m := by
  rw [h.b_eq, List.length_append, indexBits_length, indexBits_length, two_mul]

omit [PointCodec G] in
/-- The left sides of what the second phase returns. -/
theorem committed_lefts {s : Statement G} {idx0 m : Nat} {o : Opening G}
    {pCol qCol terms : Nat → Nat → Nat} {rt : RingPart G}
    (h : Committed E s idx0 m o pCol qCol terms rt) :
    ∃ clnG c0G y0G cXG, lefts rt.cnG = some clnG ∧ lefts rt.c0G = some c0G ∧
      lefts rt.y0G = some y0G ∧ lefts rt.cXG = some cXG := by
  rw [h.cnG_eq, h.c0G_eq, h.y0G_eq, h.cXG_eq]
  exact ⟨_, _, _, _, lefts_table _ _ _, lefts_table _ _ _, lefts_table _ _ _, lefts_table _ _ _⟩

omit [PointCodec G] in
theorem committed_published {s : Statement G} {idx0 m : Nat} {o : Opening G}
    {pCol qCol terms : Nat → Nat → Nat} {rt : RingPart G}
    (h : Committed E s idx0 m o pCol qCol terms rt) {p : Proof G}
    (hclnG : lefts rt.cnG = some p.clnG) (hcrnG : rt.cnG.map Eg.right = p.crnG)
    (hc0G : lefts rt.c0G = some p.c0G) (hdG : rt.c0G.map Eg.right = p.dG)
    (hy0G : lefts rt.y0G = some p.y0G) (hgG : rt.y0G.map Eg.right = p.gG)
    (hcXG : lefts rt.cXG = some p.cXG) (hyXG : rt.cXG.map Eg.right = p.yXG)
    (hf : p.f.length = 2 * m) :
    Published E p s (s.publickeylist.getD idx0 0) m o pCol terms := by
  rw [h.cnG_eq, lefts_table] at hclnG
  rw [h.c0G_eq, lefts_table] at hc0G
  rw [h.y0G_eq, lefts_table] at hy0G
  rw [h.cXG_eq, lefts_table] at hcXG
  constructor
  · exact (Option.some_inj.mp hclnG).symm
  · rw [← hcrnG, h.cnG_eq, map_table]
  · exact (Option.some_inj.mp hc0G).symm
  · rw [← hdG, h.c0G_eq, map_table]
  · exact (Option.some_inj.mp hy0G).symm
  · rw [← hgG, h.y0G_eq, map_table]
  · exact (Option.some_inj.mp hcXG).symm
  · rw [← hyXG, h.cXG_eq, map_table]
  · exact hf

theorem generateProof_returns [Module Scalar G] {s : Statement G} {witness : Witness}
    {idx0 idx1 t : Nat} {burnValue : UInt64} (ht : t + 1 ≤ 7)
    (hidx0 : witness.index[0]? = some idx0) (hidx1 : witness.index[1]? = some idx1)
    (h0 : idx0 < 2 ^ (t + 1)) (h1 : idx1 < 2 ^ (t + 1))
    (hfees : s.fees.toNat + burnValue.toNat < 2 ^ 64) (hs : Complete s (2 ^ (t + 1)))
    (scid : FixedBytes 32) (scidIndex : Nat) (u : G) (txid : FixedBytes 32) (rng : Rng) :
    ∃ p, generateProof E scid scidIndex s witness u txid burnValue rng = some p ∧ p.u = u ∧
      Generated E s witness idx0 idx1 (t + 1) burnValue txid
        (nonceBase E s.roothash scid scidIndex) p := by
  have hlog : (2 ^ (t + 1)).log2 = t + 1 := Nat.log2_two_pow
  obtain ⟨o, hopen, ho⟩ := openingPhase_returns E witness (Nat.succ_pos t) ht h0 h1
    (E.reducedHash txid.1) rng
  have hb := opened_b_length E ho
  obtain ⟨rt, hring, hcommitted⟩ := @ringPhase_returns _ _ E _ witness _ idx1 _ _ _ hs h0 hfees
    ho.a_length hb _ _ _ rfl rfl rfl
  obtain ⟨clnG, c0G, y0G, cXG, hclnG, hc0G, hy0G, hcXG⟩ := committed_lefts E hcommitted
  obtain ⟨w, hw⟩ : ∃ w, challengeW E o.v clnG (rt.cnG.map Eg.right) c0G (rt.c0G.map Eg.right) y0G
    (rt.y0G.map Eg.right) cXG (rt.cXG.map Eg.right) = w := ⟨_, rfl⟩
  obtain ⟨f, hf, hflength, -, -⟩ := responses_return ho.a_length hb w
  obtain ⟨rp, hrange, tau1, tau2, hranged⟩ := rangePhase_returns E ho.al_eq ho.ar_eq
    ho.sl_length ho.sr_length w rt.rng
  obtain ⟨sg, hsigma, kSk, kR, kB, kTau, hresponded⟩ := @sigmaPhase_returns _ _ _ _ E _ witness _ _
    _ w (by omega) hs h0 h1 (nonceBase E s.roothash scid scidIndex) _ _ _ _ _ hcommitted rp
  obtain ⟨ip, hip, -⟩ := innerProductPhase_returns E hranged sg.c
  refine ⟨{
    ba := o.ba, bs := o.bs, a := o.aPt, b := o.bPt, clnG, crnG := rt.cnG.map Eg.right, c0G
    dG := rt.c0G.map Eg.right, y0G, gG := rt.y0G.map Eg.right, cXG
    yXG := rt.cXG.map Eg.right, u, f, zA := Scalars.add (Scalars.mul o.rB w) o.rA, t1 := rp.t1
    t2 := rp.t2, that := rp.that, mu := rp.mu, c := sg.c, sSk := sg.sSk, sR := sg.sR, sB := sg.sB
    sTau := sg.sTau, ip }, ?_, rfl,
    ⟨o, rp, sg, w, tau1, tau2, kSk, kR, kB, kTau, ?_, ho, ?_, hranged, hresponded⟩⟩
  · rw [generateProof]
    dsimp only
    rw [hs.publickeylist_length, hlog]
    refine Option.bind_eq_some_iff.mpr ⟨idx0, hidx0, ?_⟩
    refine Option.bind_eq_some_iff.mpr ⟨idx1, hidx1, ?_⟩
    refine Option.bind_eq_some_iff.mpr ⟨o, hopen, ?_⟩
    refine Option.bind_eq_some_iff.mpr ⟨rt, hring, ?_⟩
    refine Option.bind_eq_some_iff.mpr ⟨clnG, hclnG, ?_⟩
    refine Option.bind_eq_some_iff.mpr ⟨c0G, hc0G, ?_⟩
    refine Option.bind_eq_some_iff.mpr ⟨y0G, hy0G, ?_⟩
    refine Option.bind_eq_some_iff.mpr ⟨cXG, hcXG, ?_⟩
    rw [hw]
    refine Option.bind_eq_some_iff.mpr ⟨f, hf, ?_⟩
    refine Option.bind_eq_some_iff.mpr ⟨rp, hrange, ?_⟩
    refine Option.bind_eq_some_iff.mpr ⟨sg, hsigma, ?_⟩
    exact Option.bind_eq_some_iff.mpr ⟨ip, hip, rfl⟩
  · exact ⟨rfl, rfl, rfl, rfl, hw, hf, rfl, rfl, rfl, rfl, rfl, rfl, rfl, rfl, rfl, rfl, hip⟩
  · exact committed_published E hcommitted hclnG rfl hc0G rfl hy0G rfl hcXG rfl hflength

/-- The columns of the prover and the polynomials of the verifier are of one family. -/
theorem polynomials_families {transfer balance : UInt64} {idx0 idx1 m statementhash w : Nat}
    {o : Opening G} {f : List Nat} (h0 : idx0 < 2 ^ m) (h1 : idx1 < 2 ^ m)
    (ho : Opened E transfer balance idx0 idx1 m statementhash o) (hf : fProof o.a o.b w = some f) :
    ∃ r : Nat → Nat × Nat, assemblePolynomials (fMatrix f w) = some (table (2 ^ m) r) ∧
      ∀ j < 2 ^ m, castPair r j =
        families w m (firstColumns o m) (secondColumns o m) idx0 idx1 j := by
  have ha := ho.a_length
  have hfirst : o.b.take m = indexBits m idx0 := by
    rw [ho.b_eq, List.take_left' (indexBits_length m idx0)]
  have hsecond : o.b.drop m = indexBits m idx1 := by
    rw [ho.b_eq, List.drop_left' (indexBits_length m idx0)]
  have htake : (o.a.take m).length = m := by rw [List.length_take, ha]; omega
  have hdrop : (o.a.drop m).length = m := by rw [List.length_drop, ha]; omega
  have hbits : ∀ idx, ∀ x ∈ indexBits m idx, x = 0 ∨ x = 1 := by
    intro idx x hx
    obtain ⟨i, hi, rfl⟩ := List.getElem_of_mem hx
    have hbit := indexBits_bit (j := idx) (i := i) (by rwa [indexBits_length] at hi)
    rwa [List.getD_eq_getElem _ _ hi] at hbit
  have hwhole : fProof (o.a.take m ++ o.a.drop m) (indexBits m idx0 ++ indexBits m idx1) w =
      some f := by
    rw [List.take_append_drop, ← ho.b_eq, hf]
  refine ⟨_, assemblePolynomials_eq htake (indexBits_length m idx0) hdrop
    (indexBits_length m idx1) (hbits idx0) (hbits idx1) w hwhole, ?_⟩
  intro j hj
  unfold firstColumns secondColumns
  rw [hfirst, hsecond]
  exact Prod.ext (cast_value_row htake h0 hj w) (cast_value_row hdrop h1 hj w)

/-- The responses for the bits pass the two tests of the parity. -/
theorem parity_accepted [Module Scalar G] {transfer balance : UInt64}
    {idx0 idx1 m statementhash w : Nat} {o : Opening G} {f : List Nat} (hm : 0 < m)
    (hparity : idx0 % 2 ≠ idx1 % 2) (hw : w < order)
    (ho : Opened E transfer balance idx0 idx1 m statementhash o) (hf : fProof o.a o.b w = some f) :
    f.length = 2 * m ∧ parityHolds f m w = some true ∧
      (w : Scalar) • o.bPt + o.aPt =
        parityOpening E (fun k => ((f.getD k 0 : Nat) : Scalar)) w m +
          (Scalars.add (Scalars.mul o.rB w) o.rA : Scalar) • E.generators.h := by
  obtain ⟨f', hf', hlength, hget, hentry⟩ :=
    responses_return ho.a_length (opened_b_length E ho) w
  obtain rfl := Option.some_inj.mp (hf'.symm.trans hf)
  obtain ⟨hbit0, hbit1⟩ := @parityBits_first _ idx0 idx1 hm
  have hfirst := hget 0 (by omega)
  have hmiddle := hget m (by omega)
  rw [ho.b_eq, hbit0, ho.a_parity 0 (.inl rfl)] at hfirst
  rw [ho.b_eq, hbit1, ho.a_parity m (.inr rfl)] at hmiddle
  refine ⟨hlength, parityHolds_responses hm hw hlength hparity hfirst hmiddle, ?_⟩
  have hsquare : ∀ k < 2 * m, entry o.b k * entry o.b k = entry o.b k := by
    intro k hk
    have hbit := @parityBits_bit _ idx0 idx1 _ hk
    rw [← ho.b_eq] at hbit
    unfold entry
    rcases hbit with h | h
    · rw [h, Nat.cast_zero, zero_mul]
    · rw [h, Nat.cast_one, one_mul]
  -- one of the two bits is zero and the other one
  have hvalues : (entry f' 0 = 0 ∧ entry f' m = w) ∨ (entry f' 0 = w ∧ entry f' m = 0) := by
    have hcast : ∀ b : Nat, ((Scalars.add (Scalars.mul b w) 0 : Nat) : Scalar) = b * w := by
      intro b
      rw [Scalars.cast_add, Scalars.cast_mul, Nat.cast_zero, add_zero]
    rw [entry, entry, hfirst, hmiddle, hcast, hcast]
    rcases Nat.mod_two_eq_zero_or_one idx0 with h | h
    · have hodd : idx1 % 2 = 1 := by omega
      rw [h, hodd, Nat.cast_zero, Nat.cast_one, zero_mul, one_mul]
      exact .inl ⟨rfl, rfl⟩
    · have heven : idx1 % 2 = 0 := by omega
      rw [h, heven, Nat.cast_zero, Nat.cast_one, zero_mul, one_mul]
      exact .inr ⟨rfl, rfl⟩
  rw [ho.bPt_eq, ho.aPt_eq, Scalars.cast_add, Scalars.cast_mul]
  apply parityOpening_eq E hentry hsquare
  · rcases hvalues with ⟨h, -⟩ | ⟨-, h⟩
    · exact mul_eq_zero_of_left h _
    · exact mul_eq_zero_of_right _ h
  · rcases hvalues with ⟨-, h⟩ | ⟨h, -⟩
    · exact mul_eq_zero_of_right _ (sub_eq_zero.mpr h.symm)
    · exact mul_eq_zero_of_left (sub_eq_zero.mpr h.symm) _

/-- The challenge `y` that the verifier derives. -/
def challengeY (p : Proof G) (txid : FixedBytes 32) : Nat :=
  nextChallenge E (challengeW E (challengeV E (E.reducedHash txid.1) p.ba p.bs p.a p.b)
    p.clnG p.crnG p.c0G p.dG p.y0G p.gG p.cXG p.yXG)

/-- The verifier accepts what the phases have put together. -/
theorem verify_generated [Module Scalar G] {s : Statement G} {witness : Witness}
    {idx0 idx1 k : Nat} {burnValue : UInt64} {txid : FixedBytes 32} {p : Proof G}
    (hk : k + 1 ≤ 7) (h0 : idx0 < 2 ^ (k + 1)) (h1 : idx1 < 2 ^ (k + 1))
    (hparity : idx0 % 2 ≠ idx1 % 2) (hfees : s.fees.toNat + burnValue.toNat < 2 ^ 64)
    (hs : Consistent E s witness idx0 idx1 (2 ^ (k + 1)) burnValue)
    (scid : FixedBytes 32) (scidIndex : Nat)
    (hu : p.u = smul (nonceBase E s.roothash scid scidIndex) witness.secretKey)
    (hp : Generated E s witness idx0 idx1 (k + 1) burnValue txid
      (nonceBase E s.roothash scid scidIndex) p)
    (hy : (challengeY E p txid : Scalar) ≠ 0)
    (hne : ∀ x ∈ InnerProducts.challengesFrom E (nextChallenge E p.c) p.ip.ls p.ip.rs,
      (x : Scalar) ≠ 0) :
    verify E p scid scidIndex s txid burnValue = some true := by
  obtain ⟨o, rp, sg, w, tau1, tau2, kSk, kR, kB, kTau, hparts, ho, hpublished, hranged,
    hresponded⟩ := hp.phases
  have hv : challengeV E (E.reducedHash txid.1) p.ba p.bs p.a p.b = o.v := by
    rw [hparts.ba_eq, hparts.bs_eq, hparts.a_eq, hparts.b_eq, ho.v_eq]
  have hw : w < order := by
    rw [← hparts.w_eq]
    exact reducedHash_lt E _
  rw [challengeY, hv, hparts.w_eq] at hy
  have htov : (s.fees + burnValue).toNat = s.fees.toNat + burnValue.toNat := by
    rw [UInt64.toNat_add, Nat.mod_eq_of_lt hfees]
  have hlength : ¬s.c.length ≠ s.publickeylist.length := by
    rw [hs.complete.c_length, hs.complete.publickeylist_length]
    exact not_not.mpr rfl
  have hx : challengeX E (nextChallenge E (nextChallenge E w)) p.t1 p.t2 = rp.x := by
    rw [hparts.t1_eq, hparts.t2_eq, hranged.x_eq]
  obtain ⟨hflength, hholds, hopening⟩ := parity_accepted E (Nat.succ_pos k) hparity hw ho
    hparts.f_eq
  obtain ⟨r, hr, hfamilies⟩ := polynomials_families E h0 h1 ho hparts.f_eq
  rw [verify, if_neg hlength]
  dsimp only
  rw [if_neg (by rw [Verifier.add_lt_iff]; omega), hv, hparts.w_eq]
  refine verifyRing_accepts E (Nat.succ_pos k) hk (hpublished.rounds E) hs.complete scid scidIndex
    _ o.v w hholds ?_ hr ?_ ?_
  · rw [hparts.a_eq, hparts.b_eq, hparts.zA_eq]
    exact hopening
  · intro sums t hsums ht
    rw [hx]
    rw [hparts.that_eq] at ht
    exact sigmaCheck_responses E h0 h1 hparity htov hs ho
      (points_unblinded E h0 hpublished hfamilies hsums) hranged hresponded hu hparts.c_eq
      hparts.sSk_eq hparts.sR_eq hparts.sB_eq hparts.sTau_eq hparts.t1_eq hparts.t2_eq ht
  · intro t
    rw [hx]
    exact (verifyInnerProduct_accepts E hranged ho.ba_eq ho.bs_eq
      (by rw [hparts.c_eq]; exact hparts.ip_eq) hparts.ba_eq hparts.bs_eq hparts.mu_eq
      hparts.that_eq hy hne t).2.2

/-- Transfers are complete.  The prover returns a proof for a ring of every size, and the verifier
accepts it unless a challenge that it inverts is zero. -/
theorem transfer_complete (hG : Nat.card G = order) {s : Statement G} {witness : Witness}
    {idx0 idx1 m : Nat} {burnValue : UInt64} (hpos : 1 ≤ m) (hm : m ≤ 7)
    (hidx0 : witness.index[0]? = some idx0) (hidx1 : witness.index[1]? = some idx1)
    (h0 : idx0 < 2 ^ m) (h1 : idx1 < 2 ^ m) (hparity : idx0 % 2 ≠ idx1 % 2)
    (hfees : s.fees.toNat + burnValue.toNat < 2 ^ 64)
    (hs : Consistent E s witness idx0 idx1 (2 ^ m) burnValue)
    (scid : FixedBytes 32) (scidIndex : Nat) (txid : FixedBytes 32) (rng : Rng) :
    ∃ p, generateProof E scid scidIndex s witness
        (smul (nonceBase E s.roothash scid scidIndex) witness.secretKey) txid burnValue rng =
          some p ∧
      ((challengeY E p txid : Scalar) ≠ 0 →
        (∀ x ∈ InnerProducts.challengesFrom E (nextChallenge E p.c) p.ip.ls p.ip.rs,
          (x : Scalar) ≠ 0) →
        verify E p scid scidIndex s txid burnValue = some true) := by
  let _ := moduleOfCard hG
  obtain ⟨k, rfl⟩ : ∃ k, m = k + 1 := ⟨m - 1, by omega⟩
  obtain ⟨p, hgenerate, hu, hp⟩ := generateProof_returns E hm hidx0 hidx1 h0 h1 hfees hs.complete
    scid scidIndex (smul (nonceBase E s.roothash scid scidIndex) witness.secretKey) txid rng
  exact ⟨p, hgenerate, fun hy hne =>
    verify_generated E hm h0 h1 hparity hfees hs scid scidIndex hu hp hy hne⟩

/-- A transfer of seven, of a balance of eleven that is left, between the two members of a ring. -/
def pairWitness : Witness where
  secretKey := 3
  r := 5
  transferAmount := 7
  balance := 11
  index := [0, 1]

def zeroBytes : FixedBytes 32 := ⟨beBytes 32 0, beBytes_length 32 0⟩

def pairStatement : Statement Scalar where
  ringSize := 2
  cln := [29, 0]
  crn := [6, 0]
  bytesPerPublickey := 0
  publickeylistPointers := []
  publickeylist := [((3 : Nat) : Scalar), 4]
  c := [5, 27]
  d := 5
  fees := 1
  roothash := zeroBytes

theorem generator_oneHashes : InnerProducts.oneHashes.generators.g = 1 := by
  have hvalue : InnerProducts.oneHashes.hashToNumber (protocolConstant ++ [0x47]) = 1 :=
    show beValue (beBytes 32 1) = 1 by decide
  change ((InnerProducts.oneHashes.hashToNumber (protocolConstant ++ [0x47]) : Nat) : Scalar) = 1
  rw [hvalue, Nat.cast_one]

theorem pair_consistent :
    Consistent InnerProducts.oneHashes pairStatement pairWitness 0 1 (2 ^ 1) 2 := by
  constructor
  · exact ⟨rfl, rfl, rfl, rfl⟩
  all_goals
    simp only [smul_eq, generator_oneHashes, smul_eq_mul, pairStatement, pairWitness,
      List.getD_cons_zero, List.getD_cons_succ, UInt64.toNat_ofNat]
  · norm_num
  · norm_num
  · norm_num
  · norm_num
  · intro j hj h0 h1
    omega
  · norm_num

theorem transfer_complete_pair :
    ∃ p, generateProof InnerProducts.oneHashes zeroBytes 0 pairStatement pairWitness
        (smul (nonceBase InnerProducts.oneHashes pairStatement.roothash zeroBytes 0) 3) zeroBytes 2
          id = some p ∧
      verify InnerProducts.oneHashes p zeroBytes 0 pairStatement zeroBytes 2 = some true := by
  obtain ⟨p, hgenerate, haccepted⟩ := @transfer_complete _ _ _ InnerProducts.oneHashes
    InnerProducts.card_scalar pairStatement pairWitness _ _ 1 _ (le_refl 1) (by decide) rfl rfl
    (by decide) (by decide) (by decide) (by decide) pair_consistent zeroBytes 0 zeroBytes id
  refine ⟨p, hgenerate, haccepted ?_ (InnerProducts.challengesFrom_oneHashes _ _ _)⟩
  rw [challengeY, nextChallenge, InnerProducts.reducedHash_oneHashes, Nat.cast_one]
  exact one_ne_zero

end Whole

end DirtybirdMiner.Crypto.Completeness
