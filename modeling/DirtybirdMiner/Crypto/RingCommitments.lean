import DirtybirdMiner.Crypto.Openings
import DirtybirdMiner.Crypto.Verifier

/-!
The second phase of the prover: the columns of the polynomials that hide the two indices, and what
they commit to in the ring, blinded.
-/

namespace DirtybirdMiner.Crypto.RingCommitments

open DirtybirdMiner.Lib.Checked
open DirtybirdMiner.Lib.Tables
open DirtybirdMiner.Crypto
open DirtybirdMiner.Crypto.Scalars (order Scalar)
open DirtybirdMiner.Crypto.Statements (PointCodec Statement)
open DirtybirdMiner.Crypto.Vectors
open DirtybirdMiner.Crypto.Hashing
open DirtybirdMiner.Crypto.Polynomials
open DirtybirdMiner.Crypto.Prover
open DirtybirdMiner.Crypto.Verifier (shift shift_succ Complete)

section Columns

/-- A coefficient of the row of a member. -/
def coefficient (a b : List Nat) (k j : Nat) : Nat := (row a b j).getD k 0

theorem columns_eq {a b a' b' : List Nat} {lo hi m : Nat} (ha : slice a lo hi = some a')
    (hb : slice b lo hi = some b') (ha' : a'.length = m) (hb' : b'.length = m) :
    columns a b lo hi m = some (table m fun k => table (2 ^ m) (coefficient a' b' k)) := by
  rw [columns, ha, hb]
  simp only [Option.bind_eq_bind, Option.bind_some]
  rw [recursivePolynomials_eq ha' hb', Option.bind_some,
    transposePolynomials_eq ha' hb' (recursivePolynomials_eq ha' hb')]
  rfl

theorem slice_first {α : Type} {l : List α} {m : Nat} (h : l.length = 2 * m) :
    slice l 0 m = some (l.take m) := by
  rw [slice, if_pos (by omega), List.drop_zero, Nat.sub_zero]

theorem slice_second {α : Type} {l : List α} {m : Nat} (h : l.length = 2 * m) :
    slice l m (2 * m) = some (l.drop m) := by
  rw [slice, if_pos (by omega), List.take_of_length_le (by rw [List.length_drop, h])]

end Columns

section Sums

variable {G : Type} [AddCommGroup G]

/-- A combination of the points of the ring, with a blinding. -/
def masked (points : List G) (n : Nat) (e : Nat → Nat) (blind : G) : G :=
  ∑ j ∈ Finset.range n, smul (points.getD j 0) (e j) + blind

theorem cnGRound_eq {cln crn : List G} {n : Nat} (e : Nat → Nat) (x y : G) :
    cnGRound (table n fun j => { left := some (cln.getD j 0), right := crn.getD j 0 }) (table n e)
        { left := some x, right := y } =
      some { left := some (masked cln n e x), right := masked crn n e y } := by
  have hloop := @forUp_states _ (fun j (acc : Eg G) => do
      let item ← (table n fun j => ({ left := some (cln.getD j 0), right := crn.getD j 0 } : Eg G))[j]?
      let e ← (table n e)[j]?
      some (acc.add (item.mul e)))
    (fun i => { left := some (∑ j ∈ Finset.range i, smul (cln.getD j 0) (e j))
                right := ∑ j ∈ Finset.range i, smul (crn.getD j 0) (e j) }) 0 n (by
      intro i _ hi
      rw [getElem?_table _ (by omega), getElem?_table e (by omega), Finset.sum_range_succ,
        Finset.sum_range_succ]
      rfl)
  rw [Nat.zero_add] at hloop
  rw [cnGRound, table_length]
  exact congrArg (fun r => r.bind fun acc => some (acc.add { left := some x, right := y })) hloop

theorem blindedSum_eq {points : List G} {n : Nat} (hpoints : points.length = n) (e : Nat → Nat)
    (x y : G) :
    blindedSum points (table n e) { left := some x, right := y } =
      some { left := some (masked points n e x), right := y } := by
  rw [blindedSum, hpoints, forUp_sum fun j => smul (points.getD j 0) (e j), masked, zero_add]
  · rfl
  · intro j hj s
    rw [getElem?_eq_getD 0 (by omega), getElem?_table e hj]
    rfl

end Sums

section Amounts

/-- What a turn of the loop adds for a column, without the power of the challenge. -/
def amountTerm (transfer amountFees : Nat) (idx0 idx1 n : Nat) (p q : Nat → Nat → Nat) (i k : Nat) :
    Nat :=
  let row := if i % 2 = 0 then p k else q k
  Scalars.add
    (Scalars.mul (Scalars.sub (Scalars.neg transfer) amountFees)
      (row ((idx0 + n - (i - i % 2)) % n)))
    (Scalars.mul transfer (row ((idx1 + n - (i - i % 2)) % n)))

theorem shift_succ_mul (v i : Nat) :
    (if i ≠ 0 then Scalars.mul (shift v i) v else shift v i) = shift v (i + 1) := by
  rw [← shift_succ, if_congr Nat.pos_iff_ne_zero rfl rfl]
  rfl

variable {G : Type} [AddCommGroup G] (E : Hashes G)

/-- A left side of `C_XG` after some turns. -/
def amountSum (terms : Nat → Nat → Nat) (v : Nat) (x : Nat → G) (turns k : Nat) : G :=
  x k + ∑ i ∈ Finset.range turns, smul E.generators.g (Scalars.mul (shift v i) (terms i k))

theorem amountSum_succ (terms : Nat → Nat → Nat) (v : Nat) (x : Nat → G) (turns k : Nat) :
    amountSum E terms v x (turns + 1) k = amountSum E terms v x turns k +
      smul E.generators.g (Scalars.mul (shift v turns) (terms turns k)) := by
  rw [amountSum, Finset.sum_range_succ, ← add_assoc]
  rfl

/-- One turn of the loop that fills `C_XG`. -/
theorem amountTurn_eq (witness : Witness) {idx0 idx1 n : Nat} (hn : 0 < n) (amountFees m v : Nat)
    (p q : Nat → Nat → Nat) (x y : Nat → G) (i : Nat) {terms : Nat → Nat → Nat}
    (hterms : terms = amountTerm witness.transferAmount.toNat amountFees idx0 idx1 n p q) :
    amountTurn E witness idx0 idx1 n amountFees (table m fun k => table n (p k))
        (table m fun k => table n (q k)) v i
        (table m fun k => { left := some (amountSum E terms v x i k), right := y k }, shift v i) =
      some (table m fun k => { left := some (amountSum E terms v x (i + 1) k), right := y k },
        shift v (i + 1)) := by
  have hmat : (if i % 2 = 0 then table m fun k => table n (p k)
      else table m fun k => table n (q k)) =
        table m fun k => table n (if i % 2 = 0 then p k else q k) := by
    split <;> rfl
  rw [amountTurn]
  simp only [hmat, table_length]
  rw [mapM_table (f := fun k =>
    ({ left := some (amountSum E terms v x (i + 1) k), right := y k } : Eg G))]
  · rw [Option.bind_eq_bind, Option.bind_some, shift_succ_mul]
  · intro k hk
    rw [getElem?_table _ hk, getElem?_table _ hk]
    simp only [Option.bind_eq_bind, Option.bind_some]
    rw [getElem?_table _ (Nat.mod_lt _ hn), getElem?_table _ (Nat.mod_lt _ hn), amountSum_succ,
      hterms]
    rfl

/-- All turns. -/
theorem amountTurns_eq (witness : Witness) {idx0 idx1 n : Nat} (hn : 0 < n) (amountFees m v : Nat)
    (p q : Nat → Nat → Nat) (x y : Nat → G) {terms : Nat → Nat → Nat}
    (hterms : terms = amountTerm witness.transferAmount.toNat amountFees idx0 idx1 n p q) :
    forUp (amountTurn E witness idx0 idx1 n amountFees (table m fun k => table n (p k))
        (table m fun k => table n (q k)) v) 0 n
        (table m fun k => { left := some (x k), right := y k }, 1) =
      some (table m fun k => { left := some (amountSum E terms v x n k), right := y k },
        shift v n) := by
  have hloop := forUp_states
    (fun c => (table m fun k => ({ left := some (amountSum E terms v x c k), right := y k } : Eg G),
      shift v c)) 0 n fun i _ _ => amountTurn_eq E witness hn amountFees m v p q x y i hterms
  have hstart : ∀ k, amountSum E terms v x 0 k = x k := by
    intro k
    rw [amountSum, Finset.sum_range_zero, add_zero]
  simp only [hstart, Nat.zero_add] at hloop
  exact hloop

end Amounts

section Phase

variable {G : Type} [AddCommGroup G] (E : Hashes G)

/-- The left side of a commitment to zero. -/
def zeroLeft (key : G) (r : Nat) : G := smul E.generators.g 0 + smul key r

theorem commitElgamal_zero (key : G) (r : Nat) :
    commitElgamal E key 0 r =
      { left := some (zeroLeft E key r), right := smul E.generators.g r } := rfl

/-- The blinding scalars of `C_XG`. -/
def amountBlind (o : Opening G) (m : Nat) : Nat → Nat := skip o.rng (3 * m)

/-- What the second phase has committed to, for the columns of the two families. -/
structure Committed (s : Statement G) (idx0 m : Nat) (o : Opening G) (p q : Nat → Nat → Nat)
    (terms : Nat → Nat → Nat) (t : RingPart G) : Prop where
  cn_eq : t.cn = table (2 ^ m) fun j =>
    { left := some (s.cln.getD j 0), right := s.crn.getD j 0 }
  pMat_eq : t.pMat = table m fun k => table (2 ^ m) (p k)
  qMat_eq : t.qMat = table m fun k => table (2 ^ m) (q k)
  blinding_eq : t.blinding = drawBlinding E (s.publickeylist.getD idx0 0) m o.rng
  cnG_eq : t.cnG = table m fun k => {
    left := some (masked s.cln (2 ^ m) (p k)
      (zeroLeft E (s.publickeylist.getD idx0 0) (o.rng (3 * k))))
    right := masked s.crn (2 ^ m) (p k) (smul E.generators.g (o.rng (3 * k))) }
  c0G_eq : t.c0G = table m fun k => {
    left := some (masked s.c (2 ^ m) (p k)
      (zeroLeft E (s.publickeylist.getD idx0 0) (o.rng (3 * k + 1))))
    right := smul E.generators.g (o.rng (3 * k + 1)) }
  y0G_eq : t.y0G = table m fun k => {
    left := some (masked s.publickeylist (2 ^ m) (p k)
      (zeroLeft E (s.publickeylist.getD idx0 0) (o.rng (3 * k + 2))))
    right := smul E.generators.g (o.rng (3 * k + 2)) }
  cXG_eq : t.cXG = table m fun k => {
    left := some (amountSum E terms o.v (fun k => zeroLeft E s.d (amountBlind o m k)) (2 ^ m) k)
    right := smul E.generators.g (amountBlind o m k) }

theorem ringPhase_returns {s : Statement G} {witness : Witness} {idx0 idx1 m : Nat}
    {burnValue : UInt64} {o : Opening G} (hs : Complete s (2 ^ m)) (h0 : idx0 < 2 ^ m)
    (hfees : s.fees.toNat + burnValue.toNat < 2 ^ 64) (ha : o.a.length = 2 * m)
    (hb : o.b.length = 2 * m) {p q terms : Nat → Nat → Nat}
    (hp : p = coefficient (o.a.take m) (o.b.take m))
    (hq : q = coefficient (o.a.drop m) (o.b.drop m))
    (hterms : terms = amountTerm witness.transferAmount.toNat (s.fees.toNat + burnValue.toNat)
      idx0 idx1 (2 ^ m) p q) :
    ∃ t, ringPhase E s witness idx0 idx1 (2 ^ m) m burnValue o = some t ∧
      Committed E s idx0 m o p q terms t := by
  have hn : 0 < 2 ^ m := Nat.two_pow_pos m
  have hcn : (List.range s.c.length).mapM (fun i => do
      some { left := some (← s.cln[i]?), right := ← s.crn[i]? : Eg G }) =
        some (table (2 ^ m) fun j => { left := some (s.cln.getD j 0), right := s.crn.getD j 0 }) := by
    rw [hs.c_length]
    apply mapM_table
    intro j hj
    rw [getElem?_eq_getD 0 (by rw [hs.cln_length]; exact hj),
      getElem?_eq_getD 0 (by rw [hs.crn_length]; exact hj)]
    rfl
  have hpMat := columns_eq (slice_first ha) (slice_first hb)
    (m := m) (by rw [List.length_take]; omega) (by rw [List.length_take]; omega)
  have hqMat := columns_eq (slice_second ha) (slice_second hb)
    (m := m) (by rw [List.length_drop]; omega) (by rw [List.length_drop]; omega)
  rw [← hp] at hpMat
  rw [← hq] at hqMat
  have hsender := getElem?_eq_getD (l := s.publickeylist) (i := idx0) 0
    (by rw [hs.publickeylist_length]; exact h0)
  have hamounts := amountTurns_eq E witness hn (s.fees.toNat + burnValue.toNat) m o.v p q
    (fun k => zeroLeft E s.d (amountBlind o m k))
    (fun k => smul E.generators.g (amountBlind o m k)) hterms
  set pk := s.publickeylist.getD idx0 0 with hpk
  have hcnG : ∀ k < m, ((table m fun k => table (2 ^ m) (p k))[k]?.bind fun row =>
      (drawBlinding E pk m o.rng).phi[k]?.bind fun phi =>
        cnGRound (table (2 ^ m) fun j => { left := some (s.cln.getD j 0), right := s.crn.getD j 0 })
          row phi) =
      some {
        left := some (masked s.cln (2 ^ m) (p k) (zeroLeft E pk (o.rng (3 * k))))
        right := masked s.crn (2 ^ m) (p k) (smul E.generators.g (o.rng (3 * k))) } := by
    intro k hk
    rw [drawBlinding, getElem?_table _ hk, getElem?_table _ hk]
    exact cnGRound_eq (p k) _ _
  have hc0G : ∀ k < m, ((table m fun k => table (2 ^ m) (p k))[k]?.bind fun row =>
      (drawBlinding E pk m o.rng).chi[k]?.bind fun chi => blindedSum s.c row chi) =
      some {
        left := some (masked s.c (2 ^ m) (p k) (zeroLeft E pk (o.rng (3 * k + 1))))
        right := smul E.generators.g (o.rng (3 * k + 1)) } := by
    intro k hk
    rw [drawBlinding, getElem?_table _ hk, getElem?_table _ hk]
    exact blindedSum_eq hs.c_length (p k) _ _
  have hy0G : ∀ k < m, ((table m fun k => table (2 ^ m) (p k))[k]?.bind fun row =>
      (drawBlinding E pk m o.rng).psi[k]?.bind fun psi => blindedSum s.publickeylist row psi) =
      some {
        left := some (masked s.publickeylist (2 ^ m) (p k) (zeroLeft E pk (o.rng (3 * k + 2))))
        right := smul E.generators.g (o.rng (3 * k + 2)) } := by
    intro k hk
    rw [drawBlinding, getElem?_table _ hk, getElem?_table _ hk]
    exact blindedSum_eq hs.publickeylist_length (p k) _ _
  refine ⟨{
    cn := table (2 ^ m) fun j => { left := some (s.cln.getD j 0), right := s.crn.getD j 0 }
    pMat := table m fun k => table (2 ^ m) (p k)
    qMat := table m fun k => table (2 ^ m) (q k)
    blinding := drawBlinding E pk m o.rng
    cnG := table m fun k => {
      left := some (masked s.cln (2 ^ m) (p k) (zeroLeft E pk (o.rng (3 * k))))
      right := masked s.crn (2 ^ m) (p k) (smul E.generators.g (o.rng (3 * k))) }
    c0G := table m fun k => {
      left := some (masked s.c (2 ^ m) (p k) (zeroLeft E pk (o.rng (3 * k + 1))))
      right := smul E.generators.g (o.rng (3 * k + 1)) }
    y0G := table m fun k => {
      left := some (masked s.publickeylist (2 ^ m) (p k) (zeroLeft E pk (o.rng (3 * k + 2))))
      right := smul E.generators.g (o.rng (3 * k + 2)) }
    cXG := table m fun k => {
      left := some (amountSum E terms o.v (fun k => zeroLeft E s.d (amountBlind o m k)) (2 ^ m) k)
      right := smul E.generators.g (amountBlind o m k) }
    rng := skip (skip o.rng (3 * m)) m }, ?_, ⟨rfl, rfl, rfl, rfl, rfl, rfl, rfl, rfl⟩⟩
  rw [ringPhase, hcn, Option.bind_eq_bind, Option.bind_some, hpMat, hqMat, hsender]
  simp only [Option.bind_eq_bind, Option.bind_some]
  rw [mapM_table hcnG, mapM_table hc0G, mapM_table hy0G, require_eq_some (hs.c_length ▸ hn),
    require_eq_some hfees]
  simp only [Option.bind_some, commitElgamal_zero]
  unfold amountBlind at hamounts ⊢
  rw [hamounts, Option.bind_some]

end Phase

end DirtybirdMiner.Crypto.RingCommitments
