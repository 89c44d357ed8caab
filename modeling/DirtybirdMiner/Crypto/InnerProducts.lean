import DirtybirdMiner.Crypto.Hashing
import DirtybirdMiner.Crypto.Proofs
import DirtybirdMiner.Lib.Folding

/-!
The inner-product argument, from `crypto/src/inner_product.rs`: the prover folds the
vectors recursively, and the verifier unrolls all rounds with a table of exponents.
-/

namespace DirtybirdMiner.Crypto.InnerProducts

open DirtybirdMiner.Lib.Bytes
open DirtybirdMiner.Lib.Checked
open DirtybirdMiner.Lib.Tables
open DirtybirdMiner.Lib.Folding
open DirtybirdMiner.Crypto
open DirtybirdMiner.Crypto.Scalars (order Scalar)
open DirtybirdMiner.Crypto.Statements (PointCodec marshal compress to32Be)
open DirtybirdMiner.Crypto.Proofs (InnerProduct)
open DirtybirdMiner.Crypto.Vectors
open DirtybirdMiner.Crypto.Hashing

section Functions

variable {G : Type} [AddCommGroup G] [PointCodec G] (E : Hashes G)

/-- The challenge of a round. -/
def roundChallenge (prev : Nat) (l r : G) : Nat :=
  E.reducedHash (to32Be prev ++ (marshal l).1 ++ (marshal r).1)

/-- The halves of the four vectors. -/
structure Halves (G : Type) where
  aL : List Nat
  aR : List Nat
  bL : List Nat
  bR : List Nat
  gL : List G
  gR : List G
  hL : List G
  hR : List G

def halve (gs hs : List G) (a b : List Nat) : Option (Halves G) := do
  let n := a.length
  let np := n / 2
  some {
    aL := ← slice a 0 np, aR := ← slice a np n
    bL := ← slice b 0 np, bR := ← slice b np n
    gL := ← slice gs 0 np, gR := ← slice gs np n
    hL := ← slice hs 0 np, hR := ← slice hs np n }

/-- `l` and `r`. -/
def Halves.cross (t : Halves G) (u : G) : Option (G × G) := do
  let cl ← FieldVector.innerProduct t.aL t.bR
  let cr ← FieldVector.innerProduct t.aR t.bL
  let l := (← PointVector.commit t.gR t.aL) + (← PointVector.commit t.hL t.bR) + smul u cl
  let r := (← PointVector.commit t.gL t.aR) + (← PointVector.commit t.hR t.bL) + smul u cr
  some (l, r)

/-- What a round of the prover leaves. -/
structure Round (G : Type) where
  l : G
  r : G
  x : Nat
  gs : List G
  hs : List G
  a : List Nat
  b : List Nat

def Halves.fold (t : Halves G) (l r : G) (x : Nat) : Option (Round G) := do
  let xinv := Scalars.inv x
  let gs ← PointVector.add (PointVector.times t.gL xinv) (PointVector.times t.gR x)
  let hs ← PointVector.add (PointVector.times t.hL x) (PointVector.times t.hR xinv)
  let a ← FieldVector.add (FieldVector.times t.aL x) (FieldVector.times t.aR xinv)
  let b ← FieldVector.add (FieldVector.times t.bL xinv) (FieldVector.times t.bR x)
  some { l, r, x, gs, hs, a, b }

def round (gs hs : List G) (u : G) (a b : List Nat) (prev : Nat) : Option (Round G) := do
  let t ← halve gs hs a b
  let (l, r) ← t.cross u
  t.fold l r (roundChallenge E prev l r)

/-- Every call halves the vectors, so that a step for every element is enough; with
empty vectors the calls would not end. -/
def recurse : Nat → List G → List G → G → List Nat → List Nat → Nat → List G → List G →
    Option (InnerProduct G)
  | 0, _, _, _, _, _, _, _, _ => none
  | steps + 1, gs, hs, u, a, b, prev, ls, rs =>
      if a.length = 1 then do some { a := ← a[0]?, b := ← b[0]?, ls, rs }
      else do
        let t ← round E gs hs u a b prev
        recurse steps t.gs t.hs u t.a t.b t.x (ls ++ [t.l]) (rs ++ [t.r])

def generate (gs hs : List G) (u : G) (a b : List Nat) (salt : Nat) : Option (InnerProduct G) :=
  recurse E a.length gs hs u a b salt [] []

/-- `exponents` and `bits`. -/
structure Exponents where
  exponents : List Nat
  bits : List Bool

/-- One turn of the inner loop, which writes a cell only once. -/
def fillCell (challenges : List Nat) (logN i j : Nat) (t : Exponents) : Option Exponents := do
  let i1 := 2 ^ j + i
  if ← t.bits[i1]? then some t
  else do
    require (j < logN)
    let ch ← challenges[logN - 1 - j]?
    let temp := Scalars.mul ch ch
    let e ← t.exponents[i]?
    some { exponents := t.exponents.set i1 (Scalars.mul e temp), bits := t.bits.set i1 true }

/-- `while (1 << j) + i < n`, at most once for every bit of `n`. -/
def fillRow (challenges : List Nat) (logN n i : Nat) (t : Exponents) : Option Exponents := do
  let s ← whileLoop (fun s : Nat × Exponents => some (decide (2 ^ s.1 + i < n)))
    (fun s => do some (s.1 + 1, ← fillCell challenges logN i s.1 s.2)) n (0, t)
  some s.2

def fillExponents (challenges : List Nat) (logN n : Nat) : Option (List Nat) := do
  let exp := challenges.foldl Scalars.mul 1
  let t ← forUp (fillRow challenges logN n) 0 (n / 2)
    { exponents := (List.replicate n 0).set 0 (Scalars.inv exp), bits := List.replicate n false }
  some t.exponents

/-- `o`, `challenges` and `p`. -/
structure Unrolled (G : Type) where
  o : Nat
  challenges : List Nat
  p : G

def unrollRound (ip : InnerProduct G) (i : Nat) (s : Unrolled G) : Option (Unrolled G) := do
  let l ← ip.ls[i]?
  let r ← ip.rs[i]?
  let o := roundChallenge E s.o l r
  let oInv := Scalars.inv o
  let pl := Scalars.mul o o • l
  let pr := Scalars.mul oInv oInv • r
  some { o, challenges := s.challenges ++ [o], p := pl + pr + s.p }

/-- One turn of the loop over the generators. -/
def addGenerators (gs hs : List G) (exponents : List Nat) (n i : Nat) (s : G × G) :
    Option (G × G) := do
  let g ← gs[i]?
  let e ← exponents[i]?
  let h ← hs[i]?
  let e' ← exponents[n - 1 - i]?
  some (s.1 + e • g, s.2 + e' • h)

def verify (ip : InnerProduct G) (hs : List G) (u pIn : G) (salt : Nat) : Option Bool := do
  let logN := ip.ls.length
  if ip.ls.length ≠ ip.rs.length then some false
  else do
    require (logN < 64)
    let n := 2 ^ logN
    let s ← forUp (unrollRound E ip) 0 logN { o := salt, challenges := [], p := pIn }
    let exponents ← fillExponents s.challenges logN n
    let (gtemp, htemp) ← forUp (addGenerators E.generators.gs hs exponents n) 0 n (0, 0)
    let gtemp := smul gtemp ip.a
    let htemp := smul htemp ip.b
    let utemp := Scalars.mul ip.a ip.b • u
    let pCalc := gtemp + htemp + utemp
    some (decide (compress pCalc = compress s.p))

end Functions

section Prover

variable {G : Type} [AddCommGroup G] [PointCodec G] (E : Hashes G)

/-- The cross terms of a round. -/
def crossTerm (n : Nat) (g h : Nat → G) (u : G) (a b : Nat → Nat) : G :=
  ∑ i ∈ Finset.range n, smul (g i) (a i) + ∑ i ∈ Finset.range n, smul (h i) (b i) +
    smul u (dot a b n)

omit [AddCommGroup G] [PointCodec G] in
theorem halve_table {n : Nat} (g h : Nat → G) (a b : Nat → Nat) :
    halve (table (n + n) g) (table (n + n) h) (table (n + n) a) (table (n + n) b) =
      some {
        aL := table n a, aR := table n fun i => a (n + i)
        bL := table n b, bR := table n fun i => b (n + i)
        gL := table n g, gR := table n fun i => g (n + i)
        hL := table n h, hR := table n fun i => h (n + i) } := by
  have hhalf : (n + n) / 2 = n := by omega
  have hle : n ≤ n + n := by omega
  rw [halve, table_length, hhalf, slice_lower a hle, slice_lower b hle, slice_lower g hle,
    slice_lower h hle, slice_upper, slice_upper, slice_upper, slice_upper]
  rfl

/-- A round on vectors of even length. -/
theorem round_table {n : Nat} (g h : Nat → G) (u : G) (a b : Nat → Nat) (prev : Nat) {l r : G}
    {x : Nat} (hl : l = crossTerm n (fun i => g (n + i)) h u a fun i => b (n + i))
    (hr : r = crossTerm n g (fun i => h (n + i)) u (fun i => a (n + i)) b)
    (hx : x = roundChallenge E prev l r) :
    round E (table (n + n) g) (table (n + n) h) u (table (n + n) a) (table (n + n) b) prev =
      some {
        l, r, x
        gs := table n fun i => smul (g i) (Scalars.inv x) + smul (g (n + i)) x
        hs := table n fun i => smul (h i) x + smul (h (n + i)) (Scalars.inv x)
        a := table n fun i =>
          Scalars.add (Scalars.mul (a i) x) (Scalars.mul (a (n + i)) (Scalars.inv x))
        b := table n fun i =>
          Scalars.add (Scalars.mul (b i) (Scalars.inv x)) (Scalars.mul (b (n + i)) x) } := by
  have hcross : (Halves.mk (table n a) (table n fun i => a (n + i)) (table n b)
      (table n fun i => b (n + i)) (table n g) (table n fun i => g (n + i)) (table n h)
      (table n fun i => h (n + i))).cross u = some (l, r) := by
    simp only [Halves.cross, innerProduct_table, commit_table, Option.bind_eq_bind,
      Option.bind_some, hl, hr, crossTerm]
  rw [round, halve_table, Option.bind_eq_bind, Option.bind_some, hcross, Option.bind_eq_bind,
    Option.bind_some]
  simp only [← hx, Halves.fold, PointVector.add, PointVector.times, FieldVector.add,
    FieldVector.times, timesVec_table, addVec_table, Option.bind_eq_bind, Option.bind_some]
  rfl

/-- The challenges of all rounds. -/
def challengesFrom (prev : Nat) : List G → List G → List Nat
  | l :: ls, r :: rs =>
      roundChallenge E prev l r :: challengesFrom (roundChallenge E prev l r) ls rs
  | _, _ => []

/-- What the verifier adds to the commitment in all rounds. -/
def roundsSum [Module Scalar G] : List Nat → List G → List G → G
  | x :: xs, l :: ls, r :: rs =>
      ((x : Scalar) * x) • l + ((x : Scalar)⁻¹ * (x : Scalar)⁻¹) • r + roundsSum xs ls rs
  | _, _, _ => 0

/-- The challenges as elements of the field. -/
def values (xs : List Nat) : List Scalar := xs.map Nat.cast

omit [PointCodec G] in
theorem crossTerm_eq [Module Scalar G] (n : Nat) (g h : Nat → G) (u : G) (a b : Nat → Nat) :
    crossTerm n g h u a b =
      commitment n g h u (fun i => (a i : Scalar)) (fun i => (b i : Scalar)) := by
  simp only [crossTerm, commitment, smul_eq, cast_dot]

omit [AddCommGroup G] in
theorem challengesFrom_length (prev : Nat) {ls rs : List G} (h : ls.length = rs.length) :
    (challengesFrom E prev ls rs).length = ls.length := by
  induction ls generalizing prev rs with
  | nil => simp [challengesFrom]
  | cons l ls ih =>
      cases rs with
      | nil => cases h
      | cons r rs =>
          rw [challengesFrom, List.length_cons, List.length_cons,
            ih _ (Nat.succ.inj h)]

/-- The prover returns a proof with a round for every halving; if no challenge is
zero, its two scalars open the commitment with the signed products. -/
theorem recurse_eq {k steps : Nat} (hsteps : k < steps) (g h : Nat → G) (u : G)
    (a b : Nat → Nat) (prev : Nat) (ls rs : List G) :
    ∃ aFin bFin ls' rs', recurse E steps (table (2 ^ k) g) (table (2 ^ k) h) u
        (table (2 ^ k) a) (table (2 ^ k) b) prev ls rs =
          some { a := aFin, b := bFin, ls := ls ++ ls', rs := rs ++ rs' } ∧
      ls'.length = k ∧ rs'.length = k ∧
      ∀ [Module Scalar G], (∀ x ∈ challengesFrom E prev ls' rs', (x : Scalar) ≠ 0) →
        (aFin : Scalar) • ∑ i ∈ Finset.range (2 ^ k),
            signed (values (challengesFrom E prev ls' rs')) i • g i +
          (bFin : Scalar) • ∑ i ∈ Finset.range (2 ^ k),
            (signed (values (challengesFrom E prev ls' rs')) i)⁻¹ • h i +
          ((aFin : Scalar) * bFin) • u =
        roundsSum (challengesFrom E prev ls' rs') ls' rs' +
          commitment (2 ^ k) g h u (fun i => (a i : Scalar)) fun i => (b i : Scalar) := by
  obtain ⟨steps, rfl⟩ : ∃ n, steps = n + 1 := ⟨steps - 1, by omega⟩
  induction k generalizing steps g h a b prev ls rs with
  | zero =>
      refine ⟨a 0, b 0, [], [], ?_, rfl, rfl, ?_⟩
      · simp [recurse, table]
      · intro _ _
        simp [challengesFrom, values, signed, roundsSum, commitment]
  | succ k ih =>
      obtain ⟨steps, rfl⟩ : ∃ n, steps = n + 1 := ⟨steps - 1, by omega⟩
      have hpow : 2 ^ (k + 1) = 2 ^ k + 2 ^ k := by rw [pow_succ, mul_two]
      have hlong : ¬2 ^ k + 2 ^ k = 1 := by
        have := Nat.two_pow_pos k
        omega
      set l := crossTerm (2 ^ k) (fun i => g (2 ^ k + i)) h u a fun i => b (2 ^ k + i) with hl
      set r := crossTerm (2 ^ k) g (fun i => h (2 ^ k + i)) u (fun i => a (2 ^ k + i)) b with hr
      set x := roundChallenge E prev l r with hx
      obtain ⟨aFin, bFin, ls', rs', hrec, hls, hrs, hopen⟩ := ih
        (fun i => smul (g i) (Scalars.inv x) + smul (g (2 ^ k + i)) x)
        (fun i => smul (h i) x + smul (h (2 ^ k + i)) (Scalars.inv x))
        (fun i => Scalars.add (Scalars.mul (a i) x) (Scalars.mul (a (2 ^ k + i)) (Scalars.inv x)))
        (fun i => Scalars.add (Scalars.mul (b i) (Scalars.inv x)) (Scalars.mul (b (2 ^ k + i)) x))
        x (ls ++ [l]) (rs ++ [r]) steps (by omega)
      refine ⟨aFin, bFin, l :: ls', r :: rs', ?_, by rw [List.length_cons, hls],
        by rw [List.length_cons, hrs], ?_⟩
      · rw [hpow, recurse, table_length, if_neg hlong, round_table E g h u a b prev hl hr hx]
        simpa using hrec
      · intro _ hne
        have hchallenges : challengesFrom E prev (l :: ls') (r :: rs') =
            x :: challengesFrom E x ls' rs' := rfl
        rw [hchallenges, List.forall_mem_cons] at hne
        rw [hchallenges]
        replace hopen := hopen hne.2
        set xs := challengesFrom E x ls' rs' with hxs
        have hlen : (values xs).length = k := by
          rw [values, List.length_map, hxs, challengesFrom_length E x (hls.trans hrs.symm), hls]
        have hfold := commitment_fold (2 ^ k) g h u (fun i => (a i : Scalar))
          (fun i => (b i : Scalar)) hne.1
        rw [← crossTerm_eq, ← hl, ← crossTerm_eq, ← hr] at hfold
        have hsum := sum_signed (x : Scalar) (values xs) g
        have hsumInv := sum_signed_inv (x : Scalar) (values xs) h
        rw [hlen] at hsum hsumInv
        simp only [smul_eq, Scalars.cast_inv, Scalars.cast_add, Scalars.cast_mul,
          mul_comm _ (x : Scalar), mul_comm _ (x : Scalar)⁻¹] at hopen
        rw [hfold] at hopen
        rw [pow_succ' 2 k, show values (x :: xs) = (x : Scalar) :: values xs from rfl, hsum, hsumInv,
          hopen, roundsSum]
        abel

end Prover

section Exponents

/-- The cells that are written before the turn `j` of the row `i`: those whose index
without its highest bit is smaller than `i`, and those of the row so far. -/
def Written (i j c : Nat) : Prop := 0 < c ∧ (c - 2 ^ c.log2 < i ∨ ∃ j' < j, c = 2 ^ j' + i)

/-- The cells that are written hold the signed products, if no challenge is zero. -/
def Filled (challenges : List Nat) (n i j : Nat) (t : Exponents) : Prop :=
  ∃ (e : Nat → Nat) (w : Nat → Bool), t = { exponents := table n e, bits := table n w } ∧
    (∀ c < n, w c = true ↔ Written i j c) ∧
    ((∀ x ∈ challenges, (x : Scalar) ≠ 0) → ∀ c < n, c = 0 ∨ Written i j c →
      (e c : Scalar) = signed (values challenges) c)

theorem two_pow_log2_le {c : Nat} (hc : 0 < c) : 2 ^ c.log2 ≤ c :=
  (Nat.le_log2 hc.ne').mp (le_refl _)

/-- A cell that is not yet written has the bit of its turn as its highest. -/
theorem lt_two_pow_of_not_written {i j : Nat} (h : ¬Written i j (2 ^ j + i)) : i < 2 ^ j := by
  by_contra hle
  have hpos : 0 < 2 ^ j + i := by have := Nat.two_pow_pos j; omega
  have hlog : j + 1 ≤ (2 ^ j + i).log2 := by
    rw [Nat.le_log2 hpos.ne', pow_succ]
    omega
  have hpow : 2 ^ (j + 1) ≤ 2 ^ (2 ^ j + i).log2 := Nat.pow_le_pow_right (by decide) hlog
  have hle' := two_pow_log2_le hpos
  rw [pow_succ] at hpow
  exact h ⟨hpos, .inl (by have := Nat.two_pow_pos j; omega)⟩

theorem written_succ {i j c : Nat} : Written i (j + 1) c ↔ Written i j c ∨ c = 2 ^ j + i := by
  constructor
  · rintro ⟨hpos, hsmall | ⟨j', hj', rfl⟩⟩
    · exact .inl ⟨hpos, .inl hsmall⟩
    · rcases Nat.lt_succ_iff_lt_or_eq.mp hj' with hlt | rfl
      · exact .inl ⟨hpos, .inr ⟨j', hlt, rfl⟩⟩
      · exact .inr rfl
  · rintro (⟨hpos, hsmall | ⟨j', hj', rfl⟩⟩ | rfl)
    · exact ⟨hpos, .inl hsmall⟩
    · exact ⟨hpos, .inr ⟨j', by omega, rfl⟩⟩
    · exact ⟨by have := Nat.two_pow_pos j; omega, .inr ⟨j, Nat.lt_succ_self j, rfl⟩⟩

/-- The row before is complete. -/
theorem written_row {n i j c : Nat} (hrow : n ≤ 2 ^ j + i) (hc : c < n) :
    Written (i + 1) 0 c ↔ Written i j c := by
  constructor
  · rintro ⟨hpos, hsmall | ⟨j', hj', -⟩⟩
    · have hle := two_pow_log2_le hpos
      rcases Nat.lt_succ_iff_lt_or_eq.mp hsmall with hlt | heq
      · exact ⟨hpos, .inl hlt⟩
      · refine ⟨hpos, .inr ⟨c.log2, ?_, by omega⟩⟩
        by_contra hlarge
        have := Nat.pow_le_pow_right (show 0 < 2 by decide) (not_lt.mp hlarge)
        omega
    · cases hj'
  · rintro ⟨hpos, hsmall | ⟨j', -, rfl⟩⟩
    · exact ⟨hpos, .inl (by omega)⟩
    · refine ⟨hpos, .inl ?_⟩
      have hlog : j' ≤ (2 ^ j' + i).log2 := by
        rw [Nat.le_log2 hpos.ne']
        omega
      have := Nat.pow_le_pow_right (show 0 < 2 by decide) hlog
      omega

theorem fillCell_returns {challenges : List Nat} {k i j : Nat} {t : Exponents}
    (hk : challenges.length = k) (hlt : 2 ^ j + i < 2 ^ k)
    (h : Filled challenges (2 ^ k) i j t) :
    Returns (fillCell challenges k i j t) (Filled challenges (2 ^ k) i (j + 1)) := by
  obtain ⟨e, w, rfl, hw, he⟩ := h
  have hj : j < k := by
    rw [← Nat.pow_lt_pow_iff_right (show 1 < 2 by decide)]
    omega
  rw [fillCell]
  dsimp only
  rw [getElem?_table w hlt, Option.bind_eq_bind, Option.bind_some]
  cases hdone : w (2 ^ j + i) with
  | true =>
      have hwritten := (hw _ hlt).mp hdone
      have hsame : ∀ c, Written i (j + 1) c ↔ Written i j c := by
        intro c
        rw [written_succ]
        refine or_iff_left_of_imp ?_
        rintro rfl
        exact hwritten
      exact .pure ⟨e, w, rfl, fun c hc => by rw [hsame, hw c hc], fun hne c hc hcell =>
        he hne c hc (by rwa [hsame] at hcell)⟩
  | false =>
      have hnot : ¬Written i j (2 ^ j + i) := by
        rw [← hw _ hlt, hdone]
        exact Bool.false_ne_true
      have hi := lt_two_pow_of_not_written hnot
      have hindex : challenges[k - 1 - j]? = some (challenges.getD (k - 1 - j) 0) := by
        rw [List.getD_eq_getElem?_getD, List.getElem?_eq_getElem (by omega), Option.getD_some]
      set ch := challenges.getD (k - 1 - j) 0 with hch
      rw [if_neg Bool.false_ne_true, require_eq_some hj, hindex, getElem?_table e (by omega)]
      refine .pure ⟨Function.update e (2 ^ j + i) (Scalars.mul (e i) (Scalars.mul ch ch)),
        Function.update w (2 ^ j + i) true, ?_, ?_, ?_⟩
      · rw [set_table, set_table]
      · intro c hc
        rw [written_succ, Function.update_apply]
        split
        · rename_i heq
          simp [heq]
        · rename_i hne
          rw [hw c hc, or_iff_left hne]
      · intro hne c hc hcell
        rw [Function.update_apply]
        split
        · rename_i heq
          have hprev : (e i : Scalar) = signed (values challenges) i := by
            refine he hne i (by omega) ?_
            rcases Nat.eq_zero_or_pos i with hzero | hpos
            · exact .inl hzero
            · have := Nat.two_pow_pos i.log2
              exact .inr ⟨hpos, .inl (by omega)⟩
          have hvalue : (values challenges).reverse[j]? = some (ch : Scalar) := by
            rw [List.getElem?_reverse (by simpa [values, hk] using hj), values, List.length_map, hk,
              List.getElem?_map, hindex]
            rfl
          have hzero : (ch : Scalar) ≠ 0 := hne ch (List.mem_of_getElem? hindex)
          rw [heq, signed_set hi hvalue hzero, Scalars.cast_mul, Scalars.cast_mul, hprev]
        · rename_i hother
          refine he hne c hc ?_
          rcases hcell with hzero | hcell
          · exact .inl hzero
          · exact .inr ((written_succ.mp hcell).resolve_right hother)

theorem fillRow_returns {challenges : List Nat} {k i : Nat} {t : Exponents}
    (hk : challenges.length = k) (h : Filled challenges (2 ^ k) i 0 t) :
    Returns (fillRow challenges k (2 ^ k) i t) (Filled challenges (2 ^ k) (i + 1) 0) := by
  refine Returns.bind (m := fun s => Filled challenges (2 ^ k) (i + 1) 0 s.2) ?_ fun s => .pure
  refine whileLoop_returns (fun s : Nat × Exponents => Filled challenges (2 ^ k) i s.1 s.2)
    (fun s => 2 ^ k - s.1) _ _ _ h (by simp) ?_ ?_
  · rintro ⟨j, t⟩ ⟨e, w, rfl, hw, he⟩
    dsimp only
    by_cases hlt : 2 ^ j + i < 2 ^ k
    · have := Nat.lt_two_pow_self (n := j)
      exact .inl ⟨by simp [hlt], by omega⟩
    · refine .inr ⟨by simp [hlt], e, w, rfl, fun c hc => ?_, fun hne c hc hcell => ?_⟩
      · rw [hw c hc, written_row (not_lt.mp hlt) hc]
      · exact he hne c hc (by rwa [written_row (not_lt.mp hlt) hc] at hcell)
  · rintro ⟨j, t⟩ hfilled hcond
    have hlt : 2 ^ j + i < 2 ^ k := by simpa using hcond
    have := Nat.lt_two_pow_self (n := j)
    refine Returns.bind (fillCell_returns hk hlt hfilled) fun t' ht' => .pure ⟨ht', ?_⟩
    dsimp only
    omega

theorem cast_foldl_mul (xs : List Nat) (x : Nat) :
    ((xs.foldl Scalars.mul x : Nat) : Scalar) = x * (values xs).prod := by
  induction xs generalizing x with
  | nil => simp [values]
  | cons y xs ih =>
      rw [List.foldl_cons, ih, Scalars.cast_mul, mul_assoc]
      rfl

/-- The table holds the signed products in all cells. -/
theorem fillExponents_eq {challenges : List Nat} {k : Nat} (hk : challenges.length = k) :
    ∃ e : Nat → Nat, fillExponents challenges k (2 ^ k) = some (table (2 ^ k) e) ∧
      ((∀ x ∈ challenges, (x : Scalar) ≠ 0) →
        ∀ c < 2 ^ k, (e c : Scalar) = signed (values challenges) c) := by
  have hinit : Filled challenges (2 ^ k) 0 0
      { exponents := (List.replicate (2 ^ k) 0).set 0
          (Scalars.inv (challenges.foldl Scalars.mul 1))
        bits := List.replicate (2 ^ k) false } := by
    have hnone : ∀ c, ¬Written 0 0 c := by
      rintro c ⟨-, hsmall | ⟨_, hj, -⟩⟩
      · cases hsmall
      · cases hj
    refine ⟨Function.update (fun _ => 0) 0 (Scalars.inv (challenges.foldl Scalars.mul 1)),
      fun _ => false, ?_, ?_, ?_⟩
    · rw [replicate_eq_table, replicate_eq_table, set_table]
    · intro c _
      simp [hnone c]
    · rintro - c - (rfl | hcell)
      · rw [Function.update_self, Scalars.cast_inv, cast_foldl_mul, Nat.cast_one, one_mul,
          signed_zero]
      · exact absurd hcell (hnone c)
  obtain ⟨t, ht, e, w, rfl, hw, he⟩ := forUp_returns (fun i => Filled challenges (2 ^ k) i 0) 0
    (2 ^ k / 2) _ hinit fun i t _ _ => fillRow_returns hk
  refine ⟨e, by rw [fillExponents, ht]; rfl, ?_⟩
  intro hne c hc
  refine he hne c hc ?_
  rcases Nat.eq_zero_or_pos c with hzero | hpos
  · exact .inl hzero
  -- Without its highest bit the index is below the half.
  · have hlog : c.log2 + 1 ≤ k := by
      have := two_pow_log2_le hpos
      rw [Nat.succ_le_iff, ← Nat.pow_lt_pow_iff_right (show 1 < 2 by decide)]
      omega
    have hpow : 2 ^ (c.log2 + 1) ≤ 2 ^ k := Nat.pow_le_pow_right (by decide) hlog
    have hlt : c < 2 ^ (c.log2 + 1) := Nat.lt_log2_self
    rw [pow_succ] at hpow hlt
    exact .inr ⟨hpos, .inl (by omega)⟩

end Exponents

section Verifier

variable {G : Type} [AddCommGroup G] [PointCodec G] (E : Hashes G)

/-- The rounds that are left, from any of them. -/
theorem unrollRound_returns {ip : InnerProduct G} (hlength : ip.ls.length = ip.rs.length)
    {i n : Nat} (hi : i + n = ip.ls.length) (s : Unrolled G) :
    Returns (forUp (unrollRound E ip) i n s) fun s' =>
      s'.challenges = s.challenges ++ challengesFrom E s.o (ip.ls.drop i) (ip.rs.drop i) ∧
      ∀ [Module Scalar G], s'.p =
        roundsSum (challengesFrom E s.o (ip.ls.drop i) (ip.rs.drop i)) (ip.ls.drop i)
          (ip.rs.drop i) + s.p := by
  induction n generalizing i s with
  | zero =>
      refine .pure ?_
      rw [List.drop_of_length_le (by omega)]
      simp [challengesFrom, roundsSum]
  | succ n ih =>
      have hl : i < ip.ls.length := by omega
      have hr : i < ip.rs.length := by omega
      obtain ⟨s', hs', hchallenges, hp⟩ := ih (by omega : i + 1 + n = ip.ls.length)
        { o := roundChallenge E s.o ip.ls[i] ip.rs[i]
          challenges := s.challenges ++ [roundChallenge E s.o ip.ls[i] ip.rs[i]]
          p := Scalars.mul (roundChallenge E s.o ip.ls[i] ip.rs[i])
              (roundChallenge E s.o ip.ls[i] ip.rs[i]) • ip.ls[i] +
            Scalars.mul (Scalars.inv (roundChallenge E s.o ip.ls[i] ip.rs[i]))
              (Scalars.inv (roundChallenge E s.o ip.ls[i] ip.rs[i])) • ip.rs[i] + s.p }
      rw [List.drop_eq_getElem_cons hl, List.drop_eq_getElem_cons hr, challengesFrom]
      refine .of_eq (a := s') ?_ ⟨?_, ?_⟩
      · rw [forUp, unrollRound, List.getElem?_eq_getElem hl, List.getElem?_eq_getElem hr]
        exact hs'
      · rw [hchallenges, List.append_assoc]
        rfl
      · intro _
        rw [hp, roundsSum, ← Nat.cast_smul_eq_nsmul Scalar, ← Nat.cast_smul_eq_nsmul Scalar,
          Scalars.cast_mul, Scalars.cast_mul, Scalars.cast_inv, ← add_assoc,
          add_comm (roundsSum _ _ _)]

omit [PointCodec G] in
/-- The sums over the generators. -/
theorem addGenerators_eq {n m : Nat} (hn : n ≤ m) (g h : Nat → G) (e : Nat → Nat) :
    forUp (addGenerators (table m g) (table n h) (table n e) n) 0 n (0, 0) =
      some (∑ i ∈ Finset.range n, e i • g i, ∑ i ∈ Finset.range n, e (n - 1 - i) • h i) := by
  rw [forUp_sum (fun i => (e i • g i, e (n - 1 - i) • h i)), Prod.mk_zero_zero, zero_add]
  · congr 1
    exact Prod.ext Prod.fst_sum Prod.snd_sum
  · intro i hi s
    rw [addGenerators, getElem?_table g (by omega), getElem?_table e hi, getElem?_table h hi,
      getElem?_table e (by omega)]
    rfl

/-- The verifier returns, and with true if the two scalars open the commitment. -/
theorem verify_returns {ip : InnerProduct G} {k : Nat} (hls : ip.ls.length = k)
    (hrs : ip.rs.length = k) (hk : k ≤ 7) (h : Nat → G) (u p : G) (salt : Nat) :
    Returns (verify E ip (table (2 ^ k) h) u p salt) fun b =>
      ∀ [Module Scalar G], (∀ x ∈ challengesFrom E salt ip.ls ip.rs, (x : Scalar) ≠ 0) →
        (ip.a : Scalar) • ∑ i ∈ Finset.range (2 ^ k),
            signed (values (challengesFrom E salt ip.ls ip.rs)) i •
              E.hashToPoint (E.indexedSeed 0x47 i) +
          (ip.b : Scalar) • ∑ i ∈ Finset.range (2 ^ k),
            (signed (values (challengesFrom E salt ip.ls ip.rs)) i)⁻¹ • h i +
          ((ip.a : Scalar) * ip.b) • u =
        roundsSum (challengesFrom E salt ip.ls ip.rs) ip.ls ip.rs + p → b = true := by
  have hlength : ip.ls.length = ip.rs.length := hls.trans hrs.symm
  obtain ⟨s, hs, hchallenges, hp⟩ := unrollRound_returns E hlength (i := 0)
    (by rw [Nat.zero_add]) { o := salt, challenges := [], p := p }
  simp only [List.nil_append, List.drop_zero] at hchallenges hp
  have hcount : (challengesFrom E salt ip.ls ip.rs).length = k := by
    rw [challengesFrom_length E salt hlength, hls]
  obtain ⟨e, hexponents, he⟩ := fillExponents_eq hcount
  have hsmall : 2 ^ k ≤ generatorCount := Nat.pow_le_pow_right (by decide) hk
  refine .of_eq (a := decide (compress (smul (∑ i ∈ Finset.range (2 ^ k),
      e i • E.hashToPoint (E.indexedSeed 0x47 i)) ip.a +
    smul (∑ i ∈ Finset.range (2 ^ k), e (2 ^ k - 1 - i) • h i) ip.b +
    Scalars.mul ip.a ip.b • u) = compress s.p)) ?_ ?_
  · rw [hls] at hs
    rw [verify, if_neg (not_not.mpr hlength), hls, require_eq_some (by omega)]
    simp only [Option.bind_eq_bind, Option.bind_some, hs, hchallenges, hexponents]
    rw [Hashes.generators, addGenerators_eq hsmall]
    rfl
  · intro _ hne hopen
    have hg : ∑ i ∈ Finset.range (2 ^ k), e i • E.hashToPoint (E.indexedSeed 0x47 i) =
        ∑ i ∈ Finset.range (2 ^ k), signed (values (challengesFrom E salt ip.ls ip.rs)) i •
          E.hashToPoint (E.indexedSeed 0x47 i) := by
      apply Finset.sum_congr rfl
      intro i hi
      rw [← Nat.cast_smul_eq_nsmul Scalar, he hne i (Finset.mem_range.mp hi)]
    have hh : ∑ i ∈ Finset.range (2 ^ k), e (2 ^ k - 1 - i) • h i =
        ∑ i ∈ Finset.range (2 ^ k),
          (signed (values (challengesFrom E salt ip.ls ip.rs)) i)⁻¹ • h i := by
      apply Finset.sum_congr rfl
      intro i hi
      have hi' := Finset.mem_range.mp hi
      rw [← Nat.cast_smul_eq_nsmul Scalar, he hne _ (by omega),
        signed_complement (by rw [values, List.length_map, hcount]) hi']
    rw [decide_eq_true_eq, hg, hh, hp, smul_eq, smul_eq, ← Nat.cast_smul_eq_nsmul Scalar,
      Scalars.cast_mul, hopen]

end Verifier

section Completeness

/-- The argument is complete: what the prover returns is accepted for the commitment
to its vectors, unless a challenge is zero, and the table of the verifier holds the
signed products of the challenges and, from its other end, their inverses. -/
theorem innerProduct_complete {G : Type} [AddCommGroup G] [PointCodec G] (E : Hashes G)
    (hG : Nat.card G = order) {k : Nat} (hk : k ≤ 7) (gs hs : List G) (u : G) (a b : List Nat)
    (salt : Nat) (hgs : gs = E.generators.gs.take (2 ^ k)) (hhs : hs.length = 2 ^ k)
    (ha : a.length = 2 ^ k) (hb : b.length = 2 ^ k) :
    ∃ ip, generate E gs hs u a b salt = some ip ∧ ip.ls.length = k ∧ ip.rs.length = k ∧
      ((∀ x ∈ challengesFrom E salt ip.ls ip.rs, (x : Scalar) ≠ 0) →
        verify E ip hs u (∑ i ∈ Finset.range (2 ^ k), a.getD i 0 • gs.getD i 0 +
          ∑ i ∈ Finset.range (2 ^ k), b.getD i 0 • hs.getD i 0 +
          (∑ i ∈ Finset.range (2 ^ k), a.getD i 0 * b.getD i 0) • u) salt = some true ∧
        ∃ exponents, fillExponents (challengesFrom E salt ip.ls ip.rs) k (2 ^ k) =
            some exponents ∧ exponents.length = 2 ^ k ∧
          ∀ i < 2 ^ k,
            (exponents.getD i 0 : Scalar) = ∏ j ∈ Finset.range k,
              (if i.testBit (k - 1 - j) then
                ((challengesFrom E salt ip.ls ip.rs).getD j 0 : Scalar)
              else ((challengesFrom E salt ip.ls ip.rs).getD j 0 : Scalar)⁻¹) ∧
            (exponents.getD (2 ^ k - 1 - i) 0 : Scalar) = (exponents.getD i 0 : Scalar)⁻¹) := by
  let _ := moduleOfCard hG
  set g : Nat → G := fun i => E.hashToPoint (E.indexedSeed 0x47 i) with hg
  have hgs' : gs = table (2 ^ k) g := by
    rw [hgs]
    exact take_table g (Nat.pow_le_pow_right (by decide) hk)
  obtain ⟨h, rfl⟩ := exists_table 0 hhs
  obtain ⟨a, rfl⟩ := exists_table 0 ha
  obtain ⟨b, rfl⟩ := exists_table 0 hb
  obtain ⟨aFin, bFin, ls, rs, hgenerate, hls, hrs, hopen⟩ :=
    recurse_eq E (Nat.lt_two_pow_self (n := k)) g h u a b salt [] []
  refine ⟨{ a := aFin, b := bFin, ls, rs }, ?_, hls, hrs, ?_⟩
  · rw [generate, table_length, hgs', hgenerate, List.nil_append, List.nil_append]
  intro hne
  have hcommit : ∑ i ∈ Finset.range (2 ^ k), (table (2 ^ k) a).getD i 0 • gs.getD i 0 +
      ∑ i ∈ Finset.range (2 ^ k), (table (2 ^ k) b).getD i 0 • (table (2 ^ k) h).getD i 0 +
      (∑ i ∈ Finset.range (2 ^ k), (table (2 ^ k) a).getD i 0 * (table (2 ^ k) b).getD i 0) • u =
      commitment (2 ^ k) g h u (fun i => (a i : Scalar)) fun i => (b i : Scalar) := by
    rw [commitment, ← Nat.cast_smul_eq_nsmul Scalar, Nat.cast_sum]
    congr 1
    · congr 1
      · apply Finset.sum_congr rfl
        intro i hi
        have hi' := Finset.mem_range.mp hi
        rw [hgs', getD_table a 0 hi', getD_table g 0 hi', Nat.cast_smul_eq_nsmul]
      · apply Finset.sum_congr rfl
        intro i hi
        have hi' := Finset.mem_range.mp hi
        rw [getD_table b 0 hi', getD_table h 0 hi', Nat.cast_smul_eq_nsmul]
    · congr 1
      apply Finset.sum_congr rfl
      intro i hi
      have hi' := Finset.mem_range.mp hi
      rw [getD_table a 0 hi', getD_table b 0 hi', Nat.cast_mul]
  have hcount : (challengesFrom E salt ls rs).length = k := by
    rw [challengesFrom_length E salt (hls.trans hrs.symm), hls]
  have hvalues : (values (challengesFrom E salt ls rs)).length = k := by
    rw [values, List.length_map, hcount]
  refine ⟨?_, ?_⟩
  · rw [hcommit]
    have hrounds : (InnerProduct.mk aFin bFin ls rs).ls.length = k := hls
    obtain ⟨accepted, hverify, haccepted⟩ := verify_returns E hrounds hrs hk h u
      (commitment (2 ^ k) g h u (fun i => (a i : Scalar)) fun i => (b i : Scalar)) salt
    rw [hverify, haccepted hne (hopen hne)]
  · obtain ⟨e, he, hsigned⟩ := fillExponents_eq hcount
    refine ⟨_, he, table_length _ _, ?_⟩
    intro i hi
    rw [getD_table e 0 hi, getD_table e 0 (by omega), hsigned hne i hi,
      hsigned hne _ (by omega), signed_complement hvalues.le hi]
    refine ⟨?_, rfl⟩
    rw [signed_eq_prod, hvalues]
    apply Finset.prod_congr rfl
    intro j hj
    have hcast : (values (challengesFrom E salt ls rs)).getD j 0 =
        ((challengesFrom E salt ls rs).getD j 0 : Scalar) := by
      rw [values, ← Nat.cast_zero, List.getD_map]
    rw [hcast]

/-- The field itself as a group of points, with some byte form. -/
instance : PointCodec Scalar where
  marshal p := ⟨beBytes 64 p.val, beBytes_length 64 _⟩
  compress p := ⟨beBytes 33 p.val, beBytes_length 33 _⟩
  decompress bytes := .ok (beValue bytes : Nat)

/-- A hash function all of whose values are one. -/
def oneHashes : Hashes Scalar where
  keccak256 _ := ⟨beBytes 32 1, beBytes_length 32 1⟩
  hashToPoint n := n

theorem reducedHash_oneHashes (input : List UInt8) : oneHashes.reducedHash input = 1 := by
  have hvalue : oneHashes.hashToNumber input = 1 := show beValue (beBytes 32 1) = 1 by decide
  rw [Hashes.reducedHash, hvalue]
  decide +kernel

theorem challengesFrom_oneHashes (prev : Nat) (ls rs : List Scalar) :
    ∀ x ∈ challengesFrom oneHashes prev ls rs, (x : Scalar) ≠ 0 := by
  induction ls generalizing prev rs with
  | nil => simp [challengesFrom]
  | cons l ls ih =>
      cases rs with
      | nil => simp [challengesFrom]
      | cons r rs =>
          rw [challengesFrom, List.forall_mem_cons]
          refine ⟨?_, ih _ rs⟩
          rw [roundChallenge, reducedHash_oneHashes, Nat.cast_one]
          exact one_ne_zero

theorem card_scalar : Nat.card Scalar = order := Nat.card_zmod order

theorem innerProduct_complete_two :
    ∃ ip, generate oneHashes (oneHashes.generators.gs.take 2) [3, 4] 5 [6, 7] [8, 9] 10 = some ip ∧
      ip.ls.length = 1 ∧
      verify oneHashes ip [3, 4] 5 (∑ i ∈ Finset.range 2,
          [6, 7].getD i 0 • (oneHashes.generators.gs.take 2).getD i 0 +
        ∑ i ∈ Finset.range 2, [8, 9].getD i 0 • [3, 4].getD i 0 +
        (∑ i ∈ Finset.range 2, [6, 7].getD i 0 * [8, 9].getD i 0) • 5) 10 = some true := by
  obtain ⟨ip, hgenerate, hls, -, haccepted⟩ := innerProduct_complete oneHashes card_scalar
    (show 1 ≤ 7 by decide) (oneHashes.generators.gs.take 2) [3, 4] 5 [6, 7] [8, 9] 10 rfl rfl rfl rfl
  exact ⟨ip, hgenerate, hls, (haccepted (challengesFrom_oneHashes 10 ip.ls ip.rs)).1⟩

end Completeness

end DirtybirdMiner.Crypto.InnerProducts
