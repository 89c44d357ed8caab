import DirtybirdMiner.Crypto.Prover
import DirtybirdMiner.Lib.RangeProofs

/-!
The first phase of the prover: the bits of the two amounts and of the two indices, with their
commitments.
-/

namespace DirtybirdMiner.Crypto.Openings

open DirtybirdMiner.Lib.Bytes hiding slice
open DirtybirdMiner.Lib.Checked
open DirtybirdMiner.Lib.RangeProofs (sum_lower sum_upper)
open DirtybirdMiner.Lib.Tables
open DirtybirdMiner.Crypto
open DirtybirdMiner.Crypto.Scalars (order Scalar)
open DirtybirdMiner.Crypto.Statements (PointCodec)
open DirtybirdMiner.Crypto.Vectors
open DirtybirdMiner.Crypto.Hashing
open DirtybirdMiner.Crypto.Polynomials
open DirtybirdMiner.Crypto.Transcripts
open DirtybirdMiner.Crypto.Prover

section Commitments

variable {G : Type} [AddCommGroup G]

theorem addMultiples_table {k : Nat} {points : List G} (hk : k ≤ points.length) (e : Nat → Nat)
    (start : G) :
    addMultiples points (table k e) start =
      some (start + ∑ i ∈ Finset.range k, smul (points.getD i 0) (e i)) := by
  rw [addMultiples, table_length]
  apply forUp_sum
  intro i hi s
  rw [getElem?_table e hi, getElem?_eq_getD 0 (by omega)]
  rfl

variable (E : Hashes G)

/-- A commitment to two vectors, in the space of the points. -/
def vectorCommitment [Module Scalar G] (k l : Nat) (a b : Nat → Scalar) (r : Scalar) : G :=
  r • E.generators.h + ∑ i ∈ Finset.range k, a i • E.generators.gs.getD i 0 +
    ∑ i ∈ Finset.range l, b i • E.generators.hs.getD i 0

theorem pvcCommit_returns {k l : Nat} (hk : k ≤ 128) (hl : l ≤ 128) (a b : Nat → Nat) (r : Nat) :
    ∃ p, pvcCommit E (table k a) (table l b) r = some p ∧
      ∀ [Module Scalar G],
        p = vectorCommitment E k l (fun i => (a i : Scalar)) (fun i => (b i : Scalar)) r := by
  have hgs : k ≤ E.generators.gs.length := hk.trans (gs_length E).ge
  have hhs : l ≤ E.generators.hs.length := hl.trans (hs_length E).ge
  refine ⟨smul E.generators.h r + ∑ i ∈ Finset.range k, smul (E.generators.gs.getD i 0) (a i) +
    ∑ i ∈ Finset.range l, smul (E.generators.hs.getD i 0) (b i), ?_, ?_⟩
  · rw [pvcCommit, addMultiples_table hgs, Option.bind_eq_bind, Option.bind_some,
      addMultiples_table hhs]
  · intro _
    simp only [smul_eq, vectorCommitment]

end Commitments

section Amounts

/-- A bit of the number that holds the two amounts. -/
def amountBit (number i : Nat) : Nat := if number >>> i &&& 1 = 1 then 1 else 0

theorem amountBit_eq (number i : Nat) : amountBit number i = number / 2 ^ i % 2 := by
  rw [amountBit, Nat.and_one_is_mod, Nat.shiftRight_eq_div_pow]
  split
  · rename_i hone
    exact hone.symm
  · rename_i hone
    omega

theorem amountBit_idem (number i : Nat) :
    (amountBit number i : Scalar) * amountBit number i = amountBit number i := by
  unfold amountBit
  split
  · rw [Nat.cast_one, one_mul]
  · rw [Nat.cast_zero, zero_mul]

/-- What the bit lacks to one. -/
def lackBit (number i : Nat) : Nat := if number >>> i &&& 1 = 1 then 0 else order - 1

theorem cast_order_pred : ((order - 1 : Nat) : Scalar) = -1 := by
  rw [Nat.cast_sub Scalars.order_pos, Scalars.natCast_order, Nat.cast_one, zero_sub]

theorem cast_lackBit (number i : Nat) :
    (lackBit number i : Scalar) = (amountBit number i : Scalar) - 1 := by
  unfold lackBit amountBit
  split
  · rw [Nat.cast_zero, Nat.cast_one, sub_self]
  · rw [cast_order_pred, Nat.cast_zero, zero_sub]

theorem rangeBits_eq (number : Nat) :
    rangeBits number = (table 128 (amountBit number), table 128 (lackBit number)) := rfl

theorem sum_amountBit_lower {t b k : Nat} (ht : t < 2 ^ k) :
    ∑ i ∈ Finset.range k, (amountBit (t + b <<< k) i : Scalar) * 2 ^ i = t := by
  simp only [amountBit_eq]
  exact sum_lower ht b

theorem sum_amountBit_upper {t b k : Nat} (ht : t < 2 ^ k) (hb : b < 2 ^ k) :
    ∑ i ∈ Finset.range k, (amountBit (t + b <<< k) (k + i) : Scalar) * 2 ^ i = b := by
  simp only [amountBit_eq]
  exact sum_upper ht hb

/-- The number that holds the two amounts. -/
def bothAmounts (transfer balance : UInt64) : Nat := transfer.toNat + balance.toNat <<< 64

/-- The lower bits spell the one amount. -/
theorem sum_transfer (transfer balance : UInt64) :
    ∑ i ∈ Finset.range 64, (amountBit (bothAmounts transfer balance) i : Scalar) * 2 ^ i =
      transfer.toNat :=
  sum_amountBit_lower transfer.toNat_lt

/-- The upper bits spell the other. -/
theorem sum_balance (transfer balance : UInt64) :
    ∑ i ∈ Finset.range 64, (amountBit (bothAmounts transfer balance) (64 + i) : Scalar) * 2 ^ i =
      balance.toNat :=
  sum_amountBit_upper transfer.toNat_lt balance.toNat_lt

end Amounts

section Parity

/-- The blinders are zero at the two places of the parity. -/
theorem blinders_returns (m : Nat) (rng : Rng) :
    ∃ a rng', blinders m rng = (a, rng') ∧ a.length = 2 * m ∧
      ∀ i, i = 0 ∨ i = m → a.getD i 0 = 0 := by
  unfold blinders
  generalize 2 * m = n
  induction n with
  | zero => exact ⟨[], rng, rfl, rfl, fun i _ => List.getD_nil⟩
  | succ n ih =>
      obtain ⟨a, rng', hfold, hlength, hzero⟩ := ih
      rw [List.range_succ, List.foldl_append, hfold, List.foldl_cons, List.foldl_nil]
      have hpush : ∀ x i, (i = 0 ∨ i = m) → (n = i → x = 0) → (a ++ [x]).getD i 0 = 0 := by
        intro x i hi hx
        rcases lt_trichotomy i n with hlt | rfl | hgt
        · rw [List.getD_append _ _ _ _ (by omega), hzero i hi]
        · rw [List.getD_append_right _ _ _ _ (by omega), hlength, Nat.sub_self, hx rfl]
          rfl
        · rw [List.getD_eq_default _ _ (by rw [List.length_append, List.length_singleton]; omega)]
      split
      · exact ⟨a ++ [0], rng', rfl, by simp [hlength], fun i hi => hpush 0 i hi fun _ => rfl⟩
      · rename_i hother
        refine ⟨a ++ [rng' 0], skip rng' 1, rfl, by simp [hlength], fun i hi => ?_⟩
        exact hpush _ i hi fun hn => absurd (hn ▸ hi) hother

/-- The bits of the two indices. -/
theorem bitScalars_witnessIndexBits {m idx0 idx1 : Nat} (hm : 0 < m) (h0 : idx0 < 2 ^ m)
    (h1 : idx1 < 2 ^ m) :
    bitScalars (witnessIndexBits idx1 idx0 m) = indexBits m idx0 ++ indexBits m idx1 := by
  obtain ⟨k, rfl⟩ : ∃ k, m = k + 1 := ⟨m - 1, by omega⟩
  rw [witnessIndexBits, List.reverse_append, bitScalars_append, bitScalars_formatBinary h0,
    bitScalars_formatBinary h1]

/-- `bspecial` is a sign for every bit. -/
def specialBit (b : Nat) : Nat := if b = 1 then order - 1 else 1

theorem bspecial_eq (wi : List Char) :
    wi.map (fun ch => if ch = '1' then order - 1 else 1) = (bitScalars wi).map specialBit := by
  rw [bitScalars, List.map_map]
  apply List.map_congr_left
  intro ch _
  unfold specialBit
  simp only [Function.comp_apply]
  split <;> rfl

theorem cast_specialBit {b : Nat} (hb : b = 0 ∨ b = 1) :
    (specialBit b : Scalar) = 1 - 2 * (b : Scalar) := by
  rcases hb with rfl | rfl
  · rw [specialBit, if_neg Nat.zero_ne_one, Nat.cast_one, Nat.cast_zero, mul_zero, sub_zero]
  · rw [specialBit, if_pos rfl, cast_order_pred, Nat.cast_one]
    ring

theorem bit_mul_eq (b m : Nat) : bit b * m = 0 ∨ bit b * m = m := by
  unfold bit
  split
  · exact .inr (Nat.one_mul m)
  · exact .inl (Nat.zero_mul m)

/-- Since the blinders are zero at the places of the parity, the two last exponents are. -/
theorem parityExponents_returns {m : Nat} (hm : 0 < m) {a b : Nat → Nat}
    (ha : ∀ i, i = 0 ∨ i = m → a i = 0) (hb : ∀ i < 2 * m, b i = 0 ∨ b i = 1) :
    ∃ ea eb : Nat → Nat,
      parityExponents (table (2 * m) a) (table (2 * m) b) ((table (2 * m) b).map specialBit) m =
        some (table (2 * m + 2) ea, table (2 * m + 2) eb) ∧
      (∀ i < 2 * m, (ea i : Scalar) = -((a i : Scalar) * a i)) ∧
      (∀ i < 2 * m, (eb i : Scalar) = a i * (1 - 2 * b i)) ∧
      ∀ i, 2 * m ≤ i → (ea i : Scalar) = 0 ∧ (eb i : Scalar) = 0 := by
  have hzero : ∀ x, (table (2 * m) a)[bit x * m]? = some 0 := by
    intro x
    have hplace := bit_mul_eq x m
    rw [getElem?_table a (by rcases hplace with h | h <;> omega), ha _ hplace]
  have hfirst : (table (2 * m) a)[0]? = some 0 := by
    rw [getElem?_table a (by omega), ha 0 (.inl rfl)]
  have hmiddle : (table (2 * m) a)[m]? = some 0 := by
    rw [getElem?_table a (by omega), ha m (.inr rfl)]
  have hpair : ∀ x : Nat, [x, x] = table 2 fun _ => x := fun x => rfl
  have hneg : Scalars.neg 0 = 0 := by decide +kernel
  have hmul : Scalars.mul 0 0 = 0 := by decide +kernel
  refine ⟨fun i => if i < 2 * m then Scalars.neg (Scalars.mul (a i) (a i)) else 0,
    fun i => if i < 2 * m then Scalars.mul (a i) (specialBit (b i)) else 0, ?_, ?_, ?_, ?_⟩
  · rw [parityExponents, map_table, FieldVector.hadamard, FieldVector.negate]
    simp only [hadamardVec_table, Option.bind_eq_bind, Option.bind_some, hfirst, hmiddle, hzero,
      negateVec_table, getElem?_table b (show 0 < 2 * m by omega),
      getElem?_table b (show m < 2 * m by omega), hneg, hmul, hpair, table_append]
    rfl
  · intro i hi
    simp only [if_pos hi, Scalars.cast_neg, Scalars.cast_mul]
  · intro i hi
    simp only [if_pos hi, Scalars.cast_mul, cast_specialBit (hb i hi)]
  · intro i hi
    simp only [if_neg (not_lt.mpr hi), Nat.cast_zero, and_self]

theorem indexBits_bit {m j i : Nat} (hi : i < m) :
    (indexBits m j).getD i 0 = 0 ∨ (indexBits m j).getD i 0 = 1 := by
  rw [indexBits, getD_table _ 0 hi]
  split
  · exact .inr rfl
  · exact .inl rfl

theorem parityBits_bit {m idx0 idx1 i : Nat} (hi : i < 2 * m) :
    (indexBits m idx0 ++ indexBits m idx1).getD i 0 = 0 ∨
      (indexBits m idx0 ++ indexBits m idx1).getD i 0 = 1 := by
  rcases lt_or_ge i m with hlow | hhigh
  · rw [List.getD_append _ _ _ _ (by simpa using hlow)]
    exact indexBits_bit hlow
  · rw [List.getD_append_right _ _ _ _ (by simpa using hhigh), indexBits_length]
    exact indexBits_bit (by omega)

end Parity

section Phase

variable {G : Type} [AddCommGroup G]

/-- Exponents that are zero behind the first ones. -/
theorem vectorCommitment_trailing [Module Scalar G] (E : Hashes G) {k l : Nat} (hl : k ≤ l)
    {a b b' : Nat → Scalar} (hb : ∀ i < k, b i = b' i) (hzero : ∀ i, k ≤ i → b i = 0)
    (r : Scalar) : vectorCommitment E k l a b r = vectorCommitment E k k a b' r := by
  rw [vectorCommitment, vectorCommitment]
  congr 1
  obtain ⟨d, rfl⟩ := Nat.exists_eq_add_of_le hl
  rw [Finset.sum_range_add]
  have htail : ∑ i ∈ Finset.range d, b (k + i) • E.generators.hs.getD (k + i) 0 = 0 := by
    apply Finset.sum_eq_zero
    intro i _
    rw [hzero _ (Nat.le_add_right k i), zero_smul]
  rw [htail, add_zero]
  apply Finset.sum_congr rfl
  intro i hi
  rw [hb i (Finset.mem_range.mp hi)]

theorem vectorCommitment_congr [Module Scalar G] (E : Hashes G) {k l : Nat}
    {a a' b b' : Nat → Scalar} (ha : ∀ i < k, a i = a' i) (hb : ∀ i < l, b i = b' i) (r : Scalar) :
    vectorCommitment E k l a b r = vectorCommitment E k l a' b' r := by
  rw [vectorCommitment, vectorCommitment]
  congr 1
  · congr 1
    apply Finset.sum_congr rfl
    intro i hi
    rw [ha i (Finset.mem_range.mp hi)]
  · apply Finset.sum_congr rfl
    intro i hi
    rw [hb i (Finset.mem_range.mp hi)]

/-- The elements of a vector, in the field. -/
def entry (l : List Nat) (i : Nat) : Scalar := (l.getD i 0 : Nat)

theorem entry_table {n i : Nat} (f : Nat → Nat) (hi : i < n) : entry (table n f) i = f i := by
  rw [entry, getD_table f 0 hi]

variable [PointCodec G] (E : Hashes G)

/-- What the first phase has committed to. -/
structure Opened (transfer balance : UInt64) (idx0 idx1 m statementhash : Nat) (o : Opening G) :
    Prop where
  al_eq : o.al = table 128 (amountBit (bothAmounts transfer balance))
  ar_eq : o.ar = table 128 (lackBit (bothAmounts transfer balance))
  sl_length : o.sl.length = 128
  sr_length : o.sr.length = 128
  a_length : o.a.length = 2 * m
  a_parity : ∀ i, i = 0 ∨ i = m → o.a.getD i 0 = 0
  b_eq : o.b = indexBits m idx0 ++ indexBits m idx1
  v_eq : o.v = challengeV E statementhash o.ba o.bs o.aPt o.bPt
  ba_eq : ∀ [Module Scalar G],
    o.ba = vectorCommitment E 128 128 (entry o.al) (entry o.ar) o.rBa
  bs_eq : ∀ [Module Scalar G],
    o.bs = vectorCommitment E 128 128 (entry o.sl) (entry o.sr) o.rBs
  aPt_eq : ∀ [Module Scalar G], o.aPt = vectorCommitment E (2 * m) (2 * m) (entry o.a)
    (fun i => -(entry o.a i * entry o.a i)) o.rA
  bPt_eq : ∀ [Module Scalar G], o.bPt = vectorCommitment E (2 * m) (2 * m) (entry o.b)
    (fun i => entry o.a i * (1 - 2 * entry o.b i)) o.rB

theorem openingPhase_returns (witness : Witness) {idx0 idx1 m : Nat} (hpos : 0 < m) (hm : m ≤ 7)
    (h0 : idx0 < 2 ^ m) (h1 : idx1 < 2 ^ m) (statementhash : Nat) (rng : Rng) :
    ∃ o, openingPhase E witness idx0 idx1 m statementhash rng = some o ∧
      Opened E witness.transferAmount witness.balance idx0 idx1 m statementhash o := by
  obtain ⟨a, rng', hblinders, hlength, hparity⟩ :=
    blinders_returns m (skip (skip (skip (skip rng 1) 128) 128) 1)
  obtain ⟨a, rfl⟩ := exists_table 0 hlength
  have hb : (indexBits m idx0 ++ indexBits m idx1).length = 2 * m := by
    rw [List.length_append, indexBits_length, indexBits_length, two_mul]
  obtain ⟨b, hbits⟩ := exists_table 0 hb
  have hbit : ∀ i < 2 * m, b i = 0 ∨ b i = 1 := by
    intro i hi
    have h := @parityBits_bit _ idx0 idx1 _ hi
    rwa [hbits, getD_table b 0 hi] at h
  have hblind : ∀ i, i = 0 ∨ i = m → a i = 0 := by
    intro i hi
    have h := hparity i hi
    rwa [getD_table a 0 (by omega)] at h
  obtain ⟨ea, eb, hexponents, hea, heb, hlast⟩ := parityExponents_returns hpos hblind hbit
  obtain ⟨ba, hba, hba'⟩ := pvcCommit_returns E (le_refl 128) (le_refl 128)
    (amountBit (bothAmounts witness.transferAmount witness.balance))
    (lackBit (bothAmounts witness.transferAmount witness.balance)) (rng 0)
  obtain ⟨bs, hbs, hbs'⟩ := pvcCommit_returns E (le_refl 128) (le_refl 128)
    (skip rng 1) (skip (skip rng 1) 128) (skip (skip (skip rng 1) 128) 128 0)
  obtain ⟨aPt, haPt, haPt'⟩ := pvcCommit_returns E (show 2 * m ≤ 128 by omega)
    (show 2 * m + 2 ≤ 128 by omega) a ea (rng' 0)
  obtain ⟨bPt, hbPt, hbPt'⟩ := pvcCommit_returns E (show 2 * m ≤ 128 by omega)
    (show 2 * m + 2 ≤ 128 by omega) b eb (skip rng' 1 0)
  have hnumber : witness.transferAmount.toNat + witness.balance.toNat <<< 64 =
      bothAmounts witness.transferAmount witness.balance := rfl
  refine ⟨{
    al := table 128 (amountBit (bothAmounts witness.transferAmount witness.balance))
    ar := table 128 (lackBit (bothAmounts witness.transferAmount witness.balance))
    sl := table 128 (skip rng 1), sr := table 128 (skip (skip rng 1) 128), a := table (2 * m) a
    b := table (2 * m) b, ba, bs, aPt, bPt, rBa := rng 0
    rBs := skip (skip (skip rng 1) 128) 128 0, rA := rng' 0, rB := skip rng' 1 0
    v := challengeV E statementhash ba bs aPt bPt, rng := skip (skip rng' 1) 1 }, ?_, ?_⟩
  · rw [openingPhase]
    dsimp only
    rw [hnumber, rangeBits_eq, bspecial_eq, bitScalars_witnessIndexBits hpos h0 h1, hbits,
      hblinders]
    dsimp only
    rw [hexponents, hba, hbs]
    simp only [Option.bind_eq_bind, Option.bind_some, haPt, hbPt]
  · constructor
    · rfl
    · rfl
    · exact table_length 128 _
    · exact table_length 128 _
    · exact table_length (2 * m) _
    · exact hparity
    · exact hbits.symm
    · rfl
    · intro _
      exact hba'.trans (vectorCommitment_congr E (fun i hi => (entry_table _ hi).symm)
        (fun i hi => (entry_table _ hi).symm) _)
    · intro _
      exact hbs'.trans (vectorCommitment_congr E (fun i hi => (entry_table _ hi).symm)
        (fun i hi => (entry_table _ hi).symm) _)
    · intro _
      refine haPt'.trans ((vectorCommitment_trailing E (Nat.le_add_right _ 2) hea
        (fun i hi => (hlast i hi).1) _).trans (vectorCommitment_congr E ?_ ?_ _))
      · intro i hi
        exact (entry_table a hi).symm
      · intro i hi
        rw [entry_table a hi]
    · intro _
      refine hbPt'.trans ((vectorCommitment_trailing E (Nat.le_add_right _ 2) heb
        (fun i hi => (hlast i hi).2) _).trans (vectorCommitment_congr E ?_ ?_ _))
      · intro i hi
        exact (entry_table b hi).symm
      · intro i hi
        rw [entry_table a hi, entry_table b hi]

end Phase

end DirtybirdMiner.Crypto.Openings
