import DirtybirdMiner.Crypto.SigmaPart

/-!
The algebra of the ring.  A sum over the ring with the values of the polynomials is the term of the
marked member, up to what the columns commit to; and with two members of opposite parity the
amounts in the rotated sums cancel but for the fees.
-/

namespace DirtybirdMiner.Crypto.RingAlgebra

open DirtybirdMiner.Lib.Tables
open DirtybirdMiner.Crypto
open DirtybirdMiner.Crypto.Scalars (order Scalar)
open DirtybirdMiner.Crypto.Polynomials
open DirtybirdMiner.Crypto.RingCommitments
open DirtybirdMiner.Crypto.SigmaPart
open DirtybirdMiner.Crypto.Verifier (rounds wholeRing rotated)

section Families

theorem indexBits_inj {m i j : Nat} (hi : i < 2 ^ m) (hj : j < 2 ^ m) :
    indexBits m i = indexBits m j ↔ i = j := by
  constructor
  · intro h
    apply Nat.eq_of_testBit_eq
    intro k
    rcases lt_or_ge k m with hk | hk
    · have hbit := table_inj h hk
      cases hi' : i.testBit k <;> cases hj' : j.testBit k <;> simp_all
    · have hle := Nat.pow_le_pow_right (show 0 < 2 by decide) hk
      rw [Nat.testBit_lt_two_pow (by omega), Nat.testBit_lt_two_pow (by omega)]
  · rintro rfl
    rfl

/-- The value of a row, by its coefficients and the mark of its index. -/
theorem cast_value_row {a : List Nat} {m idx j : Nat} (ha : a.length = m) (hidx : idx < 2 ^ m)
    (hj : j < 2 ^ m) (w : Nat) :
    (value w (row a (indexBits m idx) j) : Scalar) =
      family w m (coefficient a (indexBits m idx)) idx j := by
  have hbits : ∀ x ∈ indexBits m idx, x = 0 ∨ x = 1 := by
    intro x hx
    obtain ⟨i, -, rfl⟩ := List.mem_map.mp hx
    split
    · exact .inr rfl
    · exact .inl rfl
  have hlength := row_length ha (indexBits_length m idx) j
  have hlead := row_leading ha (indexBits_length m idx) hbits j
  have hsum := congrArg (Nat.cast (R := Scalar)) (sum_powers_eq (row a (indexBits m idx) j) w)
  rw [hlength, Finset.sum_range_succ, List.getD_eq_getElem?_getD (i := m), hlead,
    Option.getD_some, Nat.cast_add, Nat.cast_sum] at hsum
  rw [value, Scalars.natCast_mod, ← hsum, family, series]
  refine congrArg₂ (fun a b => a + b) ?_ ?_
  · apply Finset.sum_congr rfl
    intro k _
    rw [Nat.cast_mul, Nat.cast_pow, mul_comm]
    rfl
  · rw [if_congr (indexBits_inj hidx hj) rfl rfl, if_congr eq_comm rfl rfl, Nat.cast_mul,
      Nat.cast_pow]
    split
    · rw [Nat.cast_one, one_mul]
    · rw [Nat.cast_zero, zero_mul]

variable {G : Type} [AddCommGroup G] [Module Scalar G]

theorem rounds_add (w : Scalar) (m : Nat) (f f' : Nat → G) :
    rounds w m (fun k => f k + f' k) = rounds w m f + rounds w m f' := by
  simp only [rounds, smul_add, Finset.sum_add_distrib]

/-- Rounds of multiples of one point. -/
theorem rounds_smul (w : Scalar) (m : Nat) (f : Nat → Scalar) (g : G) :
    rounds w m (fun k => f k • g) = series w m f • g := by
  simp only [rounds, series, Finset.sum_smul, mul_smul]

theorem rounds_congr {w : Scalar} {m : Nat} {f f' : Nat → G} (h : ∀ k < m, f k = f' k) :
    rounds w m f = rounds w m f' := by
  apply Finset.sum_congr rfl
  intro k hk
  rw [h k (Finset.mem_range.mp hk)]

/-- The sum over the ring is the one that the columns commit to, and the marked member. -/
theorem sum_family {n idx : Nat} (hidx : idx < n) (w : Scalar) (m : Nat) (p : Nat → Nat → Nat)
    (points : Nat → G) :
    ∑ j ∈ Finset.range n, family w m p idx j • points j =
      rounds w m (fun k => ∑ j ∈ Finset.range n, (p k j : Scalar) • points j) +
        w ^ m • points idx := by
  have hmark : ∑ j ∈ Finset.range n, (if j = idx then w ^ m else 0) • points j =
      w ^ m • points idx := by
    rw [Finset.sum_eq_single idx]
    · rw [if_pos rfl]
    · intro j _ hne
      rw [if_neg hne, zero_smul]
    · intro hout
      exact absurd (Finset.mem_range.mpr hidx) hout
  simp only [family, add_smul, Finset.sum_add_distrib, hmark]
  congr 1
  simp only [rounds, series, Finset.sum_smul, Finset.smul_sum, mul_smul]
  exact Finset.sum_comm

/-- Without what the columns commit to, the marked member and the blinding are left. -/
theorem unmask {n idx : Nat} (hidx : idx < n) (w : Scalar) (m : Nat) (p : Nat → Nat → Nat)
    (points : Nat → G) (blind : Nat → Scalar) (key : G) :
    ∑ j ∈ Finset.range n, family w m p idx j • points j -
        rounds w m (fun k => ∑ j ∈ Finset.range n, (p k j : Scalar) • points j + blind k • key) =
      w ^ m • points idx - series w m blind • key := by
  rw [sum_family hidx, rounds_add, rounds_smul]
  abel

end Families

section Rotations

variable {n idx0 idx1 : Nat}

/-- In the even turns the first index is met by itself only, and at once. -/
theorem meets_first (heven : n % 2 = 0) (h0 : idx0 < n) (h1 : idx1 < n)
    (hparity : idx0 % 2 ≠ idx1 % 2) {i : Nat} (hi : i < n) :
    (idx0 + n - 2 * (i / 2)) % n = (if i % 2 = 0 then idx0 else idx1) ↔ i = 0 := by
  rcases lt_or_ge (idx0 + n - 2 * (i / 2)) n with hlt | hge
  · rw [Nat.mod_eq_of_lt hlt]
    split <;> omega
  · rw [Nat.mod_eq_sub_mod hge, Nat.mod_eq_of_lt (by omega)]
    split <;> omega

/-- In the odd turns the second is. -/
theorem meets_second (heven : n % 2 = 0) (h0 : idx0 < n) (h1 : idx1 < n)
    (hparity : idx0 % 2 ≠ idx1 % 2) {i : Nat} (hi : i < n) :
    (idx1 + n - 2 * (i / 2)) % n = (if i % 2 = 0 then idx0 else idx1) ↔ i = 1 := by
  rcases lt_or_ge (idx1 + n - 2 * (i / 2)) n with hlt | hge
  · rw [Nat.mod_eq_of_lt hlt]
    split <;> omega
  · rw [Nat.mod_eq_sub_mod hge, Nat.mod_eq_of_lt (by omega)]
    split <;> omega

/-- The two families of the ring. -/
def families (w : Scalar) (m : Nat) (p q : Nat → Nat → Nat) (idx0 idx1 j : Nat) :
    Scalar × Scalar := (family w m p idx0 j, family w m q idx1 j)

/-- The column that a turn reads. -/
def column (p q : Nat → Nat → Nat) (i k : Nat) : Nat → Nat := if i % 2 = 0 then p k else q k

theorem rotated_families (w : Scalar) (m : Nat) (p q : Nat → Nat → Nat) (i j : Nat) :
    rotated (families w m p q idx0 idx1) n i j =
      (series w m fun k => column p q i k ((j + n - 2 * (i / 2)) % n)) +
        if (j + n - 2 * (i / 2)) % n = (if i % 2 = 0 then idx0 else idx1) then w ^ m else 0 := by
  unfold rotated families column
  split
  · rfl
  · rfl

theorem cast_amountTerm (transfer amountFees : Nat) (p q : Nat → Nat → Nat) (i k : Nat) :
    (amountTerm transfer amountFees idx0 idx1 n p q i k : Scalar) =
      (-transfer - amountFees) * column p q i k ((idx0 + n - 2 * (i / 2)) % n) +
        transfer * column p q i k ((idx1 + n - 2 * (i / 2)) % n) := by
  have hturn : i - i % 2 = 2 * (i / 2) := by omega
  rw [amountTerm, hturn]
  simp only [Scalars.cast_add, Scalars.cast_mul, Scalars.cast_sub, Scalars.cast_neg]
  rfl

/-- What a member's amount is over the encryption of zero. -/
def amountOf (transfer amountFees : Nat) (idx0 idx1 j : Nat) : Scalar :=
  if j = idx0 then -transfer - amountFees else if j = idx1 then transfer else 0

theorem sum_amountOf (h0 : idx0 < n) (h1 : idx1 < n) (hne : idx0 ≠ idx1)
    (transfer amountFees : Nat) (f : Nat → Scalar) :
    ∑ j ∈ Finset.range n, f j * amountOf transfer amountFees idx0 idx1 j =
      f idx0 * (-transfer - amountFees) + f idx1 * transfer := by
  have hsplit : ∀ j, f j * amountOf transfer amountFees idx0 idx1 j =
      (if j = idx0 then f j * (-transfer - amountFees) else 0) +
        if j = idx1 then f j * transfer else 0 := by
    intro j
    unfold amountOf
    split
    · rename_i hj
      rw [if_neg (hj ▸ hne), add_zero]
    · split
      · rw [zero_add]
      · rw [mul_zero, add_zero]
  simp only [hsplit, Finset.sum_add_distrib]
  rw [Finset.sum_ite_eq', if_pos (Finset.mem_range.mpr h0), Finset.sum_ite_eq',
    if_pos (Finset.mem_range.mpr h1)]

/-- The amounts of a turn: those of its columns, and the marks of the first two turns. -/
theorem turn_amounts (heven : n % 2 = 0) (h0 : idx0 < n) (h1 : idx1 < n)
    (hparity : idx0 % 2 ≠ idx1 % 2) (transfer amountFees : Nat) (w : Scalar) (m : Nat)
    (p q : Nat → Nat → Nat) {i : Nat} (hi : i < n) :
    ∑ j ∈ Finset.range n, rotated (families w m p q idx0 idx1) n i j *
        amountOf transfer amountFees idx0 idx1 j =
      (series w m fun k => amountTerm transfer amountFees idx0 idx1 n p q i k) +
        ((if i = 0 then w ^ m * (-transfer - amountFees) else 0) +
          if i = 1 then w ^ m * transfer else 0) := by
  have hne : idx0 ≠ idx1 := fun h => hparity (congrArg (fun x => x % 2) h)
  rw [sum_amountOf h0 h1 hne, rotated_families, rotated_families,
    if_congr (meets_first heven h0 h1 hparity hi) rfl rfl,
    if_congr (meets_second heven h0 h1 hparity hi) rfl rfl]
  have hseries : (series w m fun k => amountTerm transfer amountFees idx0 idx1 n p q i k) =
      (series w m fun k => column p q i k ((idx0 + n - 2 * (i / 2)) % n)) *
          (-transfer - amountFees) +
        (series w m fun k => column p q i k ((idx1 + n - 2 * (i / 2)) % n)) * transfer := by
    simp only [series, Finset.sum_mul, ← Finset.sum_add_distrib]
    apply Finset.sum_congr rfl
    intro k _
    rw [cast_amountTerm]
    ring
  rw [hseries]
  split <;> split <;> ring

/-- All turns: the marks leave the fees. -/
theorem sum_turns (hn : 2 ≤ n) (heven : n % 2 = 0) (h0 : idx0 < n) (h1 : idx1 < n)
    (hparity : idx0 % 2 ≠ idx1 % 2) (transfer amountFees : Nat) (v w : Scalar) (m : Nat)
    (p q : Nat → Nat → Nat) :
    ∑ i ∈ Finset.range n, v ^ (i - 1) * ∑ j ∈ Finset.range n,
        rotated (families w m p q idx0 idx1) n i j * amountOf transfer amountFees idx0 idx1 j =
      (series w m fun k => ∑ i ∈ Finset.range n,
        v ^ (i - 1) * amountTerm transfer amountFees idx0 idx1 n p q i k) -
          w ^ m * amountFees := by
  have hturn : ∀ i ∈ Finset.range n, v ^ (i - 1) * ∑ j ∈ Finset.range n,
      rotated (families w m p q idx0 idx1) n i j * amountOf transfer amountFees idx0 idx1 j =
        v ^ (i - 1) * (series w m fun k => amountTerm transfer amountFees idx0 idx1 n p q i k) +
          ((if i = 0 then w ^ m * (-transfer - amountFees) else 0) +
            if i = 1 then w ^ m * transfer else 0) := by
    intro i hi
    rw [turn_amounts heven h0 h1 hparity transfer amountFees w m p q (Finset.mem_range.mp hi)]
    -- the first two turns have no power of the challenge
    rcases Nat.lt_or_ge i 2 with hfirst | hlater
    · have hpow : i - 1 = 0 := by omega
      rw [hpow, pow_zero, one_mul, one_mul]
    · rw [if_neg (by omega), if_neg (by omega), add_zero, add_zero, add_zero]
  have hseries : ∑ i ∈ Finset.range n, v ^ (i - 1) *
      (series w m fun k => amountTerm transfer amountFees idx0 idx1 n p q i k) =
        series w m fun k => ∑ i ∈ Finset.range n,
          v ^ (i - 1) * amountTerm transfer amountFees idx0 idx1 n p q i k := by
    simp only [series, Finset.mul_sum]
    rw [Finset.sum_comm]
    apply Finset.sum_congr rfl
    intro k _
    apply Finset.sum_congr rfl
    intro i _
    ring
  rw [Finset.sum_congr rfl hturn, Finset.sum_add_distrib, Finset.sum_add_distrib, hseries,
    Finset.sum_ite_eq', if_pos (Finset.mem_range.mpr (by omega)), Finset.sum_ite_eq',
    if_pos (Finset.mem_range.mpr (by omega))]
  ring

variable {G : Type} [AddCommGroup G] [Module Scalar G]

/-- The rotated sum over encryptions of the amounts. -/
theorem wholeRing_encrypted (r : Nat → Scalar × Scalar) (v rho : Scalar) (n : Nat)
    (amount : Nat → Scalar) {points keys : Nat → G} {g : G}
    (hpoints : ∀ j < n, points j = rho • keys j + amount j • g) :
    wholeRing r v n points = rho • wholeRing r v n keys +
      (∑ i ∈ Finset.range n, v ^ (i - 1) * ∑ j ∈ Finset.range n, rotated r n i j * amount j) •
        g := by
  rw [wholeRing, wholeRing, Finset.smul_sum, Finset.sum_smul, ← Finset.sum_add_distrib]
  apply Finset.sum_congr rfl
  intro i _
  rw [mul_smul, smul_comm rho, ← smul_add]
  congr 1
  rw [Finset.smul_sum, Finset.sum_smul, ← Finset.sum_add_distrib]
  apply Finset.sum_congr rfl
  intro j hj
  rw [hpoints j (Finset.mem_range.mp hj)]
  module

end Rotations

end DirtybirdMiner.Crypto.RingAlgebra
