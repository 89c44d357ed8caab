import DirtybirdMiner.Bn256.Prime
import DirtybirdMiner.Lib.Bytes
import Mathlib.NumberTheory.LegendreSymbol.Basic

/-!
Points of the curve `y² = x³ + 3` in affine coordinates, square roots modulo the
field prime, and the 33-byte form of a point: its first coordinate and which of
the two roots is the second.
-/

namespace DirtybirdMiner.Bn256.Affine

open DirtybirdMiner.Lib.Bytes
open DirtybirdMiner.Lib.Powers
open DirtybirdMiner.Bn256.Prime

/-- A point of the curve other than the point at infinity. -/
structure AffinePoint where
  x : Nat
  y : Nat
  x_lt : x < fieldPrime
  y_lt : y < fieldPrime
  onCurve : y * y % fieldPrime = (x * x * x + 3) % fieldPrime
deriving DecidableEq

/-- The flag of a second coordinate: whether its negative is smaller. -/
def rootFlag (y : Nat) : UInt8 := if y < fieldPrime - y then 0x00 else 0x01

def AffinePoint.compressed (P : AffinePoint) : FixedBytes 33 :=
  ⟨beBytes 32 P.x ++ [rootFlag P.y], by simp⟩

/-- The root that is computed: right if there is one. -/
def modSqrt (beta : Nat) : Nat := modpow beta ((fieldPrime + 1) / 4) fieldPrime

theorem modSqrt_lt (beta : Nat) : modSqrt beta < fieldPrime := by
  rw [modSqrt, modpow_eq]
  exact Nat.mod_lt _ fieldPrime_prime.pos

/-- A square has its root computed, up to the sign. -/
theorem modSqrt_square {y beta : Nat} (hy : y < fieldPrime)
    (h : y * y % fieldPrime = beta % fieldPrime) :
    modSqrt beta = y ∨ modSqrt beta + y = fieldPrime := by
  have hlt := modSqrt_lt beta
  have hbeta : (beta : ZMod fieldPrime) = (y : ZMod fieldPrime) ^ 2 := by
    rw [pow_two, ← Nat.cast_mul, ZMod.natCast_eq_natCast_iff']
    exact h.symm
  have hexp : (fieldPrime + 1) / 4 * 2 * 2 = fieldPrime + 1 := by decide
  have hsquare : ((modSqrt beta : Nat) : ZMod fieldPrime) ^ 2 = (y : ZMod fieldPrime) ^ 2 := by
    calc ((modSqrt beta : Nat) : ZMod fieldPrime) ^ 2
        = (y : ZMod fieldPrime) ^ ((fieldPrime + 1) / 4 * 2 * 2) := by
          rw [modSqrt, modpow_eq, ZMod.natCast_mod, Nat.cast_pow, hbeta]
          ring
      _ = (y : ZMod fieldPrime) ^ 2 := by
          rw [hexp, pow_succ, ZMod.pow_card, pow_two]
  rcases sq_eq_sq_iff_eq_or_eq_neg.mp hsquare with heq | hneg
  · left
    rwa [ZMod.natCast_eq_natCast_iff', Nat.mod_eq_of_lt hlt, Nat.mod_eq_of_lt hy] at heq
  · have hsum : fieldPrime ∣ modSqrt beta + y := by
      rw [← ZMod.natCast_eq_zero_iff, Nat.cast_add, hneg, neg_add_cancel]
    obtain ⟨k, hk⟩ := hsum
    have hk2 : k < 2 := by
      by_contra hge
      have : fieldPrime * 2 ≤ fieldPrime * k := Nat.mul_le_mul_left _ (by omega)
      omega
    interval_cases k
    · left
      omega
    · right
      omega

theorem square_of_root {y y1 : Nat} (h : y1 = y ∨ y1 + y = fieldPrime) :
    y1 * y1 % fieldPrime = y * y % fieldPrime := by
  rcases h with rfl | hsum
  · rfl
  · have hcast : (y1 : ZMod fieldPrime) = -(y : ZMod fieldPrime) := by
      rw [eq_neg_iff_add_eq_zero, ← Nat.cast_add, hsum, ZMod.natCast_self]
    rw [← ZMod.natCast_eq_natCast_iff', Nat.cast_mul, hcast, Nat.cast_mul, neg_mul_neg]

theorem beValue_compressed (P : AffinePoint) : beValue (P.compressed.1.take 32) = P.x := by
  have hlt : P.x < 256 ^ 32 := lt_of_lt_of_le P.x_lt (by decide)
  have htake : P.compressed.1.take 32 = beBytes 32 P.x := by
    rw [AffinePoint.compressed, List.take_left' (beBytes_length 32 P.x)]
  rw [htake, beValue_beBytes, Nat.mod_eq_of_lt hlt]

/-- The root that a flag stands for. -/
def chooseRoot (y1 y2 : Nat) (flag : UInt8) : Nat :=
  if flag = 0x00 ∧ y1 < y2 then y1
  else if flag = 0x01 ∧ y1 < y2 then y2
  else if flag = 0x00 then y2
  else y1

/-- The flag of a coordinate chooses it among the two roots. -/
theorem chooseRoot_rootFlag {y y1 : Nat} (hy : y < fieldPrime)
    (h : y1 = y ∨ y1 + y = fieldPrime) : chooseRoot y1 (fieldPrime - y1) (rootFlag y) = y := by
  have hodd : fieldPrime % 2 = 1 := by decide
  unfold chooseRoot rootFlag
  split_ifs <;> simp_all <;> omega

theorem chooseRoot_root (y1 y2 : Nat) (flag : UInt8) :
    chooseRoot y1 y2 flag = y1 ∨ chooseRoot y1 y2 flag = y2 := by
  unfold chooseRoot
  split_ifs <;> simp

/-- A root that was checked is the second coordinate of a point. -/
theorem exists_of_root {x y1 y2 : Nat} {flag : UInt8} (hx : x < fieldPrime)
    (hy : chooseRoot y1 y2 flag < fieldPrime) (hsum : y1 + y2 = fieldPrime)
    (h : y1 * y1 % fieldPrime = (x * x * x + 3) % fieldPrime) :
    ∃ P : AffinePoint, P.x = x ∧ P.y = chooseRoot y1 y2 flag := by
  refine ⟨⟨x, _, hx, hy, ?_⟩, rfl, rfl⟩
  rw [← h]
  apply square_of_root
  rcases chooseRoot_root y1 y2 flag with heq | heq
  · exact .inl heq
  · right
    rw [heq, Nat.add_comm, hsum]

end DirtybirdMiner.Bn256.Affine
